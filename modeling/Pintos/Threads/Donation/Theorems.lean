import Pintos.Threads.Donation.Contend

namespace Pintos.Threads.Kernel

open Lib List Thread

variable {k k1 k' s : Kernel} {t u w : ThreadRef} {lock : LockRef} {op : Op} {p : Int}

section

variable (h : k.DonationInv)
include h

theorem DonationInv.congr (ht : s.threads = k.threads) (hl : s.lists = k.lists)
    (ha : s.allList = k.allList) : s.DonationInv := by
  have hdonors : ∀ v, s.donors v = k.donors v := by
    intro v
    unfold donors
    rw [ht]
    congr 1
    funext lock
    unfold waitersOf
    rw [hl]
  have hpri : ∀ v, s.pri v = k.pri v := by
    intro v
    unfold pri
    rw [ht]
  constructor
  · intro v hv
    rw [hpri]
    refine (h.entitled v (ha ▸ hv)).transfer (by rw [ht]) (fun w => by rw [hdonors]) ?_
    exact fun w _ => hpri w
  · intro v hv hd
    rw [ht] at hd
    obtain ⟨w, hw, heq⟩ := h.supported v (ha ▸ hv) hd
    exact ⟨w, by rw [hdonors]; exact hw, by rw [hpri, hpri, heq]⟩
  · intro v hv
    rw [ht]
    exact h.priMin_le v (ha ▸ hv)

theorem DonationInv.setWaiters (hno : ∀ t ∈ k.allList, lock ∉ (k.threads t).acquiredLocks)
    (l : List ThreadRef) :
    (k.setList (.waiters (.ofLock lock)) l).DonationInv := by
  have hdonors : ∀ v ∈ k.allList, ∀ w,
      w ∈ (k.setList (.waiters (.ofLock lock)) l).donors v ↔ w ∈ k.donors v := by
    intro v hv w
    rw [mem_donors, mem_donors]
    have hsame : ∀ other ∈ (k.threads v).acquiredLocks,
        (k.setList (.waiters (.ofLock lock)) l).waitersOf other = k.waitersOf other := by
      intro other hm
      have hne : other ≠ lock := by
        rintro rfl
        exact hno v hv hm
      simp [waitersOf, hne]
    constructor
    · rintro ⟨other, hm, hw⟩
      exact ⟨other, hm, by rwa [hsame other hm] at hw⟩
    · rintro ⟨other, hm, hw⟩
      exact ⟨other, hm, by rwa [hsame other hm]⟩
  refine ⟨?_, ?_, h.priMin_le⟩
  · intro v hv
    exact (h.entitled v hv).transfer rfl (hdonors v hv) fun _ _ => rfl
  · intro v hv hd
    obtain ⟨w, hw, heq⟩ := h.supported v hv hd
    exact ⟨w, (hdonors v hv w).mpr hw, heq⟩

-- lock_release, and the kernel's own critical sections, set the caller's
-- priority from the locks left to it. `s` is the state they read.
theorem DonationInv.restore {x : Thread} (hq : k.QueueInv) (hl : s.lists = k.lists)
    (hp : ∀ t, (s.threads t).priority = (k.threads t).priority)
    (ho : (s.threads k.current).originalPriority = x.originalPriority)
    (ha : (s.threads k.current).acquiredLocks = x.acquiredLocks)
    (hx : x.originalPriority = (k.threads k.current).originalPriority)
    (hpri : x.priority = s.restoredPriority k.current)
    (hdon : x.donated = decide (x.originalPriority < x.priority)) :
    (k.setThread k.current fun _ => x).DonationInv := by
  have hwait : ∀ lock, k.current ∉ k.waitersOf lock := fun _ => hq.not_waiting
  have hsp : s.pri = k.pri := funext hp
  have hsw : ∀ lock, s.waitersOf lock = k.waitersOf lock := by
    intro lock
    unfold waitersOf
    rw [hl]
  have hmin : priMin ≤ x.originalPriority := by
    rw [hx]
    exact h.priMin_le _ hq.current_mem_allList
  obtain ⟨hent, hsup⟩ := restoredPriority_entitled (k := s) (t := k.current)
    (fun lock _ => by rw [hsw, hsp]; exact hq.queues.sorted _ (by simp))
    (fun lock _ => by rw [hsw]; exact hwait lock) (by rw [ho]; exact hmin)
  have hdonors : (k.setThread k.current fun _ => x).donors k.current = s.donors k.current := by
    unfold donors
    rw [setThread_threads_self, ha]
    congr 1
    funext lock
    exact (hsw lock).symm
  rw [← hpri] at hent
  refine h.setThread hwait ?_ ?_ ?_ ?_ hmin
  · rw [← ho]
    exact hent.original
  · rw [hdonors, ← hsp]
    exact hent.donors
  · rw [hdonors, ← hsp, ← ho]
    exact hent.attained
  · intro hd
    rw [hdon, decide_eq_true_eq, hpri, ← ho] at hd
    rw [hdonors, ← hsp, hpri]
    exact hsup hd

theorem DonationInv.withLock {oldLevel : IntrLevel} (hq : k.QueueInv) (hm : k.mlfqs = false)
    (hl : k.withLock oldLevel lock = .ok k') : k'.DonationInv := by
  obtain ⟨_, _, x, hx, rfl⟩ := withLock_ok hl
  obtain ⟨s, hlists, hpri, ho, ha, hp, hd⟩ := hx.restored hm
  exact (h.restore hq hlists hpri ho ha hx.originalPriority hp hd).congr rfl rfl rfl

theorem DonationInv.release (hq : k.QueueInv) (hl : k.LockInv) (hm : k.mlfqs = false)
    (ho : k.lockReleaseOwner lock = .ok k') :
    (k'.wakeTop lock).DonationInv := by
  have hown := hl.ownership.lockReleaseOwner hq.current_mem_allList ho
  obtain ⟨_, x, hx, rfl⟩ := lockReleaseOwner_ok ho
  obtain ⟨hp, hd⟩ := hx.restored hm
  have hrel : (k.setThread k.current fun _ => x).DonationInv := by
    refine h.restore hq (s := k.setThread k.current (.setAcquiredLocks
      ((k.threads k.current).acquiredLocks.erase lock))) rfl ?_ ?_ ?_ hx.originalPriority hp hd
    · exact setThread_field priority _ rfl
    · rw [setThread_threads_self, hx.originalPriority]
      rfl
    · rw [setThread_threads_self, hx.acquiredLocks]
      rfl
  have hfree : (((k.setThread k.current fun _ => x).setHolder lock none).setValue (.ofLock lock)
      (((k.setThread k.current fun _ => x).setHolder lock none).value (.ofLock lock) +
        1)).DonationInv := hrel.congr rfl rfl rfl
  refine hfree.setWaiters ?_ _
  intro t ht hmem
  have := hown.acquired t ht lock hmem
  simp at this

theorem DonationInv.initThread (hw : ∀ lock, t ∉ k.waitersOf lock)
    (hi : k.initThread t p = .ok k') : k'.DonationInv := by
  obtain ⟨_, _, hl, hlists, _, _, _, _, _, hother, _, hacq, hdon, hpri, hmin⟩ := initThread_ok hi
  have hwaiters : ∀ lock, k'.waitersOf lock = k.waitersOf lock := by
    intro lock
    unfold waitersOf
    rw [hlists]
  have hnew : k'.donors t = [] := by
    unfold donors
    rw [hacq]
    rfl
  have hdonors : ∀ v, v ≠ t → ∀ w, w ∈ k'.donors v ↔ w ∈ k.donors v := by
    intro v hv w
    rw [mem_donors, mem_donors, hother v hv]
    simp only [hwaiters]
  have hkeep : ∀ v, v ≠ t → k'.pri v = k.pri v := by
    intro v hv
    unfold pri
    rw [hother v hv]
  have hdne : ∀ v, ∀ w ∈ k.donors v, w ≠ t := by
    rintro v w hm rfl
    obtain ⟨lock, _, hm⟩ := mem_donors.mp hm
    exact hw lock hm
  have hsplit : ∀ v ∈ k'.allList, v = t ∨ v ≠ t ∧ v ∈ k.allList := by
    intro v hv
    by_cases hvt : v = t
    · exact .inl hvt
    · rw [hl] at hv
      exact .inr ⟨hvt, (mem_append.mp hv).resolve_right (by simpa using hvt)⟩
  constructor
  · intro v hv
    rcases hsplit v hv with rfl | ⟨hvt, hv⟩
    · refine ⟨hpri.ge, ?_, .inl hpri⟩
      rw [hnew]
      exact nofun
    · rw [hkeep v hvt]
      exact (h.entitled v hv).transfer (by rw [hother v hvt]) (hdonors v hvt)
        fun w hm => hkeep w (hdne v w hm)
  · intro v hv hd
    rcases hsplit v hv with rfl | ⟨hvt, hv⟩
    · rw [hdon] at hd
      cases hd
    · rw [hother v hvt] at hd
      obtain ⟨w, hm, heq⟩ := h.supported v hv hd
      exact ⟨w, (hdonors v hvt w).mpr hm, by rw [hkeep w (hdne v w hm), hkeep v hvt, heq]⟩
  · intro v hv
    rcases hsplit v hv with rfl | ⟨hvt, hv⟩
    · exact hmin
    · rw [hother v hvt]
      exact h.priMin_le v hv

end

theorem setOwnPriority_ok (k : Kernel) (t : ThreadRef) (p : Int) :
    ∃ x : Thread, k.setOwnPriority t p = (k.setThread t fun _ => x) ∧ x.originalPriority = p ∧
      x.acquiredLocks = (k.threads t).acquiredLocks ∧
      (((k.threads t).donated = true ∧ p ≤ (k.threads t).priority ∧
          x.priority = (k.threads t).priority) ∨
        (((k.threads t).donated = false ∨ (k.threads t).priority < p) ∧ x.priority = p ∧
          x.donated = false)) := by
  unfold setOwnPriority
  simp only [setThread_threads_self, setOriginalPriority_donated,
    setOriginalPriority_priority, setThread_setThread]
  split_ifs with hd hlt
  · exact ⟨_, rfl, rfl, rfl, .inr ⟨.inr hlt, rfl, rfl⟩⟩
  · exact ⟨_, rfl, rfl, rfl, .inl ⟨hd, not_lt.mp hlt, rfl⟩⟩
  · exact ⟨_, rfl, rfl, rfl, .inr ⟨.inl (by simpa using hd), rfl, by simpa using hd⟩⟩

theorem DonationInv.setOwnPriority (h : k.DonationInv) (hq : k.QueueInv) (hmin : priMin ≤ p)
    (hd : (k.threads k.current).donated = false → ∀ w ∈ k.donors k.current, k.pri w ≤ p) :
    (k.setOwnPriority k.current p).DonationInv := by
  have hwait : ∀ lock, k.current ∉ k.waitersOf lock := fun _ => hq.not_waiting
  have hcur := hq.current_mem_allList
  obtain ⟨x, heq, horig, hacq, hcase⟩ := setOwnPriority_ok k k.current p
  rw [heq]
  have hdonors : (k.setThread k.current fun _ => x).donors k.current = k.donors k.current := by
    unfold donors
    rw [setThread_threads_self, hacq]
    rfl
  have hbound : ∀ w ∈ k.donors k.current, k.pri w ≤ x.priority := by
    intro w hw
    have hold := (h.entitled _ hcur).donors w hw
    rcases hcase with ⟨_, _, hx⟩ | ⟨hlow | hlt, hx, _⟩
    · exact hx ▸ hold
    · exact hx ▸ hd hlow w hw
    · exact hx ▸ hold.trans hlt.le
  refine h.setThread hwait ?_ (hdonors ▸ hbound) ?_ ?_ (by rw [horig]; exact hmin)
  · rw [horig]
    rcases hcase with ⟨_, hle, hx⟩ | ⟨_, hx, _⟩
    · exact hx ▸ hle
    · exact hx.ge
  · rw [horig, hdonors]
    rcases hcase with ⟨hdon, _, hx⟩ | ⟨_, hx, _⟩
    · exact .inr (hx ▸ h.supported _ hcur hdon)
    · exact .inl hx
  · intro hxd
    rw [hdonors]
    rcases hcase with ⟨hdon, _, hx⟩ | ⟨_, _, hfalse⟩
    · exact hx ▸ h.supported _ hcur hdon
    · rw [hfalse] at hxd
      cases hxd

theorem DonationInv.giveLock (h : k.DonationInv) (hwait : ∀ other, t ∉ k.waitersOf other)
    (ht : t ∈ k.allList) (hw : ∀ w ∈ k.waitersOf lock, k.pri w ≤ k.pri t) (n : Nat) :
    ((k.setValue (.ofLock lock) n).giveLock lock t).DonationInv := by
  have hent := h.entitled t ht
  generalize hx : setAcquiredLocks ((k.threads t).acquiredLocks ++ [lock])
    (setWaitingForTlock none (k.threads t)) = x
  have hpx : x.priority = k.pri t := by rw [← hx]; rfl
  have hox : x.originalPriority = (k.threads t).originalPriority := by rw [← hx]; rfl
  have hdx : x.donated = (k.threads t).donated := by rw [← hx]; rfl
  have hdonors : ∀ w, w ∈ (k.setThread t fun _ => x).donors t ↔
      w ∈ k.donors t ∨ w ∈ k.waitersOf lock := by
    intro w
    rw [mem_donors, mem_donors, setThread_threads_self, ← hx]
    constructor
    · rintro ⟨other, hm, hw⟩
      rcases mem_append.mp hm with hm | hm
      · exact .inl ⟨other, hm, hw⟩
      · obtain rfl := mem_singleton.mp hm
        exact .inr hw
    · rintro (⟨other, hm, hw⟩ | hw)
      · exact ⟨other, mem_append_left _ hm, hw⟩
      · exact ⟨lock, mem_append_right _ (mem_singleton_self lock), hw⟩
  have hinv : (k.setThread t fun _ => x).DonationInv := by
    refine h.setThread hwait ?_ ?_ ?_ ?_ (by rw [hox]; exact h.priMin_le t ht)
    · rw [hox, hpx]
      exact hent.original
    · intro w hm
      rw [hpx]
      rcases (hdonors w).mp hm with hm | hm
      · exact hent.donors w hm
      · exact hw w hm
    · rw [hox, hpx]
      rcases hent.attained with heq | ⟨w, hm, heq⟩
      · exact .inl heq
      · exact .inr ⟨w, (hdonors w).mpr (.inl hm), heq⟩
    · intro hd
      obtain ⟨w, hm, heq⟩ := h.supported t ht (hdx ▸ hd)
      exact ⟨w, (hdonors w).mpr (.inl hm), by rw [hpx, heq]⟩
  unfold Kernel.giveLock
  rw [setThread_setThread]
  refine hinv.congr ?_ rfl rfl
  rw [← hx]
  rfl

-- The steps after which donation still gives every thread what it is entitled
-- to. A thread sets its priority below that of its waiters only while it runs on
-- a donated one; a lock is taken from under waiters, or waited for again, only by
-- a thread that needs no donation or has none to give; and a walk over links that
-- name the present holders stops before the ninth thread.
def keepsDonation (k : Kernel) (op : Op) : Bool :=
  k.exitsClean op &&
  (match k.lockTaken op with
    | some lock => (k.waitersOf lock).all fun w => decide (k.pri w ≤ k.pri k.current)
    | none => true) &&
  (match op with
    | .threadSetNice _ => false
    | .threadSetPriority p =>
      decide (priMin ≤ p) && ((k.threads k.current).donated ||
        (k.donors k.current).all fun w => decide (k.pri w ≤ p))
    | .lockAcquire lock =>
      k.value (.ofLock lock) ≠ 0 ||
        (decide ((k.donationVisits lock).length < maxDonations) &&
          (k.donationVisits lock).all fun r =>
            (k.threads r).waitingForTlock = k.holderAhead r)
    | .resume =>
      match k.lockAwaited op with
      | some lock => (k.holder lock).all fun h => decide (k.pri k.current ≤ k.pri h)
      | none => true
    | _ => true)

theorem exitsClean_of_keepsDonation (h : k.keepsDonation op = true) : k.exitsClean op = true := by
  simp only [keepsDonation, Bool.and_eq_true] at h
  exact h.1.1

theorem DonationInv.step (h : k.DonationInv) (hq : k.QueueInv) (hl : k.LockInv)
    (hm : k.mlfqs = false) (hg : k.keepsDonation op = true) (hs : k.LockStep op k') :
    k'.DonationInv := by
  simp only [keepsDonation, Bool.and_eq_true] at hg
  obtain ⟨⟨_, htake⟩, hrest⟩ := hg
  have hcur := hq.current_mem_allList
  cases hs with
  | quiet hf => exact h.frame hf
  | recompute hop _ =>
    rcases hop with hmt | ⟨nice, rfl⟩
    · rw [hm] at hmt
      cases hmt
    · cases hrest
  | setPriority _ hf =>
    simp only [Bool.and_eq_true, Bool.or_eq_true, decide_eq_true_eq, all_eq_true] at hrest
    refine (h.setOwnPriority hq hrest.1 ?_).frame hf
    intro hd
    exact hrest.2.resolve_left (by simp [hd])
  | take _ hop hv hf =>
    simp only [hop, all_eq_true, decide_eq_true_eq] at htake
    refine (h.frame hf).giveLock ?_ (hf.allList ▸ hcur) ?_ _
    · intro other hmem
      exact hq.not_waiting ((hf.waiters other _).mp hmem)
    · intro w hw
      change (_ : Thread).priority ≤ (_ : Thread).priority
      rw [hf.priority, hf.priority]
      exact htake w ((hf.waiters _ w).mp hw)
  | contend _ hv _ hd hf =>
    simp only [hv, ne_eq, not_true_eq_false, decide_false, Bool.false_or, Bool.and_eq_true,
      decide_eq_true_eq, all_eq_true] at hrest
    exact (h.contend (contended_of_donate hq hl hm hd hrest.1 hrest.2)).frame hf
  | @requeue lock _ _ hr hv hf =>
    simp only [lockAwaited, hr, hv, if_true] at hrest
    refine (h.joinWaiters ?_).frame hf
    intro v hv' hmem
    rw [hl.ownership.acquired v hv' lock hmem] at hrest
    simpa using hrest
  | release _ ho hf => exact (h.release hq hl hm ho).frame hf
  | noMemory hw => exact h.withLock hq hm hw
  | @create _ t _ k1 k2 k3 _ _ hfree h1 h2 hn hq3 _ h3 hf =>
    have hlive : k1.live t = false := (withLock_frame h1).2.1 ▸ hfree
    have habs : ∀ other, t ∉ k1.waitersOf other := by
      intro other hmem
      rw [((hq.withLock h1).queues.member _ t hmem).1] at hlive
      cases hlive
    have hm1 : k1.mlfqs = false := by
      obtain ⟨_, _, x, _, rfl⟩ := withLock_ok h1
      exact hm
    have hm3 : k3.mlfqs = false := by
      obtain ⟨_, _, _, _, _, hm2, _⟩ := initThread_ok h2
      rw [hn.mlfqs, hm2, hm1]
    have h2' := (h.withLock hq hm h1).initThread habs h2
    exact ((h2'.frame hn).withLock hq3 hm3 h3).frame hf
  | exit hf _ =>
    have hmem : ∀ {v}, v ∈ k.allList.erase k.current → v ∈ k.allList := mem_of_mem_erase
    have hleft : ((k.setLive k'.live).setAllList (k.allList.erase k.current)).DonationInv :=
      ⟨fun v hv => ⟨(h.entitled v (hmem hv)).original, (h.entitled v (hmem hv)).donors,
        (h.entitled v (hmem hv)).attained⟩, fun v hv => h.supported v (hmem hv),
        fun v hv => h.priMin_le v (hmem hv)⟩
    exact hleft.frame hf

theorem Quiescent.donationInv (h : k.Quiescent) : k.DonationInv := by
  have hnone : ∀ t, k.donors t = [] := by
    intro t
    unfold donors
    rw [h.acquiredLocks]
    rfl
  refine ⟨fun t _ => ?_, fun t _ hd => ?_, fun t _ => h.priMin_le t⟩
  · have hp : k.pri t = (k.threads t).originalPriority := h.priority t
    refine ⟨hp.ge, ?_, .inl hp⟩
    rw [hnone]
    exact nofun
  · rw [h.donated] at hd
    cases hd

theorem donationInv_of_reachable
    (h : (system false).ReachableVia (fun k op => k.keepsDonation op = true) k) :
    k.DonationInv := by
  apply h.invariant
  · rintro k ⟨semaInit, hb⟩
    exact (boot_quiescent hb).donationInv
  · intro k op k' hr hk hg hs
    exact hk.step (queueInv_of_reachable hr.reachable)
      (lockInv_of_reachable (fun _ _ => exitsClean_of_keepsDonation) hr)
      (config_of_reachable hr.reachable).1 hg (step_lockStep hr.reachable hs)

theorem priority_donation
    (h : (system false).ReachableVia (fun k op => k.keepsDonation op = true) k) :
    ∀ t ∈ k.allList, (k.threads t).priority = k.entitledPriority t := by
  intro t ht
  exact ((donationInv_of_reachable h).entitled t ht).unique (entitledPriority_entitled k t)

-- Thread 3 waits for the lock of thread 2, which waits for main's: main runs at
-- the priority of thread 3.
theorem priority_donation_nested :
    ∃ k, (system false).ReachableVia (fun k op => k.keepsDonation op = true) k ∧
      k.donors mainThread = [2] ∧ k.donors 2 = [3] ∧ (k.threads mainThread).priority = 50 ∧
      k.entitledPriority mainThread = 50 := by
  obtain ⟨k, hk, hp⟩ := leadsTo_reachable false keepsDonation
    [.resume, .lockAcquire (.user 0), .threadCreate .on (some 2) 40, .lockAcquire (.user 1),
      .lockAcquire (.user 0), .threadCreate .on (some 3) 50, .lockAcquire (.user 1)]
    (fun k => decide (mainThread ∈ k.allList ∧ k.donors mainThread = [2] ∧ k.donors 2 = [3] ∧
      (k.threads mainThread).priority = 50)) (by decide +kernel)
  obtain ⟨hm, h2, h3, hp⟩ := of_decide_eq_true hp
  exact ⟨k, hk, h2, h3, hp, priority_donation hk mainThread hm ▸ hp⟩

-- Thread 2 waits for main's lock, but main has raised its priority above it and
-- lowered it again.
theorem holder_lowered_below_waiter :
    ∃ k, (system false).Reachable k ∧ mainThread ∈ k.allList ∧ k.donors mainThread = [2] ∧
      (k.threads 2).priority = 40 ∧ (k.threads mainThread).priority = 31 ∧
      k.entitledPriority mainThread = 40 := by
  obtain ⟨k, hk, hp⟩ := leadsTo_reachable false (fun _ _ => true)
    [.resume, .lockAcquire (.user 0), .threadCreate .on (some 2) 40, .lockAcquire (.user 0),
      .threadSetPriority 50, .threadSetPriority 31]
    (fun k => decide (mainThread ∈ k.allList ∧ k.donors mainThread = [2] ∧
      (k.threads 2).priority = 40 ∧ (k.threads mainThread).priority = 31 ∧
      k.entitledPriority mainThread = 40)) (by decide +kernel)
  exact ⟨k, hk.reachable, of_decide_eq_true hp⟩

theorem lockReleaseOwner_returns (hcur : k.threadCurrent = .ok t)
    (hheld : k.holder lock = some t) : ∃ k', k.lockReleaseOwner lock = .ok k' := by
  unfold lockReleaseOwner
  rw [hcur]
  simp only [bind, Except.bind, assert, if_pos hheld]
  exact ⟨_, rfl⟩

-- The thread as lock_release leaves it when it enables interrupts. It runs, so it waits for
-- none of its locks.
theorem lock_release_recomputes_priority (k : Kernel) (t : ThreadRef) (lock : LockRef)
    (hm : k.mlfqs = false) (hcur : k.threadCurrent = .ok t) (hheld : k.holder lock = some t)
    (hmem : lock ∈ (k.threads t).acquiredLocks) (hnodup : (k.threads t).acquiredLocks.Nodup)
    (hrun : ∀ other ∈ (k.threads t).acquiredLocks, t ∉ k.waitersOf other)
    (hsorted : ∀ other ∈ (k.threads t).acquiredLocks,
      PriorityQueue.Descending k.pri (k.waitersOf other))
    (hmin : priMin ≤ (k.threads t).originalPriority) :
    ∃ k', k.lockReleaseOwner lock = .ok k' ∧
      (k'.threads t).priority = k'.entitledPriority t ∧
      ((k'.threads t).donated = true ↔ (k.threads t).originalPriority < (k'.threads t).priority) ∧
      (k'.threads t).originalPriority = (k.threads t).originalPriority ∧
      (∀ other, other ∈ (k'.threads t).acquiredLocks ↔
        other ∈ (k.threads t).acquiredLocks ∧ other ≠ lock) ∧
      ∀ u ≠ t, k'.threads u = k.threads u := by
  obtain ⟨k', ho⟩ := lockReleaseOwner_returns hcur hheld
  obtain ⟨-, -, rfl⟩ := threadCurrent_ok_iff.mp hcur
  obtain ⟨-, x, hx, rfl⟩ := lockReleaseOwner_ok ho
  obtain ⟨hp, hd⟩ := hx.restored hm
  set s := k.setThread k.current
    (.setAcquiredLocks ((k.threads k.current).acquiredLocks.erase lock)) with hs
  have hacq : (s.threads k.current).acquiredLocks =
      (k.threads k.current).acquiredLocks.erase lock := by simp [hs]
  have horig : (s.threads k.current).originalPriority =
      (k.threads k.current).originalPriority := by simp [hs]
  have hpri : s.pri = k.pri := funext fun u => pri_setThread _ rfl u
  obtain ⟨hent, -⟩ := restoredPriority_entitled (k := s) (t := k.current)
    (fun other hl => hpri ▸ hsorted other (mem_of_mem_erase (hacq ▸ hl)))
    (fun other hl => hrun other (mem_of_mem_erase (hacq ▸ hl))) (horig ▸ hmin)
  have hself : ((k.setThread k.current fun _ => x).setHolder lock none).threads k.current = x := by
    simp
  have hother : ∀ u ≠ k.current,
      ((k.setThread k.current fun _ => x).setHolder lock none).threads u = k.threads u := by
    intro u hu
    simp [hu]
  have hdonors : ((k.setThread k.current fun _ => x).setHolder lock none).donors k.current =
      s.donors k.current := by
    unfold donors
    rw [hself, hacq, hx.acquiredLocks]
    rfl
  refine ⟨_, ho, ?_, ?_, ?_, fun other => ?_, hother⟩
  · rw [hself, hp]
    refine Entitled.unique (hent.transfer ?_ (fun w => by rw [hdonors]) fun w hw => ?_)
      (entitledPriority_entitled _ _)
    · rw [hself, horig, hx.originalPriority]
    · obtain ⟨other, hl, hw⟩ := mem_donors.mp hw
      have hne : w ≠ k.current := by
        rintro rfl
        exact hrun other (mem_of_mem_erase (hacq ▸ hl)) hw
      rw [hpri]
      exact congrArg Thread.priority (hother w hne)
  · rw [hself, hd, decide_eq_true_eq, hx.originalPriority]
  · rw [hself, hx.originalPriority]
  · rw [hself, hx.acquiredLocks, hnodup.mem_erase_iff, and_comm]

-- Thread 2 waits for main's lock 1 while main releases lock 0.
theorem lock_release_recomputes_priority_donated :
    ∃ k k', (system false).Reachable k ∧ k.waitersOf (.user 1) = [2] ∧
      k.lockReleaseOwner (.user 0) = .ok k' ∧ LockRef.user 1 ∈ (k'.threads mainThread).acquiredLocks ∧
      (k'.threads mainThread).priority = k'.entitledPriority mainThread := by
  obtain ⟨k, hk, hp⟩ := leadsTo_reachable false (fun _ _ => true)
    [.resume, .lockAcquire (.user 0), .lockAcquire (.user 1), .threadCreate .on (some 2) 40,
      .lockAcquire (.user 1)]
    (fun k => decide (k.mlfqs = false ∧ k.live k.current = true ∧
      (k.threads k.current).status = .running ∧ k.current = mainThread ∧
      k.holder (.user 0) = some mainThread ∧
      (k.threads mainThread).acquiredLocks = [.user 0, .user 1] ∧
      k.waitersOf (.user 0) = [] ∧ k.waitersOf (.user 1) = [2] ∧
      priMin ≤ (k.threads mainThread).originalPriority)) (by decide +kernel)
  obtain ⟨hm, hlive, hrun, hcur, hheld, hacq, h0, h1, hmin⟩ := of_decide_eq_true hp
  have hwaiters : ∀ other ∈ (k.threads mainThread).acquiredLocks,
      mainThread ∉ k.waitersOf other ∧ PriorityQueue.Descending k.pri (k.waitersOf other) := by
    intro other hl
    rw [hacq] at hl
    rcases mem_cons.mp hl with rfl | hl
    · rw [h0]
      exact ⟨by decide, List.Pairwise.nil⟩
    · obtain rfl := mem_singleton.mp hl
      rw [h1]
      exact ⟨by decide, pairwise_singleton _ _⟩
  obtain ⟨k', hrel, hpri, -, -, hkept, -⟩ := lock_release_recomputes_priority k mainThread
    (.user 0) hm (threadCurrent_ok_iff.mpr ⟨hlive, hrun, hcur⟩) hheld (by simp [hacq])
    (by simp [hacq]) (fun other hl => (hwaiters other hl).1) (fun other hl => (hwaiters other hl).2)
    hmin
  exact ⟨k, k', hk.reachable, h1, hrel, (hkept _).mpr ⟨by simp [hacq], by decide⟩, hpri⟩

-- thread_set_priority takes a priority below PRI_MIN; with another lock held, for which nobody
-- waits, lock_release then raises it to PRI_MIN and calls it donated.
theorem lock_release_raises_below_minimum :
    ∃ k k', (system false).Reachable k ∧ k.lockReleaseOwner (.user 0) = .ok k' ∧
      (k'.threads mainThread).acquiredLocks = [.user 1] ∧ k'.waitersOf (.user 1) = [] ∧
      (k'.threads mainThread).originalPriority = -1 ∧ k'.entitledPriority mainThread = -1 ∧
      (k'.threads mainThread).priority = 0 ∧ (k'.threads mainThread).donated = true := by
  obtain ⟨k, hk, hp⟩ := leadsTo_reachable false (fun _ _ => true)
    [.resume, .lockAcquire (.user 0), .lockAcquire (.user 1), .threadSetPriority (-1)]
    (fun k => (k.lockReleaseOwner (.user 0)).toOption.any fun k' : Kernel =>
      decide ((k'.threads mainThread).acquiredLocks = [.user 1] ∧
        k'.waitersOf (.user 1) = [] ∧ (k'.threads mainThread).originalPriority = -1 ∧
        k'.entitledPriority mainThread = -1 ∧ (k'.threads mainThread).priority = 0 ∧
        (k'.threads mainThread).donated = true)) (by decide +kernel)
  cases hrel : k.lockReleaseOwner (.user 0) with
  | ok k' =>
    rw [hrel] at hp
    exact ⟨k, k', hk.reachable, hrel, of_decide_eq_true hp⟩
  | error _ =>
    rw [hrel] at hp
    cases hp

end Pintos.Threads.Kernel
