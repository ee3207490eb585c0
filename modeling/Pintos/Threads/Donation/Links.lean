import Pintos.Threads.Donation.Path

namespace Pintos.Threads.Kernel

variable {k k1 k' : Kernel} {t u : ThreadRef} {lock : LockRef} {op : Op} {mlfqs : Bool}

def blockedOn (k : Kernel) (t : ThreadRef) : Option LockRef :=
  match (k.threads t).threadPl with
  | some (.waiters (.ofLock lock)) => some lock
  | _ => none

def holderAhead (k : Kernel) (t : ThreadRef) : Option ThreadRef := (k.blockedOn t).bind k.holder

def linkAhead (k : Kernel) (t : ThreadRef) : Option ThreadRef := (k.threads t).waitingForTlock

def follow (next : ThreadRef → Option ThreadRef) : Nat → Option ThreadRef → List ThreadRef
  | 0, _ => []
  | _ + 1, none => []
  | n + 1, some t => t :: follow next n (next t)

-- The links agree with the holders as far as a step can tell: a lock is taken
-- only when those who wait for it already name the taker, a woken thread goes
-- back to the queue only when its link names the present holder, and a lock is
-- released only when no thread that waits for it holds a lock.
def keepsLinks (k : Kernel) (op : Op) : Bool :=
  k.exitsClean op &&
  (match k.lockTaken op with
    | some lock => (k.waitersOf lock).all fun w => (k.threads w).waitingForTlock = some k.current
    | none => true) &&
  (match op with
    | .resume =>
      match k.lockAwaited op with
      | some lock => (k.threads k.current).waitingForTlock = k.holder lock
      | none => true
    | .lockRelease _ lock => (k.waitersOf lock).all fun w => (k.threads w).acquiredLocks = []
    | _ => true)

structure LinkInv (k : Kernel) : Prop where
  waiting : ∀ lock t h, t ∈ k.waitersOf lock → k.holder lock = some h →
    (k.threads t).waitingForTlock = some h
  owner : ∀ t ∈ k.allList, (k.threads t).acquiredLocks ≠ [] →
    ∀ h, (k.threads t).waitingForTlock = some h →
      ∃ lock, t ∈ k.waitersOf lock ∧ k.holder lock = some h

theorem LinkInv.frame (h : k.LinkInv) (hf : k.LockFrame k') : k'.LinkInv := by
  constructor
  · intro lock t x ht hx
    rw [hf.waitingForTlock]
    exact h.waiting lock t x ((hf.waiters lock t).mp ht) (hf.holder ▸ hx)
  · intro t ht ha x hx
    rw [hf.acquiredLocks] at ha
    rw [hf.waitingForTlock] at hx
    obtain ⟨lock, hm, hh⟩ := h.owner t (hf.allList ▸ ht) ha x hx
    exact ⟨lock, (hf.waiters lock t).mpr hm, hf.holder ▸ hh⟩

theorem QueueInv.not_waiting (h : k.QueueInv) : k.current ∉ k.waitersOf lock := h.absent _

theorem LinkInv.giveLock (h : k.LinkInv) (ht : ∀ other, t ∉ k.waitersOf other)
    (hn : k.holder lock = none)
    (hw : ∀ w ∈ k.waitersOf lock, (k.threads w).waitingForTlock = some t) (n : Nat) :
    ((k.setValue (.ofLock lock) n).giveLock lock t).LinkInv := by
  constructor
  · intro other u x hu hx
    have hut : u ≠ t := by
      rintro rfl
      exact ht other hu
    have hlink : (k.threads u).waitingForTlock = some x := by
      by_cases ho : other = lock
      · subst ho
        have hxt : t = x := by simpa [Kernel.giveLock] using hx
        rw [← hxt]
        exact hw u hu
      · exact h.waiting other u x hu (by simpa [Kernel.giveLock, ho] using hx)
    simpa [Kernel.giveLock, hut] using hlink
  · intro u hu ha x hx
    have hut : u ≠ t := by
      rintro rfl
      simp [Kernel.giveLock] at hx
    obtain ⟨other, hm, hh⟩ := h.owner u hu (by simpa [Kernel.giveLock, hut] using ha) x
      (by simpa [Kernel.giveLock, hut] using hx)
    have ho : other ≠ lock := by
      rintro rfl
      rw [hn] at hh
      cases hh
    exact ⟨other, hm, by simpa [Kernel.giveLock, ho] using hh⟩

theorem mem_joinWaiters {other : LockRef} : u ∈ (k.joinWaiters lock t).waitersOf other ↔
      (other = lock ∧ u = t) ∨ u ∈ k.waitersOf other := by
  unfold joinWaiters waitersOf
  rw [mem_listInsertOrdered]
  simp

theorem LockFrame.joinWaiters (hf : k.LockFrame k') (lock : LockRef) (t : ThreadRef) :
    (k.joinWaiters lock t).LockFrame (k'.joinWaiters lock t) where
  mlfqs := hf.mlfqs
  idleThread := hf.idleThread
  live := hf.live
  allList := hf.allList
  holder := hf.holder
  value := hf.value
  waiters other u := by rw [mem_joinWaiters, mem_joinWaiters, hf.waiters]
  waitingForTlock := hf.waitingForTlock
  acquiredLocks := hf.acquiredLocks
  resume := hf.resume

section

variable (h : k.LinkInv)
include h

theorem LinkInv.joinWaiters
    (hlink : ∀ x, k.holder lock = some x → (k.threads t).waitingForTlock = some x) :
    (k.joinWaiters lock t).LinkInv := by
  constructor
  · intro other u x hu hx
    rcases mem_joinWaiters.mp hu with ⟨rfl, rfl⟩ | hu
    · exact hlink x hx
    · exact h.waiting other u x hu hx
  · intro u hu ha x hx
    obtain ⟨other, hm, hh⟩ := h.owner u hu ha x hx
    exact ⟨other, mem_joinWaiters.mpr (.inr hm), hh⟩

theorem LinkInv.contend {holder : ThreadRef} (ht : ∀ other, t ∉ k.waitersOf other)
    (hh : k.holder lock = some holder) :
    ((k.setThread t (.setWaitingForTlock (some holder))).joinWaiters lock t).LinkInv := by
  constructor
  · intro other u x hu hx
    rcases mem_joinWaiters.mp hu with ⟨rfl, rfl⟩ | hu
    · have hx' : k.holder other = some x := hx
      rw [hh] at hx'
      change ((k.setThread u (.setWaitingForTlock (some holder))).threads u).waitingForTlock = _
      rw [setThread_threads_self]
      exact hx'
    · have hut : u ≠ t := by
        rintro rfl
        exact ht other hu
      change ((k.setThread t (.setWaitingForTlock (some holder))).threads u).waitingForTlock = _
      rw [setThread_threads_ne _ _ hut]
      exact h.waiting other u x hu hx
  · intro u hu ha x hx
    change ((k.setThread t (.setWaitingForTlock (some holder))).threads u).waitingForTlock = _ at hx
    change ((k.setThread t (.setWaitingForTlock (some holder))).threads u).acquiredLocks ≠ _ at ha
    by_cases hut : u = t
    · subst hut
      rw [setThread_threads_self] at hx
      exact ⟨lock, mem_joinWaiters.mpr (.inl ⟨rfl, rfl⟩), hh.trans hx⟩
    · rw [setThread_threads_ne _ _ hut] at hx ha
      obtain ⟨other, hm, hho⟩ := h.owner u hu ha x hx
      exact ⟨other, mem_joinWaiters.mpr (.inr hm), hho⟩

theorem LinkInv.unhold {x : Thread} (ht : ∀ other, t ∉ k.waitersOf other)
    (hlink : x.acquiredLocks ≠ [] → x.waitingForTlock = none)
    (hfree : ∀ w ∈ k.waitersOf lock, (k.threads w).acquiredLocks = []) :
    ((k.setThread t fun _ => x).setHolder lock none).LinkInv := by
  constructor
  · intro other u y hu hy
    have hut : u ≠ t := by
      rintro rfl
      exact ht other hu
    have ho : other ≠ lock := by
      rintro rfl
      simp at hy
    have := h.waiting other u y hu (by simpa [ho] using hy)
    simpa [hut] using this
  · intro u hu ha y hy
    by_cases hut : u = t
    · subst hut
      simp only [setHolder_threads, setThread_threads_self] at ha hy
      rw [hlink ha] at hy
      cases hy
    · obtain ⟨other, hm, hh⟩ := h.owner u hu (by simpa [hut] using ha) y (by simpa [hut] using hy)
      have ho : other ≠ lock := by
        rintro rfl
        exact absurd (hfree u hm) (by simpa [hut] using ha)
      exact ⟨other, hm, by simpa [ho] using hh⟩

theorem LinkInv.wakeTop (hn : k.holder lock = none) : (k.wakeTop lock).LinkInv := by
  have hwaiters : ∀ other, other ≠ lock → (k.wakeTop lock).waitersOf other = k.waitersOf other := by
    intro other ho
    simp [Kernel.wakeTop, waitersOf, ho]
  constructor
  · intro other u x hu hx
    have ho : other ≠ lock := by
      rintro rfl
      rw [show (k.wakeTop other).holder other = k.holder other from rfl, hn] at hx
      cases hx
    exact h.waiting other u x (hwaiters other ho ▸ hu) hx
  · intro u hu ha x hx
    obtain ⟨other, hm, hh⟩ := h.owner u hu ha x hx
    have ho : other ≠ lock := by
      rintro rfl
      rw [hn] at hh
      cases hh
    exact ⟨other, (hwaiters other ho).symm ▸ hm, hh⟩

theorem LinkInv.withLock {oldLevel : IntrLevel} (hq : k.QueueInv)
    (hl : k.withLock oldLevel lock = .ok k') : k'.LinkInv := by
  obtain ⟨_, hnil, x, hx, rfl⟩ := withLock_ok hl
  refine h.unhold (fun _ => hq.not_waiting) (fun _ => hx.waitingForTlock) ?_
  intro w hw
  unfold waitersOf at hw
  rw [hnil] at hw
  cases hw

theorem LinkInv.initThread {p : Int} (ht : ∀ other, t ∉ k.waitersOf other)
    (hi : k.initThread t p = .ok k') : k'.LinkInv := by
  obtain ⟨hh, _, hl, hlists, _, _, _, _, _, hother, _, hacq, _⟩ := initThread_ok hi
  have hwaiters : ∀ other, k'.waitersOf other = k.waitersOf other := by
    intro other
    unfold waitersOf
    rw [hlists]
  constructor
  · intro other u x hu hx
    rw [hwaiters] at hu
    have hut : u ≠ t := by
      rintro rfl
      exact ht other hu
    rw [hother u hut]
    exact h.waiting other u x hu (hh ▸ hx)
  · intro u hu ha x hx
    have hut : u ≠ t := by
      rintro rfl
      exact ha hacq
    rw [hother u hut] at ha hx
    rw [hl] at hu
    have hold : u ∈ k.allList := (List.mem_append.mp hu).resolve_right (by simpa using hut)
    obtain ⟨other, hm, hho⟩ := h.owner u hold ha x hx
    exact ⟨other, (hwaiters other).symm ▸ hm, hh ▸ hho⟩

theorem LinkInv.release (hq : k.QueueInv) (ho : k.lockReleaseOwner lock = .ok k')
    (hw : ∀ w ∈ k.waitersOf lock, (k.threads w).acquiredLocks = []) :
    (k'.wakeTop lock).LinkInv := by
  obtain ⟨_, x, hx, rfl⟩ := lockReleaseOwner_ok ho
  refine LinkInv.wakeTop (h.unhold (fun _ => hq.not_waiting) ?_ hw) (by simp)
  intro ha
  -- an owner that runs waits for nobody
  rw [hx.waitingForTlock]
  by_contra hne
  obtain ⟨y, hy⟩ := Option.ne_none_iff_exists'.mp hne
  have hacq : (k.threads k.current).acquiredLocks ≠ [] := by
    intro hnil
    rw [hx.acquiredLocks, hnil] at ha
    exact ha rfl
  obtain ⟨other, hm, _⟩ := h.owner _ hq.current_mem_allList hacq y hy
  exact hq.not_waiting hm

theorem LinkInv.step (hq : k.QueueInv) (hl : k.LockInv) (hg : k.keepsLinks op = true)
    (hs : k.LockStep op k') : k'.LinkInv := by
  simp only [keepsLinks, Bool.and_eq_true] at hg
  obtain ⟨⟨_, htake⟩, hrest⟩ := hg
  cases hs with
  | quiet hf => exact h.frame hf.toLockFrame
  | recompute _ hf => exact h.frame hf
  | setPriority _ hf => exact (h.frame (setOwnPriority_frame k _)).frame hf.toLockFrame
  | take _ hop hv hf =>
    simp only [hop, List.all_eq_true, decide_eq_true_eq] at htake
    refine (h.frame hf.toLockFrame).giveLock ?_ ?_ ?_ _
    · intro other hm
      exact hq.not_waiting ((hf.waiters other _).mp hm)
    · rw [hf.holder]
      exact (hl.ownership.free hv).1
    · intro w hw
      rw [hf.waitingForTlock]
      exact htake w ((hf.waiters _ w).mp hw)
  | contend _ _ _ hd hf =>
    obtain ⟨holder, hh, _, hdon⟩ := lockAcquireDonate_frame hq hd
    have hc := h.contend (fun _ => hq.not_waiting) hh
    exact (hc.frame (hdon.joinWaiters _ _)).frame hf.toLockFrame
  | requeue _ hr hv hf =>
    simp only [lockAwaited, hr, hv, if_true, decide_eq_true_eq] at hrest
    refine (h.joinWaiters ?_).frame hf.toLockFrame
    intro x hx
    rw [hrest, hx]
  | release _ ho hf =>
    simp only [List.all_eq_true, decide_eq_true_eq] at hrest
    exact (h.release hq ho hrest).frame hf.toLockFrame
  | noMemory hw => exact h.withLock hq hw
  | @create _ t _ k1 _ _ _ _ hfree h1 h2 hn hq3 _ h3 hf =>
    have hlive : k1.live t = false := (withLock_frame h1).2.1 ▸ hfree
    have habs : ∀ other, t ∉ k1.waitersOf other := by
      intro other hm
      rw [((hq.withLock h1).queues.member _ t hm).1] at hlive
      cases hlive
    have h2' := (h.withLock hq h1).initThread habs h2
    exact ((h2'.frame hn.toLockFrame).withLock hq3 h3).frame hf.toLockFrame
  | exit hf _ =>
    have hleft : ((k.setLive k'.live).setAllList (k.allList.erase k.current)).LinkInv :=
      ⟨h.waiting, fun t ht => h.owner t (List.mem_of_mem_erase ht)⟩
    exact hleft.frame hf.toLockFrame

end

theorem Quiescent.linkInv (h : k.Quiescent) : k.LinkInv := by
  constructor
  · intro lock t x ht
    rw [h.waiters] at ht
    cases ht
  · intro t _ ha
    exact absurd (h.acquiredLocks t) ha

theorem linkInv_of_reachable
    (h : (system mlfqs).ReachableVia (fun k op => k.keepsLinks op = true) k) :
    k.LinkInv ∧ k.LockInv := by
  have hclean : ∀ (k : Kernel) (op : Op), k.keepsLinks op = true → k.exitsClean op = true := by
    intro k op hg
    simp only [keepsLinks, Bool.and_eq_true] at hg
    exact hg.1.1
  refine ⟨?_, lockInv_of_reachable hclean h⟩
  apply h.invariant
  · rintro k ⟨semaInit, hb⟩
    exact (boot_quiescent hb).linkInv
  · intro k op k' hr hk hg hs
    exact hk.step (queueInv_of_reachable hr.reachable) (lockInv_of_reachable hclean hr) hg
      (step_lockStep hr.reachable hs)

theorem blockedOn_iff (hq : k.QueueInv) (hv : k.live t = true) :
    k.blockedOn t = some lock ↔ t ∈ k.waitersOf lock := by
  have hpl := hq.queues.threadPl t hv (.waiters (.ofLock lock))
  simp only [ne_eq, reduceCtorEq, not_false_eq_true, true_and] at hpl
  change _ ↔ t ∈ k.lists _
  rw [← hpl]
  unfold blockedOn
  split
  · rename_i other hother
    rw [hother]
    simp
  · rename_i hother
    refine iff_of_false (by simp) ?_
    intro h
    exact hother lock h

-- An owner's link is the holder of the lock it is blocked on, and nothing when
-- it is blocked on none.
theorem LinkInv.linkAhead_eq (h : k.LinkInv) (hq : k.QueueInv) (ht : t ∈ k.allList)
    (ha : (k.threads t).acquiredLocks ≠ []) : k.linkAhead t = k.holderAhead t := by
  have hv := ((hq.allListed.2 t).mp ht).1
  apply Option.ext
  intro x
  unfold linkAhead holderAhead
  rw [Option.bind_eq_some_iff]
  constructor
  · intro hx
    obtain ⟨lock, hm, hh⟩ := h.owner t ht ha x hx
    exact ⟨lock, (blockedOn_iff hq hv).mpr hm, hh⟩
  · rintro ⟨lock, hb, hh⟩
    exact h.waiting lock t x ((blockedOn_iff hq hv).mp hb) hh

-- Following links and following holders meet the same threads, as each of them
-- owns the lock that the one before it waits for.
theorem LinkInv.follow_eq (h : k.LinkInv) (hq : k.QueueInv) (hl : k.LockInv) (n : Nat)
    (lock : LockRef) :
    follow k.linkAhead n (k.holder lock) = follow k.holderAhead n (k.holder lock) := by
  induction n generalizing lock with
  | zero => rfl
  | succ n ih =>
    cases hh : k.holder lock with
    | none => rfl
    | some t =>
      obtain ⟨hall, hm⟩ := hl.ownership.owner lock t hh
      have heq := h.linkAhead_eq hq hall (List.ne_nil_of_mem hm)
      unfold follow
      rw [heq]
      cases hb : k.blockedOn t with
      | none =>
        have hnone : k.holderAhead t = none := by simp [holderAhead, hb]
        rw [hnone]
        cases n <;> rfl
      | some other =>
        have hnext : k.holderAhead t = k.holder other := by simp [holderAhead, hb]
        rw [hnext, ih other]

theorem links_accurate
    (h : (system mlfqs).ReachableVia (fun k op => k.keepsLinks op = true) k) :
    (∀ t lock holder, t ∈ k.waitersOf lock → k.holder lock = some holder →
      (k.threads t).waitingForTlock = some holder ∧ k.live holder = true ∧
        (k.threads holder).status ≠ .dying) ∧
    ∀ n lock, follow k.linkAhead n (k.holder lock) = follow k.holderAhead n (k.holder lock) := by
  have hq := queueInv_of_reachable h.reachable
  obtain ⟨hlink, hlock⟩ := linkInv_of_reachable h
  refine ⟨?_, hlink.follow_eq hq hlock⟩
  intro t lock holder ht hh
  exact ⟨hlink.waiting lock t holder ht hh,
    (hq.allListed.2 holder).mp (hlock.ownership.owner lock holder hh).1⟩

-- Thread 3 waits for the lock of thread 2, which waits for main's.
theorem links_accurate_nested :
    ∃ k, (system false).ReachableVia (fun k op => k.keepsLinks op = true) k ∧
      3 ∈ k.waitersOf (.user 1) ∧ follow k.linkAhead 9 (k.holder (.user 1)) = [2, mainThread] ∧
      follow k.holderAhead 9 (k.holder (.user 1)) = [2, mainThread] := by
  obtain ⟨k, hk, hp⟩ := leadsTo_reachable false keepsLinks
    [.resume, .lockAcquire (.user 0), .threadCreate .on (some 2) 40, .lockAcquire (.user 1),
      .lockAcquire (.user 0), .threadCreate .on (some 3) 50, .lockAcquire (.user 1)]
    (fun k => decide (3 ∈ k.waitersOf (.user 1) ∧
      follow k.linkAhead 9 (k.holder (.user 1)) = [2, mainThread])) (by decide +kernel)
  obtain ⟨hw, hf⟩ := of_decide_eq_true hp
  exact ⟨k, hk, hw, hf, (links_accurate hk).2 9 (.user 1) ▸ hf⟩

-- Threads 2 and 3 wait for main's lock; main releases it and thread 3 takes it.
theorem link_names_former_holder :
    ∃ k, (system false).Reachable k ∧ 2 ∈ k.waitersOf (.user 0) ∧ k.holder (.user 0) = some 3 ∧
      (k.threads 2).waitingForTlock = some mainThread := by
  obtain ⟨k, hk, hp⟩ := leadsTo_reachable false (fun _ _ => true)
    [.resume, .lockAcquire (.user 0), .threadCreate .on (some 2) 40, .lockAcquire (.user 0),
      .threadCreate .on (some 3) 50, .lockAcquire (.user 0), .lockRelease .on (.user 0), .resume]
    (fun k => decide (2 ∈ k.waitersOf (.user 0) ∧ k.holder (.user 0) = some 3 ∧
      (k.threads 2).waitingForTlock = some mainThread)) (by decide +kernel)
  obtain ⟨hw, hh, hl⟩ := of_decide_eq_true hp
  exact ⟨k, hk.reachable, hw, hh, hl⟩

end Pintos.Threads.Kernel
