import Pintos.Threads.Locks.Steps

namespace Pintos.Threads.Kernel

open Function List

variable {k k1 k' : Kernel} {pending : LockRef → Bool} {lock : LockRef} {t : ThreadRef}
  {oldLevel : IntrLevel} {op : Op} {mlfqs : Bool} {semaInit : SemaRef → Nat}

-- The three records of who owns a lock agree: the holder pointer, the owner's
-- acquired_locks and the semaphore. A lock is pending while its former owner
-- has cleared the holder and not yet raised the semaphore.
structure Ownership (k : Kernel) (pending : LockRef → Bool) : Prop where
  owner : ∀ lock t, k.holder lock = some t →
    t ∈ k.allList ∧ lock ∈ (k.threads t).acquiredLocks
  acquired : ∀ t ∈ k.allList, ∀ lock ∈ (k.threads t).acquiredLocks, k.holder lock = some t
  nodup : ∀ t ∈ k.allList, (k.threads t).acquiredLocks.Nodup
  value : ∀ lock, k.value (.ofLock lock) =
    if k.holder lock = none ∧ pending lock = false then 1 else 0
  released : ∀ lock, pending lock = true → k.holder lock = none

section

variable (h : k.Ownership pending)
include h

theorem Ownership.congr (hl : k'.allList = k.allList) (hh : k'.holder = k.holder)
    (ha : ∀ t, (k'.threads t).acquiredLocks = (k.threads t).acquiredLocks)
    (hv : ∀ lock, k'.value (.ofLock lock) = k.value (.ofLock lock)) : k'.Ownership pending := by
  constructor
  · intro lock t ht
    rw [hl, ha]
    exact h.owner lock t (hh ▸ ht)
  · intro t ht lock hm
    rw [hh]
    exact h.acquired t (hl ▸ ht) lock (ha t ▸ hm)
  · intro t ht
    rw [ha]
    exact h.nodup t (hl ▸ ht)
  · intro lock
    rw [hv, hh]
    exact h.value lock
  · intro lock hp
    rw [hh]
    exact h.released lock hp

theorem Ownership.frame (hf : k.LockFrame k') : k'.Ownership pending :=
  h.congr hf.allList hf.holder hf.acquiredLocks hf.value

theorem Ownership.setThread (f : Thread → Thread)
    (ha : (f (k.threads t)).acquiredLocks = (k.threads t).acquiredLocks) :
    (k.setThread t f).Ownership pending :=
  h.congr rfl rfl (setThread_field Thread.acquiredLocks f ha) fun _ => rfl

theorem Ownership.free (hv : 0 < k.value (.ofLock lock)) :
    k.holder lock = none ∧ pending lock = false := by
  by_contra hc
  have := h.value lock
  rw [if_neg hc] at this
  omega

theorem Ownership.not_acquired (hn : k.holder lock ≠ some t) (ht : t ∈ k.allList) :
    lock ∉ (k.threads t).acquiredLocks :=
  fun hm => hn (h.acquired t ht lock hm)

end

theorem giveLock_acquiredLocks (k : Kernel) (lock : LockRef) (t u : ThreadRef) :
    ((k.giveLock lock t).threads u).acquiredLocks =
      if u = t then (k.threads t).acquiredLocks ++ [lock] else (k.threads u).acquiredLocks := by
  by_cases hu : u = t
  · subst hu
    simp [Kernel.giveLock]
  · simp [Kernel.giveLock, hu]

theorem giveLock_holder (k : Kernel) (lock : LockRef) (t : ThreadRef) (other : LockRef) :
    (k.giveLock lock t).holder other = if other = lock then some t else k.holder other := by
  by_cases ho : other = lock
  · subst ho
    simp [Kernel.giveLock]
  · simp [Kernel.giveLock, ho]

theorem Ownership.giveLock (h : k.Ownership pending) (ht : t ∈ k.allList)
    (hv : 0 < k.value (.ofLock lock)) :
    ((k.setValue (.ofLock lock) (k.value (.ofLock lock) - 1)).giveLock lock t).Ownership
      pending := by
  obtain ⟨hn, hp⟩ := h.free hv
  have hone : k.value (.ofLock lock) = 1 := by
    have := h.value lock
    rwa [if_pos ⟨hn, hp⟩] at this
  have hnew : lock ∉ (k.threads t).acquiredLocks := h.not_acquired (by simp [hn]) ht
  refine ⟨?_, ?_, ?_, ?_, ?_⟩
  · intro other u hu
    rw [giveLock_holder] at hu
    rw [giveLock_acquiredLocks]
    by_cases ho : other = lock
    · subst ho
      rw [if_pos rfl] at hu
      obtain rfl := Option.some.inj hu
      exact ⟨ht, by simp⟩
    · rw [if_neg ho] at hu
      obtain ⟨hl, hm⟩ := h.owner other u hu
      refine ⟨hl, ?_⟩
      split_ifs with hut
      · subst hut
        exact mem_append_left _ hm
      · exact hm
  · intro u hu other hm
    rw [giveLock_acquiredLocks] at hm
    rw [giveLock_holder]
    split_ifs at hm with hut
    · subst hut
      rcases mem_append.mp hm with hin | hin
      · have hne : other ≠ lock := by
          rintro rfl
          exact hnew hin
        rw [if_neg hne]
        exact h.acquired _ ht other hin
      · rw [if_pos (mem_singleton.mp hin)]
    · have hold := h.acquired u hu other hm
      rw [if_neg (by rintro rfl; rw [hn] at hold; cases hold)]
      exact hold
  · intro u hu
    rw [giveLock_acquiredLocks]
    split_ifs with hut
    · exact nodup_append'.mpr
        ⟨h.nodup t ht, nodup_singleton lock, by simpa using hnew⟩
    · exact h.nodup u hu
  · intro other
    rw [giveLock_holder]
    by_cases ho : other = lock
    · subst ho
      simp [Kernel.giveLock, hone]
    · simpa [Kernel.giveLock, ho] using h.value other
  · intro other hpo
    rw [giveLock_holder, if_neg (by rintro rfl; rw [hp] at hpo; cases hpo)]
    exact h.released other hpo

theorem Ownership.lockReleaseOwner (h : k.Ownership pending) (ht : k.current ∈ k.allList)
    (hl : k.lockReleaseOwner lock = .ok k') :
    k'.Ownership (update pending lock true) := by
  obtain ⟨hh, x, hx, rfl⟩ := lockReleaseOwner_ok hl
  have hacq : ∀ u, ((((k.setThread k.current fun _ => x).setHolder lock none).threads
      u).acquiredLocks) = if u = k.current then (k.threads k.current).acquiredLocks.erase lock
        else (k.threads u).acquiredLocks := by
    intro u
    by_cases hu : u = k.current
    · rw [hu]
      simpa using hx.acquiredLocks
    · simp [hu]
  refine ⟨?_, ?_, ?_, ?_, ?_⟩
  · intro other u hu
    by_cases ho : other = lock
    · subst ho
      simp at hu
    · have hu' : k.holder other = some u := by simpa [ho] using hu
      obtain ⟨hl, hm⟩ := h.owner other u hu'
      refine ⟨hl, ?_⟩
      rw [hacq]
      split_ifs with huc
      · subst huc
        exact (mem_erase_of_ne ho).mpr hm
      · exact hm
  · intro u hu other hm
    rw [hacq] at hm
    have hold : k.holder other = some u ∧ other ≠ lock := by
      split_ifs at hm with huc
      · subst huc
        refine ⟨h.acquired _ ht other (mem_of_mem_erase hm), ?_⟩
        rintro rfl
        exact (h.nodup _ ht).not_mem_erase hm
      · refine ⟨h.acquired u hu other hm, ?_⟩
        rintro rfl
        have := h.acquired u hu other hm
        rw [hh] at this
        exact huc (Option.some.inj this).symm
    simpa [hold.2] using hold.1
  · intro u hu
    rw [hacq]
    split_ifs
    · exact (h.nodup _ ht).erase _
    · exact h.nodup u hu
  · intro other
    by_cases ho : other = lock
    · subst ho
      simpa [hh] using h.value other
    · simpa [ho] using h.value other
  · intro other hp
    by_cases ho : other = lock
    · subst ho
      simp
    · simpa [ho] using h.released other (by simpa [ho] using hp)

theorem Ownership.raise (h : k.Ownership (update pending lock true)) (hp : pending lock = false) :
    (k.setValue (.ofLock lock) (k.value (.ofLock lock) + 1)).Ownership pending := by
  have hn : k.holder lock = none := h.released lock (by simp)
  refine ⟨h.owner, h.acquired, h.nodup, ?_, ?_⟩
  · intro other
    have := h.value other
    by_cases ho : other = lock
    · subst ho
      simp only [update_self, Bool.true_eq_false, and_false, if_false] at this
      simp [hn, hp, this]
    · simpa [ho] using this
  · intro other hpo
    have ho : other ≠ lock := by
      rintro rfl
      rw [hp] at hpo
      cases hpo
    exact h.released other (by simpa [ho] using hpo)

section

variable (h : k.Ownership pending)
include h

theorem Ownership.withLock (ht : k.current ∈ k.allList) (hl : k.withLock oldLevel lock = .ok k') :
    k'.Ownership pending := by
  obtain ⟨hv, _, x, hx, rfl⟩ := withLock_ok hl
  obtain ⟨hn, _⟩ := h.free hv
  have hacq : x.acquiredLocks = (k.threads k.current).acquiredLocks := by
    have hnew : lock ∉ (k.threads k.current).acquiredLocks := h.not_acquired (by simp [hn]) ht
    rw [hx.acquiredLocks, erase_append_right _ hnew]
    simp
  have hkept := setThread_field Thread.acquiredLocks (k := k) (t := k.current) (fun _ => x) hacq
  refine h.congr rfl ?_ hkept fun _ => rfl
  exact update_eq_self_iff.mpr hn.symm

theorem Ownership.setList (list : ListRef) (l : List ThreadRef) :
    (k.setList list l).Ownership pending :=
  h.congr rfl rfl (fun _ => rfl) fun _ => rfl

theorem Ownership.initThread {p : Int} (ht : t ∉ k.allList) (hi : k.initThread t p = .ok k') :
    k'.Ownership pending := by
  obtain ⟨hh, hv, hl, _, _, _, _, _, _, hother, _, hacq, _⟩ := initThread_ok hi
  have hold : ∀ u ∈ k.allList, k'.threads u = k.threads u := by
    intro u hu
    exact hother u (by rintro rfl; exact ht hu)
  refine ⟨?_, ?_, ?_, ?_, ?_⟩
  · intro lock u hu
    obtain ⟨hm, ha⟩ := h.owner lock u (hh ▸ hu)
    rw [hl, hold u hm]
    exact ⟨mem_append_left _ hm, ha⟩
  · intro u hu lock hm
    rw [hl] at hu
    rcases mem_append.mp hu with hu | hu
    · rw [hold u hu] at hm
      rw [hh]
      exact h.acquired u hu lock hm
    · rw [mem_singleton.mp hu, hacq] at hm
      cases hm
  · intro u hu
    rw [hl] at hu
    rcases mem_append.mp hu with hu | hu
    · rw [hold u hu]
      exact h.nodup u hu
    · rw [mem_singleton.mp hu, hacq]
      exact nodup_nil
  · intro lock
    rw [hv, hh]
    exact h.value lock
  · intro lock hp
    rw [hh]
    exact h.released lock hp

theorem Ownership.leave (ha : (k.threads t).acquiredLocks = []) (hn : k.allList.Nodup) :
    (k.setAllList (k.allList.erase t)).Ownership pending := by
  have hmem : ∀ u, u ∈ k.allList.erase t ↔ u ≠ t ∧ u ∈ k.allList := fun u => hn.mem_erase_iff
  refine ⟨?_, ?_, ?_, h.value, h.released⟩
  · intro lock u hu
    obtain ⟨hm, hacq⟩ := h.owner lock u hu
    refine ⟨(hmem u).mpr ⟨?_, hm⟩, hacq⟩
    rintro rfl
    rw [ha] at hacq
    cases hacq
  · intro u hu
    exact h.acquired u ((hmem u).mp hu).2
  · intro u hu
    exact h.nodup u ((hmem u).mp hu).2

end

structure LockInv (k : Kernel) : Prop where
  ownership : k.Ownership fun _ => false
  kernel : ∀ lock, lock.isClient = false → k.holder lock = none ∧ k.waitersOf lock = []
  resume : ∀ t, (k.resume t).isClient = true

def exitsClean (k : Kernel) (op : Op) : Bool :=
  op ≠ .threadExit ∨ (k.threads k.current).acquiredLocks = []

theorem LockInv.frame (h : k.LockInv) (hf : k.LockFrame k') : k'.LockInv where
  ownership := h.ownership.frame hf
  kernel lock hc := by
    obtain ⟨hn, hw⟩ := h.kernel lock hc
    refine ⟨by rw [hf.holder, hn], List.eq_nil_iff_forall_not_mem.mpr fun t ht => ?_⟩
    have := (hf.waiters lock t).mp ht
    rw [hw] at this
    cases this
  resume t := hf.resume t (h.resume t)

theorem QueueInv.current_mem_allList (h : k.QueueInv) : k.current ∈ k.allList := by
  rw [h.allListed.2]
  exact ⟨h.running.1, by simp [h.running.status]⟩

theorem LockInv.giveLock (h : k.LockInv) (hc : lock.isClient = true) (ht : t ∈ k.allList)
    (hv : 0 < k.value (.ofLock lock)) :
    ((k.setValue (.ofLock lock) (k.value (.ofLock lock) - 1)).giveLock lock t).LockInv where
  ownership := h.ownership.giveLock ht hv
  kernel other ho := by
    obtain ⟨hn, hw⟩ := h.kernel other ho
    have hne : other ≠ lock := by
      rintro rfl
      rw [hc] at ho
      cases ho
    exact ⟨by simpa [Kernel.giveLock, hne] using hn, hw⟩
  resume := h.resume

theorem LockInv.setThread (h : k.LockInv) (f : Thread → Thread)
    (ha : (f (k.threads t)).acquiredLocks = (k.threads t).acquiredLocks) :
    (k.setThread t f).LockInv :=
  ⟨h.ownership.setThread f ha, h.kernel, h.resume⟩

theorem LockInv.setWaiters (h : k.LockInv) (hc : lock.isClient = true) (l : List ThreadRef) :
    (k.setList (.waiters (.ofLock lock)) l).LockInv where
  ownership := h.ownership.setList _ l
  kernel other ho := by
    obtain ⟨hn, hw⟩ := h.kernel other ho
    have hne : other ≠ lock := by
      rintro rfl
      rw [hc] at ho
      cases ho
    exact ⟨hn, by simpa [waitersOf, hne] using hw⟩
  resume := h.resume

theorem LockInv.lockAcquireDonate (h : k.LockInv) (hq : k.QueueInv)
    (hd : k.lockAcquireDonate lock k.current = .ok k') : k'.LockInv := by
  obtain ⟨_, _, _, hf⟩ := lockAcquireDonate_frame hq hd
  exact (h.setThread _ rfl).frame hf

theorem lockReleaseOwner_frame (hl : k.lockReleaseOwner lock = .ok k') :
    k'.lists = k.lists ∧ k'.resume = k.resume ∧ k'.live = k.live ∧ k'.allList = k.allList ∧
      k'.current = k.current ∧ k'.value = k.value ∧ k'.mlfqs = k.mlfqs ∧
      k'.holder = Function.update k.holder lock none := by
  obtain ⟨_, x, _, rfl⟩ := lockReleaseOwner_ok hl
  exact ⟨rfl, rfl, rfl, rfl, rfl, rfl, rfl, rfl⟩

theorem LockInv.release (h : k.LockInv) (hq : k.QueueInv) (hc : lock.isClient = true)
    (hl : k.lockReleaseOwner lock = .ok k') : (k'.wakeTop lock).LockInv := by
  obtain ⟨hlists, hresume, _, _, _, _, _, hholder⟩ := lockReleaseOwner_frame hl
  have ho := (h.ownership.lockReleaseOwner hq.current_mem_allList hl).raise rfl
  have hk : (k'.setValue (.ofLock lock) (k'.value (.ofLock lock) + 1)).LockInv := by
    refine ⟨ho, ?_, fun t => by rw [setValue_resume, hresume]; exact h.resume t⟩
    intro other hother
    obtain ⟨hn, hw⟩ := h.kernel other hother
    constructor
    · rw [setValue_holder, hholder]
      by_cases heq : other = lock
      · subst heq
        simp
      · simpa [heq] using hn
    · unfold waitersOf at hw ⊢
      rw [setValue_lists, hlists]
      exact hw
  exact hk.setWaiters hc _

theorem LockInv.withLock (h : k.LockInv) (hq : k.QueueInv)
    (hl : k.withLock oldLevel lock = .ok k') : k'.LockInv := by
  obtain ⟨hlists, _, _, _, hresume, hholder⟩ := withLock_frame hl
  refine ⟨h.ownership.withLock hq.current_mem_allList hl, ?_, ?_⟩
  · intro other ho
    obtain ⟨hn, hw⟩ := h.kernel other ho
    unfold waitersOf at hw ⊢
    rw [hholder, hlists]
    refine ⟨?_, hw⟩
    by_cases heq : other = lock
    · subst heq
      simp
    · simpa [heq] using hn
  · rw [hresume]
    exact h.resume

theorem LockInv.initThread {p : Int} (h : k.LockInv) (ht : t ∉ k.allList)
    (hi : k.initThread t p = .ok k') : k'.LockInv := by
  obtain ⟨hh, _, _, hlists, _, _, _, _, hr, _⟩ := initThread_ok hi
  refine ⟨h.ownership.initThread ht hi, ?_, ?_⟩
  · intro lock hc
    obtain ⟨hn, hw⟩ := h.kernel lock hc
    unfold waitersOf at hw ⊢
    rw [hh, hlists]
    exact ⟨hn, hw⟩
  · intro u
    rw [hr]
    by_cases hu : u = t
    · subst hu
      simp [Resume.isClient]
    · simpa [hu] using h.resume u

theorem LockInv.step (h : k.LockInv) (hq : k.QueueInv) (hs : k.LockStep op k')
    (he : k.exitsClean op = true) : k'.LockInv := by
  have hcur := hq.current_mem_allList
  cases hs with
  | quiet hf => exact h.frame hf.toLockFrame
  | recompute _ hf => exact h.frame hf
  | setPriority _ hf => exact (h.frame (setOwnPriority_frame k _)).frame hf.toLockFrame
  | take hc _ hv hf =>
    refine (h.frame hf.toLockFrame).giveLock hc (hf.allList ▸ hcur) ?_
    rw [hf.value]
    exact hv
  | contend hc _ _ hd hf =>
    exact ((h.lockAcquireDonate hq hd).setWaiters hc _).frame hf.toLockFrame
  | requeue hc _ _ hf => exact (h.setWaiters hc _).frame hf.toLockFrame
  | release hc ho hf => exact (h.release hq hc ho).frame hf.toLockFrame
  | noMemory hw => exact h.withLock hq hw
  | @create _ t _ k1 k2 k3 k4 _ hfree h1 h2 hn hq3 _ h3 hf =>
    have hlive : k1.live t = false := (withLock_frame h1).2.1 ▸ hfree
    have hq1 := hq.withLock h1
    have hnew : t ∉ k1.allList := by
      rw [hq1.allListed.2, hlive]
      simp
    have h2' := (h.withLock hq h1).initThread hnew h2
    exact ((h2'.frame hn.toLockFrame).withLock hq3 h3).frame hf.toLockFrame
  | exit hf _ =>
    have ha : (k.threads k.current).acquiredLocks = [] := by simpa [exitsClean] using he
    refine LockInv.frame ?_ hf.toLockFrame
    have ho := h.ownership.leave ha hq.allListed.1
    exact ⟨ho.congr rfl rfl (fun _ => rfl) fun _ => rfl, h.kernel, h.resume⟩

structure Quiescent (k : Kernel) : Prop where
  holder : ∀ lock, k.holder lock = none
  value : ∀ lock, k.value (.ofLock lock) = 1
  waiters : ∀ lock, k.waitersOf lock = []
  waitingForTlock : ∀ t, (k.threads t).waitingForTlock = none
  acquiredLocks : ∀ t, (k.threads t).acquiredLocks = []
  priority : ∀ t, (k.threads t).priority = (k.threads t).originalPriority
  donated : ∀ t, (k.threads t).donated = false
  priMin_le : ∀ t, priMin ≤ (k.threads t).originalPriority
  resume : ∀ t, (k.resume t).isClient = true

theorem Quiescent.frame (h : k.Quiescent) (hf : k.DonationFrame k') : k'.Quiescent where
  holder lock := by rw [hf.holder, h.holder]
  value lock := by rw [hf.value, h.value]
  waiters lock := by
    refine List.eq_nil_iff_forall_not_mem.mpr fun t ht => ?_
    have := (hf.waiters lock t).mp ht
    rw [h.waiters] at this
    cases this
  waitingForTlock t := by rw [hf.waitingForTlock, h.waitingForTlock]
  acquiredLocks t := by rw [hf.acquiredLocks, h.acquiredLocks]
  priority t := by rw [hf.priority, hf.originalPriority, h.priority]
  donated t := by rw [hf.donated, h.donated]
  priMin_le t := by
    rw [hf.originalPriority]
    exact h.priMin_le t
  resume t := hf.resume t (h.resume t)

theorem blank_quiescent : (blank mlfqs semaInit).Quiescent :=
  ⟨fun _ => rfl, fun _ => rfl, fun _ => rfl, fun _ => rfl, fun _ => rfl, fun _ => rfl,
    fun _ => rfl, fun _ => le_refl priMin, fun _ => rfl⟩

theorem Quiescent.initThread {p : Int} (h : k.Quiescent) (hi : k.initThread t p = .ok k') :
    k'.Quiescent := by
  obtain ⟨hh, hv, _, hlists, _, _, _, _, hr, hother, hlink, hacq, hdon, hpri, hmin⟩ :=
    initThread_ok hi
  -- every field is the new thread's at `t` and the old one's elsewhere
  have hsplit : ∀ (P : Thread → Prop), P (k'.threads t) → (∀ u, P (k.threads u)) →
      ∀ u, P (k'.threads u) := by
    intro P ht hk u
    by_cases hu : u = t
    · subst hu
      exact ht
    · rw [hother u hu]
      exact hk u
  constructor
  · intro lock
    rw [hh, h.holder]
  · intro lock
    rw [hv, h.value]
  · intro lock
    unfold waitersOf
    rw [hlists]
    exact h.waiters lock
  · exact hsplit (fun x => x.waitingForTlock = none) hlink h.waitingForTlock
  · exact hsplit (fun x => x.acquiredLocks = []) hacq h.acquiredLocks
  · exact hsplit (fun x => x.priority = x.originalPriority) hpri h.priority
  · exact hsplit (fun x => x.donated = false) hdon h.donated
  · exact hsplit (fun x => priMin ≤ x.originalPriority) hmin h.priMin_le
  · intro u
    rw [hr]
    by_cases hu : u = t
    · subst hu
      simp [Resume.isClient]
    · simpa [hu] using h.resume u

theorem restoredPriority_of_nil (h : (k.threads t).acquiredLocks = []) :
    k.restoredPriority t = (k.threads t).originalPriority := by
  unfold restoredPriority
  simp [h]

theorem Quiescent.withLock (h : k.Quiescent) (hl : k.withLock oldLevel lock = .ok k') :
    k'.Quiescent := by
  obtain ⟨_, _, x, hx, rfl⟩ := withLock_ok hl
  have hacq : x.acquiredLocks = [] := by
    rw [hx.acquiredLocks, h.acquiredLocks]
    simp
  have hpri : x.priority = x.originalPriority ∧ x.donated = false := by
    by_cases hm : k.mlfqs = true
    · obtain ⟨hp, hd⟩ := hx.unmoved hm
      exact ⟨by rw [hp, hx.originalPriority, h.priority], by rw [hd, h.donated]⟩
    · obtain ⟨s, _, _, ho, ha, hp, hd⟩ := hx.restored (by simpa using hm)
      rw [restoredPriority_of_nil (ha.trans hacq), ho] at hp
      exact ⟨hp, by simpa [hp] using hd⟩
  have hsplit : ∀ (P : Thread → Prop), P x → (∀ u, P (k.threads u)) →
      ∀ u, P ((k.setThread k.current fun _ => x).threads u) := by
    intro P hP hk u
    by_cases hu : u = k.current
    · rw [hu, setThread_threads_self]
      exact hP
    · rw [setThread_threads_ne _ _ hu]
      exact hk u
  refine ⟨?_, h.value, h.waiters, ?_, ?_, ?_, ?_, ?_, h.resume⟩
  · intro other
    by_cases ho : other = lock
    · subst ho
      simp
    · simpa [ho] using h.holder other
  · exact hsplit (fun x => x.waitingForTlock = none) hx.waitingForTlock h.waitingForTlock
  · exact hsplit (fun x => x.acquiredLocks = []) hacq h.acquiredLocks
  · exact hsplit (fun x => x.priority = x.originalPriority) hpri.1 h.priority
  · exact hsplit (fun x => x.donated = false) hpri.2 h.donated
  · refine hsplit (fun x => priMin ≤ x.originalPriority) ?_ h.priMin_le
    rw [hx.originalPriority]
    exact h.priMin_le _

theorem Quiescent.allocateTid (h : k.Quiescent) (ha : k.allocateTid oldLevel t = .ok k') :
    k'.Quiescent := by
  have hset := DonationFrame.setThread (k := k) (t := t) (.setTid k.nextTid) rfl rfl rfl rfl rfl
  have hnext : (k.setThread t (.setTid k.nextTid)).DonationFrame
      ((k.setThread t (.setTid k.nextTid)).setNextTid (k.nextTid + 1)) :=
    { DonationFrame.refl _ with }
  exact (h.frame (hset.trans hnext)).withLock ha

theorem Quiescent.threadCreate {page : Option ThreadRef} {p : Int} (h : k.Quiescent)
    (hc : k.threadCreate oldLevel page p = .ok k') : k'.Quiescent := by
  obtain ⟨k1, h1, hc⟩ := bind_ok_iff.mp hc
  cases page with
  | none =>
    cases hc
    exact h.withLock h1
  | some t =>
    simp only [bind_ok_iff] at hc
    obtain ⟨k2, h2, k3, h3, hc⟩ := hc
    exact (((h.withLock h1).initThread h2).allocateTid h3).frame (threadUnblock_frame hc)

theorem boot_quiescent (hb : boot mlfqs semaInit = .ok k) : k.Quiescent := by
  simp only [boot, threadInit, threadStart, bind_ok_iff] at hb
  obtain ⟨k0, ⟨ka, ha, h0⟩, k1, h1, k2, h2, hb⟩ := hb
  have hka := (blank_quiescent.initThread ha).frame
    (.setThread (t := mainThread) (.setStatus .running) rfl rfl rfl rfl rfl)
  have hk2 := ((hka.allocateTid h0).threadCreate h1).frame (semaDown_frame (by simp) h2)
  have hidle : k2.Quiescent → Kernel.Quiescent { k2 with idleThread := some k2.current } :=
    fun h => ⟨h.holder, h.value, h.waiters, h.waitingForTlock, h.acquiredLocks, h.priority,
      h.donated, h.priMin_le, h.resume⟩
  exact (hidle hk2).frame (semaUp_frame (by simp) hb)

theorem Quiescent.lockInv (h : k.Quiescent) : k.LockInv := by
  refine ⟨⟨?_, ?_, ?_, ?_, ?_⟩, fun lock _ => ⟨h.holder lock, h.waiters lock⟩, h.resume⟩
  · intro lock t ht
    rw [h.holder] at ht
    cases ht
  · intro t _ lock hm
    rw [h.acquiredLocks] at hm
    cases hm
  · intro t _
    rw [h.acquiredLocks]
    exact List.nodup_nil
  · intro lock
    simp [h.value, h.holder]
  · intro lock _
    exact h.holder lock

theorem boot_mlfqs (hb : boot mlfqs semaInit = .ok k) : k.mlfqs = mlfqs := by
  simp only [boot, threadInit, threadStart, threadCreate, bind_ok_iff] at hb
  obtain ⟨k0, ⟨ka, ha, h0⟩, k1, ⟨kb, hb1, kc, hc, kd, hd, h1⟩, k2, h2, hb⟩ := hb
  obtain ⟨_, _, _, _, _, hm, _⟩ := initThread_ok ha
  obtain ⟨_, _, x, _, rfl⟩ := withLock_ok h0
  obtain ⟨_, _, y, _, rfl⟩ := withLock_ok hb1
  obtain ⟨_, _, _, _, _, hm', _⟩ := initThread_ok hc
  obtain ⟨_, _, z, _, rfl⟩ := withLock_ok hd
  have h12 := (threadUnblock_frame h1).mlfqs
  have h23 := (semaDown_frame (by simp) h2).mlfqs
  have h34 := (semaUp_frame (by simp) hb).mlfqs
  exact h34.trans (h23.trans (h12.trans (hm'.trans hm)))

theorem config_of_reachable (h : (system mlfqs).Reachable k) :
    k.mlfqs = mlfqs ∧ ∀ t, (k.resume t).isClient = true := by
  apply h.invariant
  · rintro k ⟨semaInit, hb⟩
    exact ⟨boot_mlfqs hb, (boot_quiescent hb).resume⟩
  · rintro k op k' hr ⟨hm, hc⟩ hs
    have hq := queueInv_of_reachable hr
    obtain ⟨hm', _, hc'⟩ := (exec_lockStep hq hs.1 hs.2 (hc _)).config hq
    exact ⟨hm'.trans hm, hc' hc⟩

theorem step_lockStep {op : Op} (h : (system mlfqs).Reachable k)
    (hs : (system mlfqs).step k op k') : k.LockStep op k' :=
  exec_lockStep (queueInv_of_reachable h) hs.1 hs.2 ((config_of_reachable h).2 _)

theorem lockInv_of_reachable {guard : Kernel → Op → Prop}
    (hg : ∀ k op, guard k op → k.exitsClean op = true)
    (h : (system mlfqs).ReachableVia guard k) : k.LockInv := by
  apply h.invariant
  · rintro k ⟨semaInit, hb⟩
    exact (boot_quiescent hb).lockInv
  · intro k op k' hr hl hgop hs
    exact hl.step (queueInv_of_reachable hr.reachable) (step_lockStep hr.reachable hs) (hg k op hgop)

end Pintos.Threads.Kernel
