import Pintos.LibKernel.ListSort
import Pintos.Threads.ReadyQueue

namespace Pintos.Threads.Kernel

open Function Lib LibKernel List

variable {k k' : Kernel} {t w : ThreadRef} {oldLevel : IntrLevel} {lock : LockRef}
  {tail : ThreadRef → Int} {waiters rest : List ThreadRef}

-- The priority that cond_cmp reads for the semaphore of `w`. Where that semaphore has no waiter,
-- list_begin gives the tail of its list, and `tail` is what stands there.
def frontPriority (k : Kernel) (tail : ThreadRef → Int) (w : ThreadRef) : Int :=
  match k.lists (.waiters (.waiter w)) with
  | [] => tail w
  | front :: _ => (k.threads front).priority

def condCmp (k : Kernel) (tail : ThreadRef → Int) (a b : ThreadRef) : Bool :=
  decide (k.frontPriority tail a > k.frontPriority tail b)

def condSortPriority (k : Kernel) (tail : ThreadRef → Int) (waiters : List ThreadRef) :
    Except Fault (List ThreadRef) :=
  match ListSort.listSort (k.condCmp tail) waiters [] with
  | .ok (sorted, _) => .ok sorted
  | .error .assertion => .error .assertion

def condSignal (k : Kernel) (oldLevel : IntrLevel) (lock : LockRef) (tail : ThreadRef → Int)
    (waiters : List ThreadRef) : Except Fault (List ThreadRef × Kernel) := do
  let cur ← k.threadCurrent
  assert (k.holder lock = some cur)
  match ← k.condSortPriority tail waiters with
  | [] => return ([], k)
  | w :: rest => do
      let k ← k.semaUp oldLevel (.waiter w)
      return (rest, k)

def AwaitsSignal (k : Kernel) (w : ThreadRef) : Prop := k.lists (.waiters (.waiter w)) = [w]

theorem AwaitsSignal.frontPriority (h : k.AwaitsSignal w) : k.frontPriority tail w = k.pri w := by
  unfold Kernel.frontPriority
  rw [h]
  rfl

theorem condSortPriority_returns (k : Kernel) (tail : ThreadRef → Int) (waiters : List ThreadRef) :
    ∃ sorted, k.condSortPriority tail waiters = .ok sorted ∧
      PriorityQueue.Descending (k.frontPriority tail) sorted ∧
      ListSort.Arranged (k.frontPriority tail) waiters sorted := by
  obtain ⟨sorted, hgives, hsorted, harr⟩ := ListSort.listSort_gives (k.frontPriority tail) waiters
  obtain ⟨log, hrun⟩ := hgives []
  refine ⟨sorted, ?_, hsorted, harr⟩
  unfold condSortPriority
  rw [show k.condCmp tail = ListSort.higher (k.frontPriority tail) from rfl, hrun]

def Awake (k : Kernel) (w : ThreadRef) : Prop :=
  (k.threads w).status = .ready ∧ w ∈ k.lists .ready ∨
    (k.threads w).status = .running ∧ k.current = w

theorem semaUp_awakes (oldLevel : IntrLevel) (h : k.QueueInv) (hw : k.AwaitsSignal w) :
    ∃ k', k.semaUp oldLevel (.waiter w) = .ok k' ∧ k'.Awake w ∧ (∀ t, k'.pri t = k.pri t) ∧
      ∀ v ≠ w, k.AwaitsSignal v → k'.AwaitsSignal v := by
  obtain ⟨k', hup, hlists⟩ := h.semaUp_returns oldLevel hw
  have hinv := h.semaUp hup
  have hmem : w ∈ k.lists (.waiters (.waiter w)) := hw ▸ mem_singleton_self w
  have hlisted : k'.Listed w :=
    Listed.semaUp (.inr ⟨.waiters (.waiter w), nofun, hmem⟩) (h.queues.not_idle hmem) hup
  have hframe : k.DonationFrame k' := semaUp_frame (fun _ => SemaRef.noConfusion) hup
  refine ⟨k', hup, ?_, hframe.priority, fun v hv hwait => ?_⟩
  · rcases hlisted with hcur | ⟨list, hne, hl⟩
    · exact .inr ⟨hcur ▸ (hinv.running.2 _ hinv.running.1).mpr rfl, hcur.symm⟩
    · -- its own semaphore's list is empty now, and it was in no other
      have hready : list = .ready := by
        by_contra hr
        rw [hlists list hr] at hl
        by_cases hown : list = .waiters (.waiter w)
        · rw [hown, update_self] at hl
          cases hl
        · rw [update_of_ne hown] at hl
          exact hown (h.queues.unique hl hmem)
      subst hready
      exact .inl ⟨(hinv.queues.member _ _ hl).2, hl⟩
  · unfold AwaitsSignal
    have hother : ListRef.waiters (.waiter v) ≠ .waiters (.waiter w) := by simpa using hv
    rw [hlists (.waiters (.waiter v)) nofun, update_of_ne hother]
    exact hwait

theorem condSignal_eq (h : k.QueueInv) (hheld : k.holder lock = some k.current)
    (hsort : k.condSortPriority tail waiters = .ok (w :: rest))
    (hup : k.semaUp oldLevel (.waiter w) = .ok k') :
    k.condSignal oldLevel lock tail waiters = .ok (rest, k') := by
  unfold condSignal
  simp only [h.threadCurrent, assert, if_pos hheld, hsort, hup, bind, Except.bind]
  rfl

theorem cond_signal_wakes_highest (k : Kernel) (oldLevel : IntrLevel) (lock : LockRef)
    (tail : ThreadRef → Int) (waiters : List ThreadRef) (h : k.QueueInv)
    (hheld : k.holder lock = some k.current) (hne : waiters ≠ []) (hnodup : waiters.Nodup)
    (hwait : ∀ w ∈ waiters, k.AwaitsSignal w) :
    ∃ before w behind rest k', waiters = before ++ w :: behind ∧
      k.condSignal oldLevel lock tail waiters = .ok (rest, k') ∧
      (∀ v ∈ waiters, k.pri v ≤ k.pri w) ∧ (∀ v ∈ before, k.pri v < k.pri w) ∧ k'.Awake w ∧
      rest.Perm (before ++ behind) ∧ PriorityQueue.Descending k'.pri rest ∧
      ∀ v ∈ rest, k'.AwaitsSignal v := by
  have hfront : ∀ v ∈ waiters, k.frontPriority tail v = k.pri v :=
    fun v hv => (hwait v hv).frontPriority
  obtain ⟨sorted, hsort, hdesc, harr⟩ := condSortPriority_returns k tail waiters
  match sorted with
  | [] => exact absurd (nil_perm.mp harr.perm) hne
  | w :: rest =>
    obtain ⟨before, behind, hsplit, hmax, hfirst, hperm⟩ := harr.first hdesc
    have hw : w ∈ waiters := by simp [hsplit]
    have hrest : ∀ v ∈ rest, v ∈ waiters ∧ v ≠ w := by
      intro v hv
      have hcons := harr.perm.nodup_iff.mpr hnodup
      refine ⟨harr.perm.mem_iff.mp (mem_cons_of_mem _ hv), ?_⟩
      rintro rfl
      exact (nodup_cons.mp hcons).1 hv
    obtain ⟨k', hup, hawake, hpri, hothers⟩ := semaUp_awakes oldLevel h (hwait w hw)
    refine ⟨before, w, behind, rest, k', hsplit, condSignal_eq h hheld hsort hup, ?_, ?_, hawake,
      hperm, ?_, fun v hv => hothers v (hrest v hv).2 (hwait v (hrest v hv).1)⟩
    · intro v hv
      rw [← hfront v hv, ← hfront w hw]
      exact hmax v hv
    · intro v hv
      have hmem : v ∈ waiters := hsplit ▸ mem_append_left _ hv
      rw [← hfront v hmem, ← hfront w hw]
      exact hfirst v hv
    · refine (PriorityQueue.descending_congr fun v hv => ?_).mp (pairwise_cons.mp hdesc).2
      rw [hfront v (hrest v hv).1, hpri v]

-- Threads 2 and 3 wait, the one of lower priority in front.
theorem cond_signal_wakes_highest_second :
    ∃ k rest k', (system false).Reachable k ∧ k.pri 2 = 40 ∧ k.pri 3 = 45 ∧
      k.condSignal .on (.user 0) (fun _ => 0) [2, 3] = .ok (rest, k') ∧ k'.Awake 3 ∧ rest = [2] := by
  obtain ⟨k, hk, hp⟩ := leadsTo_reachable false (fun _ _ => true)
    [.resume, .lockAcquire (.user 0), .threadCreate .on (some 2) 40, .semaDown (.waiter 2),
      .threadCreate .on (some 3) 45, .semaDown (.waiter 3)]
    (fun k => decide (k.holder (.user 0) = some k.current ∧ k.pri 2 = 40 ∧ k.pri 3 = 45 ∧
      k.lists (.waiters (.waiter 2)) = [2] ∧ k.lists (.waiters (.waiter 3)) = [3]))
    (by decide +kernel)
  obtain ⟨hheld, h2, h3, hw2, hw3⟩ := of_decide_eq_true hp
  have hwait : ∀ w ∈ [2, 3], k.AwaitsSignal w := by
    intro w hw
    rcases mem_cons.mp hw with rfl | hw
    · exact hw2
    · obtain rfl := mem_singleton.mp hw
      exact hw3
  obtain ⟨before, w, behind, rest, k', hsplit, hsig, hmax, -, hawake, hperm, -, -⟩ :=
    cond_signal_wakes_highest k .on (.user 0) (fun _ => 0) [2, 3]
      (queueInv_of_reachable hk.reachable) hheld (by decide) (by decide) hwait
  have hmax3 := hmax 3 (by decide)
  match before, hsplit with
  | [], hsplit =>
    obtain ⟨rfl, -⟩ := List.cons.inj hsplit
    rw [h2, h3] at hmax3
    omega
  | b :: before, hsplit =>
    obtain ⟨hb, hsplit⟩ := List.cons.inj hsplit
    match before, hsplit with
    | [], hsplit =>
      obtain ⟨rfl, rfl⟩ := List.cons.inj hsplit
      rw [← hb] at hperm
      exact ⟨k, rest, k', hk.reachable, h2, h3, hsig, hawake, perm_singleton.mp hperm⟩
    | _ :: _, hsplit => simp at hsplit

end Pintos.Threads.Kernel
