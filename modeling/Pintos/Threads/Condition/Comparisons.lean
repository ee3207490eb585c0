import Pintos.LibKernel.ListSort
import Pintos.Threads.Condition

namespace Pintos.Threads.Condition

open Option LibKernel

open Lib (Mutex)

variable {s s' : Condition} {t u w : ThreadRef} {act : CondAct} {pc : CondPc}
  {pri : ThreadRef → Int}

inductive Move (s : Condition) (t : ThreadRef) : Condition → Prop
  | lock (hpc : s.pc t = .client) (hm : s.lock = .free) :
      Move s t ((s.setLock (.held t)).goto t .holding)
  | relock (hpc : s.pc t = .relocking) (hm : s.lock = .free) :
      Move s t ((s.setLock (.held t)).goto t .holding)
  | clear {wait : Bool} (hpc : s.pc t = .unlocking wait) (hm : s.lock = .held t) :
      Move s t ((s.setLock (.passing t)).goto t (.unlocked wait))
  | raise {wait : Bool} (hpc : s.pc t = .unlocked wait) (hm : s.lock = .passing t) :
      Move s t ((s.setLock .free).goto t (.afterUnlock wait))
  | unlock (hpc : s.pc t = .holding) : Move s t (s.goto t (.unlocking false))
  | wait (hpc : s.pc t = .holding) : Move s t (s.goto t .queueing)
  | signal (hpc : s.pc t = .holding) : Move s t (s.goto t (.signalling false))
  | broadcast (hpc : s.pc t = .holding) : Move s t ((s.openBatch t).goto t .broadcasting)
  | done (hpc : s.pc t = .broadcasting) (hw : s.waiters = []) : Move s t (s.goto t .holding)
  | more (hpc : s.pc t = .broadcasting) (hw : s.waiters ≠ []) :
      Move s t (s.goto t (.signalling true))
  | queue {order : List ThreadRef} (hpc : s.pc t = .queueing) (ho : order.Perm (t :: s.waiters)) :
      Move s t ((s.file t order).goto t (.unlocking true))
  | idle {loop : Bool} (hpc : s.pc t = .signalling loop) (hw : s.waiters = []) :
      Move s t (s.goto t (.afterSignal loop))
  | pop {loop : Bool} {w : ThreadRef} {rest : List ThreadRef} (hpc : s.pc t = .signalling loop)
      (ho : (w :: rest).Perm s.waiters) : Move s t ((s.take t w rest).goto t (.raising w loop))
  | up {w : ThreadRef} {loop : Bool} (hpc : s.pc t = .raising w loop) (hw : s.pc w ≠ .asleep) :
      Move s t ((s.raise w).goto t (.afterSignal loop))
  | upAsleep {w : ThreadRef} {loop : Bool} (hpc : s.pc t = .raising w loop)
      (hw : s.pc w = .asleep) : Move s t ((s.raise w).goto t (.waking w loop))
  | wake {w : ThreadRef} {loop : Bool} (hpc : s.pc t = .waking w loop) (hw : s.pc w = .asleep) :
      Move s t ((s.goto w .testing).goto t (.afterSignal loop))
  | sleep (hpc : s.pc t = .testing) (hv : s.value t = 0) : Move s t (s.goto t .asleep)
  | down (hpc : s.pc t = .testing) (hv : s.value t ≠ 0) :
      Move s t ((s.lower t).goto t .relocking)

theorem goStep_move (hx : s.goStep t = some s') : s.Move t s' := by
  unfold goStep at hx
  split at hx
  · rename_i wait hpc
    obtain ⟨m, hm, heq⟩ := bind_eq_some_iff.mp hx
    obtain ⟨hheld, rfl⟩ := Mutex.clear_eq_some.mp hm
    cases heq
    exact .clear hpc hheld
  · rename_i wait hpc
    obtain ⟨m, hm, heq⟩ := bind_eq_some_iff.mp hx
    obtain ⟨hpassing, rfl⟩ := Mutex.raise_eq_some.mp hm
    cases heq
    exact .raise hpc hpassing
  · rename_i hpc
    split_ifs at hx with hv <;> cases hx
    · exact .sleep hpc hv
    · exact .down hpc hv
  · rename_i hpc
    obtain ⟨m, hm, heq⟩ := bind_eq_some_iff.mp hx
    obtain ⟨hfree, rfl⟩ := Mutex.acquire_eq_some.mp hm
    cases heq
    exact .relock hpc hfree
  · rename_i hpc
    split_ifs at hx with hw <;> cases hx
    · exact .done hpc hw
    · exact .more hpc hw
  · rename_i w loop hpc
    split_ifs at hx with hw <;> cases hx
    · exact .upAsleep hpc hw
    · exact .up hpc hw
  · rename_i w loop hpc
    split_ifs at hx with hw
    cases hx
    exact .wake hpc hw
  all_goals cases hx

theorem orderStep_move {order : List ThreadRef} (hx : s.orderStep t order = some s') :
    s.Move t s' := by
  unfold orderStep at hx
  split at hx
  · rename_i hpc
    split_ifs at hx with ho
    cases hx
    exact .queue hpc ho
  · rename_i loop hpc
    split_ifs at hx with ho
    split at hx
    · cases hx
      exact .idle hpc (List.nil_perm.mp ho)
    · cases hx
      exact .pop hpc ho
  · cases hx

theorem exec_move (hx : s.exec act = some s') : s.Move act.thread s' := by
  cases act with
  | lockAcquire t =>
    simp only [exec, ite_none_right_eq_some] at hx
    obtain ⟨hpc, hx⟩ := hx
    obtain ⟨m, hm, heq⟩ := bind_eq_some_iff.mp hx
    obtain ⟨hfree, rfl⟩ := Mutex.acquire_eq_some.mp hm
    cases heq
    exact .lock hpc hfree
  | call t call =>
    simp only [exec, ite_none_right_eq_some, some.injEq] at hx
    obtain ⟨hpc, rfl⟩ := hx
    cases call with
    | lockRelease => exact .unlock hpc
    | condWait => exact .wait hpc
    | condSignal => exact .signal hpc
    | condBroadcast => exact .broadcast hpc
  | go t => exact goStep_move hx
  | order t order => exact orderStep_move hx

def insertComparisons (pri : ThreadRef → Int) (t : ThreadRef) :
    List ThreadRef → List (ThreadRef × ThreadRef)
  | [] => []
  | e :: rest => (t, e) :: if ListSort.higher pri t e then [] else insertComparisons pri t rest

def sortComparisons (pri : ThreadRef → Int) (waiters : List ThreadRef) :
    List (ThreadRef × ThreadRef) :=
  match ListSort.listSort (ListSort.higher pri) waiters [] with
  | .ok (_, log) => log
  | .error _ => []

def comparisons (s : Condition) (pri : ThreadRef → Int) : CondAct → List (ThreadRef × ThreadRef)
  | .order t _ =>
    match s.pc t with
    | .queueing => insertComparisons pri t s.waiters
    | .signalling _ => sortComparisons pri s.waiters
    | _ => []
  | _ => []

def WellDefined (s : Condition) (c : ThreadRef × ThreadRef) : Prop :=
  s.pc c.1 = .asleep ∧ s.pc c.2 = .asleep

def OntoEmpty (s : Condition) (act : CondAct) : Prop :=
  s.pc act.thread = .queueing → s.waiters = []

instance (s : Condition) (act : CondAct) : Decidable (s.OntoEmpty act) :=
  inferInstanceAs (Decidable (s.pc act.thread = .queueing → s.waiters = []))

theorem length_waiters_le_one (h : system.ReachableVia OntoEmpty s) : s.waiters.length ≤ 1 := by
  refine h.invariant (P := fun s => s.waiters.length ≤ 1) ?_ ?_
  · rintro s rfl
    exact Nat.zero_le 1
  · intro s act s' _ hle hempty hx
    cases exec_move hx with
    | queue hpc ho =>
      have hlen := ho.length_eq
      rw [hempty hpc] at hlen
      exact hlen.le
    | pop hpc ho =>
      have hlen := ho.length_eq
      rw [List.length_cons] at hlen
      simp only [goto_waiters, take_waiters]
      omega
    | _ => exact hle

theorem sortComparisons_eq_nil {waiters : List ThreadRef} (h : waiters.length ≤ 1) :
    sortComparisons pri waiters = [] := by
  match waiters with
  | [] => rfl
  | [_] => rfl
  | _ :: _ :: _ => simp at h

theorem comparisons_eq_nil (hle : s.waiters.length ≤ 1) (h : s.OntoEmpty act) :
    s.comparisons pri act = [] := by
  unfold comparisons
  split
  · split
    · rename_i hpc
      rw [h hpc]
      rfl
    · exact sortComparisons_eq_nil hle
    · rfl
  · rfl

theorem exists_undefined (pri : ThreadRef → Int) (hx : s.exec act = some s')
    (h : ¬ s.OntoEmpty act) :
    ∃ c ∈ s.comparisons pri act, ¬ s.WellDefined c := by
  obtain ⟨hpc, hne⟩ := not_forall.mp h
  match act with
  | .lockAcquire t => simp [exec, show s.pc t = .queueing from hpc] at hx
  | .call t _ => simp [exec, show s.pc t = .queueing from hpc] at hx
  | .go t => simp [exec, goStep, show s.pc t = .queueing from hpc] at hx
  | .order t order =>
    obtain ⟨e, rest, hw⟩ := List.exists_cons_of_ne_nil hne
    have hpc : s.pc t = .queueing := hpc
    refine ⟨(t, e), ?_, fun hdef => ?_⟩
    · simp [comparisons, hpc, hw, insertComparisons]
    · cases hpc.symm.trans hdef.1

-- Along a run in which each cond_wait found no other waiter, the next step compares only
-- semaphores that have their thread just if the same holds of it.
theorem cond_comparisons_defined_iff (s s' : Condition) (act : CondAct) (pri : ThreadRef → Int)
    (h : system.ReachableVia OntoEmpty s) (hx : s.exec act = some s') :
    (∀ c ∈ s.comparisons pri act, s.WellDefined c) ↔ s.OntoEmpty act := by
  refine ⟨fun hall => ?_, fun hempty => ?_⟩
  · by_contra hne
    obtain ⟨c, hc, hundefined⟩ := exists_undefined pri hx hne
    exact hundefined (hall c hc)
  · rw [comparisons_eq_nil (length_waiters_le_one h) hempty]
    exact fun _ => nofun

-- Thread 2 signals while thread 1 is asleep.
theorem cond_comparisons_defined_signal :
    ∃ s s', system.ReachableVia OntoEmpty s ∧ s.waiters = [1] ∧ s.pc 2 = .signalling false ∧
      s.exec (.order 2 [1]) = some s' ∧ ∀ c ∈ s.comparisons (fun _ => 0) (.order 2 [1]),
        s.WellDefined c := by
  obtain ⟨s, hr, hs⟩ := Lib.System.reachableVia_of_leadsTo (S := system) condInit
    (fun s act => if s.OntoEmpty act then s.exec act else none)
    [.lockAcquire 1, .call 1 .condWait, .order 1 [1], .go 1, .go 1, .go 1, .lockAcquire 2,
      .call 2 .condSignal]
    (fun s => decide (s.waiters = [1] ∧ s.pc 2 = .signalling false ∧
      (s.exec (.order 2 [1])).isSome)) rfl
    (fun s act s' hx => Option.ite_none_right_eq_some.mp hx) (by decide +kernel)
  obtain ⟨hw, hpc, hsome⟩ := of_decide_eq_true hs
  obtain ⟨s', hx⟩ := Option.isSome_iff_exists.mp hsome
  refine ⟨s, s', hr, hw, hpc, hx, ?_⟩
  refine (cond_comparisons_defined_iff s s' (.order 2 [1]) _ hr hx).mpr fun hq => ?_
  cases hpc.symm.trans hq

-- Thread 1 is asleep in the condition when thread 2 calls cond_wait: the semaphore of thread 2
-- still has an empty list.
theorem cond_wait_compares_list_tail :
    ∃ s, system.Reachable s ∧ s.pc 1 = .asleep ∧ s.waiters = [1] ∧ s.pc 2 = .queueing ∧
      (∃ s', s.exec (.order 2 [1, 2]) = some s') ∧ ¬ s.WellDefined (2, 1) ∧
      ∀ pri, (2, 1) ∈ s.comparisons pri (.order 2 [1, 2]) := by
  obtain ⟨s, hr, hs⟩ := Lib.System.exists_of_leadsTo condInit exec
    [.lockAcquire 1, .call 1 .condWait, .order 1 [1], .go 1, .go 1, .go 1, .lockAcquire 2,
      .call 2 .condWait]
    (fun s => decide (s.pc 1 = .asleep ∧ s.waiters = [1] ∧ s.pc 2 = .queueing ∧
      (s.exec (.order 2 [1, 2])).isSome)) (by decide +kernel)
  obtain ⟨hasleep, hw, hpc, hsome⟩ := of_decide_eq_true hs
  refine ⟨s, hr, hasleep, hw, hpc, Option.isSome_iff_exists.mp hsome, fun hdef => ?_, fun pri => ?_⟩
  · cases hpc.symm.trans hdef.1
  · simp [comparisons, hpc, hw, insertComparisons]

end Pintos.Threads.Condition
