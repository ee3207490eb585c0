import Mathlib.Data.List.Perm.Basic
import Mathlib.Data.Nat.ModEq
import Pintos.Lib.TransitionSystem
import Pintos.Threads.Kernel

namespace Pintos.Threads

open List Option Nat

def uintMod : Nat := 2 ^ 32

-- One semaphore and the threads in its sema_down: those in `waiters` are blocked,
-- those in `woken` were unblocked by sema_up and have not yet run. The last three
-- fields are for no use by the code: the value it was initialised with, the calls
-- of sema_up, and the calls of sema_down and sema_try_down that took one.
structure Semaphore where
  value : Nat
  waiters : List ThreadRef
  woken : List ThreadRef
  initial : Nat
  ups : Nat
  downs : Nat
deriving DecidableEq

-- Where a blocking thread is inserted depends on the priorities at that moment, so
-- the step carries the list that list_insert_ordered leaves.
inductive SemaAct
  | semaDown (t : ThreadRef) (order : List ThreadRef)
  | semaTryDown
  | semaUp
  -- a woken thread runs again, at the condition of the loop of sema_down
  | resume (t : ThreadRef) (order : List ThreadRef)
  -- a donation moves a waiter to its new place
  | reorder (order : List ThreadRef)
deriving DecidableEq

namespace Semaphore

variable {s s' : Semaphore} {t : ThreadRef} {act : SemaAct} {order : List ThreadRef}

def semaInit (value : Nat) : Semaphore := ⟨value % uintMod, [], [], value % uintMod, 0, 0⟩

def lower (s : Semaphore) : Semaphore := { s with value := s.value - 1, downs := s.downs + 1 }

def semaDownLoop (s : Semaphore) (t : ThreadRef) (order : List ThreadRef) : Option Semaphore :=
  if s.value = 0 then
    if order.Perm (t :: s.waiters) then some { s with waiters := order } else none
  else some s.lower

def semaTryDown (s : Semaphore) : Semaphore := if s.value > 0 then s.lower else s

def semaUp (s : Semaphore) : Semaphore :=
  let s := { s with value := (s.value + 1) % uintMod, ups := s.ups + 1 }
  match s.waiters with
  | [] => s
  | top :: rest => { s with waiters := rest, woken := top :: s.woken }

def exec (s : Semaphore) : SemaAct → Option Semaphore
  | .semaDown t order => if t ∈ s.waiters ∨ t ∈ s.woken then none else s.semaDownLoop t order
  | .semaTryDown => some s.semaTryDown
  | .semaUp => some s.semaUp
  | .resume t order =>
    if t ∈ s.woken then { s with woken := s.woken.erase t }.semaDownLoop t order else none
  | .reorder order => if order.Perm s.waiters then some { s with waiters := order } else none

def system : Lib.System Semaphore SemaAct where
  init s := ∃ value, s = semaInit value
  step s act s' := s.exec act = some s'

instance (s : Semaphore) (act : SemaAct) (s' : Semaphore) : Decidable (system.step s act s') :=
  inferInstanceAs (Decidable (s.exec act = some s'))

-- The count of ups and downs up to wrap-around, what the wake-ups that are under
-- way are good for, and that no thread is counted twice. `testing` threads are at
-- the condition of the loop of sema_down, between two steps none.
structure Conserved (s : Semaphore) (testing : Nat) : Prop where
  bound : s.value < uintMod
  count : s.value + s.downs ≡ s.initial + s.ups [MOD uintMod]
  pending : s.waiters ≠ [] → s.value ≤ s.woken.length + testing
  nodup : (s.waiters ++ s.woken).Nodup

theorem Conserved.test (h : s.Conserved 0) : s.Conserved 1 :=
  ⟨h.bound, h.count, fun hw => (h.pending hw).trans (le_succ _), h.nodup⟩

theorem Conserved.lower (h : s.Conserved 1) (hv : 0 < s.value) : s.lower.Conserved 0 := by
  have hsum : s.lower.value + s.lower.downs = s.value + s.downs := by
    simp only [Semaphore.lower]
    omega
  refine ⟨(sub_le _ _).trans_lt h.bound, hsum ▸ h.count, fun hw => ?_, h.nodup⟩
  have hle := h.pending hw
  simp only [Semaphore.lower]
  omega

theorem Conserved.semaTryDown (h : s.Conserved 0) : s.semaTryDown.Conserved 0 := by
  unfold Semaphore.semaTryDown
  split_ifs with hv
  · exact h.test.lower hv
  · exact h

theorem Conserved.semaDownLoop (h : s.Conserved 1) (ht : t ∉ s.waiters ++ s.woken)
    (hx : s.semaDownLoop t order = some s') : s'.Conserved 0 := by
  unfold Semaphore.semaDownLoop at hx
  split_ifs at hx with hv ho
  · cases hx
    have hperm : (order ++ s.woken).Perm (t :: (s.waiters ++ s.woken)) := ho.append_right s.woken
    refine ⟨h.bound, h.count, fun _ => by simp [hv], ?_⟩
    exact hperm.nodup_iff.mpr (nodup_cons.mpr ⟨ht, h.nodup⟩)
  · cases hx
    exact h.lower (Nat.pos_of_ne_zero hv)

theorem Conserved.unwake (h : s.Conserved 0) (ht : t ∈ s.woken) :
    { s with woken := s.woken.erase t }.Conserved 1 ∧ t ∉ s.waiters ++ s.woken.erase t := by
  have hlen : (s.woken.erase t).length + 1 = s.woken.length := by
    rw [length_erase_of_mem ht]
    have hpos := length_pos_of_mem ht
    omega
  have hperm : (t :: (s.waiters ++ s.woken.erase t)).Perm (s.waiters ++ s.woken) :=
    perm_middle.symm.trans ((perm_cons_erase ht).symm.append_left s.waiters)
  have hnodup := nodup_cons.mp (hperm.nodup_iff.mpr h.nodup)
  refine ⟨⟨h.bound, h.count, fun hw => ?_, hnodup.2⟩, hnodup.1⟩
  have hle := h.pending hw
  simp only
  omega

theorem Conserved.semaUp (h : s.Conserved 0) : s.semaUp.Conserved 0 := by
  have hbound : (s.value + 1) % uintMod < uintMod := mod_lt _ (by decide)
  have hcount : (s.value + 1) % uintMod + s.downs ≡ s.initial + (s.ups + 1) [MOD uintMod] := by
    calc (s.value + 1) % uintMod + s.downs
        ≡ s.value + 1 + s.downs [MOD uintMod] := (mod_modEq _ _).add_right _
      _ = s.value + s.downs + 1 := by omega
      _ ≡ s.initial + s.ups + 1 [MOD uintMod] := h.count.add_right 1
      _ = s.initial + (s.ups + 1) := by omega
  cases hw : s.waiters with
  | nil =>
    simp only [Semaphore.semaUp, hw]
    exact ⟨hbound, hcount, by simp, by simpa [hw] using h.nodup⟩
  | cons top rest =>
    have hle : s.value ≤ s.woken.length := h.pending (by simp [hw])
    have hmod := mod_le (s.value + 1) uintMod
    have hperm : (rest ++ top :: s.woken).Perm (s.waiters ++ s.woken) := by
      rw [hw]
      exact perm_middle
    simp only [Semaphore.semaUp, hw]
    refine ⟨hbound, hcount, fun _ => ?_, hperm.nodup_iff.mpr h.nodup⟩
    simp only [length_cons]
    omega

theorem Conserved.exec (h : s.Conserved 0) (hx : s.exec act = some s') : s'.Conserved 0 := by
  cases act with
  | semaDown t order =>
    simp only [Semaphore.exec, ite_none_left_eq_some] at hx
    exact h.test.semaDownLoop (by simpa using hx.1) hx.2
  | semaTryDown =>
    cases hx
    exact h.semaTryDown
  | semaUp =>
    cases hx
    exact h.semaUp
  | resume t order =>
    simp only [Semaphore.exec, ite_none_right_eq_some] at hx
    obtain ⟨htest, hnot⟩ := h.unwake hx.1
    exact htest.semaDownLoop hnot hx.2
  | reorder order =>
    simp only [Semaphore.exec, ite_none_right_eq_some, some.injEq] at hx
    obtain ⟨hperm, rfl⟩ := hx
    refine ⟨h.bound, h.count, fun hw => h.pending ?_, ?_⟩
    · rintro hnil
      exact hw (perm_nil.mp (hnil ▸ hperm))
    · exact (hperm.append_right _).nodup_iff.mpr h.nodup

theorem conserved_of_reachable (hr : system.Reachable s) : s.Conserved 0 := by
  apply hr.invariant
  · rintro s ⟨value, rfl⟩
    exact ⟨mod_lt _ (by decide), rfl, by simp [semaInit], by simp [semaInit]⟩
  · intro s act s' _ hc hx
    exact hc.exec hx

def NoWrap (s : Semaphore) (act : SemaAct) : Prop := act = .semaUp → s.value + 1 < uintMod

def Exact (s : Semaphore) : Prop := s.value + s.downs = s.initial + s.ups

theorem Exact.lower (h : s.Exact) (hv : 0 < s.value) : s.lower.Exact := by
  simp only [Exact, Semaphore.lower] at h ⊢
  omega

theorem Exact.semaDownLoop (h : s.Exact) (hx : s.semaDownLoop t order = some s') : s'.Exact := by
  unfold Semaphore.semaDownLoop at hx
  split_ifs at hx with hv ho
  · cases hx
    exact h
  · cases hx
    exact h.lower (Nat.pos_of_ne_zero hv)

theorem Exact.semaUp (h : s.Exact) (hv : s.value + 1 < uintMod) : s.semaUp.Exact := by
  have hcount : (s.value + 1) % uintMod + s.downs = s.initial + (s.ups + 1) := by
    rw [mod_eq_of_lt hv]
    simp only [Exact] at h
    omega
  cases hw : s.waiters <;> simpa only [Exact, Semaphore.semaUp, hw] using hcount

theorem Exact.exec (h : s.Exact) (hwrap : NoWrap s act) (hx : s.exec act = some s') : s'.Exact := by
  cases act with
  | semaDown t order =>
    simp only [Semaphore.exec, ite_none_left_eq_some] at hx
    exact h.semaDownLoop hx.2
  | semaTryDown =>
    cases hx
    unfold Semaphore.semaTryDown
    split_ifs with hv
    · exact h.lower hv
    · exact h
  | semaUp =>
    cases hx
    exact h.semaUp (hwrap rfl)
  | resume t order =>
    simp only [Semaphore.exec, ite_none_right_eq_some] at hx
    have hsame : { s with woken := s.woken.erase t }.Exact := h
    exact hsame.semaDownLoop hx.2
  | reorder order =>
    simp only [Semaphore.exec, ite_none_right_eq_some, some.injEq] at hx
    obtain ⟨_, rfl⟩ := hx
    exact h

theorem exact_of_reachable (hr : system.ReachableVia NoWrap s) : s.Exact := by
  apply hr.invariant
  · rintro s ⟨value, rfl⟩
    rfl
  · intro s act s' _ he hwrap hx
    exact he.exec hwrap hx

theorem sema_value_conserved (s : Semaphore) (hr : system.Reachable s) :
    s.value < uintMod ∧ s.value + s.downs ≡ s.initial + s.ups [MOD uintMod] ∧
      (system.ReachableVia NoWrap s → s.value + s.downs = s.initial + s.ups) ∧
      s.woken.Nodup ∧ (s.waiters ≠ [] → s.value ≤ s.woken.length) := by
  have hc := conserved_of_reachable hr
  exact ⟨hc.bound, hc.count, exact_of_reachable, (nodup_append.mp hc.nodup).2.1, hc.pending⟩

-- Thread 1 was woken and has not yet run, thread 2 still waits.
theorem sema_value_conserved_one_woken :
    ∃ s, system.Reachable s ∧ s.waiters = [2] ∧ s.woken = [1] ∧ s.value = 1 ∧
      s.value ≤ s.woken.length := by
  have h0 : system.Reachable (semaInit 0) := .init ⟨0, rfl⟩
  have h1 : system.Reachable ⟨0, [1], [], 0, 0, 0⟩ :=
    h0.next (a := .semaDown 1 [1]) (by decide +kernel)
  have h2 : system.Reachable ⟨0, [1, 2], [], 0, 0, 0⟩ :=
    h1.next (a := .semaDown 2 [1, 2]) (by decide +kernel)
  have h3 : system.Reachable ⟨1, [2], [1], 0, 1, 0⟩ := h2.next (a := .semaUp) (by decide +kernel)
  exact ⟨_, h3, rfl, rfl, rfl, (sema_value_conserved _ h3).2.2.2.2 (by decide)⟩

-- sema_init accepts UINT_MAX and sema_up does not look before it increments.
theorem sema_up_wraps :
    ∃ s, system.Reachable s ∧ s.initial = uintMod - 1 ∧ s.ups = 1 ∧ s.downs = 0 ∧ s.value = 0 := by
  have h0 : system.Reachable (semaInit (uintMod - 1)) := .init ⟨_, rfl⟩
  exact ⟨_, h0.next (a := .semaUp) rfl, by decide +kernel⟩

end Semaphore

end Pintos.Threads
