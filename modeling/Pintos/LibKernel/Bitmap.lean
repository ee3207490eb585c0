import Mathlib.Algebra.Group.Nat.Defs
import Pintos.Lib.Runs

namespace Pintos.LibKernel

open Function List Bool

open Lib (Run)

variable {start cnt idx : Nat} {b : Bitmap} {value : Bool}

structure Bitmap where
  bitCnt : Nat
  bits : Nat → Bool

namespace Bitmap

def set (b : Bitmap) (idx : Nat) (value : Bool) : Bitmap :=
  { b with bits := update b.bits idx value }

def setMultiple (b : Bitmap) (start cnt : Nat) (value : Bool) : Bitmap :=
  (List.range cnt).foldl (fun b i => b.set (start + i) value) b

def contains (b : Bitmap) (start cnt : Nat) (value : Bool) : Bool :=
  (List.range cnt).any fun i => b.bits (start + i) == value

def all (b : Bitmap) (start cnt : Nat) : Bool := !b.contains start cnt false

def scan (b : Bitmap) (start cnt : Nat) (value : Bool) : Option Nat :=
  if cnt ≤ b.bitCnt then
    (List.range' start (b.bitCnt - cnt + 1 - start)).find? fun i => !b.contains i cnt (!value)
  else none

def scanAndFlip (b : Bitmap) (start cnt : Nat) (value : Bool) : Bitmap × Option Nat :=
  match b.scan start cnt value with
  | some idx => (b.setMultiple idx cnt (!value), some idx)
  | none => (b, none)

@[simp] theorem setMultiple_bitCnt (b : Bitmap) (start cnt : Nat) (value : Bool) :
    (b.setMultiple start cnt value).bitCnt = b.bitCnt := by
  unfold setMultiple
  generalize List.range cnt = is
  induction is generalizing b with
  | nil => rfl
  | cons i is ih => exact ih (b.set (start + i) value)

theorem foldl_set_bits (b : Bitmap) (start : Nat) (value : Bool) (is : List Nat) (j : Nat) :
    (is.foldl (fun b i => b.set (start + i) value) b).bits j =
      if ∃ i ∈ is, start + i = j then value else b.bits j := by
  induction is generalizing b with
  | nil => simp
  | cons i is ih =>
    rw [foldl_cons, ih]
    by_cases hrest : ∃ i ∈ is, start + i = j
    · have hcons : ∃ k ∈ i :: is, start + k = j := by
        obtain ⟨k, hk, hj⟩ := hrest
        exact ⟨k, mem_cons_of_mem _ hk, hj⟩
      rw [if_pos hrest, if_pos hcons]
    · rw [if_neg hrest]
      by_cases hi : start + i = j
      · rw [if_pos ⟨i, mem_cons_self, hi⟩, ← hi]
        exact update_self ..
      · have hcons : ¬ ∃ k ∈ i :: is, start + k = j := by
          rintro ⟨k, hk, hj⟩
          rcases mem_cons.mp hk with rfl | hk
          · exact hi hj
          · exact hrest ⟨k, hk, hj⟩
        rw [if_neg hcons]
        exact update_of_ne (Ne.symm hi) _ _

theorem setMultiple_bits (b : Bitmap) (start cnt : Nat) (value : Bool) (j : Nat) :
    (b.setMultiple start cnt value).bits j =
      if (Run.mk start cnt).has j then value else b.bits j := by
  have hiff : (∃ i ∈ List.range cnt, start + i = j) ↔ (Run.mk start cnt).has j = true := by
    rw [Run.has_iff]
    constructor
    · rintro ⟨i, hi, rfl⟩
      have := mem_range.mp hi
      simp only
      omega
    · rintro ⟨hle, hlt⟩
      simp only at hle hlt
      exact ⟨j - start, mem_range.mpr (by omega), by omega⟩
  unfold setMultiple
  rw [foldl_set_bits]
  simp only [hiff]

theorem contains_eq_false_iff (b : Bitmap) (start cnt : Nat) (value : Bool) :
    b.contains start cnt value = false ↔
      ∀ i, (Run.mk start cnt).has i = true → b.bits i = !value := by
  simp only [contains, any_eq_false, mem_range, beq_iff_eq, Run.has_iff]
  constructor
  · intro h i hi
    have hval := h (i - start) (by omega)
    rw [show start + (i - start) = i by omega] at hval
    cases hb : b.bits i <;> cases value <;> simp_all
  · intro h i hi heq
    have hval := h (start + i) (by omega)
    rw [heq] at hval
    cases value <;> cases hval

theorem all_iff (b : Bitmap) (start cnt : Nat) :
    b.all start cnt = true ↔ ∀ i, (Run.mk start cnt).has i = true → b.bits i = true := by
  rw [all, not_eq_true', contains_eq_false_iff]
  rfl

theorem scan_eq_some
    (h : b.scan start cnt value = some idx) :
    start ≤ idx ∧ idx + cnt ≤ b.bitCnt ∧ ∀ i, (Run.mk idx cnt).has i = true → b.bits i = value := by
  unfold scan at h
  split at h
  · rename_i hcnt
    have hmem := mem_of_find?_eq_some h
    have hfree := find?_some h
    rw [not_eq_true', contains_eq_false_iff] at hfree
    rw [mem_range'_1] at hmem
    refine ⟨by omega, by omega, fun i hi => ?_⟩
    rw [hfree i hi, Bool.not_not]
  · cases h

theorem scan_eq_none (h : b.scan 0 cnt value = none)
    (hidx : idx + cnt ≤ b.bitCnt) :
    ∃ i, (Run.mk idx cnt).has i = true ∧ b.bits i = !value := by
  unfold scan at h
  rw [if_pos (by omega), find?_eq_none] at h
  have hnot := h idx (by rw [mem_range'_1]; omega)
  by_contra hall
  refine hnot ?_
  rw [not_eq_true', contains_eq_false_iff]
  intro i hi
  by_contra hne
  exact hall ⟨i, hi, by cases hb : b.bits i <;> cases value <;> simp_all⟩

theorem scan_one_eq_none
    (h : b.scan start 1 value = none) (i : Nat) (hstart : start ≤ i) (hi : i < b.bitCnt) :
    b.bits i = !value := by
  unfold scan at h
  rw [if_pos (by omega), find?_eq_none] at h
  have hnot := h i (by rw [mem_range'_1]; omega)
  rw [not_eq_true', not_eq_false, contains] at hnot
  simpa using hnot

end Bitmap

end Pintos.LibKernel
