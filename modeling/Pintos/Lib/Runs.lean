import Mathlib.Data.List.Perm.Basic
import Mathlib.Data.Nat.Basic

namespace Pintos.Lib

-- A run of consecutive indices.
structure Run where
  first : Nat
  cnt : Nat
deriving DecidableEq

namespace Run

def has (r : Run) (i : Nat) : Bool := r.first ≤ i && i < r.first + r.cnt

theorem has_iff {r : Run} {i : Nat} : r.has i = true ↔ r.first ≤ i ∧ i < r.first + r.cnt := by
  simp [has]

def Disjoint (r r' : Run) : Prop := ∀ i, ¬ (r.has i = true ∧ r'.has i = true)

end Run

def Covered (start marks : Nat → Bool) (runs : List Run) : Prop :=
  ∀ i, (start i).toNat + runs.countP (·.has i) = (marks i).toNat

namespace Covered

open List

variable {start marks marks' : Nat → Bool} {runs runs' : List Run} {r : Run}

section

variable (h : Covered start marks runs)
include h

theorem of_perm (hperm : runs ~ runs') : Covered start marks runs' := by
  intro i
  rw [← hperm.countP_eq]
  exact h i

theorem marks_iff (i : Nat) : marks i = true ↔ start i = true ∨ ∃ r ∈ runs, r.has i = true := by
  have hi := h i
  have hcount : 0 < runs.countP (·.has i) ↔ ∃ r ∈ runs, r.has i = true := countP_pos_iff
  have hmarks := (marks i).toNat_le
  have hstart := (start i).toNat_le
  rw [← hcount, ← Bool.toNat_eq_one, ← Bool.toNat_eq_one]
  omega

theorem pairwise : runs.Pairwise Run.Disjoint := by
  have hone : ∀ i, runs.countP (·.has i) ≤ 1 := by
    intro i
    have hle := (marks i).toNat_le
    have hcov := h i
    omega
  clear h
  induction runs with
  | nil => exact Pairwise.nil
  | cons r runs ih =>
    refine Pairwise.cons ?_ (ih fun i => ?_)
    · rintro r' hr' i ⟨hi, hi'⟩
      have hpos : 0 < runs.countP (·.has i) := countP_pos_iff.mpr ⟨r', hr', hi'⟩
      have hle := hone i
      rw [countP_cons, if_pos hi] at hle
      omega
    · have hle := hone i
      rw [countP_cons] at hle
      omega

theorem mark (hfree : ∀ i, r.has i = true → marks i = false)
    (hmarks : ∀ i, marks' i = (r.has i || marks i)) : Covered start marks' (r :: runs) := by
  intro i
  have hcov := h i
  rw [hmarks, countP_cons]
  cases hi : r.has i with
  | false => simpa using hcov
  | true =>
    rw [hfree i hi, Bool.toNat_false] at hcov
    rw [Bool.true_or, Bool.toNat_true, if_pos rfl]
    omega

end

theorem unmark (h : Covered start marks (r :: runs))
    (hmarks : ∀ i, marks' i = (!r.has i && marks i)) : Covered start marks' runs := by
  intro i
  have hcov := h i
  rw [countP_cons] at hcov
  rw [hmarks]
  cases hi : r.has i with
  | false => simpa [hi] using hcov
  | true =>
    have hle := (marks i).toNat_le
    rw [hi, if_pos rfl] at hcov
    rw [Bool.not_true, Bool.false_and, Bool.toNat_false]
    omega

theorem marked (h : Covered start marks runs) (hr : r ∈ runs) {i : Nat} (hi : r.has i = true) :
    marks i = true :=
  (h.marks_iff i).mpr (.inr ⟨r, hr, hi⟩)

end Covered

end Pintos.Lib
