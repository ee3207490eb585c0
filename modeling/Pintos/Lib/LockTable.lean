import Mathlib.Data.List.Nodup

namespace Pintos.Lib

open Function

-- Which thread holds each lock and, as a thread records it itself, which locks each
-- thread has acquired, in that order.
structure LockTable (τ ℓ : Type) where
  holder : ℓ → Option τ
  acquired : τ → List ℓ

inductive LockFault
  | alreadyHeld
  | notHeld
  | busy
deriving DecidableEq

namespace LockTable

variable {τ ℓ : Type}

def unheld : LockTable τ ℓ := ⟨fun _ => none, fun _ => []⟩

structure Consistent (k : LockTable τ ℓ) : Prop where
  holder_iff : ∀ l t, k.holder l = some t ↔ l ∈ k.acquired t
  nodup : ∀ t, (k.acquired t).Nodup

theorem Consistent.unheld : (unheld : LockTable τ ℓ).Consistent where
  holder_iff l t := by simp [LockTable.unheld]
  nodup t := List.nodup_nil

variable {k k' : LockTable τ ℓ} {t u : τ} {l : ℓ}

theorem Consistent.holder_eq_none (hk : k.Consistent) (h : k.holder l = none) :
    l ∉ k.acquired t := by
  intro hmem
  rw [(hk.holder_iff l t).mpr hmem] at h
  cases h

variable [DecidableEq τ] [DecidableEq ℓ]

def give (k : LockTable τ ℓ) (t : τ) (l : ℓ) : LockTable τ ℓ where
  holder := update k.holder l (some t)
  acquired := update k.acquired t (k.acquired t ++ [l])

def drop (k : LockTable τ ℓ) (t : τ) (l : ℓ) : LockTable τ ℓ where
  holder := update k.holder l none
  acquired := update k.acquired t ((k.acquired t).erase l)

def acquire (k : LockTable τ ℓ) (t : τ) (l : ℓ) : Except LockFault (LockTable τ ℓ) :=
  if k.holder l = some t then .error .alreadyHeld
  else if k.holder l = none then .ok (k.give t l)
  else .error .busy

def release (k : LockTable τ ℓ) (t : τ) (l : ℓ) : Except LockFault (LockTable τ ℓ) :=
  if k.holder l = some t then .ok (k.drop t l) else .error .notHeld

@[simp] theorem acquired_give_self : (k.give t l).acquired t = k.acquired t ++ [l] := update_self ..

@[simp] theorem acquired_drop_self : (k.drop t l).acquired t = (k.acquired t).erase l :=
  update_self ..

theorem acquired_give_of_ne (h : u ≠ t) : (k.give t l).acquired u = k.acquired u :=
  update_of_ne h ..

theorem acquired_drop_of_ne (h : u ≠ t) : (k.drop t l).acquired u = k.acquired u :=
  update_of_ne h ..

theorem acquire_eq_ok : k.acquire t l = .ok k' ↔ k.holder l = none ∧ k' = k.give t l := by
  unfold acquire
  by_cases hself : k.holder l = some t
  · simp [hself]
  · by_cases hfree : k.holder l = none
    · simp [hfree, eq_comm]
    · simp [hself, hfree]

theorem release_eq_ok : k.release t l = .ok k' ↔ k.holder l = some t ∧ k' = k.drop t l := by
  unfold release
  by_cases hself : k.holder l = some t
  · simp [hself, eq_comm]
  · simp [hself]

theorem acquire_eq_alreadyHeld : k.acquire t l = .error .alreadyHeld ↔ k.holder l = some t := by
  unfold acquire
  by_cases hself : k.holder l = some t
  · simp [hself]
  · by_cases hfree : k.holder l = none
    · simp [hfree]
    · simp [hself, hfree]

theorem Consistent.give (hk : k.Consistent) (hfree : k.holder l = none) :
    (k.give t l).Consistent where
  holder_iff l' u := by
    have hnone := fun u => hk.holder_eq_none (t := u) hfree
    have hiff := hk.holder_iff l' u
    by_cases hu : u = t
    · subst hu
      by_cases hl : l' = l
      · subst hl
        simp [LockTable.give]
      · simp [LockTable.give, hiff, hl]
    · rw [acquired_give_of_ne hu]
      by_cases hl : l' = l
      · subst hl
        simp [LockTable.give, hnone u, Ne.symm hu]
      · simp [LockTable.give, update_of_ne hl, hiff]
  nodup u := by
    by_cases hu : u = t
    · subst hu
      rw [acquired_give_self, ← List.concat_eq_append]
      exact (hk.nodup u).concat (hk.holder_eq_none hfree)
    · rw [acquired_give_of_ne hu]
      exact hk.nodup u

theorem Consistent.drop (hk : k.Consistent) (hheld : k.holder l = some t) :
    (k.drop t l).Consistent where
  holder_iff l' u := by
    have hiff := hk.holder_iff l' u
    by_cases hu : u = t
    · subst hu
      rw [acquired_drop_self, (hk.nodup u).mem_erase_iff, ← hiff]
      by_cases hl : l' = l
      · subst hl
        simp [LockTable.drop]
      · simp [LockTable.drop, hl]
    · rw [acquired_drop_of_ne hu, ← hiff]
      by_cases hl : l' = l
      · subst hl
        simp [LockTable.drop, hheld, Ne.symm hu]
      · simp [LockTable.drop, update_of_ne hl]
  nodup u := by
    by_cases hu : u = t
    · subst hu
      rw [acquired_drop_self]
      exact (hk.nodup u).erase l
    · rw [acquired_drop_of_ne hu]
      exact hk.nodup u

end LockTable

end Pintos.Lib
