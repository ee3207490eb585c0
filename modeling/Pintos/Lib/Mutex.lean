import Mathlib.Logic.Function.Basic
import Mathlib.Logic.Relation

namespace Pintos.Lib

open Function

-- A mutex that is given back in two steps: the owner first stops being the
-- owner, and only later lets others in.
inductive Mutex (τ : Type*)
  | free
  | held (t : τ)
  | passing (t : τ)
deriving DecidableEq

inductive Phase
  | outside
  | inside
  | leaving
deriving DecidableEq

namespace Mutex

variable {τ : Type*} {m m' : Mutex τ} {t u : τ}

def acquire (t : τ) : Mutex τ → Option (Mutex τ)
  | .free => some (.held t)
  | _ => none

theorem acquire_eq_some : m.acquire t = some m' ↔ m = .free ∧ m' = .held t := by
  cases m <;> simp [acquire, eq_comm]

variable [DecidableEq τ]

def clear (t : τ) (m : Mutex τ) : Option (Mutex τ) :=
  if m = .held t then some (.passing t) else none

def raise (t : τ) (m : Mutex τ) : Option (Mutex τ) :=
  if m = .passing t then some .free else none

theorem clear_eq_some : m.clear t = some m' ↔ m = .held t ∧ m' = .passing t := by
  simp [clear, eq_comm]

theorem raise_eq_some : m.raise t = some m' ↔ m = .passing t ∧ m' = .free := by
  simp [raise, eq_comm]

def phaseOf : Mutex τ → τ → Phase
  | .free, _ => .outside
  | .held u, t => if t = u then .inside else .outside
  | .passing u, t => if t = u then .leaving else .outside

theorem phaseOf_eq_inside : m.phaseOf t = .inside ↔ m = .held t := by
  cases m with
  | free => simp [phaseOf]
  | held u => simpa [phaseOf] using eq_comm
  | passing u => by_cases hu : t = u <;> simp [phaseOf, hu]

theorem phaseOf_eq_leaving : m.phaseOf t = .leaving ↔ m = .passing t := by
  cases m with
  | free => simp [phaseOf]
  | held u => by_cases hu : t = u <;> simp [phaseOf, hu]
  | passing u => simpa [phaseOf] using eq_comm

theorem eq_of_inside (ht : m.phaseOf t = .inside) (hu : m.phaseOf u = .inside) : t = u := by
  have heq := (phaseOf_eq_inside.mp ht).symm.trans (phaseOf_eq_inside.mp hu)
  cases heq
  rfl

theorem update_free (t : τ) : update (phaseOf .free) t .inside = phaseOf (.held t) := by
  funext u
  by_cases hu : u = t <;> simp [phaseOf, hu]

theorem update_held (t : τ) : update (phaseOf (.held t)) t .leaving = phaseOf (.passing t) := by
  funext u
  by_cases hu : u = t <;> simp [phaseOf, hu]

theorem update_passing (t : τ) : update (phaseOf (.passing t)) t .outside = phaseOf .free := by
  funext u
  by_cases hu : u = t <;> simp [phaseOf, hu]

def Guards {π : Type*} (m : Mutex τ) (phase : π → Phase) (place : τ → π) : Prop :=
  ∀ t, phase (place t) = m.phaseOf t

namespace Guards

variable {π : Type*} {phase : π → Phase} {place : τ → π} {p : π}

section

variable (h : m.Guards phase place)
include h

theorem eq_of_inside (ht : phase (place t) = .inside) (hu : phase (place u) = .inside) : t = u :=
  Mutex.eq_of_inside (h t ▸ ht) (h u ▸ hu)

theorem held (ht : phase (place t) = .inside) : m = .held t := phaseOf_eq_inside.mp (h t ▸ ht)

theorem moved (hm : m'.phaseOf = update m.phaseOf t (phase p)) :
    m'.Guards phase (update place t p) := by
  intro u
  rw [hm]
  by_cases hu : u = t
  · subst hu
    simp
  · simpa [hu] using h u

theorem stays (hp : phase p = phase (place t)) : m.Guards phase (update place t p) := by
  apply h.moved
  rw [hp, h t, update_eq_self]

end

end Guards

end Mutex

end Pintos.Lib
