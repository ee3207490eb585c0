import Mathlib.Logic.Function.Basic

namespace Pintos.Lib.WriteBack

open Function

variable {ι β : Type}

-- What a write-back cache and its backing store hold together: a cell that is held has the
-- contents of the whole, with a mark if the store may lag behind; any other cell has them in
-- the store.
def Represents (held : ι → Option (Bool × β)) (store whole : ι → β) : Prop :=
  ∀ i, match held i with
    | none => store i = whole i
    | some (dirty, contents) => contents = whole i ∧ (dirty = false → store i = whole i)

namespace Represents

variable {held : ι → Option (Bool × β)} {store whole : ι → β} {i : ι} {dirty : Bool} {contents : β}

theorem of_none (h : Represents held store whole) (hi : held i = none) : store i = whole i := by
  have hrep := h i
  rw [hi] at hrep
  exact hrep

theorem of_some (h : Represents held store whole) (hi : held i = some (dirty, contents)) :
    contents = whole i ∧ (dirty = false → store i = whole i) := by
  have hrep := h i
  rw [hi] at hrep
  exact hrep

theorem empty (store : ι → β) : Represents (fun _ => none) store store := fun _ => rfl

variable [DecidableEq ι]

section

variable (h : Represents held store whole)
include h

theorem fetch (hi : held i = none) :
    Represents (update held i (some (false, store i))) store whole := by
  intro j
  by_cases hj : j = i
  · subst hj
    rw [update_self]
    exact ⟨h.of_none hi, fun _ => h.of_none hi⟩
  · rw [update_of_ne hj]
    exact h j

theorem drop (hi : held i = some (dirty, contents)) : Represents (update held i none)
      (if dirty then update store i contents else store) whole := by
  obtain ⟨hcontents, hclean⟩ := h.of_some hi
  intro j
  by_cases hj : j = i
  · subst hj
    rw [update_self]
    cases dirty with
    | true => exact (update_self ..).trans hcontents
    | false => exact hclean rfl
  · rw [update_of_ne hj]
    have hstore : (if dirty then update store i contents else store) j = store j := by
      cases dirty with
      | true => exact update_of_ne hj ..
      | false => rfl
    rw [hstore]
    exact h j

theorem write (hi : held i = some (dirty, contents)) (f : β → β) :
    Represents (update held i (some (true, f contents))) store
      (update whole i (f (whole i))) := by
  intro j
  by_cases hj : j = i
  · subst hj
    rw [update_self, update_self]
    refine ⟨congrArg f (h.of_some hi).1, ?_⟩
    intro hfalse
    cases hfalse
  · rw [update_of_ne hj, update_of_ne hj]
    exact h j

end

end Represents

end Pintos.Lib.WriteBack
