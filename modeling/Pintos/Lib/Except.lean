import Mathlib.Logic.Basic

namespace Pintos

theorem bind_ok_iff {ε α β : Type} {x : Except ε α} {f : α → Except ε β} {b : β} :
    (x >>= f) = .ok b ↔ ∃ a, x = .ok a ∧ f a = .ok b := by
  rcases x with fault | a
  · constructor
    · intro h
      cases h
    · rintro ⟨_, h, _⟩
      cases h
  · constructor
    · intro h
      exact ⟨a, rfl, h⟩
    · rintro ⟨_, h, hf⟩
      cases h
      exact hf

theorem bind_error_iff {ε α β : Type} {x : Except ε α} {f : α → Except ε β} {fault : ε} :
    (x >>= f) = .error fault ↔ x = .error fault ∨ ∃ a, x = .ok a ∧ f a = .error fault := by
  rcases x with fault' | a
  · constructor
    · intro h
      cases h
      exact .inl rfl
    · rintro (h | ⟨_, h, _⟩)
      · cases h
        rfl
      · cases h
  · constructor
    · intro h
      exact .inr ⟨a, rfl, h⟩
    · rintro (h | ⟨_, h, hf⟩)
      · cases h
      · cases h
        exact hf

def faultOf {ε α : Type} : Except ε α → Option ε
  | .ok _ => none
  | .error fault => some fault

theorem eq_error_of_faultOf {ε α : Type} {x : Except ε α} {fault : ε}
    (h : faultOf x = some fault) : x = .error fault := by
  cases x with
  | ok a => cases h
  | error fault' =>
    cases h
    rfl

end Pintos
