import Mathlib.Order.Defs.Unbundled

namespace Pintos.Lib

-- Programs over a state that stop with a fault or return.
variable {σ ε α β : Type}

section Run

variable {x : StateT σ (Except ε) α} {f : α → StateT σ (Except ε) β} {s s' : σ} {a : α}
  {fault : ε}

theorem bind_of_ok (h : x s = .ok (a, s')) : (x >>= f) s = f a s' := by
  change (x s).bind _ = _
  rw [h]
  rfl

theorem bind_of_error (h : x s = .error fault) : (x >>= f) s = .error fault := by
  change (x s).bind _ = _
  rw [h]
  rfl

end Run

-- From a state that meets `P` the program returns in one that meets `P` and that `R` relates
-- to the first, or it stops with one of the faults `E`.
def Keeps (P : σ → Prop) (R : σ → σ → Prop) (E : ε → Prop) (x : StateT σ (Except ε) α) : Prop :=
  ∀ s, P s → match x s with
    | .ok (_, s') => R s s' ∧ P s'
    | .error fault => E fault

namespace Keeps

variable {P : σ → Prop} {R : σ → σ → Prop} {E : ε → Prop} {x : StateT σ (Except ε) α} {s : σ}

theorem ok (h : Keeps P R E x) {s' : σ} {a : α} (hP : P s) (hx : x s = .ok (a, s')) :
    R s s' ∧ P s' := by
  have hkept := h s hP
  rwa [hx] at hkept

theorem error (h : Keeps P R E x) {fault : ε} (hP : P s) (hx : x s = .error fault) : E fault := by
  have hkept := h s hP
  rwa [hx] at hkept

theorem throw {fault : ε} (h : E fault) : Keeps P R E (throw fault : StateT σ (Except ε) α) :=
  fun _ _ => h

theorem bind [IsTrans σ R] {f : α → StateT σ (Except ε) β} (hx : Keeps P R E x)
    (hf : ∀ a, Keeps P R E (f a)) : Keeps P R E (x >>= f) := by
  intro s hP
  match hrun : x s with
  | .error fault =>
    rw [bind_of_error hrun]
    exact hx.error hP hrun
  | .ok (a, s') =>
    rw [bind_of_ok hrun]
    obtain ⟨hR, hP'⟩ := hx.ok hP hrun
    match hrun' : f a s' with
    | .error fault => exact (hf a).error hP' hrun'
    | .ok (b, s'') =>
      obtain ⟨hR', hP''⟩ := (hf a).ok hP' hrun'
      exact ⟨IsTrans.trans _ _ _ hR hR', hP''⟩

variable [Std.Refl R]

theorem pure {a : α} : Keeps P R E (pure a : StateT σ (Except ε) α) := fun s hP => ⟨refl s, hP⟩

theorem forM [IsTrans σ R] {γ : Type} {f : γ → StateT σ (Except ε) PUnit}
    (hf : ∀ c, Keeps P R E (f c)) (l : List γ) : Keeps P R E (l.forM f) := by
  induction l with
  | nil => exact pure
  | cons c l ih =>
    change Keeps P R E (f c >>= fun _ => l.forM f)
    exact (hf c).bind fun _ => ih

end Keeps

end Pintos.Lib
