import Mathlib.Logic.Relation

namespace Pintos.Lib

-- A labelled transition system. A label is what the environment chooses:
-- the operation called, or the interrupt delivered.
structure System (σ ι : Type*) where
  init : σ → Prop
  step : σ → ι → σ → Prop

namespace System

variable {σ ι : Type*} {S : System σ ι} {guard : σ → ι → Prop} {s s' : σ} {a : ι}

-- States reached by runs all of whose steps meet `guard`, a condition on the
-- state before the step and on its label.
inductive ReachableVia (S : System σ ι) (guard : σ → ι → Prop) : σ → Prop
  | init {s : σ} : S.init s → ReachableVia S guard s
  | step {s s' : σ} {a : ι} :
      ReachableVia S guard s → guard s a → S.step s a s' → ReachableVia S guard s'

def Reachable (S : System σ ι) : σ → Prop := S.ReachableVia fun _ _ => True

theorem Reachable.init (h : S.init s) : S.Reachable s := ReachableVia.init h

theorem Reachable.next (h : S.Reachable s) (hs : S.step s a s') : S.Reachable s' :=
  ReachableVia.step h trivial hs

theorem ReachableVia.reachable (h : S.ReachableVia guard s) : S.Reachable s := by
  induction h with
  | init hi => exact .init hi
  | step _ _ hs ih => exact ih.next hs

-- The induction over a run, packaged once. The step may use that the state it
-- leaves is reachable, so invariants can be stacked on one another.
theorem ReachableVia.invariant {P : σ → Prop} (h : S.ReachableVia guard s)
    (hinit : ∀ s, S.init s → P s)
    (hstep : ∀ s a s', S.ReachableVia guard s → P s → guard s a → S.step s a s' → P s') :
    P s := by
  induction h with
  | init hi => exact hinit _ hi
  | step hr hg hs ih => exact hstep _ _ _ hr ih hg hs

theorem Reachable.invariant {P : σ → Prop} (h : S.Reachable s) (hinit : ∀ s, S.init s → P s)
    (hstep : ∀ s a s', S.Reachable s → P s → S.step s a s' → P s') : P s :=
  ReachableVia.invariant h hinit fun s a s' hr hp _ hs => hstep s a s' hr hp hs

inductive Trace (S : System σ ι) : σ → List ι → σ → Prop
  | nil {s : σ} : Trace S s [] s
  | cons {s m s' : σ} {a : ι} {labels : List ι} :
      S.step s a m → Trace S m labels s' → Trace S s (a :: labels) s'

theorem Trace.append {m : σ} {before after : List ι} (h : S.Trace s before m)
    (h' : S.Trace m after s') : S.Trace s (before ++ after) s' := by
  induction h with
  | nil => exact h'
  | cons hstep _ ih => exact .cons hstep (ih h')

theorem Trace.reachable {labels : List ι} (h : S.Trace s labels s') (hs : S.Reachable s) :
    S.Reachable s' := by
  induction h with
  | nil => exact hs
  | cons hstep _ ih => exact ih (hs.next hstep)

-- A forward simulation in which one concrete step stands for any number of
-- abstract ones, its label being theirs.
theorem Trace.simulates {ρ κ : Type*} {T : System ρ κ} {U : System σ (List κ)}
    {labels : List (List κ)} (R : σ → ρ → Prop)
    (hstep : ∀ s label s' x, R s x → U.step s label s' → ∃ x', T.Trace x label x' ∧ R s' x')
    (h : U.Trace s labels s') : ∀ x, R s x → ∃ x', T.Trace x labels.flatten x' ∧ R s' x' := by
  induction h with
  | nil => exact fun x hx => ⟨x, .nil, hx⟩
  | cons hs _ ih =>
    intro x hx
    obtain ⟨y, hxy, hy⟩ := hstep _ _ _ x hx hs
    obtain ⟨z, hyz, hz⟩ := ih y hy
    exact ⟨z, hxy.append hyz, hz⟩

-- While `P` holds, no step raises `rank` and each step that counts lowers it, until
-- `Q` is reached. A run with more counting steps than the rank has passed a `Q`.
theorem Trace.reaches {labels : List ι} (P Q : σ → Prop) (own : ι → Bool) (rank : σ → Nat)
    (hstep : ∀ s a s', P s → S.step s a s' →
      Q s' ∨ P s' ∧ rank s' ≤ rank s ∧ (own a = true → rank s' < rank s))
    (h : S.Trace s labels s') (hs : P s) (hrank : rank s < labels.countP own) :
    ∃ before after m, labels = before ++ after ∧ S.Trace s before m ∧ Q m := by
  induction h with
  | nil => simp at hrank
  | @cons s m s' a labels hsm _ ih =>
    rcases hstep s a m hs hsm with hq | ⟨hp, hle, hlt⟩
    · exact ⟨[a], labels, m, rfl, .cons hsm .nil, hq⟩
    · have hleft : rank m < labels.countP own := by
        by_cases ha : own a = true
        · have hdrop := hlt ha
          rw [List.countP_cons_of_pos ha] at hrank
          omega
        · rw [List.countP_cons_of_neg ha] at hrank
          omega
      obtain ⟨before, after, n, rfl, htrace, hq⟩ := ih hp hleft
      exact ⟨a :: before, after, n, rfl, .cons hsm htrace, hq⟩

def ofExec (start : σ) (exec : σ → ι → Option σ) : System σ ι where
  init s := s = start
  step s a s' := exec s a = some s'

def execAll (exec : σ → ι → Option σ) : List ι → σ → Option σ
  | [], s => some s
  | a :: labels, s => (exec s a).bind (execAll exec labels)

theorem reachableVia_of_execAll {exec : σ → ι → Option σ} (labels : List ι) (s s' : σ)
    (hexec : ∀ s a s', exec s a = some s' → guard s a ∧ S.step s a s') (hs : S.ReachableVia guard s)
    (h : execAll exec labels s = some s') : S.ReachableVia guard s' := by
  induction labels generalizing s with
  | nil =>
    cases h
    exact hs
  | cons a labels ih =>
    obtain ⟨m, hm, hrest⟩ := Option.bind_eq_some_iff.mp h
    obtain ⟨hguard, hstep⟩ := hexec s a m hm
    exact ih m (hs.step hguard hstep) hrest

theorem reachable_of_execAll {exec : σ → ι → Option σ} (labels : List ι) (s s' : σ)
    (hexec : ∀ s a s', exec s a = some s' → S.step s a s') (hs : S.Reachable s)
    (h : execAll exec labels s = some s') : S.Reachable s' :=
  reachableVia_of_execAll labels s s' (fun s a s' hs => ⟨trivial, hexec s a s' hs⟩) hs h

def leadsTo (start : σ) (exec : σ → ι → Option σ) (labels : List ι) (p : σ → Bool) : Bool :=
  match execAll exec labels start with
  | none => false
  | some s => p s

theorem reachableVia_of_leadsTo (start : σ) (exec : σ → ι → Option σ) (labels : List ι)
    (p : σ → Bool) (hstart : S.init start)
    (hexec : ∀ s a s', exec s a = some s' → guard s a ∧ S.step s a s')
    (h : leadsTo start exec labels p = true) : ∃ s, S.ReachableVia guard s ∧ p s = true := by
  unfold leadsTo at h
  split at h
  · cases h
  · rename_i s hs
    exact ⟨s, reachableVia_of_execAll labels start s hexec (.init hstart) hs, h⟩

theorem exists_of_leadsTo (start : σ) (exec : σ → ι → Option σ) (labels : List ι)
    (p : σ → Bool) (h : leadsTo start exec labels p = true) :
    ∃ s, (ofExec start exec).Reachable s ∧ p s = true :=
  reachableVia_of_leadsTo start exec labels p rfl (fun _ _ _ hs => ⟨trivial, hs⟩) h

def tryExec {ε : Type*} (guard : σ → ι → Bool) (exec : σ → ι → Except ε σ) (s : σ) (a : ι) :
    Option σ :=
  if guard s a then (exec s a).toOption else none

theorem tryExec_eq_some {ε : Type*} {guard : σ → ι → Bool} {exec : σ → ι → Except ε σ}
    (h : tryExec guard exec s a = some s') : guard s a = true ∧ exec s a = .ok s' := by
  unfold tryExec at h
  split at h
  · rename_i hguard
    refine ⟨hguard, ?_⟩
    cases hexec : exec s a with
    | error fault => simp [hexec, Except.toOption] at h
    | ok s1 =>
      simp only [hexec, Except.toOption, Option.some.injEq] at h
      rw [h]
  · cases h

end System

end Pintos.Lib
