import Pintos.Lib.PriorityQueue
import Pintos.Lib.TransitionSystem

namespace Pintos.Lib

open Function List

abbrev FifoLevels (π τ : Type*) := π → List τ

namespace FifoLevels

variable {π τ : Type*}

inductive Event (π τ : Type*)
  | enqueued (p : π) (t : τ)
  | returned (t : Option τ)
deriving DecidableEq

def enqueue [DecidableEq π] (levels : FifoLevels π τ) (p : π) (t : τ) : FifoLevels π τ :=
  update levels p (levels p ++ [t])

inductive Step [LinearOrder π] (idle : Option τ) :
    FifoLevels π τ → Event π τ → FifoLevels π τ → Prop
  | enqueue (levels : FifoLevels π τ) (p : π) (t : τ) :
      Step idle levels (.enqueued p t) (levels.enqueue p t)
  | serve {levels : FifoLevels π τ} {p : π} {t : τ} {rest : List τ} (hp : levels p = t :: rest)
      (habove : ∀ q, p < q → levels q = []) :
      Step idle levels (.returned (some t)) (update levels p rest)
  | idle {levels : FifoLevels π τ} (hempty : ∀ p, levels p = []) :
      Step idle levels (.returned idle) levels

def system [LinearOrder π] (idle : Option τ) : System (FifoLevels π τ) (Event π τ) where
  init levels := ∀ p, levels p = []
  step := Step idle

theorem Step.serves [LinearOrder π] {idle u : Option τ} {levels levels' : FifoLevels π τ} {p : π}
    {t : τ} {rest : List τ} (h : Step idle levels (.returned u) levels')
    (hp : levels p = t :: rest) (habove : ∀ q, p < q → levels q = []) :
    u = some t ∧ levels' = update levels p rest := by
  cases h with
  | @serve p' _ _ hp' habove' =>
    obtain rfl : p' = p := by
      rcases lt_trichotomy p' p with hlt | heq | hgt
      · simp [habove' p hlt] at hp
      · exact heq
      · simp [habove p' hgt] at hp'
    cases hp.symm.trans hp'
    exact ⟨rfl, rfl⟩
  | idle hempty => simp [hempty p] at hp

theorem enqueue_eq_append [DecidableEq π] (levels : FifoLevels π τ) (p q : π) (t : τ) :
    ∃ more, levels.enqueue q t p = levels p ++ more := by
  by_cases h : p = q
  · subst h
    exact ⟨[t], update_self ..⟩
  · exact ⟨[], by rw [enqueue, update_of_ne h, append_nil]⟩

section OfList

variable [LinearOrder π] {pri pri' : τ → π} {e : τ} {l : List τ}

def ofList (pri : τ → π) (l : List τ) : FifoLevels π τ := fun p => l.filter fun t => pri t = p

theorem ofList_congr (h : ∀ t ∈ l, pri t = pri' t) : ofList pri l = ofList pri' l := by
  funext p
  apply filter_congr
  intro t ht
  rw [h t ht]

theorem ofList_eq_nil_iff : (∀ p, ofList pri l p = []) ↔ l = [] := by
  constructor
  · intro h
    cases l with
    | nil => rfl
    | cons t l =>
      have hmem : t ∈ ofList pri (t :: l) (pri t) := by simp [ofList]
      rw [h (pri t)] at hmem
      cases hmem
  · rintro rfl p
    rfl

theorem ofList_cons (pri : τ → π) (e : τ) (l : List τ) (p : π) :
    ofList pri (e :: l) p = if pri e = p then e :: ofList pri l p else ofList pri l p := by
  simp [ofList, filter_cons]

theorem ofList_eq_nil_of_lt {p : π} (h : PriorityQueue.Descending pri (e :: l)) (hp : pri e < p) :
    ofList pri (e :: l) p = [] := by
  apply filter_eq_nil_iff.mpr
  intro t ht
  have hle := h.le_head ht
  simpa using (hle.trans_lt hp).ne

theorem ofList_insert_self (h : PriorityQueue.Descending pri l) :
    ofList pri (PriorityQueue.insert pri e l) (pri e) = ofList pri l (pri e) ++ [e] := by
  induction l with
  | nil => simp [PriorityQueue.insert, ofList]
  | cons b l ih =>
    have hl : PriorityQueue.Descending pri l := (pairwise_cons.mp h).2
    rw [PriorityQueue.insert_cons]
    split_ifs with hb
    · rw [ofList_cons, if_pos rfl, ofList_eq_nil_of_lt h hb, nil_append]
    · rw [ofList_cons, ofList_cons, ih hl]
      split_ifs <;> rfl

theorem ofList_insert_of_ne {p : π} (hp : pri e ≠ p) :
    ofList pri (PriorityQueue.insert pri e l) p = ofList pri l p := by
  induction l with
  | nil => simp [PriorityQueue.insert, ofList, hp]
  | cons b l ih =>
    rw [PriorityQueue.insert_cons]
    split_ifs
    · rw [ofList_cons, if_neg hp]
    · rw [ofList_cons, ofList_cons, ih]

theorem ofList_insert (h : PriorityQueue.Descending pri l) :
    ofList pri (PriorityQueue.insert pri e l) = (ofList pri l).enqueue (pri e) e := by
  funext p
  by_cases hp : pri e = p
  · subst hp
    simp [enqueue, ofList_insert_self h]
  · simp [enqueue, ofList_insert_of_ne hp, Ne.symm hp]

theorem step_serve {idle : Option τ} (h : PriorityQueue.Descending pri (e :: l)) :
    Step idle (ofList pri (e :: l)) (.returned (some e)) (ofList pri l) := by
  have hfront : ofList pri (e :: l) (pri e) = e :: ofList pri l (pri e) := by simp [ofList_cons]
  have hrest : ofList pri l = update (ofList pri (e :: l)) (pri e)
      (ofList pri l (pri e)) := by
    funext p
    by_cases hp : p = pri e
    · subst hp
      simp
    · simp [ofList_cons, hp, Ne.symm hp]
  rw [hrest]
  exact .serve hfront fun q hq => ofList_eq_nil_of_lt h hq

end OfList

end FifoLevels

end Pintos.Lib
