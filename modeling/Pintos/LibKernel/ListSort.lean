import Mathlib.Order.Antisymmetrization
import Pintos.Lib.PriorityQueue
import Pintos.Lib.Program

namespace Pintos.LibKernel.ListSort

open Lib List

inductive Fault
  | assertion
deriving DecidableEq

-- The state is the comparisons made so far, each with its two elements.
abbrev Sorting (α : Type) := StateT (List (α × α)) (Except Fault)

variable {α : Type} {n : Nat}

def compare (less : α → α → Bool) (a b : α) : Sorting α Bool :=
  fun log => .ok (less a b, log ++ [(a, b)])

def assert (b : Bool) : Sorting α Unit := fun log => if b then .ok ((), log) else .error .assertion

-- The functions of list.c on the elements from a place of the list on. Of find_end_of_run:
-- the rest of the run that `x` starts, and what follows it.
def findEndOfRun (less : α → α → Bool) (x : α) : List α → Sorting α (List α × List α)
  | [] => return ([], [])
  | y :: ys => do
      let out ← compare less y x
      if out then return ([], y :: ys)
      else
        let (run, rest) ← findEndOfRun less y ys
        return (y :: run, rest)

def isSorted (less : α → α → Bool) : List α → Sorting α Bool
  | [] => return true
  | [_] => return true
  | x :: y :: rest => do
      let out ← compare less y x
      if out then return false else isSorted less (y :: rest)

-- Every round of the loop passes an element of one of the runs.
def mergeLoop (less : α → α → Bool) : Nat → List α → List α → Sorting α (List α)
  | n + 1, a :: as, b :: bs => do
      let out ← compare less b a
      if out then
        let merged ← mergeLoop less n (a :: as) bs
        return b :: merged
      else
        let merged ← mergeLoop less n as (b :: bs)
        return a :: merged
  | _, as, bs => return as ++ bs

def inplaceMerge (less : α → α → Bool) (as bs : List α) : Sorting α (List α) := do
  assert (← isSorted less as)
  assert (← isSorted less bs)
  mergeLoop less (as.length + bs.length) as bs

-- One pass of list_sort: the list it leaves and output_run_cnt. Every round passes an element.
def mergePass (less : α → α → Bool) : Nat → List α → Sorting α (List α × Nat)
  | fuel + 1, x :: xs => do
      let (run, rest) ← findEndOfRun less x xs
      match rest with
      | [] => return (x :: run, 1)
      | y :: ys =>
        let (run', rest) ← findEndOfRun less y ys
        let merged ← inplaceMerge less (x :: run) (y :: run')
        let (out, cnt) ← mergePass less fuel rest
        return (merged ++ out, cnt + 1)
  | _, l => return (l, 0)

def sortLoop (less : α → α → Bool) : Nat → List α → Sorting α (List α)
  | 0, l => return l
  | fuel + 1, l => do
      let (l, cnt) ← mergePass less l.length l
      if 1 < cnt then sortLoop less fuel l else return l

-- A pass halves the number of runs, so there are not more passes than elements, and one.
def listSort (less : α → α → Bool) (l : List α) : Sorting α (List α) := do
  let l ← sortLoop less (l.length + 1) l
  assert (← isSorted less l)
  return l

section Correct

variable {β : Type} [LinearOrder β] (pri : α → β)

def higher (a b : α) : Bool := decide (pri b < pri a)

def Gives {γ : Type} (x : Sorting α γ) (v : γ) : Prop := ∀ log, ∃ log', x log = .ok (v, log')

variable {pri}

theorem gives_pure {γ : Type} (v : γ) : Gives (pure v : Sorting α γ) v := fun log => ⟨log, rfl⟩

theorem Gives.bind {γ δ : Type} {x : Sorting α γ} {f : γ → Sorting α δ} {v : γ} {w : δ}
    (hx : Gives x v) (hf : Gives (f v) w) : Gives (x >>= f) w := by
  intro log
  obtain ⟨log1, h1⟩ := hx log
  obtain ⟨log2, h2⟩ := hf log1
  exact ⟨log2, (bind_of_ok h1).trans h2⟩

theorem gives_compare (less : α → α → Bool) (a b : α) : Gives (compare less a b) (less a b) :=
  fun _ => ⟨_, rfl⟩

theorem gives_assert : Gives (assert true : Sorting α Unit) () := fun log => ⟨log, rfl⟩

theorem higher_eq_true {a b : α} : higher pri a b = true ↔ pri b < pri a := decide_eq_true_iff

variable (pri) in
theorem findEndOfRun_gives (x : α) (xs : List α) :
    ∃ run rest, Gives (findEndOfRun (higher pri) x xs) (run, rest) ∧ xs = run ++ rest ∧
      PriorityQueue.Descending pri (x :: run) ∧
      ∀ piece behind, xs = piece ++ behind → PriorityQueue.Descending pri (x :: piece) →
        rest <:+ behind := by
  induction xs generalizing x with
  | nil =>
    refine ⟨[], [], gives_pure _, rfl, pairwise_singleton _ _, fun _ behind _ _ => ?_⟩
    exact nil_suffix
  | cons y ys ih =>
    obtain ⟨run, rest, hgives, hsplit, hsorted, hgreedy⟩ := ih y
    unfold findEndOfRun
    by_cases hlt : pri x < pri y
    · refine ⟨[], y :: ys, (gives_compare _ y x).bind ?_, rfl, pairwise_singleton _ _,
        fun piece behind hxs hpiece => ?_⟩
      · rw [if_pos (higher_eq_true.mpr hlt)]
        exact gives_pure _
      · match piece, hxs with
        | [], hxs => exact ⟨[], hxs⟩
        | z :: piece, hxs =>
          obtain rfl := (List.cons.inj hxs).1
          exact absurd (hpiece.le_head (mem_cons_of_mem _ mem_cons_self))
            (not_le.mpr hlt)
    · refine ⟨y :: run, rest, (gives_compare _ y x).bind ?_, by rw [hsplit]; rfl, ?_,
        fun piece behind hxs hpiece => ?_⟩
      · rw [if_neg (mt higher_eq_true.mp hlt)]
        exact hgives.bind (gives_pure _)
      · refine pairwise_cons.mpr ⟨fun z hz => ?_, hsorted⟩
        exact (hsorted.le_head hz).trans (not_lt.mp hlt)
      · match piece, hxs with
        | [], hxs =>
          have hbehind : behind = (y :: run) ++ rest := hxs.symm.trans (hsplit ▸ rfl)
          exact hbehind ▸ suffix_append (y :: run) rest
        | z :: piece, hxs =>
          obtain ⟨rfl, hys⟩ := List.cons.inj hxs
          exact hgreedy piece behind hys (pairwise_cons.mp hpiece).2

theorem isSorted_gives {l : List α} (h : PriorityQueue.Descending pri l) :
    Gives (isSorted (higher pri) l) true := by
  match l, h with
  | [], _ => exact gives_pure _
  | [_], _ => exact gives_pure _
  | x :: y :: rest, h =>
    obtain ⟨hx, hrest⟩ := pairwise_cons.mp h
    unfold isSorted
    refine (gives_compare _ y x).bind ?_
    have hle := not_lt.mpr (hx y mem_cons_self)
    rw [if_neg (mt higher_eq_true.mp hle)]
    exact isSorted_gives hrest

structure Arranged (pri : α → β) (l out : List α) : Prop where
  perm : out.Perm l
  stable : ∀ p, out.filter (fun a => decide (pri a = p)) = l.filter fun a => decide (pri a = p)

namespace Arranged

theorem refl (l : List α) : Arranged pri l l := ⟨List.Perm.refl l, fun _ => rfl⟩

theorem trans {l m out : List α} (h : Arranged pri l m) (h' : Arranged pri m out) :
    Arranged pri l out :=
  ⟨h'.perm.trans h.perm, fun p => (h'.stable p).trans (h.stable p)⟩

theorem append {l out l' out' : List α} (h : Arranged pri l out) (h' : Arranged pri l' out') :
    Arranged pri (l ++ l') (out ++ out') := by
  refine ⟨h.perm.append h'.perm, fun p => ?_⟩
  rw [filter_append, filter_append, h.stable, h'.stable]

theorem cons {l out : List α} (h : Arranged pri l out) (a : α) : Arranged pri (a :: l) (a :: out) :=
  (refl [a]).append h

theorem front {as bs : List α} {b : α} (h : ∀ a ∈ as, pri a < pri b) :
    Arranged pri (as ++ b :: bs) (b :: (as ++ bs)) := by
  refine ⟨perm_middle.symm, fun p => ?_⟩
  rw [filter_append]
  by_cases hp : pri b = p
  · have hnone : as.filter (fun a => decide (pri a = p)) = [] := by
      rw [filter_eq_nil_iff]
      intro a ha hpa
      have hlt := h a ha
      rw [hp, of_decide_eq_true hpa] at hlt
      exact lt_irrefl _ hlt
    simp only [filter_cons, filter_append, hnone, nil_append]
  · simp [filter_append, hp]

end Arranged

theorem mergeLoop_gives (fuel : Nat) (as bs : List α) (hfuel : as.length + bs.length ≤ fuel)
    (has : PriorityQueue.Descending pri as) (hbs : PriorityQueue.Descending pri bs) :
    ∃ out, Gives (mergeLoop (higher pri) fuel as bs) out ∧ PriorityQueue.Descending pri out ∧
      Arranged pri (as ++ bs) out := by
  induction fuel generalizing as bs with
  | zero =>
    obtain rfl : as = [] := eq_nil_of_length_eq_zero (by omega)
    obtain rfl : bs = [] := eq_nil_of_length_eq_zero (by omega)
    exact ⟨[], gives_pure _, List.Pairwise.nil, Arranged.refl _⟩
  | succ fuel ih =>
    match as, bs with
    | [], bs => exact ⟨bs, gives_pure _, hbs, Arranged.refl _⟩
    | a :: as, [] =>
      refine ⟨a :: as ++ [], gives_pure _, ?_, Arranged.refl _⟩
      rwa [append_nil]
    | a :: as, b :: bs =>
      simp only [length_cons] at hfuel
      obtain ⟨ha, has'⟩ := pairwise_cons.mp has
      obtain ⟨hb, hbs'⟩ := pairwise_cons.mp hbs
      unfold mergeLoop
      by_cases hlt : pri a < pri b
      · obtain ⟨out, hgives, hsorted, harr⟩ :=
          ih (a :: as) bs (by simp only [length_cons]; omega) has hbs'
        refine ⟨b :: out, (gives_compare _ b a).bind ?_, ?_, ?_⟩
        · rw [if_pos (higher_eq_true.mpr hlt)]
          exact hgives.bind (gives_pure _)
        · refine pairwise_cons.mpr ⟨fun c hc => ?_, hsorted⟩
          rcases mem_append.mp (harr.perm.mem_iff.mp hc) with hc | hc
          · exact (has.le_head hc).trans hlt.le
          · exact hb c hc
        · have hfront : ∀ c ∈ a :: as, pri c < pri b := fun c hc =>
            (has.le_head hc).trans_lt hlt
          exact (Arranged.front hfront).trans (harr.cons b)
      · obtain ⟨out, hgives, hsorted, harr⟩ :=
          ih as (b :: bs) (by simp only [length_cons]; omega) has' hbs
        refine ⟨a :: out, (gives_compare _ b a).bind ?_, ?_, harr.cons a⟩
        · rw [if_neg (mt higher_eq_true.mp hlt)]
          exact hgives.bind (gives_pure _)
        · refine pairwise_cons.mpr ⟨fun c hc => ?_, hsorted⟩
          rcases mem_append.mp (harr.perm.mem_iff.mp hc) with hc | hc
          · exact ha c hc
          · exact (hbs.le_head hc).trans (not_lt.mp hlt)

theorem inplaceMerge_gives {as bs : List α} (has : PriorityQueue.Descending pri as)
    (hbs : PriorityQueue.Descending pri bs) :
    ∃ out, Gives (inplaceMerge (higher pri) as bs) out ∧ PriorityQueue.Descending pri out ∧
      Arranged pri (as ++ bs) out := by
  obtain ⟨out, hgives, hout⟩ := mergeLoop_gives _ as bs le_rfl has hbs
  refine ⟨out, ?_, hout⟩
  exact (isSorted_gives has).bind (gives_assert.bind
    ((isSorted_gives hbs).bind (gives_assert.bind hgives)))

inductive Runs (pri : α → β) : Nat → List α → Prop
  | nil : Runs pri 0 []
  | cons {x : α} {run rest : List α} {n : Nat} (sorted : PriorityQueue.Descending pri (x :: run))
      (behind : Runs pri n rest) : Runs pri (n + 1) (x :: run ++ rest)

namespace Runs

theorem singletons (l : List α) : Runs pri l.length l := by
  induction l with
  | nil => exact .nil
  | cons x l ih =>
    have hrun : PriorityQueue.Descending pri (x :: []) := pairwise_singleton _ _
    exact .cons hrun ih

theorem suffix {l v : List α} (h : Runs pri n l) (hv : v <:+ l) : ∃ m ≤ n, Runs pri m v := by
  induction h generalizing v with
  | nil =>
    obtain rfl := suffix_nil.mp hv
    exact ⟨0, le_rfl, .nil⟩
  | @cons x run rest n hsorted hbehind ih =>
    obtain ⟨u, hu⟩ := hv
    rcases append_eq_append_iff.mp hu with ⟨as, hrun, hvr⟩ | ⟨bs, _, hrest⟩
    · match as with
      | [] =>
        obtain ⟨m, hm, hruns⟩ := ih (v := v) ⟨[], hvr⟩
        exact ⟨m, by omega, hruns⟩
      | a :: as =>
        refine ⟨n + 1, le_rfl, hvr ▸ .cons ?_ hbehind⟩
        rw [hrun] at hsorted
        exact (pairwise_append.mp hsorted).2.1
    · obtain ⟨m, hm, hruns⟩ := ih ⟨bs, hrest.symm⟩
      exact ⟨m, by omega, hruns⟩

theorem sorted {l : List α} (h : Runs pri n l) (hn : n ≤ 1) : PriorityQueue.Descending pri l := by
  cases h with
  | nil => exact List.Pairwise.nil
  | cons hsorted hrest =>
    cases hrest with
    | nil => rwa [append_nil]
    | cons => omega

end Runs

theorem findEndOfRun_runs {x : α} {xs : List α} (h : Runs pri n (x :: xs)) :
    ∃ run rest m, Gives (findEndOfRun (higher pri) x xs) (run, rest) ∧ xs = run ++ rest ∧
      PriorityQueue.Descending pri (x :: run) ∧ m + 1 ≤ n ∧ Runs pri m rest := by
  obtain ⟨run, rest, hgives, hsplit, hsorted, hgreedy⟩ := findEndOfRun_gives pri x xs
  generalize hl : x :: xs = l at h
  match h with
  | @Runs.cons _ _ _ _ x' piece behind n hpiece hbehind =>
    obtain ⟨rfl, hxs⟩ := List.cons.inj hl
    obtain ⟨m, hm, hruns⟩ := hbehind.suffix (hgreedy piece behind hxs hpiece)
    exact ⟨run, rest, m, hgives, hsplit, hsorted, by omega, hruns⟩

theorem mergePass_gives (fuel : Nat) {l : List α} (hfuel : l.length ≤ fuel) (h : Runs pri n l) :
    ∃ out cnt, Gives (mergePass (higher pri) fuel l) (out, cnt) ∧ Runs pri cnt out ∧
      2 * cnt ≤ n + 1 ∧ Arranged pri l out := by
  induction fuel generalizing n l with
  | zero =>
    obtain rfl := eq_nil_of_length_eq_zero (Nat.le_zero.mp hfuel)
    exact ⟨[], 0, gives_pure _, .nil, by omega, Arranged.refl _⟩
  | succ fuel ih =>
    match l with
    | [] => exact ⟨[], 0, gives_pure _, .nil, by omega, Arranged.refl _⟩
    | x :: xs =>
      obtain ⟨run, rest, m, hrun, hsplit, hsorted, hm, hrest⟩ := findEndOfRun_runs h
      unfold mergePass
      match rest with
      | [] =>
        rw [append_nil] at hsplit
        refine ⟨x :: run, 1, hrun.bind (gives_pure _), ?_, by omega, ?_⟩
        · have hone : Runs pri 1 (x :: run ++ []) := .cons hsorted .nil
          rwa [append_nil] at hone
        · rw [hsplit]
          exact Arranged.refl _
      | y :: ys =>
        obtain ⟨run', rest', m', hrun', hsplit', hsorted', hm', hrest'⟩ := findEndOfRun_runs hrest
        obtain ⟨merged, hmerge, hmsorted, hmarr⟩ := inplaceMerge_gives hsorted hsorted'
        have hlen : rest'.length ≤ fuel := by
          rw [hsplit, hsplit'] at hfuel
          simp only [length_cons, length_append] at hfuel
          omega
        obtain ⟨out, cnt, hpass, hruns, hcnt, harr⟩ := ih hlen hrest'
        refine ⟨merged ++ out, cnt + 1, ?_, ?_, by omega, ?_⟩
        · exact hrun.bind (hrun'.bind (hmerge.bind (hpass.bind (gives_pure _))))
        · match merged with
          | [] =>
            have hnil := hmarr.perm.length_eq
            simp at hnil
          | z :: zs => exact .cons hmsorted hruns
        · have hlist : x :: xs = (x :: run ++ y :: run') ++ rest' := by
            rw [hsplit, hsplit']
            simp
          rw [hlist]
          exact hmarr.append harr

theorem sortLoop_gives (fuel : Nat) {l : List α} (hfuel : n < fuel) (h : Runs pri n l) :
    ∃ out, Gives (sortLoop (higher pri) fuel l) out ∧ PriorityQueue.Descending pri out ∧
      Arranged pri l out := by
  induction fuel generalizing n l with
  | zero => omega
  | succ fuel ih =>
    obtain ⟨out, cnt, hpass, hruns, hcnt, harr⟩ := mergePass_gives l.length le_rfl h
    unfold sortLoop
    by_cases hone : 1 < cnt
    · obtain ⟨out', hgives, hsorted, harr'⟩ := ih (by omega) hruns
      refine ⟨out', hpass.bind ?_, hsorted, harr.trans harr'⟩
      simp only [hone, if_true]
      exact hgives
    · refine ⟨out, hpass.bind ?_, hruns.sorted (not_lt.mp hone), harr⟩
      simp only [hone, if_false]
      exact gives_pure _

variable (pri) in
theorem listSort_gives (l : List α) :
    ∃ out, Gives (listSort (higher pri) l) out ∧ PriorityQueue.Descending pri out ∧
      Arranged pri l out := by
  have hruns : Runs pri l.length l := Runs.singletons l
  obtain ⟨out, hgives, hsorted, harr⟩ := sortLoop_gives (l.length + 1) (Nat.lt_succ_self _) hruns
  refine ⟨out, ?_, hsorted, harr⟩
  exact hgives.bind ((isSorted_gives hsorted).bind (gives_assert.bind (gives_pure _)))

theorem Arranged.first {l rest : List α} {a : α} (h : Arranged pri l (a :: rest))
    (hsorted : PriorityQueue.Descending pri (a :: rest)) :
    ∃ as bs, l = as ++ a :: bs ∧ (∀ b ∈ l, pri b ≤ pri a) ∧ (∀ b ∈ as, pri b < pri a) ∧
      rest.Perm (as ++ bs) := by
  have hmax : ∀ b ∈ l, pri b ≤ pri a := fun b hb => hsorted.le_head (h.perm.mem_iff.mpr hb)
  have hfilter := h.stable (pri a)
  rw [filter_cons_of_pos (by simp)] at hfilter
  obtain ⟨as, bs, hl, hnone, -, -⟩ := filter_eq_cons_iff.mp hfilter.symm
  refine ⟨as, bs, hl, hmax, fun b hb => ?_, ?_⟩
  · refine lt_of_le_of_ne (hmax b (hl ▸ mem_append_left _ hb)) fun heq => ?_
    exact hnone b hb (decide_eq_true heq)
  · have hperm := h.perm
    rw [hl] at hperm
    exact (hperm.trans perm_middle).cons_inv

end Correct

variable {α : Type} {less : α → α → Bool} {l out : List α}

structure StrictWeak (less : α → α → Bool) : Prop where
  irrefl : ∀ a, less a a = false
  trans : ∀ a b c, less a b = true → less b c = true → less a c = true
  incomparable : ∀ a b c, less a b = false → less b a = false → less b c = false →
    less c b = false → less a c = false

theorem StrictWeak.not_less_trans (h : StrictWeak less) {a b c : α} (hab : less a b = false)
    (hbc : less b c = false) : less a c = false := by
  rw [← Bool.not_eq_true] at hab hbc ⊢
  intro hac
  have hba : ¬ less b a = true := fun hba => hbc (h.trans b a c hba hac)
  have hcb : ¬ less c b = true := fun hcb => hab (h.trans a c b hac hcb)
  rw [Bool.not_eq_true] at hab hba hbc hcb
  rw [h.incomparable a b c hab hba hbc hcb] at hac
  cases hac

theorem StrictWeak.exists_pri (h : StrictWeak less) :
    ∃ (β : Type) (_ : LinearOrder β) (pri : α → β), less = higher pri := by
  classical
  let _ : Preorder α :=
    { le := fun a b => less a b = false
      le_refl := h.irrefl
      le_trans := fun _ _ _ => h.not_less_trans }
  have htotal : ∀ a b : α, a ≤ b ∨ b ≤ a := by
    intro a b
    rcases Bool.eq_false_or_eq_true (less a b) with hab | hab
    · refine .inr (Bool.eq_false_iff.mpr fun hba => ?_)
      exact absurd (h.trans a b a hab hba) (by rw [h.irrefl]; decide)
    · exact .inl hab
  have _ : Std.Total (fun a b : α => a ≤ b) := ⟨htotal⟩
  refine ⟨Antisymmetrization α (· ≤ ·), inferInstance, toAntisymmetrization _, ?_⟩
  funext a b
  rw [Bool.eq_iff_iff, higher_eq_true, toAntisymmetrization_lt_toAntisymmetrization_iff,
    lt_iff_le_not_ge]
  constructor
  · intro hab
    have hnot : ¬ a ≤ b := fun hle => absurd hab (hle ▸ by decide)
    exact ⟨(htotal a b).resolve_left hnot, hnot⟩
  · rintro ⟨-, hnot⟩
    exact Bool.not_eq_false _ ▸ hnot

structure StableSorted (less : α → α → Bool) (l out : List α) : Prop where
  perm : out.Perm l
  sorted : out.Pairwise fun a b => less b a = false
  stable : ∀ a, out.filter (fun b => !less a b && !less b a) =
    l.filter fun b => !less a b && !less b a

section Unique

variable {β : Type} [LinearOrder β] {pri : α → β}

theorem Arranged.eq_of_descending (h : Arranged pri l out)
    (hl : PriorityQueue.Descending pri l) (hout : PriorityQueue.Descending pri out) :
    out = l := by
  induction out generalizing l with
  | nil => exact (nil_perm.mp h.perm).symm
  | cons a out ih =>
    obtain ⟨b, l, rfl⟩ := exists_cons_of_ne_nil
      (fun hnil : l = [] => absurd h.perm (hnil ▸ not_perm_cons_nil))
    -- both lists begin with the first element of the greatest priority
    have hpri : pri a = pri b := le_antisymm
      (hl.le_head (h.perm.mem_iff.mp mem_cons_self))
      (hout.le_head (h.perm.mem_iff.mpr mem_cons_self))
    have hclass := h.stable (pri b)
    rw [filter_cons_of_pos (by simpa using hpri), filter_cons_of_pos (by simp)] at hclass
    obtain ⟨rfl, hsame⟩ := List.cons.inj hclass
    refine congrArg (a :: ·) (ih ⟨h.perm.cons_inv, fun p => ?_⟩ (pairwise_cons.mp hl).2
      (pairwise_cons.mp hout).2)
    by_cases hp : pri a = p
    · rw [← hp]
      exact hsame
    · have hstable := h.stable p
      rwa [filter_cons_of_neg (by simpa using hp),
        filter_cons_of_neg (by simpa using hp)] at hstable

theorem stableSorted_higher_iff :
    StableSorted (higher pri) l out ↔ Arranged pri l out ∧ PriorityQueue.Descending pri out := by
  have hsorted : ∀ a b, higher pri b a = false ↔ pri b ≤ pri a := fun a b => by
    rw [← Bool.not_eq_true, higher_eq_true, not_lt]
  have hclass : ∀ a b, (!higher pri a b && !higher pri b a) = decide (pri b = pri a) := by
    intro a b
    rw [Bool.eq_iff_iff, Bool.and_eq_true, Bool.not_eq_true', Bool.not_eq_true', hsorted, hsorted,
      decide_eq_true_iff, le_antisymm_iff, and_comm]
  constructor
  · rintro ⟨hperm, hpairs, hstable⟩
    refine ⟨⟨hperm, fun p => ?_⟩, hpairs.imp (hsorted _ _).mp⟩
    by_cases hp : ∃ a, pri a = p
    · obtain ⟨a, rfl⟩ := hp
      simpa only [hclass] using hstable a
    · have hnone : ∀ m : List α, m.filter (fun a => decide (pri a = p)) = [] := fun m =>
        filter_eq_nil_iff.mpr fun a _ ha => hp ⟨a, of_decide_eq_true ha⟩
      rw [hnone, hnone]
  · rintro ⟨harr, hdesc⟩
    refine ⟨harr.perm, hdesc.imp (hsorted _ _).mpr, fun a => ?_⟩
    simp only [hclass]
    exact harr.stable (pri a)

end Unique

-- No assertion fails, the loop over the passes ends, and there is one list that it can leave.
theorem list_sort_stable (less : α → α → Bool) (h : StrictWeak less) (l : List α) :
    ∃ out, Gives (listSort less l) out ∧
      (∀ fuel, l.length < fuel → Gives (sortLoop less fuel l) out) ∧
      ∀ out', StableSorted less l out' ↔ out' = out := by
  obtain ⟨β, _, pri, rfl⟩ := h.exists_pri
  obtain ⟨out, hgives, hdesc, harr⟩ := listSort_gives pri l
  have hunique : ∀ out', Arranged pri l out' → PriorityQueue.Descending pri out' → out' = out := by
    intro out' harr' hdesc'
    have hsame : Arranged pri out out' :=
      ⟨harr'.perm.trans harr.perm.symm, fun p => (harr'.stable p).trans (harr.stable p).symm⟩
    exact hsame.eq_of_descending hdesc hdesc'
  refine ⟨out, hgives, fun fuel hfuel => ?_, fun out' => ?_⟩
  · have hruns : Runs pri l.length l := Runs.singletons l
    obtain ⟨out', hgives', hdesc', harr'⟩ := sortLoop_gives fuel hfuel hruns
    exact hunique out' harr' hdesc' ▸ hgives'
  · rw [stableSorted_higher_iff]
    refine ⟨fun hout' => hunique out' hout'.1 hout'.2, ?_⟩
    rintro rfl
    exact ⟨harr, hdesc⟩

-- Pairs by their first component.
theorem list_sort_stable_pairs : ∃ out,
    Gives (listSort (fun a b : Nat × Nat => decide (a.1 < b.1)) [(2, 0), (1, 1), (2, 2)]) out ∧
    ∀ out', StableSorted (fun a b : Nat × Nat => decide (a.1 < b.1)) [(2, 0), (1, 1), (2, 2)] out' ↔
      out' = out := by
  obtain ⟨out, hgives, -, hunique⟩ := list_sort_stable
    (fun a b : Nat × Nat => decide (a.1 < b.1))
    ⟨by simp, fun a b c hab hbc => by simp at *; omega, fun a b c _ _ _ _ => by simp at *; omega⟩
    [(2, 0), (1, 1), (2, 2)]
  exact ⟨out, hgives, hunique⟩

end Pintos.LibKernel.ListSort
