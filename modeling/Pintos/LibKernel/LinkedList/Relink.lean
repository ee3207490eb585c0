import Mathlib.Data.List.Chain
import Mathlib.Data.List.Nodup
import Pintos.LibKernel.LinkedList

namespace Pintos.LibKernel.LinkedList

open List Function Header

variable {ι κ : Type}

def Heap.Link (h : Heap ι) (a b : ι) : Prop := h.next a = some b ∧ h.prev b = some a

def Header.cells (list : Header ι) (xs : List ι) : List ι := list.head :: (xs ++ [list.tail])

-- The lists `hdr k` hold the sequences `seq k`, and no cell is in two of them.
structure Represents (h : Heap ι) (hdr : κ → Header ι) (seq : κ → List ι) : Prop where
  linked : ∀ k, ((hdr k).cells (seq k)).IsChain h.Link
  head_prev : ∀ k, h.prev (hdr k).head = none
  tail_next : ∀ k, h.next (hdr k).tail = none
  nodup : ∀ k, ((hdr k).cells (seq k)).Nodup
  disjoint : ∀ k k', k ≠ k' → ((hdr k).cells (seq k)).Disjoint ((hdr k').cells (seq k'))

structure Loose (h : Heap ι) (hdr : κ → Header ι) (seq : κ → List ι) (xs : List ι) : Prop where
  linked : xs.IsChain h.Link
  nodup : xs.Nodup
  apart : ∀ k, xs.Disjoint ((hdr k).cells (seq k))

section Chains

theorem isChain_append_of {R : ι → ι → Prop} {l r : List ι} {p q : ι}
    (hp : l.getLast? = some p) (hq : r.head? = some q) :
    (l ++ r).IsChain R ↔ l.IsChain R ∧ r.IsChain R ∧ R p q := by
  rw [isChain_append, hp, hq]
  simp

-- A chain looks at the next field of all its cells but the last, and at the prev field of
-- all but the first.
theorem isChain_congr {h h' : Heap ι} {c : List ι} (hc : c.IsChain h.Link)
    (hnext : ∀ a ∈ c.dropLast, h'.next a = h.next a) (hprev : ∀ a ∈ c.tail, h'.prev a = h.prev a) :
    c.IsChain h'.Link := by
  induction c with
  | nil => exact isChain_nil
  | cons a c ih =>
    cases c with
    | nil => exact isChain_singleton a
    | cons b c =>
      obtain ⟨hab, hrest⟩ := isChain_cons_cons.mp hc
      refine isChain_cons_cons.mpr ⟨⟨?_, ?_⟩, ih hrest ?_ ?_⟩
      · rw [hnext a (by simp)]
        exact hab.1
      · rw [hprev b (by simp)]
        exact hab.2
      · intro x hx
        exact hnext x (by simp [hx])
      · intro x hx
        exact hprev x (mem_cons_of_mem _ hx)

theorem ne_of_mem_dropLast {l : List ι} {a p : ι} (hl : l.Nodup) (hp : l.getLast? = some p)
    (ha : a ∈ l.dropLast) : a ≠ p := by
  rintro rfl
  rw [← dropLast_append_getLast? a hp, nodup_append] at hl
  exact hl.2.2 a ha a (by simp) rfl

theorem ne_of_mem_tail {l : List ι} {a q : ι} (hl : l.Nodup) (hq : l.head? = some q)
    (ha : a ∈ l.tail) : a ≠ q := by
  rintro rfl
  rw [← cons_head?_tail hq, nodup_cons] at hl
  exact hl.1 ha

theorem cells_append (list : Header ι) (as bs : List ι) :
    list.cells (as ++ bs) = (list.head :: as) ++ (bs ++ [list.tail]) := by
  simp [cells]

theorem exists_last (list : Header ι) (as : List ι) : ∃ p, (list.head :: as).getLast? = some p := by
  exact ⟨_, getLast?_cons⟩

theorem exists_first (list : Header ι) (bs : List ι) : ∃ q, (bs ++ [list.tail]).head? = some q := by
  cases bs with
  | nil => exact ⟨list.tail, rfl⟩
  | cons b bs => exact ⟨b, rfl⟩

end Chains

variable {h : Heap ι} {hdr : κ → Header ι} {seq : κ → List ι} {k : κ} {p q first last : ι}
  {as xs bs : List ι}

theorem Represents.split (hr : Represents h hdr seq) (hseq : seq k = as ++ bs)
    (hp : ((hdr k).head :: as).getLast? = some p) (hq : (bs ++ [(hdr k).tail]).head? = some q) :
    ((hdr k).head :: as).IsChain h.Link ∧ (bs ++ [(hdr k).tail]).IsChain h.Link ∧ h.Link p q ∧
      ((hdr k).head :: as).Nodup ∧ (bs ++ [(hdr k).tail]).Nodup ∧
      ((hdr k).head :: as).Disjoint (bs ++ [(hdr k).tail]) := by
  have hlinked := hr.linked k
  have hnodup := hr.nodup k
  rw [hseq, cells_append] at hlinked hnodup
  obtain ⟨hl, hrest, hpq⟩ := (isChain_append_of hp hq).mp hlinked
  obtain ⟨hnl, hnr, hne⟩ := nodup_append'.mp hnodup
  exact ⟨hl, hrest, hpq, hnl, hnr, hne⟩

theorem Represents.update [DecidableEq κ] (hr : Represents h hdr seq) {h' : Heap ι} {ys : List ι}
    (touched : List ι)
    (hlinked : ((hdr k).cells ys).IsChain h'.Link) (hnodup : ((hdr k).cells ys).Nodup)
    (hprev : ∀ a, a ∉ touched → h'.prev a = h.prev a)
    (hnext : ∀ a, a ∉ touched → h'.next a = h.next a)
    (happart : ∀ k', k' ≠ k → touched.Disjoint ((hdr k').cells (seq k')) ∧
      ((hdr k).cells ys).Disjoint ((hdr k').cells (seq k')))
    (hhead : h'.prev (hdr k).head = none) (htail : h'.next (hdr k).tail = none) :
    Represents h' hdr (Function.update seq k ys) := by
  have hother : ∀ k', k' ≠ k → Function.update seq k ys k' = seq k' := fun k' hk' =>
    update_of_ne hk' _ _
  have hfresh : ∀ k', k' ≠ k → ∀ a ∈ (hdr k').cells (seq k'), a ∉ touched := fun k' hk' a ha hmem =>
    (happart k' hk').1 hmem ha
  constructor
  · intro k'
    by_cases hk' : k' = k
    · subst hk'
      rw [update_self]
      exact hlinked
    · rw [hother k' hk']
      apply isChain_congr (hr.linked k')
      · intro a ha
        exact hnext a (hfresh k' hk' a (dropLast_subset _ ha))
      · intro a ha
        exact hprev a (hfresh k' hk' a (mem_of_mem_tail ha))
  · intro k'
    by_cases hk' : k' = k
    · subst hk'
      exact hhead
    · rw [hprev _ (hfresh k' hk' _ (by simp [cells]))]
      exact hr.head_prev k'
  · intro k'
    by_cases hk' : k' = k
    · subst hk'
      exact htail
    · rw [hnext _ (hfresh k' hk' _ (by simp [cells]))]
      exact hr.tail_next k'
  · intro k'
    by_cases hk' : k' = k
    · subst hk'
      rw [update_self]
      exact hnodup
    · rw [hother k' hk']
      exact hr.nodup k'
  · intro k₁ k₂ hne
    by_cases hk₁ : k₁ = k
    · subst hk₁
      rw [update_self, hother k₂ (Ne.symm hne)]
      exact (happart k₂ (Ne.symm hne)).2
    · rw [hother k₁ hk₁]
      by_cases hk₂ : k₂ = k
      · subst hk₂
        rw [update_self]
        exact fun a ha hb => (happart k₁ hk₁).2 hb ha
      · rw [hother k₂ hk₂]
        exact hr.disjoint k₁ k₂ hne

section Writes

variable [DecidableEq ι]

def Heap.unlink (h : Heap ι) (p q : ι) : Heap ι where
  prev := Function.update h.prev q (some p)
  next := Function.update h.next p (some q)

def Heap.link (h : Heap ι) (p q first last : ι) : Heap ι where
  prev := Function.update (Function.update h.prev first (some p)) q (some last)
  next := Function.update (Function.update h.next last (some q)) p (some first)

theorem isChain_unlink {l r : List ι} (hnodup : (l ++ r).Nodup) (hl : l.IsChain h.Link)
    (hr : r.IsChain h.Link) (hp : l.getLast? = some p) (hq : r.head? = some q) :
    (l ++ r).IsChain (h.unlink p q).Link := by
  obtain ⟨hnl, hnr, hlr⟩ := nodup_append'.mp hnodup
  have hpl : p ∈ l := mem_of_getLast? hp
  have hqr : q ∈ r := mem_of_head? hq
  rw [isChain_append_of hp hq]
  refine ⟨isChain_congr hl ?_ ?_, isChain_congr hr ?_ ?_, ?_⟩
  · intro a ha
    exact update_of_ne (ne_of_mem_dropLast hnl hp ha) _ _
  · intro a ha
    apply update_of_ne
    rintro rfl
    exact hlr (mem_of_mem_tail ha) hqr
  · intro a ha
    apply update_of_ne
    rintro rfl
    exact hlr hpl (dropLast_subset _ ha)
  · intro a ha
    exact update_of_ne (ne_of_mem_tail hnr hq ha) _ _
  · exact ⟨update_self .., update_self ..⟩

theorem isChain_unlink_apart {c : List ι} (hc : c.IsChain h.Link) (hp : p ∉ c) (hq : q ∉ c) :
    c.IsChain (h.unlink p q).Link :=
  isChain_congr hc (fun _ ha => update_of_ne (ne_of_mem_of_not_mem (dropLast_subset _ ha) hp) _ _)
    fun _ ha => update_of_ne (ne_of_mem_of_not_mem (mem_of_mem_tail ha) hq) _ _

theorem link_eq (h : Heap ι) (p last : ι) (hne : first ≠ q) :
    h.link p q first last = (h.unlink last q).unlink p first := by
  rw [Heap.unlink, Heap.unlink, Heap.link, update_comm hne]

theorem isChain_link {l r : List ι} (hnodup : (l ++ (xs ++ r)).Nodup) (hl : l.IsChain h.Link)
    (hxs : xs.IsChain h.Link) (hr : r.IsChain h.Link) (hp : l.getLast? = some p)
    (hq : r.head? = some q) (hfirst : xs.head? = some first) (hlast : xs.getLast? = some last) :
    (l ++ (xs ++ r)).IsChain (h.link p q first last).Link := by
  obtain ⟨-, hnxr, hdl⟩ := nodup_append'.mp hnodup
  have hne : first ≠ q := fun heq =>
    (nodup_append'.mp hnxr).2.2 (mem_of_head? hfirst) (heq ▸ mem_of_head? hq)
  have hinner : (xs ++ r).head? = some first := by
    rw [head?_append, hfirst]
    rfl
  have hleft := isChain_unlink_apart hl
    (fun hmem => hdl hmem (mem_append_left _ (mem_of_getLast? hlast)))
    fun hmem => hdl hmem (mem_append_right _ (mem_of_head? hq))
  rw [link_eq h p last hne]
  exact isChain_unlink hnodup hleft (isChain_unlink hnxr hxs hr hlast hq) hp hinner

end Writes

variable [DecidableEq ι] [DecidableEq κ]

theorem Represents.link (hr : Represents h hdr seq) (hloose : Loose h hdr seq xs)
    (hseq : seq k = as ++ bs) (hp : ((hdr k).head :: as).getLast? = some p)
    (hq : (bs ++ [(hdr k).tail]).head? = some q) (hfirst : xs.head? = some first)
    (hlast : xs.getLast? = some last) :
    Represents (h.link p q first last) hdr (Function.update seq k (as ++ xs ++ bs)) := by
  obtain ⟨hleft, hright, -, hnl, hnr, hlr⟩ := hr.split hseq hp hq
  have hcells : (hdr k).cells (seq k) = ((hdr k).head :: as) ++ (bs ++ [(hdr k).tail]) := by
    rw [hseq, cells_append]
  have hcells' : (hdr k).cells (as ++ xs ++ bs) =
      ((hdr k).head :: as) ++ (xs ++ (bs ++ [(hdr k).tail])) := by
    simp [cells]
  have hcell : ∀ a, a ∈ (hdr k).head :: as ∨ a ∈ bs ++ [(hdr k).tail] →
      a ∈ (hdr k).cells (seq k) := by
    intro a ha
    rw [hcells]
    exact mem_append.mpr ha
  have hpk : p ∈ (hdr k).cells (seq k) := hcell p (.inl (mem_of_getLast? hp))
  have hqk : q ∈ (hdr k).cells (seq k) := hcell q (.inr (mem_of_head? hq))
  have hfx : first ∈ xs := mem_of_head? hfirst
  have hzx : last ∈ xs := mem_of_getLast? hlast
  have hnodup : ((hdr k).head :: as ++ (xs ++ (bs ++ [(hdr k).tail]))).Nodup := by
    rw [nodup_append', nodup_append']
    refine ⟨hnl, ⟨hloose.nodup, hnr, fun a ha hmem => hloose.apart k ha (hcell a (.inr hmem))⟩, ?_⟩
    intro a ha hmem
    rcases mem_append.mp hmem with hx | hb
    · exact hloose.apart k hx (hcell a (.inl ha))
    · exact hlr ha hb
  refine hr.update [p, q, first, last] ?_ ?_ ?_ ?_ ?_ ?_ ?_
  · rw [hcells']
    exact isChain_link hnodup hleft hloose.linked hright hp hq hfirst hlast
  · rw [hcells']
    exact hnodup
  · intro a ha
    simp only [mem_cons, not_or] at ha
    simp [Heap.link, ha]
  · intro a ha
    simp only [mem_cons, not_or] at ha
    simp [Heap.link, ha]
  · intro k' hk'
    have hother := hr.disjoint k k' (Ne.symm hk')
    constructor
    · intro a ha
      simp only [mem_cons, not_mem_nil, or_false] at ha
      rcases ha with rfl | rfl | rfl | rfl
      · exact hother hpk
      · exact hother hqk
      · exact hloose.apart k' hfx
      · exact hloose.apart k' hzx
    · intro a ha
      rw [hcells', mem_append, mem_append] at ha
      rcases ha with hl | hx | hb
      · exact hother (hcell a (.inl hl))
      · exact hloose.apart k' hx
      · exact hother (hcell a (.inr hb))
  · have hhq : (hdr k).head ≠ q := fun heq => hlr mem_cons_self (heq ▸ mem_of_head? hq)
    have hhf : (hdr k).head ≠ first := fun heq =>
      hloose.apart k (heq ▸ hfx) (hcell _ (.inl mem_cons_self))
    simp [Heap.link, hhq, hhf, hr.head_prev k]
  · have htp : (hdr k).tail ≠ p := fun heq => hlr (heq ▸ mem_of_getLast? hp) (by simp)
    have htz : (hdr k).tail ≠ last := fun heq =>
      hloose.apart k (heq ▸ hzx) (hcell _ (.inr (by simp)))
    simp [Heap.link, htp, htz, hr.tail_next k]

theorem Represents.unlink (hr : Represents h hdr seq) (hseq : seq k = as ++ xs ++ bs)
    (hp : ((hdr k).head :: as).getLast? = some p) (hq : (bs ++ [(hdr k).tail]).head? = some q) :
    Represents (h.unlink p q) hdr (Function.update seq k (as ++ bs)) ∧
      Loose (h.unlink p q) hdr (Function.update seq k (as ++ bs)) xs := by
  have hcells : (hdr k).cells (seq k) = ((hdr k).head :: as) ++ (xs ++ (bs ++ [(hdr k).tail])) := by
    simp [cells, hseq]
  have hlinked := hr.linked k
  have hnodup := hr.nodup k
  rw [hcells] at hlinked hnodup
  obtain ⟨hleft, hrest, -⟩ := isChain_append.mp hlinked
  obtain ⟨hmid, hright, -⟩ := isChain_append.mp hrest
  obtain ⟨hnl, hnxr, hdl⟩ := nodup_append'.mp hnodup
  obtain ⟨hnx, hnr, hxr⟩ := nodup_append'.mp hnxr
  have hlr : ∀ a ∈ (hdr k).head :: as, a ∉ bs ++ [(hdr k).tail] := fun a ha hmem =>
    hdl ha (mem_append_right _ hmem)
  have hpl : p ∈ (hdr k).head :: as := mem_of_getLast? hp
  have hqr : q ∈ bs ++ [(hdr k).tail] := mem_of_head? hq
  have hboth : ((hdr k).head :: as ++ (bs ++ [(hdr k).tail])).Nodup :=
    nodup_append'.mpr ⟨hnl, hnr, fun a ha hmem => hlr a ha hmem⟩
  have hcell : ∀ a, a ∈ (hdr k).cells (as ++ bs) → a ∈ (hdr k).cells (seq k) := by
    intro a ha
    rw [cells_append, mem_append] at ha
    rw [hcells, mem_append, mem_append]
    tauto
  constructor
  · refine hr.update [p, q] ?_ ?_ ?_ ?_ ?_ ?_ ?_
    · rw [cells_append]
      exact isChain_unlink hboth hleft hright hp hq
    · rw [cells_append]
      exact hboth
    · intro a ha
      simp only [mem_cons, not_or] at ha
      simp [Heap.unlink, ha]
    · intro a ha
      simp only [mem_cons, not_or] at ha
      simp [Heap.unlink, ha]
    · intro k' hk'
      have hother := hr.disjoint k k' (Ne.symm hk')
      refine ⟨?_, fun a ha => hother (hcell a ha)⟩
      intro a ha
      rw [hcells] at hother
      simp only [mem_cons, not_mem_nil, or_false] at ha
      rcases ha with rfl | rfl
      · exact hother (mem_append_left _ hpl)
      · exact hother (mem_append_right _ (mem_append_right _ hqr))
    · have hhq : (hdr k).head ≠ q := fun heq => hlr _ mem_cons_self (heq ▸ hqr)
      simp [Heap.unlink, hhq, hr.head_prev k]
    · have htp : (hdr k).tail ≠ p := fun heq => hlr _ (heq ▸ hpl) (by simp)
      simp [Heap.unlink, htp, hr.tail_next k]
  · refine ⟨isChain_unlink_apart hmid (fun hmem => hdl hpl (mem_append_left _ hmem))
      (fun hmem => hxr hmem hqr), hnx, ?_⟩
    · intro k' a ha
      by_cases hk' : k' = k
      · subst hk'
        rw [update_self, cells_append, mem_append]
        rintro (hl | hb)
        · exact hdl hl (mem_append_left _ ha)
        · exact hxr ha hb
      · rw [update_of_ne hk']
        apply hr.disjoint k k' (Ne.symm hk')
        rw [hcells]
        exact mem_append_right _ (mem_append_left _ ha)

end Pintos.LibKernel.LinkedList
