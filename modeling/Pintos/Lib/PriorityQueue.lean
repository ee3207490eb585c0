import Mathlib.Data.List.Sort

namespace Pintos.Lib.PriorityQueue

open List

variable {α β : Type*} [LinearOrder β] {pri pri' : α → β} {a e : α} {l : List α}

def Descending (pri : α → β) (l : List α) : Prop :=
  l.Pairwise fun a b => pri b ≤ pri a

-- Insertion before the first element of strictly smaller priority, hence after
-- every element of equal priority.
def insert (pri : α → β) (e : α) (l : List α) : List α :=
  l.orderedInsert (fun a b => pri b < pri a) e

theorem insert_cons (pri : α → β) (e b : α) (l : List α) :
    insert pri e (b :: l) = if pri b < pri e then e :: b :: l else b :: insert pri e l :=
  orderedInsert_cons _ e b l

theorem insert_perm (pri : α → β) (e : α) (l : List α) : (insert pri e l).Perm (e :: l) :=
  perm_orderedInsert _ e l

@[simp] theorem mem_insert : a ∈ insert pri e l ↔ a = e ∨ a ∈ l := by
  rw [(insert_perm pri e l).mem_iff, mem_cons]

theorem descending_insert (h : Descending pri l) : Descending pri (insert pri e l) := by
  induction l with
  | nil => exact pairwise_singleton _ _
  | cons b l ih =>
    obtain ⟨hb, hl⟩ := pairwise_cons.mp h
    rw [insert_cons]
    split_ifs with he
    · refine pairwise_cons.mpr ⟨?_, h⟩
      intro c hc
      rcases mem_cons.mp hc with rfl | hc
      · exact le_of_lt he
      · exact (hb c hc).trans (le_of_lt he)
    · refine pairwise_cons.mpr ⟨?_, ih hl⟩
      intro c hc
      rcases mem_insert.mp hc with rfl | hc
      · exact not_lt.mp he
      · exact hb c hc

theorem descending_congr (h : ∀ a ∈ l, pri a = pri' a) : Descending pri l ↔ Descending pri' l := by
  constructor <;> intro hd
  · exact hd.imp_of_mem fun ha hb hab => by rwa [← h _ ha, ← h _ hb]
  · exact hd.imp_of_mem fun ha hb hab => by rwa [h _ ha, h _ hb]

theorem descending_erase [DecidableEq α] (h : Descending pri l) (e : α) :
    Descending pri (l.erase e) :=
  List.Pairwise.sublist erase_sublist h

theorem Descending.le_head (h : Descending pri (e :: l)) (ha : a ∈ e :: l) : pri a ≤ pri e := by
  rcases mem_cons.mp ha with rfl | ha
  · exact le_rfl
  · exact (pairwise_cons.mp h).1 a ha

end Pintos.Lib.PriorityQueue
