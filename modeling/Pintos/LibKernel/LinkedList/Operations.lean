import Pintos.LibKernel.LinkedList.Relink

namespace Pintos.LibKernel.LinkedList

open List Function

variable {ι κ : Type} {h : Heap ι} {hdr : κ → Header ι} {seq : κ → List ι} {k : κ}
  {p q b e first last : ι} {as xs bs : List ι}

theorem before_ok (hp : h.prev b = some p) :
    (isInterior h (some b) || isTail h (some b)) = true := by
  cases hn : h.next b <;> simp [isInterior, isTail, hp, hn]

theorem isInterior_of (hp : h.prev e = some p) (hq : h.next e = some q) :
    isInterior h (some e) = true := by
  simp [isInterior, hp, hq]

theorem Loose.single (hfree : ∀ k, e ∉ (hdr k).cells (seq k)) : Loose h hdr seq [e] where
  linked := isChain_singleton e
  nodup := nodup_singleton e
  apart k _ ha hmem := hfree k (mem_singleton.mp ha ▸ hmem)

namespace Represents

theorem mem_cells (hseq : seq k = as ++ bs) (hb : (bs ++ [(hdr k).tail]).head? = some b) :
    b ∈ (hdr k).cells (seq k) := by
  rw [hseq, cells_append]
  exact mem_append_right _ (mem_of_head? hb)

section

variable (hr : Represents h hdr seq)
include hr

theorem neighbours (hseq : seq k = as ++ e :: bs) (hp : ((hdr k).head :: as).getLast? = some p)
    (hq : (bs ++ [(hdr k).tail]).head? = some q) :
    h.Link p e ∧ h.Link e q ∧ e ≠ p := by
  have hsplit : seq k = (as ++ [e]) ++ bs := by simp [hseq]
  have hlast : ((hdr k).head :: (as ++ [e])).getLast? = some e := by
    rw [← cons_append]
    exact getLast?_concat
  obtain ⟨-, -, hpe, -, -, hdisj⟩ := hr.split hseq hp (q := e) rfl
  obtain ⟨-, -, heq, -⟩ := hr.split hsplit hlast hq
  refine ⟨hpe, heq, ?_⟩
  rintro rfl
  exact hdisj (mem_of_getLast? hp) mem_cons_self

theorem listBegin_eq (k : κ) : listBegin h (hdr k) = (seq k ++ [(hdr k).tail]).head? := by
  obtain ⟨q, hq⟩ := exists_first (hdr k) (seq k)
  have hhead : ((hdr k).head :: ([] : List ι)).getLast? = some (hdr k).head := rfl
  obtain ⟨-, -, hlink, -⟩ := hr.split (nil_append (seq k)).symm hhead hq
  rw [hq]
  exact hlink.1

theorem tail_notMem (k : κ) : (hdr k).tail ∉ seq k := by
  have hnodup := hr.nodup k
  simp only [Header.cells, nodup_cons, nodup_append'] at hnodup
  intro hmem
  exact hnodup.2.2.2 hmem (mem_singleton.mpr rfl)

theorem prev_isSome (hseq : seq k = as ++ bs) (hb : (bs ++ [(hdr k).tail]).head? = some b) :
    ∃ o, h.prev b = some o := by
  obtain ⟨o, ho⟩ := exists_last (hdr k) as
  obtain ⟨-, -, hlink, -⟩ := hr.split hseq ho hb
  exact ⟨o, hlink.2⟩

theorem interior (hseq : seq k = as ++ e :: bs) : isInterior h (some e) = true := by
  obtain ⟨p, hp⟩ := exists_last (hdr k) as
  obtain ⟨q, hq⟩ := exists_first (hdr k) bs
  obtain ⟨hpe, heq, -⟩ := hr.neighbours hseq hp hq
  exact isInterior_of hpe.2 heq.1

end

end Represents

section Evaluation

variable [DecidableEq ι]

theorem listInsert_eq (hp : h.prev b = some p) (hne : b ≠ e) :
    listInsert h (some b) (some e) = .ok (h.link p b e e) := by
  rw [listInsert, before_ok hp]
  simp [assert, getPrev, setPrev, setNext, deref, hp, hne, Heap.link, bind, Except.bind, pure,
    Except.pure]

theorem listRemove_eq (hp : h.prev e = some p) (hq : h.next e = some q) (hne : e ≠ p) :
    listRemove h (some e) = .ok (h.unlink p q, some q) := by
  rw [listRemove, isInterior_of hp hq]
  simp [assert, getPrev, getNext, setPrev, setNext, deref, hp, hq, hne, Heap.unlink, bind,
    Except.bind, pure, Except.pure]

-- The range from `first` to `last`, taken out from between `p` and `q`, goes in before `b`,
-- which has `o` before it once the range is out.
theorem listSplice_eq {o : ι} (hb : (isInterior h (some b) || isTail h (some b)) = true)
    (hfq : first ≠ q) (hq : h.Link last q) (hp : h.prev first = some p)
    (hfirst : isInterior h (some first) = true) (hlast : isInterior h (some last) = true)
    (ho : (h.unlink p q).prev b = some o) (hlp : last ≠ p) (hbf : b ≠ first) :
    listSplice h (some b) (some first) (some q) = .ok ((h.unlink p q).link o b first last) := by
  have hprev : listPrev h (some q) = .ok (some last) := by
    simp [listPrev, before_ok hq.2, assert, getPrev, deref, hq.2, bind, Except.bind, pure,
      Except.pure]
  rw [listSplice, hb, if_neg (by simpa using hfq), hprev]
  simp only [Heap.unlink] at ho
  simp [assert, hfirst, hlast, getPrev, getNext, setPrev, setNext, deref, hp, hq.1, hlp, hbf, ho,
    Heap.link, Heap.unlink, bind, Except.bind, pure, Except.pure]

end Evaluation

variable [DecidableEq ι] [DecidableEq κ]

namespace Represents

section

variable (hr : Represents h hdr seq)
include hr

theorem listInsert (hseq : seq k = as ++ bs) (hb : (bs ++ [(hdr k).tail]).head? = some b)
    (hfree : ∀ k, e ∉ (hdr k).cells (seq k)) :
    ∃ h', listInsert h (some b) (some e) = .ok h' ∧
      Represents h' hdr (Function.update seq k (as ++ e :: bs)) := by
  obtain ⟨p, hp⟩ := exists_last (hdr k) as
  obtain ⟨-, -, hpb, -⟩ := hr.split hseq hp hb
  have hne : b ≠ e := fun heq => hfree k (heq ▸ mem_cells hseq hb)
  have hlink := hr.link (Loose.single hfree) hseq hp hb rfl rfl
  rw [append_assoc] at hlink
  exact ⟨_, listInsert_eq hpb.2 hne, hlink⟩

theorem listPushFront (hfree : ∀ k, e ∉ (hdr k).cells (seq k)) :
    ∃ h', listPushFront h (hdr k) (some e) = .ok h' ∧
      Represents h' hdr (Function.update seq k (e :: seq k)) := by
  obtain ⟨q, hq⟩ := exists_first (hdr k) (seq k)
  rw [LinkedList.listPushFront, hr.listBegin_eq, hq]
  exact hr.listInsert (nil_append (seq k)).symm hq hfree

theorem listPushBack (hfree : ∀ k, e ∉ (hdr k).cells (seq k)) :
    ∃ h', listPushBack h (hdr k) (some e) = .ok h' ∧
      Represents h' hdr (Function.update seq k (seq k ++ [e])) :=
  hr.listInsert (append_nil (seq k)).symm rfl hfree

theorem listRemove (hseq : seq k = as ++ e :: bs) :
    ∃ h', listRemove h (some e) = .ok (h', (bs ++ [(hdr k).tail]).head?) ∧
      Represents h' hdr (Function.update seq k (as ++ bs)) ∧
      ∀ k', e ∉ (hdr k').cells (Function.update seq k (as ++ bs) k') := by
  obtain ⟨p, hp⟩ := exists_last (hdr k) as
  obtain ⟨q, hq⟩ := exists_first (hdr k) bs
  obtain ⟨hpe, heq, hne⟩ := hr.neighbours hseq hp hq
  have hseq' : seq k = as ++ [e] ++ bs := by simp [hseq]
  obtain ⟨hrep, hloose⟩ := hr.unlink hseq' hp hq
  refine ⟨_, ?_, hrep, fun k' => hloose.apart k' mem_cons_self⟩
  rw [hq]
  exact listRemove_eq hpe.2 heq.1 hne

end

omit [DecidableEq κ] in
theorem listEmpty_iff (hr : Represents h hdr seq) (k : κ) :
    listEmpty h (hdr k) = true ↔ seq k = [] := by
  rw [listEmpty, hr.listBegin_eq, beq_iff_eq, listEnd]
  cases hseq : seq k with
  | nil => simp
  | cons x xs =>
    have hne : x ≠ (hdr k).tail := by
      rintro rfl
      exact hr.tail_notMem k (hseq ▸ mem_cons_self)
    simp [hne]

theorem listPopFront (hr : Represents h hdr seq) (hseq : seq k = e :: bs) :
    ∃ h', listPopFront h (hdr k) = .ok (h', some e) ∧
      Represents h' hdr (Function.update seq k bs) := by
  obtain ⟨h', hremove, hrep, -⟩ := hr.listRemove (hseq.trans (nil_append _).symm)
  have hempty : listEmpty h (hdr k) = false := by
    rw [← Bool.not_eq_true, hr.listEmpty_iff, hseq]
    simp
  have hbegin : h.next (hdr k).head = some e := by
    rw [← listBegin, hr.listBegin_eq, hseq]
    rfl
  refine ⟨h', ?_, hrep⟩
  rw [LinkedList.listPopFront, listFront, hempty, hbegin]
  simp [assert, bind, Except.bind, pure, Except.pure, hremove]

theorem listPopBack (hr : Represents h hdr seq) (hseq : seq k = as ++ [e]) :
    ∃ h', listPopBack h (hdr k) = .ok (h', some e) ∧
      Represents h' hdr (Function.update seq k as) := by
  obtain ⟨h', hremove, hrep, -⟩ := hr.listRemove hseq
  have hempty : listEmpty h (hdr k) = false := by
    rw [← Bool.not_eq_true, hr.listEmpty_iff, hseq]
    simp
  have hend : h.prev (hdr k).tail = some e := by
    obtain ⟨p, hp⟩ := exists_last (hdr k) as
    exact (hr.neighbours hseq hp rfl).2.1.2
  rw [append_nil] at hrep
  refine ⟨h', ?_, hrep⟩
  rw [LinkedList.listPopBack, listBack, hempty, hend]
  simp [assert, bind, Except.bind, pure, Except.pure, hremove]

theorem listSplice (hr : Represents h hdr seq) {k' : κ} {cs ds : List ι}
    (hseq : seq k = as ++ xs ++ bs) (hfirst : (xs ++ (bs ++ [(hdr k).tail])).head? = some first)
    (hq : (bs ++ [(hdr k).tail]).head? = some q)
    (hseq' : Function.update seq k (as ++ bs) k' = cs ++ ds)
    (hb : (ds ++ [(hdr k').tail]).head? = some b) :
    ∃ h', listSplice h (some b) (some first) (some q) = .ok h' ∧ Represents h' hdr
        (Function.update (Function.update seq k (as ++ bs)) k' (cs ++ xs ++ ds)) := by
  rcases eq_nil_or_concat' xs with rfl | ⟨init, last, rfl⟩
  · -- an empty range: only the first assertion is reached
    rw [append_nil] at hseq
    have hsame : Function.update seq k (as ++ bs) = seq := by
      rw [← hseq, update_eq_self]
    have hfq : first = q := by
      rw [nil_append, hq] at hfirst
      exact (Option.some.inj hfirst).symm
    rw [hsame] at hseq' ⊢
    obtain ⟨o, ho⟩ := hr.prev_isSome hseq' hb
    refine ⟨h, ?_, ?_⟩
    · rw [LinkedList.listSplice, before_ok ho, hfq, if_pos rfl]
      rfl
    · rw [append_nil, ← hseq', update_eq_self]
      exact hr
  · obtain ⟨p, hp⟩ := exists_last (hdr k) as
    obtain ⟨rest, hxs⟩ : ∃ rest, init ++ [last] = first :: rest := by
      cases init with
      | nil => exact ⟨[], by simpa using hfirst⟩
      | cons x init => exact ⟨init ++ [last], by simpa using hfirst⟩
    have hatFirst : seq k = as ++ first :: (rest ++ bs) := by
      rw [hseq, hxs]
      simp
    have hatLast : seq k = (as ++ init) ++ last :: bs := by simp [hseq]
    obtain ⟨o, ho⟩ := exists_last (hdr k) (as ++ init)
    obtain ⟨r, hrest⟩ := exists_first (hdr k) (rest ++ bs)
    obtain ⟨hpf, -, -⟩ := hr.neighbours hatFirst hp hrest
    obtain ⟨-, hlq, -⟩ := hr.neighbours hatLast ho hq
    obtain ⟨hrep, hloose⟩ := hr.unlink hseq hp hq
    obtain ⟨c, hc⟩ := exists_last (hdr k') cs
    obtain ⟨-, -, hcb, -⟩ := hrep.split hseq' hc hb
    have hlastMem : last ∈ init ++ [last] := by simp
    have hfirstMem : first ∈ init ++ [last] := hxs ▸ mem_cons_self
    have hcells : (hdr k).cells (as ++ bs) =
        ((hdr k).head :: as) ++ (bs ++ [(hdr k).tail]) := cells_append ..
    have hapart := hloose.apart k
    rw [update_self, hcells] at hapart
    have hfq : first ≠ q := fun heq =>
      hapart hfirstMem (heq ▸ mem_append_right _ (mem_of_head? hq))
    have hlp : last ≠ p := fun heq =>
      hapart hlastMem (heq ▸ mem_append_left _ (mem_of_getLast? hp))
    have hbf : b ≠ first := fun heq =>
      hloose.apart k' hfirstMem (heq ▸ mem_cells hseq' hb)
    have hbefore : (isInterior h (some b) || isTail h (some b)) = true := by
      by_cases hbq : b = q
      · exact before_ok (hbq ▸ hlq.2)
      · have hprev := hcb.2
        simp only [Heap.unlink, update_of_ne hbq] at hprev
        exact before_ok hprev
    refine ⟨_, listSplice_eq hbefore hfq hlq hpf.2 (hr.interior hatFirst) (hr.interior hatLast)
      hcb.2 hlp hbf, ?_⟩
    exact hrep.link hloose hseq' hc hb (by rw [hxs]; rfl) getLast?_concat

end Represents

end Pintos.LibKernel.LinkedList
