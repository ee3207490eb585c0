import Pintos.LibKernel.LinkedList.Operations

namespace Pintos.LibKernel.LinkedList

open List Function Header

variable {ι κ : Type} [DecidableEq ι] {h : Heap ι} {hdr : κ → Header ι} {seq : κ → List ι} {k : κ}
  {e : ι} {as bs : List ι}

section Reverse

def Heap.swapped (h : Heap ι) (ys : List ι) : Heap ι where
  prev a := if a ∈ ys then h.next a else h.prev a
  next a := if a ∈ ys then h.prev a else h.next a

def Heap.swapAt (h : Heap ι) (y : ι) : Heap ι where
  prev := Function.update h.prev y (h.next y)
  next := Function.update h.next y (h.prev y)

theorem swapped_cons {y : ι} {ys : List ι} (hy : y ∉ ys) :
    (h.swapAt y).swapped ys = h.swapped (y :: ys) := by
  simp only [Heap.swapped, Heap.swapAt, Heap.mk.injEq]
  constructor <;>
  · funext a
    by_cases ha : a = y
    · subst ha
      simp [hy]
    · simp [ha]

-- Induction on the elements still ahead, whose links are as they were.
theorem reverseLoop_eq {tail : ι} (fuel : Nat) (ys : List ι) (hfuel : ys.length < fuel)
    (hlinked : (ys ++ [tail]).IsChain h.Link) (hnodup : (ys ++ [tail]).Nodup) :
    reverseLoop (some tail) fuel h (ys ++ [tail]).head? = .ok (h.swapped ys) := by
  induction ys generalizing h fuel with
  | nil =>
    obtain ⟨fuel, rfl⟩ : ∃ n, fuel = n + 1 := ⟨fuel - 1, by simp at hfuel; omega⟩
    simp [reverseLoop, Heap.swapped]
  | cons y ys ih =>
    obtain ⟨fuel, rfl⟩ : ∃ n, fuel = n + 1 := ⟨fuel - 1, by simp at hfuel; omega⟩
    rw [cons_append] at hlinked hnodup
    obtain ⟨hy, hrest⟩ := nodup_cons.mp hnodup
    have hyt : y ≠ tail := by
      rintro rfl
      exact hy (by simp)
    have hyys : y ∉ ys := fun hmem => hy (mem_append_left _ hmem)
    have hnext : h.next y = (ys ++ [tail]).head? := by
      cases ys with
      | nil => exact (isChain_cons_cons.mp hlinked).1.1
      | cons z ys => exact (isChain_cons_cons.mp hlinked).1.1
    have hchain : (ys ++ [tail]).IsChain (h.swapAt y).Link := by
      apply isChain_congr hlinked.tail
      · intro a ha
        apply update_of_ne
        rintro rfl
        exact hy (dropLast_subset _ ha)
      · intro a ha
        apply update_of_ne
        rintro rfl
        exact hy (mem_of_mem_tail ha)
    have hround : reverseLoop (some tail) (fuel + 1) h (some y) =
        reverseLoop (some tail) fuel (h.swapAt y) (h.next y) := by
      simp [reverseLoop, hyt, getPrev, getNext, setPrev, setNext, deref, Heap.swapAt, bind,
        Except.bind, pure, Except.pure]
    rw [cons_append, head?_cons, hround, hnext,
      ih fuel (by simpa using hfuel) hchain hrest, swapped_cons hyys]

theorem swapEnds_eq {list : Header ι} {first last : ι} (hfirst : h.next list.head = some first)
    (hlast : h.prev list.tail = some last) (hprev : h.prev last = some list.tail)
    (hnext : h.next first = some list.head) (hlt : last ≠ list.tail) (hfh : first ≠ list.head) :
    swapEnds h list = .ok (h.link list.head list.tail last first) := by
  simp only [swapEnds, setNext, setPrev, getPrev, getNext, deref, bind, Except.bind, pure,
    Except.pure, hfirst, hlast, update_self, update_of_ne hlt,
    update_of_ne hfh, hprev, hnext, Heap.link]
  congr 2
  · rw [update_comm (Ne.symm hlt)]
  · rw [update_comm (Ne.symm hfh)]

theorem isChain_swapped {ys : List ι} (hlinked : ys.IsChain h.Link) :
    ys.reverse.IsChain (h.swapped ys).Link := by
  rw [isChain_reverse]
  refine (isChain_iff_getElem.mpr ?_)
  intro i hi
  have hlink := isChain_iff_getElem.mp hlinked i hi
  constructor
  · simp [Heap.swapped, hlink.2]
  · simp [Heap.swapped, hlink.1]

omit [DecidableEq ι] in
theorem Represents.head_notMem (hr : Represents h hdr seq) (k : κ) :
    (hdr k).head ∉ seq k ++ [(hdr k).tail] :=
  (nodup_cons.mp (hr.nodup k)).1

variable [DecidableEq κ]

theorem Represents.rearrange (hr : Represents h hdr seq) {g : Heap ι} {ys : List ι} {first last : ι}
    (hperm : ys.Perm (seq k)) (hchain : ys.IsChain g.Link) (hfirst : ys.head? = some first)
    (hlast : ys.getLast? = some last)
    (hsame : ∀ a ∉ seq k, g.prev a = h.prev a ∧ g.next a = h.next a) :
    Represents (g.link (hdr k).head (hdr k).tail first last) hdr (Function.update seq k ys) := by
  have hcells : ((hdr k).cells ys).Perm ((hdr k).cells (seq k)) := (hperm.append_right _).cons _
  have hnodup := hcells.nodup_iff.mpr (hr.nodup k)
  have hfirstMem : first ∈ seq k := hperm.mem_iff.mp (mem_of_head? hfirst)
  have hlastMem : last ∈ seq k := hperm.mem_iff.mp (mem_of_getLast? hlast)
  have hheadNot : (hdr k).head ∉ seq k := fun hmem =>
    hr.head_notMem k (mem_append_left _ hmem)
  have htailNot := hr.tail_notMem k
  have hne : (hdr k).head ≠ (hdr k).tail := fun heq => hr.head_notMem k (heq ▸ by simp)
  refine hr.update ((hdr k).cells (seq k)) ?_ hnodup ?_ ?_ ?_ ?_ ?_
  · exact isChain_link hnodup (isChain_singleton _) hchain (isChain_singleton _)
      rfl rfl hfirst hlast
  · intro a ha
    simp only [Header.cells, mem_cons, mem_append, not_mem_nil, or_false, not_or] at ha
    have haf : a ≠ first := fun heq => ha.2.1 (heq ▸ hfirstMem)
    simp [Heap.link, ha.2.2, haf, (hsame a ha.2.1).1]
  · intro a ha
    simp only [Header.cells, mem_cons, mem_append, not_mem_nil, or_false, not_or] at ha
    have hal : a ≠ last := fun heq => ha.2.1 (heq ▸ hlastMem)
    simp [Heap.link, ha.1, hal, (hsame a ha.2.1).2]
  · intro k' hk'
    have hother := hr.disjoint k k' (Ne.symm hk')
    exact ⟨hother, fun a ha => hother (hcells.mem_iff.mp ha)⟩
  · have hhf : (hdr k).head ≠ first := fun heq => hheadNot (heq ▸ hfirstMem)
    simp [Heap.link, hne, hhf, (hsame _ hheadNot).1, hr.head_prev k]
  · have htl : (hdr k).tail ≠ last := fun heq => htailNot (heq ▸ hlastMem)
    simp [Heap.link, Ne.symm hne, htl, (hsame _ htailNot).2, hr.tail_next k]

theorem Represents.listReverse (hr : Represents h hdr seq) (fuel : Nat)
    (hfuel : (seq k).length < fuel) :
    ∃ h', listReverse fuel h (hdr k) = .ok h' ∧
      Represents h' hdr (Function.update seq k (seq k).reverse) := by
  rcases eq_nil_or_concat' (seq k) with hseq | ⟨init, last, hlast⟩
  · refine ⟨h, ?_, ?_⟩
    · rw [LinkedList.listReverse, if_pos ((hr.listEmpty_iff k).mpr hseq)]
    · rw [hseq, reverse_nil, ← hseq, update_eq_self]
      exact hr
  · obtain ⟨first, rest, hfirst⟩ : ∃ first rest, seq k = first :: rest :=
      exists_cons_of_ne_nil (by simp [hlast])
    have hfirstMem : first ∈ seq k := hfirst ▸ mem_cons_self
    have hlastMem : last ∈ seq k := hlast ▸ (by simp)
    have hheadNot : (hdr k).head ∉ seq k := fun hmem =>
      hr.head_notMem k (mem_append_left _ hmem)
    have htailNot := hr.tail_notMem k
    have hempty : ¬ listEmpty h (hdr k) = true := by
      rw [hr.listEmpty_iff, hfirst]
      simp
    have hchain : (seq k ++ [(hdr k).tail]).IsChain h.Link := (hr.linked k).tail
    have hloop := reverseLoop_eq fuel (seq k) hfuel hchain (nodup_cons.mp (hr.nodup k)).2
    obtain ⟨o, ho⟩ := exists_last (hdr k) init
    obtain ⟨q, hq⟩ := exists_first (hdr k) rest
    have hhead : ((hdr k).head :: []).getLast? = some (hdr k).head := rfl
    have htail : ([] ++ [(hdr k).tail]).head? = some (hdr k).tail := rfl
    obtain ⟨hheadFirst, -, -⟩ := hr.neighbours (hfirst.trans (nil_append _).symm) hhead hq
    obtain ⟨-, hlastTail, -⟩ := hr.neighbours hlast ho htail
    have hends : swapEnds (h.swapped (seq k)) (hdr k) =
        .ok ((h.swapped (seq k)).link (hdr k).head (hdr k).tail last first) := by
      apply swapEnds_eq
      · simp [Heap.swapped, hheadNot, hheadFirst.1]
      · simp [Heap.swapped, htailNot, hlastTail.2]
      · simp [Heap.swapped, hlastMem, hlastTail.1]
      · simp [Heap.swapped, hfirstMem, hheadFirst.2]
      · exact fun heq => htailNot (heq ▸ hlastMem)
      · exact fun heq => hheadNot (heq ▸ hfirstMem)
    have hfront : (seq k).reverse.head? = some last := by simp [hlast]
    have hback : (seq k).reverse.getLast? = some first := by simp [hfirst]
    refine ⟨_, ?_, hr.rearrange (reverse_perm _)
      (isChain_swapped (isChain_append.mp hchain).1) hfront hback ?_⟩
    · rw [LinkedList.listReverse, if_neg hempty, hr.listBegin_eq, listEnd, hloop]
      exact hends
    · intro a ha
      simp [Heap.swapped, ha]

end Reverse

omit [DecidableEq ι] in
theorem Represents.listNext_eq (hr : Represents h hdr seq) (hseq : seq k = as ++ e :: bs) :
    listNext h (some e) = .ok (bs ++ [(hdr k).tail]).head? := by
  obtain ⟨p, hp⟩ := exists_last (hdr k) as
  obtain ⟨q, hq⟩ := exists_first (hdr k) bs
  obtain ⟨-, heq, -⟩ := hr.neighbours hseq hp hq
  simp [listNext, hr.interior hseq, assert, getNext, deref, heq.1, hq, bind, Except.bind, pure,
    Except.pure]

omit [DecidableEq ι] in
theorem Represents.ne_tail (hr : Represents h hdr seq) (hseq : seq k = as ++ e :: bs) :
    e ≠ (hdr k).tail := by
  rintro rfl
  exact hr.tail_notMem k (by simp [hseq])

section InsertOrdered

variable (less : ι → ι → Bool)

def insertOrdered (e : ι) (xs : List ι) : List ι :=
  xs.takeWhile (fun x => !less e x) ++ e :: xs.dropWhile fun x => !less e x

theorem Represents.orderedLoop_eq (hr : Represents h hdr seq) (fuel : Nat) (as bs : List ι)
    (hseq : seq k = as ++ bs) (hfuel : bs.length < fuel) :
    orderedLoop less h (some (hdr k).tail) (some e) fuel (bs ++ [(hdr k).tail]).head? =
      .ok ((bs.dropWhile fun x => !less e x) ++ [(hdr k).tail]).head? := by
  induction bs generalizing as fuel with
  | nil =>
    obtain ⟨fuel, rfl⟩ : ∃ n, fuel = n + 1 := ⟨fuel - 1, by simp at hfuel; omega⟩
    simp [orderedLoop]
  | cons x bs ih =>
    obtain ⟨fuel, rfl⟩ : ∃ n, fuel = n + 1 := ⟨fuel - 1, by simp at hfuel; omega⟩
    have hx := hr.ne_tail hseq
    have hnext := hr.listNext_eq hseq
    have hrest := ih fuel (as ++ [x]) (by simp [hseq]) (by simpa using hfuel)
    rw [cons_append, head?_cons]
    cases hless : less e x with
    | true => simp [orderedLoop, hx, deref, hless, bind, Except.bind, pure, Except.pure]
    | false =>
      rw [dropWhile_cons_of_pos (by simp [hless]), ← hrest]
      simp [orderedLoop, hx, deref, hless, hnext, bind, Except.bind]

variable [DecidableEq κ]

theorem Represents.listInsertOrdered (hr : Represents h hdr seq) (fuel : Nat)
    (hfuel : (seq k).length < fuel) (hfree : ∀ k, e ∉ (hdr k).cells (seq k)) :
    ∃ h', listInsertOrdered less fuel h (hdr k) (some e) = .ok h' ∧
      Represents h' hdr (Function.update seq k (insertOrdered less e (seq k))) := by
  have hloop := hr.orderedLoop_eq less (e := e) fuel [] (seq k) (nil_append _).symm hfuel
  obtain ⟨b, hb⟩ := exists_first (hdr k) ((seq k).dropWhile fun x => !less e x)
  obtain ⟨h', hinsert, hrep⟩ := hr.listInsert (takeWhile_append_dropWhile).symm hb hfree
  refine ⟨h', ?_, hrep⟩
  rw [LinkedList.listInsertOrdered, hr.listBegin_eq, listEnd, hloop, hb]
  exact hinsert

end InsertOrdered

section Unique

variable (less : ι → ι → Bool)

def uniqueAfter (x : ι) : List ι → List ι × List ι
  | [] => ([], [])
  | y :: ys =>
    if !less x y && !less y x then
      ((uniqueAfter x ys).1, y :: (uniqueAfter x ys).2)
    else (y :: (uniqueAfter y ys).1, (uniqueAfter y ys).2)

def unique : List ι → List ι × List ι
  | [] => ([], [])
  | x :: xs => (x :: (uniqueAfter less x xs).1, (uniqueAfter less x xs).2)

variable [DecidableEq κ]

def withDuplicates (seq : κ → List ι) (ys : List ι) : Option κ → κ → List ι
  | none => seq
  | some d => Function.update seq d (seq d ++ ys)

omit [DecidableEq ι] in
theorem withDuplicates_nil (seq : κ → List ι) (d : Option κ) : withDuplicates seq [] d = seq := by
  cases d with
  | none => rfl
  | some d => rw [withDuplicates, append_nil, update_eq_self]

omit [DecidableEq ι] in
theorem withDuplicates_of_ne (seq : κ → List ι) (ys : List ι) {d : Option κ} (hd : d ≠ some k) :
    withDuplicates seq ys d k = seq k := by
  cases d with
  | none => rfl
  | some d =>
    have hkd : k ≠ d := by
      rintro rfl
      exact hd rfl
    exact update_of_ne hkd _ _

omit [DecidableEq ι] in
theorem withDuplicates_cons (seq : κ → List ι) (as bs : List ι) (y : ι) (ys : List ι)
    {d : Option κ} (hd : d ≠ some k) :
    withDuplicates
        (Function.update (withDuplicates (Function.update seq k as) [y] d) k bs) ys d =
      withDuplicates (Function.update seq k bs) (y :: ys) d := by
  cases d with
  | none => exact update_idem _ _ _
  | some d =>
    have hdk : d ≠ k := by
      rintro rfl
      exact hd rfl
    funext j
    by_cases hjd : j = d
    · subst hjd
      simp [withDuplicates, hdk]
    · by_cases hjk : j = k
      · subst hjk
        simp [withDuplicates, hjd]
      · simp [withDuplicates, hjd, hjk]

theorem Represents.moveDuplicate (hr : Represents h hdr seq) {y : ι} (d : Option κ)
    (hseq : seq k = as ++ y :: bs) :
    ∃ h₁ next h₂, LinkedList.listRemove h (some y) = .ok (h₁, next) ∧ (match d.map hdr with
        | none => Except.ok h₁
        | some list => LinkedList.listPushBack h₁ list (some y)) = .ok h₂ ∧
      Represents h₂ hdr (withDuplicates (Function.update seq k (as ++ bs)) [y] d) := by
  obtain ⟨h₁, hremove, hrep, hfree⟩ := hr.listRemove hseq
  cases d with
  | none => exact ⟨h₁, _, h₁, hremove, rfl, hrep⟩
  | some d =>
    obtain ⟨h₂, hpush, hrep'⟩ := hrep.listPushBack (k := d) hfree
    exact ⟨h₁, _, h₂, hremove, hpush, hrep'⟩

-- Induction on the elements after `x`, the last one that stayed.
theorem Represents.uniqueLoop_eq (d : Option κ) (hd : d ≠ some k) (ys : List ι) (fuel : Nat)
    (x : ι) (as : List ι) (hr : Represents h hdr seq) (hseq : seq k = as ++ x :: ys)
    (hfuel : ys.length < fuel) :
    ∃ h', uniqueLoop less (some (hdr k).tail) (d.map hdr) fuel h (some x) = .ok h' ∧
      Represents h' hdr (withDuplicates
        (Function.update seq k (as ++ x :: (uniqueAfter less x ys).1))
        (uniqueAfter less x ys).2 d) := by
  induction ys generalizing h seq fuel x as with
  | nil =>
    obtain ⟨fuel, rfl⟩ : ∃ n, fuel = n + 1 := ⟨fuel - 1, by simp at hfuel; omega⟩
    refine ⟨h, ?_, ?_⟩
    · simp [uniqueLoop, hr.listNext_eq hseq, bind, Except.bind]
    · rw [uniqueAfter, withDuplicates_nil, ← hseq, update_eq_self]
      exact hr
  | cons y ys ih =>
    obtain ⟨fuel, rfl⟩ : ∃ n, fuel = n + 1 := ⟨fuel - 1, by simp at hfuel; omega⟩
    have hlen : ys.length < fuel := by simpa using hfuel
    have hseqY : seq k = (as ++ [x]) ++ y :: ys := by simp [hseq]
    have hy := hr.ne_tail hseqY
    have hnext := hr.listNext_eq hseq
    rw [cons_append, head?_cons] at hnext
    cases hequal : (!less x y && !less y x) with
    | true =>
      obtain ⟨h₁, next, h₂, hremove, hpush, hrep⟩ := hr.moveDuplicate d hseqY
      have hseq₂ : withDuplicates (Function.update seq k (as ++ [x] ++ ys)) [y] d k =
          as ++ x :: ys := by
        rw [withDuplicates_of_ne _ _ hd, update_self]
        simp
      obtain ⟨h', hloop, hrep'⟩ := ih fuel x as hrep hseq₂ hlen
      rw [withDuplicates_cons seq _ _ y _ hd] at hrep'
      refine ⟨h', ?_, ?_⟩
      · rw [← hloop]
        cases d with
        | none =>
          cases hpush
          simp [uniqueLoop, hnext, hy, deref, hequal, hremove, bind, Except.bind]
        | some d =>
          simp only [Option.map_some] at hpush
          simp [uniqueLoop, hnext, hy, deref, hequal, hremove, hpush, bind, Except.bind]
      · simpa only [uniqueAfter, hequal, if_true] using hrep'
    | false =>
      obtain ⟨h', hloop, hrep'⟩ := ih fuel y (as ++ [x]) hr hseqY hlen
      refine ⟨h', ?_, ?_⟩
      · rw [← hloop]
        simp [uniqueLoop, hnext, hy, deref, hequal, bind, Except.bind]
      · rw [append_assoc, singleton_append] at hrep'
        simpa only [uniqueAfter, hequal, Bool.false_eq_true, if_false] using hrep'

theorem Represents.listUnique (d : Option κ) (hd : d ≠ some k) (hr : Represents h hdr seq)
    (fuel : Nat) (hfuel : (seq k).length < fuel) :
    ∃ h', listUnique less fuel h (hdr k) (d.map hdr) = .ok h' ∧ Represents h' hdr
        (withDuplicates (Function.update seq k (unique less (seq k)).1) (unique less (seq k)).2 d) := by
  rw [LinkedList.listUnique, hr.listBegin_eq, listEnd]
  cases hseq : seq k with
  | nil =>
    rw [if_pos ((hr.listEmpty_iff k).mpr hseq), unique, withDuplicates_nil, ← hseq, update_eq_self]
    exact ⟨h, rfl, hr⟩
  | cons x xs =>
    have hempty : ¬ listEmpty h (hdr k) = true := by
      rw [hr.listEmpty_iff, hseq]
      simp
    rw [if_neg hempty]
    have hlen : xs.length < fuel := by
      rw [hseq, length_cons] at hfuel
      omega
    exact hr.uniqueLoop_eq less d hd xs fuel x [] hseq hlen

end Unique

variable [DecidableEq κ]

inductive Call (ι : Type)
  | insert (before elem : ι)
  | pushFront (list : Header ι) (elem : ι)
  | pushBack (list : Header ι) (elem : ι)
  | remove (elem : ι)
  | popFront (list : Header ι)
  | popBack (list : Header ι)
  | splice (before first last : ι)
  | reverse (list : Header ι)
  | unique (less : ι → ι → Bool) (list : Header ι) (duplicates : Option (Header ι))
  | insertOrdered (less : ι → ι → Bool) (list : Header ι) (elem : ι)

def noReturn (r : Result (Heap ι)) : Result (Heap ι × Option ι) := r.map fun h => (h, none)

def exec (fuel : Nat) (h : Heap ι) : Call ι → Result (Heap ι × Option ι)
  | .insert before elem => noReturn (listInsert h (some before) (some elem))
  | .pushFront list elem => noReturn (listPushFront h list (some elem))
  | .pushBack list elem => noReturn (listPushBack h list (some elem))
  | .remove elem => listRemove h (some elem)
  | .popFront list => listPopFront h list
  | .popBack list => listPopBack h list
  | .splice before first last => noReturn (listSplice h (some before) (some first) (some last))
  | .reverse list => noReturn (listReverse fuel h list)
  | .unique less list duplicates => noReturn (listUnique less fuel h list duplicates)
  | .insertOrdered less list elem => noReturn (listInsertOrdered less fuel h list (some elem))

-- What a call does to the sequences, and the element it returns. A place in the sequence of
-- list `k` is named by the element after it, or by the tail.
inductive Effect (hdr : κ → Header ι) (seq : κ → List ι) :
    Call ι → Option ι → (κ → List ι) → Prop
  | insert {k : κ} {as bs : List ι} {b e : ι} : seq k = as ++ bs →
      (bs ++ [(hdr k).tail]).head? = some b → (∀ k, e ∉ (hdr k).cells (seq k)) →
      Effect hdr seq (.insert b e) none (update seq k (as ++ e :: bs))
  | pushFront {k : κ} {e : ι} : (∀ k, e ∉ (hdr k).cells (seq k)) →
      Effect hdr seq (.pushFront (hdr k) e) none (update seq k (e :: seq k))
  | pushBack {k : κ} {e : ι} : (∀ k, e ∉ (hdr k).cells (seq k)) →
      Effect hdr seq (.pushBack (hdr k) e) none (update seq k (seq k ++ [e]))
  | remove {k : κ} {as bs : List ι} {e : ι} : seq k = as ++ e :: bs →
      Effect hdr seq (.remove e) (bs ++ [(hdr k).tail]).head? (update seq k (as ++ bs))
  | popFront {k : κ} {e : ι} {xs : List ι} : seq k = e :: xs →
      Effect hdr seq (.popFront (hdr k)) (some e) (update seq k xs)
  | popBack {k : κ} {e : ι} {xs : List ι} : seq k = xs ++ [e] →
      Effect hdr seq (.popBack (hdr k)) (some e) (update seq k xs)
  -- the range `xs` of list `k` goes to a place in list `k'` as it is without the range
  | splice {k k' : κ} {as xs bs cs ds : List ι} {b first last : ι} : seq k = as ++ xs ++ bs →
      (xs ++ (bs ++ [(hdr k).tail])).head? = some first →
      (bs ++ [(hdr k).tail]).head? = some last →
      update seq k (as ++ bs) k' = cs ++ ds →
      (ds ++ [(hdr k').tail]).head? = some b →
      Effect hdr seq (.splice b first last) none
        (update (update seq k (as ++ bs)) k' (cs ++ xs ++ ds))
  | reverse {k : κ} :
      Effect hdr seq (.reverse (hdr k)) none (update seq k (seq k).reverse)
  | unique {k : κ} (less : ι → ι → Bool) {d : Option κ} : d ≠ some k →
      Effect hdr seq (.unique less (hdr k) (d.map hdr)) none
        (withDuplicates (update seq k (unique less (seq k)).1) (unique less (seq k)).2 d)
  | insertOrdered {k : κ} (less : ι → ι → Bool) {e : ι} : (∀ k, e ∉ (hdr k).cells (seq k)) →
      Effect hdr seq (.insertOrdered less (hdr k) e) none
        (update seq k (insertOrdered less e (seq k)))

omit [DecidableEq κ] [DecidableEq ι] in
theorem noReturn_ok {r : Result (Heap ι)} {P : Heap ι → Prop} (hr : ∃ h', r = .ok h' ∧ P h') :
    ∃ h', noReturn r = .ok (h', none) ∧ P h' := by
  obtain ⟨h', rfl, hp⟩ := hr
  exact ⟨h', rfl, hp⟩

theorem Effect.exec_eq {hdr : κ → Header ι} {seq seq' : κ → List ι} {call : Call ι}
    {ret : Option ι} (heffect : Effect hdr seq call ret seq') :
    ∃ n, ∀ h, Represents h hdr seq → ∀ fuel, n ≤ fuel →
      ∃ h', exec fuel h call = .ok (h', ret) ∧ Represents h' hdr seq' := by
  cases heffect with
  | insert hseq hb hfree =>
    exact ⟨0, fun h hr _ _ => noReturn_ok (hr.listInsert hseq hb hfree)⟩
  | pushFront hfree => exact ⟨0, fun h hr _ _ => noReturn_ok (hr.listPushFront hfree)⟩
  | pushBack hfree => exact ⟨0, fun h hr _ _ => noReturn_ok (hr.listPushBack hfree)⟩
  | remove hseq =>
    refine ⟨0, fun h hr _ _ => ?_⟩
    obtain ⟨h', hremove, hrep, -⟩ := hr.listRemove hseq
    exact ⟨h', hremove, hrep⟩
  | popFront hseq => exact ⟨0, fun h hr _ _ => hr.listPopFront hseq⟩
  | popBack hseq => exact ⟨0, fun h hr _ _ => hr.listPopBack hseq⟩
  | splice hseq hfirst hlast hseq' hb =>
    exact ⟨0, fun h hr _ _ => noReturn_ok (hr.listSplice hseq hfirst hlast hseq' hb)⟩
  | @reverse k =>
    exact ⟨(seq k).length + 1, fun h hr fuel hfuel => noReturn_ok (hr.listReverse fuel hfuel)⟩
  | @unique k less d hd =>
    exact ⟨(seq k).length + 1, fun h hr fuel hfuel =>
      noReturn_ok (hr.listUnique less d hd fuel hfuel)⟩
  | @insertOrdered k less e hfree =>
    exact ⟨(seq k).length + 1, fun h hr fuel hfuel =>
      noReturn_ok (hr.listInsertOrdered less fuel hfuel hfree)⟩

theorem lists_refine_sequences {h : Heap ι} {hdr : κ → Header ι} {seq seq' : κ → List ι}
    {call : Call ι} {ret : Option ι} (hr : Represents h hdr seq)
    (heffect : Effect hdr seq call ret seq') :
    ∃ n, ∀ fuel, n ≤ fuel →
      ∃ h', exec fuel h call = .ok (h', ret) ∧ Represents h' hdr seq' := by
  obtain ⟨n, hn⟩ := heffect.exec_eq
  exact ⟨n, hn h hr⟩

def twoLists : Heap Nat where
  next | 0 => some 4 | 4 => some 5 | 5 => some 1 | 2 => some 6 | 6 => some 3 | _ => none
  prev | 4 => some 0 | 5 => some 4 | 1 => some 5 | 6 => some 2 | 3 => some 6 | _ => none

-- The elements 4 and 5 of one list are moved in front of the element 6 of the other.
theorem lists_refine_sequences_splice :
    ∃ n, ∀ fuel, n ≤ fuel → ∃ h', exec fuel twoLists (.splice 6 4 1) = .ok (h', none) ∧
      Represents h' (fun second => cond second ⟨2, 3⟩ ⟨0, 1⟩)
        (update (update (fun second => cond second [6] [4, 5]) false []) true [4, 5, 6]) := by
  have htwo : Represents twoLists (fun second => cond second ⟨2, 3⟩ ⟨0, 1⟩)
      (fun second => cond second [6] [4, 5]) := by
    constructor
    · intro k
      cases k <;> simp [cells, Heap.Link, twoLists]
    · intro k
      cases k <;> rfl
    · intro k
      cases k <;> rfl
    · intro k
      cases k <;> decide
    · intro k k' hne
      cases k <;> cases k' <;> simp_all [cells]
  exact lists_refine_sequences htwo
    (@Effect.splice _ _ _ _ _ false true [] [4, 5] [] [] [6] 6 4 1 rfl rfl rfl rfl rfl)

end Pintos.LibKernel.LinkedList
