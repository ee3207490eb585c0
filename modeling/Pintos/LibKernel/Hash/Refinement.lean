import Mathlib.Algebra.GroupWithZero.Nat
import Mathlib.Data.Finset.Basic
import Pintos.Lib.TransitionSystem
import Pintos.LibKernel.Hash.Keyed

namespace Pintos.LibKernel.Hash

open Function List Hash

variable {α κ : Type} {h h' : Hash α} {key : α → κ} {x : α}

namespace KeyedBy

theorem find_removeElem (hk : h.KeyedBy key) {e x : α} (hfind : h.find e = some x) :
    (h.removeElem e).find e = none := by
  rw [(hk.removeElem hfind).find_eq_none_iff]
  intro y hy hkey
  have hnodup := ((elems_removeElem hk.pos hfind).map key).nodup_iff.mp hk.nodup
  have hx : key x = key e := ((hk.find_eq_some_iff e x).mp hfind).2
  apply (nodup_cons.mp hnodup).1
  rw [hx, ← hkey]
  exact mem_map_of_mem hy

theorem replace_of_none (hk : h.KeyedBy key) {new : α} (hnone : h.find new = none) (mem : Bool) :
    (h.replace new mem).2 = none ∧ (h.replace new mem).1.KeyedBy key ∧
      (h.replace new mem).1.elems ~ new :: h.elems := by
  simp only [Hash.replace, hnone]
  exact ⟨trivial, (hk.insertElem hnone).rehash mem,
    (elems_rehash _ mem).trans (elems_pushFront hk.pos new)⟩

theorem replace_of_some (hk : h.KeyedBy key) {new old : α} (hsome : h.find new = some old)
    (mem : Bool) :
    (h.replace new mem).2 = some old ∧ (h.replace new mem).1.KeyedBy key ∧
      ∃ rest, h.elems ~ old :: rest ∧ (h.replace new mem).1.elems ~ new :: rest := by
  simp only [Hash.replace, hsome]
  have hout := hk.removeElem hsome
  refine ⟨trivial, (hout.insertElem (hk.find_removeElem hsome)).rehash mem,
    (h.removeElem new).elems, elems_removeElem hk.pos hsome, ?_⟩
  exact (elems_rehash _ mem).trans (elems_pushFront hout.pos new)

end KeyedBy

theorem foldl_clearBucket (destructor : Bool) (is : List Nat) (hnodup : is.Nodup) (h : Hash α)
    (destroyed : List α) :
    is.foldl (clearBucket destructor) (h, destroyed) =
      ({ h with buckets := fun i => if i ∈ is then [] else h.buckets i },
        if destructor then destroyed ++ is.flatMap h.buckets else destroyed) := by
  induction is generalizing h destroyed with
  | nil => simp
  | cons i is ih =>
    obtain ⟨hi, hrest⟩ := nodup_cons.mp hnodup
    rw [foldl_cons, clearBucket, ih hrest]
    have hsame : is.flatMap (update h.buckets i []) = is.flatMap h.buckets := by
      apply flatMap_congr
      intro j hj
      have hji : j ≠ i := by
        rintro rfl
        exact hi hj
      exact update_of_ne hji _ _
    have hbuckets : (fun j => if j ∈ is then [] else update h.buckets i [] j) =
        fun j => if j ∈ i :: is then [] else h.buckets j := by
      funext j
      by_cases hj : j = i
      · subst hj
        simp
      · simp [hj]
    cases destructor <;> simp [hsame, hbuckets]

theorem clear_eq (h : Hash α) (destructor : Bool) : h.clear destructor = ({ h with
          elemCnt := 0, buckets := fun i => if i < h.bucketCnt then [] else h.buckets i },
        if destructor then h.elems else []) := by
  simp [clear, foldl_clearBucket destructor _ nodup_range, elems]

theorem elems_clear (h : Hash α) (destructor : Bool) : (h.clear destructor).1.elems = [] := by
  rw [clear_eq, elems, flatMap_eq_nil_iff]
  intro i hi
  simp [mem_range.mp hi]

theorem KeyedBy.clear (hk : h.KeyedBy key) (destructor : Bool) :
    (h.clear destructor).1.KeyedBy key := by
  have helems := h.elems_clear destructor
  rw [clear_eq] at helems ⊢
  refine hk.transfer ⟨hk.pos, ?_⟩ rfl rfl ?_ ?_
  · intro i x hx
    simp only at hx
    split at hx
    · cases hx
    · exact hk.placed i x hx
  · rw [helems]
    rfl
  · rw [helems]
    exact nodup_nil

structure Sized (h : Hash α) : Prop where
  power : h.bucketCnt.isPowerOfTwo
  four_le : 4 ≤ h.bucketCnt

theorem foldl_pushFront_bucketCnt (h : Hash α) (es : List α) :
    (es.foldl pushFront h).bucketCnt = h.bucketCnt := by
  induction es generalizing h with
  | nil => rfl
  | cons e es ih => exact ih (h.pushFront e)

theorem Sized.rehash (hs : h.Sized) (h' : Hash α) (hcnt : h'.bucketCnt = h.bucketCnt)
    (mem : Bool) : (h'.rehash mem).Sized := by
  unfold Hash.rehash
  split
  · exact ⟨hcnt ▸ hs.power, hcnt ▸ hs.four_le⟩
  · have hspec := bestCnt_spec h'.elemCnt
    constructor
    · rw [foldl_pushFront_bucketCnt]
      exact hspec.1
    · rw [foldl_pushFront_bucketCnt]
      exact hspec.2

inductive Op (α : Type)
  | insert (new : α)
  | replace (new : α)
  | find (e : α)
  | delete (e : α)
  | clear (destructor : Bool)

inductive Reply (α : Type)
  | elem (found : Option α)
  | destroyed (es : List α)

def call (h : Hash α) (mem : Bool) : Op α → Hash α × Reply α
  | .insert new => ((h.insert new mem).1, .elem (h.insert new mem).2)
  | .replace new => ((h.replace new mem).1, .elem (h.replace new mem).2)
  | .find e => (h, .elem (h.find e))
  | .delete e => ((h.delete e mem).1, .elem (h.delete e mem).2)
  | .clear destructor => ((h.clear destructor).1, .destroyed (h.clear destructor).2)

def callAll (h : Hash α) : List (Op α × Bool) → Hash α × List (Op α × Reply α)
  | [] => (h, [])
  | (op, mem) :: calls =>
    let next := h.call mem op
    let rest := next.1.callAll calls
    (rest.1, (op, next.2) :: rest.2)

open Classical in
inductive SetStep (equal : α → α → Prop) : Finset α → Op α × Reply α → Finset α → Prop
  | insertAbsent {S : Finset α} {new : α} : (∀ x ∈ S, ¬ equal x new) →
      SetStep equal S (.insert new, .elem none) (S ∪ {new})
  | insertPresent {S : Finset α} {new x : α} : x ∈ S → equal x new →
      SetStep equal S (.insert new, .elem (some x)) S
  | replaceAbsent {S : Finset α} {new : α} : (∀ x ∈ S, ¬ equal x new) →
      SetStep equal S (.replace new, .elem none) (S ∪ {new})
  | replacePresent {S : Finset α} {new x : α} : x ∈ S → equal x new →
      SetStep equal S (.replace new, .elem (some x)) (S.erase x ∪ {new})
  | findAbsent {S : Finset α} {e : α} : (∀ x ∈ S, ¬ equal x e) →
      SetStep equal S (.find e, .elem none) S
  | findPresent {S : Finset α} {e x : α} : x ∈ S → equal x e →
      SetStep equal S (.find e, .elem (some x)) S
  | deleteAbsent {S : Finset α} {e : α} : (∀ x ∈ S, ¬ equal x e) →
      SetStep equal S (.delete e, .elem none) S
  | deletePresent {S : Finset α} {e x : α} : x ∈ S → equal x e →
      SetStep equal S (.delete e, .elem (some x)) (S.erase x)
  | clear {S : Finset α} : SetStep equal S (.clear false, .destroyed []) ∅
  | clearWith {S : Finset α} {es : List α} : es.Nodup → es.toFinset = S →
      SetStep equal S (.clear true, .destroyed es) ∅

def setSystem (equal : α → α → Prop) : Lib.System (Finset α) (Op α × Reply α) where
  init S := S = ∅
  step := SetStep equal

open Classical in
noncomputable def contents (h : Hash α) : Finset α := h.elems.toFinset

theorem mem_contents : x ∈ h.contents ↔ x ∈ h.elems := by
  simp [contents]

theorem contents_of_perm (hperm : h'.elems ~ h.elems) : h'.contents = h.contents := by
  ext x
  rw [mem_contents, mem_contents, hperm.mem_iff]

open Classical in
theorem contents_of_cons {h' : Hash α} {x : α} (hperm : h'.elems ~ x :: h.elems) :
    h'.contents = h.contents ∪ {x} := by
  ext y
  rw [mem_contents, hperm.mem_iff, Finset.mem_union, mem_contents, Finset.mem_singleton,
    mem_cons, or_comm]

open Classical in
theorem toFinset_rest {x : α} {rest : List α} (hnodup : h.elems.Nodup)
    (hperm : h.elems ~ x :: rest) : rest.toFinset = h.contents.erase x := by
  have hx : x ∉ rest := (nodup_cons.mp (hperm.nodup_iff.mp hnodup)).1
  ext y
  rw [Finset.mem_erase, mem_contents, hperm.mem_iff, mem_toFinset, mem_cons]
  constructor
  · intro hy
    refine ⟨?_, .inr hy⟩
    rintro rfl
    exact hx hy
  · rintro ⟨hne, rfl | hy⟩
    · exact absurd rfl hne
    · exact hy

open Classical in
theorem contents_of_rest {h' : Hash α} {x : α} (hnodup : h.elems.Nodup)
    (hperm : h.elems ~ x :: h'.elems) : h'.contents = h.contents.erase x :=
  toFinset_rest hnodup hperm

open Classical in
theorem contents_of_replace {h' : Hash α} {x y : α} {rest : List α} (hnodup : h.elems.Nodup)
    (hold : h.elems ~ x :: rest) (hnew : h'.elems ~ y :: rest) :
    h'.contents = h.contents.erase x ∪ {y} := by
  rw [← toFinset_rest hnodup hold]
  ext z
  rw [mem_contents, hnew.mem_iff, Finset.mem_union, mem_toFinset, Finset.mem_singleton,
    mem_cons, or_comm]

namespace KeyedBy

theorem nodup_elems (hk : h.KeyedBy key) : h.elems.Nodup := List.Nodup.of_map key hk.nodup

theorem absent (hk : h.KeyedBy key) {e : α} (hnone : h.find e = none) :
    ∀ x ∈ h.contents, ¬ key x = key e := by
  intro x hx
  exact (hk.find_eq_none_iff e).mp hnone x (mem_contents.mp hx)

theorem present (hk : h.KeyedBy key) {e x : α} (hsome : h.find e = some x) :
    x ∈ h.contents ∧ key x = key e := by
  obtain ⟨hmem, hkey⟩ := (hk.find_eq_some_iff e x).mp hsome
  exact ⟨mem_contents.mpr hmem, hkey⟩

theorem delete_of_none {e : α} (hnone : h.find e = none) (mem : Bool) :
    h.delete e mem = (h, none) := by
  simp only [Hash.delete, hnone]

theorem call (hk : h.KeyedBy key) (mem : Bool) (op : Op α) : (h.call mem op).1.KeyedBy key := by
  cases op with
  | insert new =>
    cases hfind : h.find new with
    | none => exact (hk.insert_of_none hfind mem).2.1
    | some old => exact (hk.insert_of_some hfind mem).2.1
  | replace new =>
    cases hfind : h.find new with
    | none => exact (hk.replace_of_none hfind mem).2.1
    | some old => exact (hk.replace_of_some hfind mem).2.1
  | find e => exact hk
  | delete e =>
    cases hfind : h.find e with
    | none =>
      rw [Hash.call, delete_of_none hfind]
      exact hk
    | some found => exact (hk.delete_of_some hfind mem).2.1
  | clear destructor => exact hk.clear destructor

theorem setStep (hk : h.KeyedBy key) (mem : Bool) (op : Op α) :
    SetStep (fun a b => key a = key b) h.contents (op, (h.call mem op).2)
      (h.call mem op).1.contents := by
  cases op with
  | insert new =>
    rw [Hash.call]
    cases hfind : h.find new with
    | none =>
      obtain ⟨hreply, -, hperm⟩ := hk.insert_of_none hfind mem
      rw [hreply, contents_of_cons hperm]
      exact .insertAbsent (hk.absent hfind)
    | some old =>
      obtain ⟨hreply, -, hperm⟩ := hk.insert_of_some hfind mem
      rw [hreply, contents_of_perm hperm]
      exact .insertPresent (hk.present hfind).1 (hk.present hfind).2
  | replace new =>
    rw [Hash.call]
    cases hfind : h.find new with
    | none =>
      obtain ⟨hreply, -, hperm⟩ := hk.replace_of_none hfind mem
      rw [hreply, contents_of_cons hperm]
      exact .replaceAbsent (hk.absent hfind)
    | some old =>
      obtain ⟨hreply, -, rest, hold, hnew⟩ := hk.replace_of_some hfind mem
      rw [hreply, contents_of_replace hk.nodup_elems hold hnew]
      exact .replacePresent (hk.present hfind).1 (hk.present hfind).2
  | find e =>
    rw [Hash.call]
    cases hfind : h.find e with
    | none => exact .findAbsent (hk.absent hfind)
    | some found => exact .findPresent (hk.present hfind).1 (hk.present hfind).2
  | delete e =>
    rw [Hash.call]
    cases hfind : h.find e with
    | none =>
      rw [delete_of_none hfind]
      exact .deleteAbsent (hk.absent hfind)
    | some found =>
      obtain ⟨hreply, -, hperm⟩ := hk.delete_of_some hfind mem
      rw [hreply, contents_of_rest hk.nodup_elems hperm]
      exact .deletePresent (hk.present hfind).1 (hk.present hfind).2
  | clear destructor =>
    have hempty : (h.clear destructor).1.contents = ∅ := by
      rw [contents, elems_clear]
      rfl
    rw [Hash.call, hempty, clear_eq]
    cases destructor with
    | false => exact .clear
    | true => exact .clearWith hk.nodup_elems rfl

end KeyedBy

theorem Sized.call (hs : h.Sized) (mem : Bool) (op : Op α) : (h.call mem op).1.Sized := by
  cases op with
  | insert new =>
    simp only [Hash.call, Hash.insert]
    split
    · exact hs.rehash h rfl mem
    · exact hs.rehash (h.insertElem new) rfl mem
  | replace new =>
    simp only [Hash.call, Hash.replace]
    split
    · exact hs.rehash ((h.removeElem new).insertElem new) rfl mem
    · exact hs.rehash (h.insertElem new) rfl mem
  | find e => exact hs
  | delete e =>
    simp only [Hash.call, Hash.delete]
    split
    · exact hs.rehash (h.removeElem e) rfl mem
    · exact hs
  | clear destructor =>
    rw [Hash.call, clear_eq]
    exact ⟨hs.power, hs.four_le⟩

theorem call_same (h : Hash α) (mem : Bool) (op : Op α) :
    (h.call mem op).1.hash = h.hash ∧ (h.call mem op).1.less = h.less := by
  cases op with
  | insert new => exact insert_same h new mem
  | replace new =>
    simp only [call, replace]
    split
    · exact rehash_same _ mem
    · exact rehash_same _ mem
  | find e => exact ⟨rfl, rfl⟩
  | delete e =>
    simp only [call, delete]
    split
    · exact rehash_same _ mem
    · exact ⟨rfl, rfl⟩
  | clear destructor =>
    rw [call, clear_eq]
    exact ⟨rfl, rfl⟩

theorem KeyedBy.callAll (hk : h.KeyedBy key) (hs : h.Sized) (calls : List (Op α × Bool)) :
    (h.callAll calls).1.KeyedBy key ∧ (h.callAll calls).1.Sized ∧
      (h.callAll calls).1.hash = h.hash ∧
      (setSystem fun a b => key a = key b).Trace h.contents (h.callAll calls).2
        (h.callAll calls).1.contents := by
  induction calls generalizing h with
  | nil => exact ⟨hk, hs, rfl, .nil⟩
  | cons c calls ih =>
    obtain ⟨op, mem⟩ := c
    obtain ⟨hkeyed, hsized, hhash, htrace⟩ := ih (hk.call mem op) (hs.call mem op)
    refine ⟨hkeyed, hsized, ?_, .cons (hk.setStep mem op) htrace⟩
    rw [← (h.call_same mem op).1]
    exact hhash

def Neither (less : α → α → Bool) (a b : α) : Prop := less a b = false ∧ less b a = false

theorem equal_init_iff (hash : α → BitVec 32) (less : α → α → Bool) (a b : α) :
    (init hash less).equal a b = true ↔ Neither less a b := by
  simp [equal, init, Neither]

theorem Sized.init (hash : α → BitVec 32) (less : α → α → Bool) : (init hash less).Sized where
  power := ⟨2, rfl⟩
  four_le := le_rfl

theorem hash_refines_finite_set (hash : α → BitVec 32) (less : α → α → Bool)
    (hequiv : Equivalence (Neither less)) (hhash : ∀ a b, Neither less a b → hash a = hash b)
    (calls : List (Op α × Bool)) (h : Hash α) (replies : List (Op α × Reply α))
    (hcalls : (init hash less).callAll calls = (h, replies)) :
    h.bucketCnt.isPowerOfTwo ∧ 4 ≤ h.bucketCnt ∧
      h.elemCnt = ((List.range h.bucketCnt).map fun i => (h.buckets i).length).sum ∧
      (∀ i, ∀ x ∈ h.buckets i, i = (hash x).toNat &&& (h.bucketCnt - 1)) ∧
      h.elems.Pairwise (fun a b => ¬ Neither less a b) ∧
      (setSystem (Neither less)).Trace ∅ replies h.contents := by
  let s : Setoid α := ⟨Neither less, hequiv⟩
  have hkey : ∀ a b, Quotient.mk s a = Quotient.mk s b ↔ Neither less a b := fun a b =>
    Quotient.eq
  have hstart : (init hash less).KeyedBy (Quotient.mk s) := by
    apply KeyedBy.init
    · intro a b
      rw [equal_init_iff, hkey]
    · intro a b hab
      exact hhash a b ((hkey a b).mp hab)
  obtain ⟨hkeyed, hsized, hsame, htrace⟩ := hstart.callAll (Sized.init hash less) calls
  have hrel : (fun a b => Quotient.mk s a = Quotient.mk s b) = Neither less := by
    funext a b
    exact propext (hkey a b)
  have hempty : (init hash less).contents = ∅ := by
    simp [contents, elems, init]
  rw [hcalls] at hkeyed hsized hsame htrace
  rw [hrel, hempty] at htrace
  refine ⟨hsized.power, hsized.four_le, ?_, ?_, ?_, htrace⟩
  · rw [hkeyed.counted, elems, length_flatMap]
  · intro i x hx
    have hplaced : h.bucketIdx x = i := hkeyed.placed i x hx
    rw [← hplaced, bucketIdx, hsame]
    rfl
  · have hdistinct := hkeyed.nodup
    rw [List.Nodup, pairwise_map] at hdistinct
    exact hdistinct.imp fun hne heq => hne ((hkey _ _).mpr heq)

def halves : List (Op Nat × Bool) :=
  (List.range 20).map (fun n => (.insert (2 * n), n % 2 == 0)) ++ [(.replace 7, true)]

theorem hash_refines_finite_set_halves :
    ∃ h replies, (init (fun n => BitVec.ofNat 32 (n / 2))
        fun a b => decide (a / 2 < b / 2)).callAll halves = (h, replies) ∧
      h.elemCnt = 20 ∧ h.bucketCnt = 8 ∧ h.elems.Pairwise fun a b =>
        ¬ Neither (fun a b => decide (a / 2 < b / 2)) a b := by
  have hneither : ∀ a b : Nat, Neither (fun a b => decide (a / 2 < b / 2)) a b ↔ a / 2 = b / 2 := by
    intro a b
    simp only [Neither, decide_eq_false_iff_not]
    omega
  refine ⟨_, _, rfl, by decide +kernel, by decide +kernel,
    (hash_refines_finite_set _ _ ⟨?_, ?_, ?_⟩ ?_ halves _ _ rfl).2.2.2.2.1⟩
  · intro a
    exact (hneither a a).mpr rfl
  · intro a b hab
    exact (hneither b a).mpr ((hneither a b).mp hab).symm
  · intro a b c hab hbc
    exact (hneither a c).mpr (((hneither a b).mp hab).trans ((hneither b c).mp hbc))
  · intro a b hab
    rw [(hneither a b).mp hab]

end Pintos.LibKernel.Hash
