import Pintos.LibKernel.Bitmap

namespace Pintos.LibKernel

open Function List

def elemBits : Nat := 32

def elemIdx (bitIdx : Nat) : Nat := bitIdx / elemBits

def bitMask (bitIdx : Nat) : BitVec 32 := 1#32 <<< (bitIdx % elemBits)

def bitmapError : Nat := 2 ^ 32 - 1

-- A bitmap as it is stored. Its functions give `none` where an assertion fails.
structure PackedBitmap where
  bitCnt : Nat
  bits : Nat → BitVec 32

namespace PackedBitmap

def apply (b : PackedBitmap) (bitIdx : Nat) (op : BitVec 32 → BitVec 32) : PackedBitmap :=
  { b with bits := update b.bits (elemIdx bitIdx) (op (b.bits (elemIdx bitIdx))) }

def mark (b : PackedBitmap) (bitIdx : Nat) : PackedBitmap :=
  b.apply bitIdx fun elem => elem ||| bitMask bitIdx

def reset (b : PackedBitmap) (bitIdx : Nat) : PackedBitmap :=
  b.apply bitIdx fun elem => elem &&& ~~~bitMask bitIdx

def flip (b : PackedBitmap) (bitIdx : Nat) : PackedBitmap :=
  b.apply bitIdx fun elem => elem ^^^ bitMask bitIdx

def set (b : PackedBitmap) (idx : Nat) (value : Bool) : Option PackedBitmap :=
  if idx < b.bitCnt then some (if value then b.mark idx else b.reset idx) else none

def test (b : PackedBitmap) (idx : Nat) : Option Bool :=
  if idx < b.bitCnt then some (b.bits (elemIdx idx) &&& bitMask idx != 0) else none

def assertRange (b : PackedBitmap) (start cnt : Nat) : Option Unit :=
  if start ≤ b.bitCnt ∧ (start + cnt) % 2 ^ 32 ≤ b.bitCnt then some () else none

def setMultiple (b : PackedBitmap) (start cnt : Nat) (value : Bool) : Option PackedBitmap := do
  b.assertRange start cnt
  (List.range cnt).foldlM (fun b i => b.set ((start + i) % 2 ^ 32) value) b

def count (b : PackedBitmap) (start cnt : Nat) (value : Bool) : Option Nat := do
  b.assertRange start cnt
  (List.range cnt).foldlM (fun valueCnt i => do
    let bit ← b.test ((start + i) % 2 ^ 32)
    return if bit = value then valueCnt + 1 else valueCnt) 0

def contains (b : PackedBitmap) (start cnt : Nat) (value : Bool) : Option Bool := do
  b.assertRange start cnt
  (List.range cnt).anyM fun i => return (← b.test ((start + i) % 2 ^ 32)) == value

def scan (b : PackedBitmap) (start cnt : Nat) (value : Bool) : Option Nat := do
  guard (start ≤ b.bitCnt)
  if cnt ≤ b.bitCnt then
    let last := b.bitCnt - cnt
    let found ← (List.range' start (last + 1 - start)).findM? fun i =>
      return !(← b.contains i cnt (!value))
    return found.getD bitmapError
  else return bitmapError

def scanAndFlip (b : PackedBitmap) (start cnt : Nat) (value : Bool) :
    Option (Nat × PackedBitmap) := do
  let idx ← b.scan start cnt value
  if idx ≠ bitmapError then return (idx, ← b.setMultiple idx cnt (!value)) else return (idx, b)

def unpack (b : PackedBitmap) : Bitmap :=
  ⟨b.bitCnt, fun i => (b.bits (elemIdx i)).getLsbD (i % elemBits)⟩

variable {b b' : PackedBitmap} {i idx start cnt newCnt : Nat} {value : Bool}

section

variable {α : Type} {f : α → Option Bool} {g : α → Bool} {l : List α}
  (h : ∀ a ∈ l, f a = some (g a))
include h

theorem anyM_eq_some : l.anyM f = some (l.any g) := by
  induction l with
  | nil => rfl
  | cons a l ih =>
    rw [anyM, h a mem_cons_self, any_cons]
    cases hg : g a with
    | true => rfl
    | false => exact ih fun a ha => h a (mem_cons_of_mem _ ha)

theorem findM_eq_some : l.findM? f = some (l.find? g) := by
  induction l with
  | nil => rfl
  | cons a l ih =>
    rw [findM?, h a mem_cons_self, find?_cons]
    cases hg : g a with
    | true => rfl
    | false => exact ih fun a ha => h a (mem_cons_of_mem _ ha)

end

theorem getLsbD_bitMask (i j : Nat) :
    (bitMask i).getLsbD (j % elemBits) = decide (i % elemBits = j % elemBits) := by
  have hi : i % elemBits < 32 := Nat.mod_lt _ (by decide)
  change (BitVec.twoPow 32 (i % elemBits)).getLsbD _ = _
  simp [hi]

-- The bits of the other elements and the other bits of the same element.
theorem unpack_apply {op : BitVec 32 → BitVec 32} {f : Bool → Bool}
    (hop : ∀ elem j, (op elem).getLsbD (j % elemBits) =
      if idx % elemBits = j % elemBits then f (elem.getLsbD (j % elemBits))
      else elem.getLsbD (j % elemBits)) :
    (b.apply idx op).unpack = b.unpack.set idx (f (b.unpack.bits idx)) := by
  simp only [unpack, apply, Bitmap.set, Bitmap.mk.injEq, true_and]
  funext j
  by_cases hj : j = idx
  · subst hj
    rw [update_self, update_self, hop, if_pos rfl]
  · rw [update_of_ne hj]
    by_cases helem : elemIdx j = elemIdx idx
    · have hmod : ¬idx % elemBits = j % elemBits := by
        unfold elemIdx elemBits at *
        omega
      rw [helem, update_self, hop, if_neg hmod]
    · rw [update_of_ne helem]

theorem unpack_mark (b : PackedBitmap) (idx : Nat) :
    (b.mark idx).unpack = b.unpack.set idx true := by
  refine unpack_apply (f := fun _ => true) fun elem j => ?_
  rw [BitVec.getLsbD_or, getLsbD_bitMask]
  split_ifs with h <;> simp [h]

theorem unpack_reset (b : PackedBitmap) (idx : Nat) :
    (b.reset idx).unpack = b.unpack.set idx false := by
  refine unpack_apply (f := fun _ => false) fun elem j => ?_
  have hj : j % elemBits < 32 := Nat.mod_lt _ (by decide)
  rw [BitVec.getLsbD_and, BitVec.getLsbD_not, getLsbD_bitMask]
  split_ifs with h <;> simp [h, hj]

theorem unpack_flip (b : PackedBitmap) (idx : Nat) :
    (b.flip idx).unpack = b.unpack.set idx (!b.unpack.bits idx) := by
  refine unpack_apply (f := not) fun elem j => ?_
  rw [BitVec.getLsbD_xor, getLsbD_bitMask]
  split_ifs with h <;> simp [h]

theorem test_eq (h : idx < b.bitCnt) : b.test idx = some (b.unpack.bits idx) := by
  unfold test
  rw [if_pos h]
  change some (_ &&& BitVec.twoPow 32 (idx % elemBits) != 0) = _
  have hpow : BitVec.twoPow 32 (idx % elemBits) ≠ 0 := by
    intro hzero
    have hbit : (BitVec.twoPow 32 (idx % elemBits)).getLsbD _ = _ := getLsbD_bitMask idx idx
    simp [hzero] at hbit
  rw [BitVec.and_twoPow]
  simp only [unpack]
  split_ifs with hbit <;> simp_all

theorem set_eq (h : idx < b.bitCnt) (value : Bool) :
    ∃ b', b.set idx value = some b' ∧ b'.unpack = b.unpack.set idx value := by
  unfold set
  rw [if_pos h]
  cases value with
  | true => exact ⟨_, rfl, b.unpack_mark idx⟩
  | false => exact ⟨_, rfl, b.unpack_reset idx⟩

theorem foldlM_set {is : List Nat} (hb : b.bitCnt < 2 ^ 32)
    (his : ∀ i ∈ is, start + i < b.bitCnt) (value : Bool) :
    ∃ b', is.foldlM (fun b i => b.set ((start + i) % 2 ^ 32) value) b = some b' ∧
      b'.unpack = is.foldl (fun b i => b.set (start + i) value) b.unpack := by
  induction is generalizing b with
  | nil => exact ⟨b, rfl, rfl⟩
  | cons i is ih =>
    have hi := his i mem_cons_self
    obtain ⟨b₁, hset, heq⟩ := set_eq (b := b) hi value
    have hcnt : b₁.bitCnt = b.bitCnt := congrArg Bitmap.bitCnt heq
    obtain ⟨b', hrest, heq'⟩ := ih (b := b₁) (hcnt ▸ hb)
      (fun i hi => hcnt ▸ his i (mem_cons_of_mem _ hi))
    refine ⟨b', ?_, by rw [heq', heq]; rfl⟩
    rw [foldlM_cons, Nat.mod_eq_of_lt (lt_trans hi hb), hset]
    exact hrest

section Range

variable (hb : b.bitCnt < 2 ^ 32) (hrange : start + cnt ≤ b.bitCnt)
include hb hrange

theorem assertRange_eq : b.assertRange start cnt = some () := by
  refine if_pos ⟨by omega, ?_⟩
  rw [Nat.mod_eq_of_lt (by omega)]
  exact hrange

theorem test_add (i : Nat) (hi : i ∈ range cnt) :
    b.test ((start + i) % 2 ^ 32) = some (b.unpack.bits (start + i)) := by
  have hlt := mem_range.mp hi
  rw [Nat.mod_eq_of_lt (by omega)]
  exact test_eq (by omega)

theorem setMultiple_eq (value : Bool) :
    ∃ b', b.setMultiple start cnt value = some b' ∧ b'.unpack.bitCnt = b.bitCnt ∧
      ∀ i, b'.unpack.bits i = if start ≤ i ∧ i < start + cnt then value else b.unpack.bits i := by
  unfold setMultiple
  rw [assertRange_eq hb hrange]
  have hlt : ∀ i < cnt, start + i < b.bitCnt := fun i hi => by omega
  obtain ⟨b', hset, hunpack⟩ := foldlM_set hb (fun i hi => hlt i (mem_range.mp hi)) value
  have hmany : b'.unpack = b.unpack.setMultiple start cnt value := hunpack
  refine ⟨b', hset, ?_, fun i => ?_⟩
  · rw [hmany, Bitmap.setMultiple_bitCnt]
    rfl
  · simp only [hmany, Bitmap.setMultiple_bits, Lib.Run.has_iff]

theorem count_eq (value : Bool) : b.count start cnt value =
      some ((range cnt).countP fun i => b.unpack.bits (start + i) == value) := by
  have hloop (is : List Nat) (his : ∀ i ∈ is, i ∈ range cnt) (n : Nat) :
      is.foldlM (fun valueCnt i => do
        let bit ← b.test ((start + i) % 2 ^ 32)
        return if bit = value then valueCnt + 1 else valueCnt) n =
      some (n + is.countP fun i => b.unpack.bits (start + i) == value) := by
    induction is generalizing n with
    | nil => rfl
    | cons i is ih =>
      rw [foldlM_cons, test_add hb hrange i (his i mem_cons_self), countP_cons]
      refine (ih (fun i hi => his i (mem_cons_of_mem _ hi)) _).trans ?_
      simp only [beq_iff_eq]
      split_ifs <;> simp [Nat.add_assoc, Nat.add_comm]
  unfold count
  rw [assertRange_eq hb hrange]
  simpa using hloop _ (fun _ hi => hi) 0

theorem contains_eq (value : Bool) :
    b.contains start cnt value = some (b.unpack.contains start cnt value) := by
  unfold contains
  rw [assertRange_eq hb hrange]
  refine anyM_eq_some fun i hi => ?_
  rw [test_add hb hrange i hi]
  rfl

end Range

theorem scan_eq (hb : b.bitCnt < 2 ^ 32) (hstart : start ≤ b.bitCnt) (cnt : Nat) (value : Bool) :
    b.scan start cnt value = some ((b.unpack.scan start cnt value).getD bitmapError) := by
  unfold scan Bitmap.scan
  simp only [guard, if_pos hstart]
  by_cases hcnt : cnt ≤ b.bitCnt
  · have hfind := findM_eq_some (f := fun i => return !(← b.contains i cnt (!value)))
      (g := fun i => !b.unpack.contains i cnt (!value))
      (l := range' start (b.bitCnt - cnt + 1 - start)) fun i hi => by
        have hi := mem_range'_1.mp hi
        simp only [contains_eq hb (show i + cnt ≤ b.bitCnt by omega)]
        rfl
    rw [if_pos hcnt, if_pos (show cnt ≤ b.unpack.bitCnt from hcnt)]
    exact congrArg (Option.bind · fun found => some (found.getD bitmapError)) hfind
  · rw [if_neg hcnt, if_neg (show ¬cnt ≤ b.unpack.bitCnt from hcnt)]
    rfl

-- The first run of `cnt` bits that are `value`, at or after `start`.
def FirstRun (b : Bitmap) (start cnt : Nat) (value : Bool) (idx : Nat) : Prop :=
  (start ≤ idx ∧ idx + cnt ≤ b.bitCnt ∧ ∀ i < cnt, b.bits (idx + i) = value) ∧
    ∀ idx', start ≤ idx' → idx' < idx → ∃ i < cnt, b.bits (idx' + i) ≠ value

theorem not_contains_iff (b : Bitmap) (idx cnt : Nat) (value : Bool) :
    (!b.contains idx cnt (!value)) = true ↔ ∀ i < cnt, b.bits (idx + i) = value := by
  simp only [Bitmap.contains, Bool.not_eq_true', any_eq_false, mem_range, beq_iff_eq]
  refine forall₂_congr fun i _ => ?_
  cases b.bits (idx + i) <;> cases value <;> simp

theorem scan_spec (b : Bitmap) (start cnt : Nat) (value : Bool) :
    (∃ idx, b.scan start cnt value = some idx ∧ FirstRun b start cnt value idx) ∨
      b.scan start cnt value = none ∧
        ∀ idx, start ≤ idx → idx + cnt ≤ b.bitCnt → ∃ i < cnt, b.bits (idx + i) ≠ value := by
  match h : b.scan start cnt value with
  | some idx =>
    obtain ⟨hle, hfit, -⟩ := Bitmap.scan_eq_some h
    unfold Bitmap.scan at h
    rw [if_pos (by omega)] at h
    obtain ⟨hall, -, hbefore⟩ := find?_range'_eq_some.mp h
    refine .inl ⟨idx, rfl, ⟨hle, hfit, (not_contains_iff ..).mp hall⟩, fun idx' hle' hlt => ?_⟩
    have hnot := hbefore idx' hle' hlt
    rw [Bool.not_eq_true', ← Bool.not_eq_true, not_contains_iff] at hnot
    simpa using hnot
  | none =>
    refine .inr ⟨rfl, fun idx hle hfit => ?_⟩
    unfold Bitmap.scan at h
    rw [if_pos (by omega), find?_eq_none] at h
    have hnot := h idx (by rw [mem_range'_1]; omega)
    rw [not_contains_iff] at hnot
    simpa using hnot

def ScansAndFlips (b : PackedBitmap) (start cnt : Nat) (value : Bool) : Prop :=
  (∃ idx b', b.scan start cnt value = some idx ∧ FirstRun b.unpack start cnt value idx ∧
    b.scanAndFlip start cnt value = some (idx, b') ∧ b'.unpack.bitCnt = b.bitCnt ∧
    ∀ i, b'.unpack.bits i =
      if idx ≤ i ∧ i < idx + cnt then !b.unpack.bits i else b.unpack.bits i) ∨
  b.scan start cnt value = some bitmapError ∧
    b.scanAndFlip start cnt value = some (bitmapError, b) ∧
    ∀ idx, start ≤ idx → idx + cnt ≤ b.bitCnt → ∃ i < cnt, b.unpack.bits (idx + i) ≠ value

-- The bits of a run that is all `value` are the ones that setting it to the opposite inverts.
theorem scansAndFlips (hb : b.bitCnt < 2 ^ 32) (hstart : start ≤ b.bitCnt) (hcnt : 1 ≤ cnt)
    (value : Bool) : b.ScansAndFlips start cnt value := by
  have hscan := scan_eq hb hstart cnt value
  obtain ⟨idx, hidx, hfirst⟩ | ⟨hnone, hno⟩ := scan_spec b.unpack start cnt value
  · obtain ⟨-, hfit, hall⟩ := hfirst.1
    have hne : idx ≠ bitmapError := by
      have hfit : idx + cnt ≤ b.bitCnt := hfit
      unfold bitmapError
      omega
    rw [hidx, Option.getD_some] at hscan
    obtain ⟨b', hset, hbitCnt, hbits⟩ := setMultiple_eq hb hfit (!value)
    refine .inl ⟨idx, b', hscan, hfirst, ?_, hbitCnt, fun i => ?_⟩
    · unfold scanAndFlip
      rw [hscan]
      change (if idx ≠ bitmapError then _ else _) = _
      rw [if_pos hne, hset]
      rfl
    · rw [hbits]
      split_ifs with hi
      · have hbit := hall (i - idx) (by omega)
        rw [Nat.add_sub_cancel' hi.1] at hbit
        rw [hbit]
      · rfl
  · rw [hnone] at hscan
    refine .inr ⟨hscan, ?_, hno⟩
    unfold scanAndFlip
    rw [hscan]
    rfl

theorem bitmap_refines_bit_array (b : PackedBitmap) (hb : b.bitCnt < 2 ^ 32) :
    (∀ idx < b.bitCnt, b.test idx = some (b.unpack.bits idx) ∧
      (b.mark idx).unpack = b.unpack.set idx true ∧
      (b.reset idx).unpack = b.unpack.set idx false ∧
      (b.flip idx).unpack = b.unpack.set idx (!b.unpack.bits idx) ∧
      ∀ value, ∃ b', b.set idx value = some b' ∧ b'.unpack = b.unpack.set idx value) ∧
    (∀ start cnt value, start + cnt ≤ b.bitCnt →
      (∃ b', b.setMultiple start cnt value = some b' ∧ b'.unpack.bitCnt = b.bitCnt ∧
        ∀ i, b'.unpack.bits i =
          if start ≤ i ∧ i < start + cnt then value else b.unpack.bits i) ∧
      b.count start cnt value =
        some ((List.range cnt).countP fun i => b.unpack.bits (start + i) == value) ∧
      b.contains start cnt value =
        some (decide (∃ i < cnt, b.unpack.bits (start + i) = value))) ∧
    ∀ start cnt value, start ≤ b.bitCnt → 1 ≤ cnt → b.ScansAndFlips start cnt value := by
  refine ⟨fun idx hidx => ⟨test_eq hidx, b.unpack_mark idx, b.unpack_reset idx, b.unpack_flip idx,
    set_eq hidx⟩, fun start cnt value hrange =>
    ⟨setMultiple_eq hb hrange value, count_eq hb hrange value, ?_⟩,
    fun start cnt value hstart hcnt => scansAndFlips hb hstart hcnt value⟩
  rw [contains_eq hb hrange, Option.some_inj, Bool.eq_iff_iff]
  simp [Bitmap.contains]

-- Thirty of forty bits are set; the next four are in two words.
theorem bitmap_refines_forty : ∃ b b' : PackedBitmap, b.bitCnt = 40 ∧
    b.scanAndFlip 0 4 false = some (30, b') ∧
    ∀ i, b'.unpack.bits i = if 30 ≤ i ∧ i < 34 then !b.unpack.bits i else b.unpack.bits i := by
  let b : PackedBitmap := ⟨40, fun k => if k = 0 then 0x3fffffff else 0⟩
  have hscan : b.scan 0 4 false = some 30 := by decide +kernel
  obtain ⟨idx, b', hidx, -, hflip, -, hbits⟩ | ⟨hnone, -⟩ :=
    (bitmap_refines_bit_array b (by decide)).2.2 0 4 false (by decide) (by decide)
  · cases hscan.symm.trans hidx
    exact ⟨b, b', rfl, hflip, hbits⟩
  · exact absurd (hscan.symm.trans hnone) (by decide)

inductive Extended
  | returned (b : PackedBitmap)
  -- NULL; the bitmap is left with this count and no elements
  | null (bitCnt : Nat)
  | panic

def Extended.bitmap : Extended → Option PackedBitmap
  | .returned b => some b
  | .null _ | .panic => none

-- `moved` is what realloc gives: the elements at their new place, or NULL.
def extend (b : PackedBitmap) (bitCnt : Nat) (moved : Option (Nat → BitVec 32)) : Extended :=
  if b.bitCnt ≤ bitCnt then .returned b
  else
    match moved with
    | none => .null bitCnt
    | some bits =>
      match setMultiple ⟨bitCnt, bits⟩ ((b.bitCnt + 1) % 2 ^ 32) bitCnt false with
      | none => .panic
      | some b' => .returned b'

def Extends (b : PackedBitmap) (newCnt : Nat) (moved : Option (Nat → BitVec 32)) : Prop :=
  (b.bitCnt < newCnt → moved ≠ none → ∃ b', b.extend newCnt moved = .returned b' ∧
    b'.bitCnt = newCnt ∧ (∀ i < b.bitCnt, b'.unpack.bits i = b.unpack.bits i) ∧
    ∀ i, b.bitCnt ≤ i → i < newCnt → b'.unpack.bits i = false) ∧
  (newCnt ≤ b.bitCnt → b.extend newCnt moved = .returned b) ∧
  (moved = none → (b.extend newCnt moved).bitmap = some b)

theorem set_bitCnt (h : b.set idx value = some b') : b'.bitCnt = b.bitCnt := by
  unfold set at h
  split_ifs at h <;> cases h <;> rfl

theorem setMultiple_bitCnt (h : b.setMultiple start cnt value = some b') :
    b'.bitCnt = b.bitCnt := by
  obtain ⟨-, -, hfold⟩ := Option.bind_eq_some_iff.mp h
  clear h
  generalize range cnt = is at hfold
  induction is generalizing b with
  | nil =>
    cases hfold
    rfl
  | cons i is ih =>
    rw [foldlM_cons] at hfold
    obtain ⟨b₁, hset, hrest⟩ := Option.bind_eq_some_iff.mp hfold
    exact (ih hrest).trans (set_bitCnt hset)

theorem extend_of_le (h : b.bitCnt ≤ newCnt) (moved : Option (Nat → BitVec 32)) :
    b.extend newCnt moved = .returned b := if_pos h

theorem extend_of_lt (h : newCnt < b.bitCnt) (moved : Option (Nat → BitVec 32)) :
    b.extend newCnt moved ≠ .returned b := by
  unfold extend
  rw [if_neg (by omega)]
  match moved with
  | none => nofun
  | some bits =>
    match hset : setMultiple ⟨newCnt, bits⟩ ((b.bitCnt + 1) % 2 ^ 32) newCnt false with
    | none =>
      simp only [hset]
      nofun
    | some b' =>
      have hcnt : b'.bitCnt = newCnt := setMultiple_bitCnt hset
      simp only [hset, ne_eq, Extended.returned.injEq]
      rintro rfl
      omega

theorem extend_grows_iff (b : PackedBitmap) (newCnt : Nat) (moved : Option (Nat → BitVec 32)) :
    b.Extends newCnt moved ↔ newCnt = b.bitCnt ∨ b.bitCnt < newCnt ∧ moved = none := by
  rcases lt_trichotomy newCnt b.bitCnt with hlt | heq | hgt
  · exact iff_of_false (fun h => extend_of_lt hlt moved (h.2.1 (by omega))) (by omega)
  · have hsame := extend_of_le (show b.bitCnt ≤ newCnt by omega) moved
    refine iff_of_true ⟨fun hgt => by omega, fun _ => hsame, fun _ => ?_⟩ (.inl heq)
    rw [hsame]
    rfl
  · have hsame := extend_of_le (Nat.le_of_lt hgt) moved
    constructor
    · intro h
      refine .inr ⟨hgt, ?_⟩
      by_contra hmoved
      obtain ⟨b', hret, hcnt, -⟩ := h.1 hgt hmoved
      rw [hsame] at hret
      cases hret
      omega
    · rintro (heq | ⟨-, hnone⟩)
      · omega
      · refine ⟨fun _ hmoved => absurd hnone hmoved, fun hle => by omega, fun _ => ?_⟩
        rw [hsame]
        rfl

-- Eight bits to be extended to sixteen are left eight; eight to be cut to four panic.
theorem extend_does_not_grow :
    (extend ⟨8, fun _ => 0⟩ 16 (some fun _ => 0)) = .returned ⟨8, fun _ => 0⟩ ∧
      (extend ⟨8, fun _ => 0⟩ 4 (some fun _ => 0)) = .panic :=
  ⟨rfl, rfl⟩

end PackedBitmap

end Pintos.LibKernel
