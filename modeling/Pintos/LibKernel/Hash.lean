import Mathlib.Algebra.Group.Nat.Defs
import Mathlib.Logic.Function.Basic

namespace Pintos.LibKernel

open Function List

-- A table of `bucketCnt` buckets, each the list of its elements from front to back.
structure Hash (α : Type) where
  elemCnt : Nat
  bucketCnt : Nat
  buckets : Nat → List α
  hash : α → BitVec 32
  less : α → α → Bool

namespace Hash

variable {α : Type} {h : Hash α}

def init (hash : α → BitVec 32) (less : α → α → Bool) : Hash α :=
  ⟨0, 4, fun _ => [], hash, less⟩

def bucketIdx (h : Hash α) (e : α) : Nat := (h.hash e).toNat &&& (h.bucketCnt - 1)

def findBucket (h : Hash α) (e : α) : List α := h.buckets (h.bucketIdx e)

def equal (h : Hash α) (a b : α) : Bool := !h.less a b && !h.less b a

def findElem (h : Hash α) (bucket : List α) (e : α) : Option α := bucket.find? (h.equal · e)

def find (h : Hash α) (e : α) : Option α := h.findElem (h.findBucket e) e

def pushFront (h : Hash α) (e : α) : Hash α :=
  { h with buckets := update h.buckets (h.bucketIdx e) (e :: h.findBucket e) }

def insertElem (h : Hash α) (e : α) : Hash α :=
  { h.pushFront e with elemCnt := h.elemCnt + 1 }

def turnOffLeast1Bit (x : Nat) : Nat := x &&& (x - 1)

def isPowerOf2 (x : Nat) : Bool := x != 0 && turnOffLeast1Bit x == 0

def roundToPower : Nat → Nat → Nat
  | 0, x => x
  | rounds + 1, x => if isPowerOf2 x then x else roundToPower rounds (turnOffLeast1Bit x)

-- A count has fewer bits than its value, so that many rounds are enough.
def bestCnt (elemCnt : Nat) : Nat :=
  let cnt := if elemCnt / 2 < 4 then 4 else elemCnt / 2
  roundToPower cnt cnt

def elems (h : Hash α) : List α := (List.range h.bucketCnt).flatMap h.buckets

-- `mem` says whether malloc finds room for the new buckets.
def rehash (h : Hash α) (mem : Bool) : Hash α :=
  if bestCnt h.elemCnt = h.bucketCnt ∨ !mem then h
  else h.elems.foldl pushFront
    { h with bucketCnt := bestCnt h.elemCnt, buckets := fun _ => [] }

def insert (h : Hash α) (new : α) (mem : Bool) : Hash α × Option α :=
  match h.find new with
  | some old => (h.rehash mem, some old)
  | none => ((h.insertElem new).rehash mem, none)

def removeElem (h : Hash α) (e : α) : Hash α :=
  { h with
    elemCnt := h.elemCnt - 1
    buckets := update h.buckets (h.bucketIdx e) ((h.findBucket e).eraseP (h.equal · e)) }

def delete (h : Hash α) (e : α) (mem : Bool) : Hash α × Option α :=
  match h.find e with
  | some found => ((h.removeElem e).rehash mem, some found)
  | none => (h, none)

def replace (h : Hash α) (new : α) (mem : Bool) : Hash α × Option α :=
  match h.find new with
  | some old => (((h.removeElem new).insertElem new).rehash mem, some old)
  | none => ((h.insertElem new).rehash mem, none)

def clearBucket (destructor : Bool) (s : Hash α × List α) (i : Nat) : Hash α × List α :=
  ({ s.1 with buckets := update s.1.buckets i [] },
    if destructor then s.2 ++ s.1.buckets i else s.2)

-- The second component is what the destructor was called with.
def clear (h : Hash α) (destructor : Bool) : Hash α × List α :=
  let cleared := (List.range h.bucketCnt).foldl (clearBucket destructor) (h, [])
  ({ cleared.1 with elemCnt := 0 }, cleared.2)

def isEmpty (h : Hash α) : Bool := h.elemCnt == 0

theorem foldl_pushFront_same (h : Hash α) (es : List α) :
    (es.foldl pushFront h).hash = h.hash ∧ (es.foldl pushFront h).less = h.less := by
  induction es generalizing h with
  | nil => exact ⟨rfl, rfl⟩
  | cons e es ih => exact ih (h.pushFront e)

theorem rehash_same (h : Hash α) (mem : Bool) :
    (h.rehash mem).hash = h.hash ∧ (h.rehash mem).less = h.less := by
  unfold rehash
  split
  · exact ⟨rfl, rfl⟩
  · exact foldl_pushFront_same _ _

theorem insert_same (h : Hash α) (new : α) (mem : Bool) :
    (h.insert new mem).1.hash = h.hash ∧ (h.insert new mem).1.less = h.less := by
  unfold insert
  split
  · exact rehash_same h mem
  · exact rehash_same (h.insertElem new) mem

theorem bucketIdx_lt (h : Hash α) (e : α) (hpos : 0 < h.bucketCnt) :
    h.bucketIdx e < h.bucketCnt := by
  have hle : h.bucketIdx e ≤ h.bucketCnt - 1 := Nat.and_le_right
  omega

theorem mem_elems {x : α} : x ∈ h.elems ↔ ∃ i < h.bucketCnt, x ∈ h.buckets i := by
  simp [elems]

structure Placed (h : Hash α) : Prop where
  pos : 0 < h.bucketCnt
  placed : ∀ i x, x ∈ h.buckets i → h.bucketIdx x = i

theorem Placed.init (hash : α → BitVec 32) (less : α → α → Bool) : (init hash less).Placed where
  pos := by simp [Hash.init]
  placed i x hx := by simp [Hash.init] at hx

theorem Placed.mem_elems_iff (hp : h.Placed) (x : α) :
    x ∈ h.elems ↔ x ∈ h.findBucket x := by
  rw [mem_elems]
  constructor
  · rintro ⟨i, -, hx⟩
    rw [findBucket, hp.placed i x hx]
    exact hx
  · intro hx
    exact ⟨h.bucketIdx x, h.bucketIdx_lt x hp.pos, hx⟩

theorem Placed.pushFront (hp : h.Placed) (e : α) : (h.pushFront e).Placed where
  pos := hp.pos
  placed i x hx := by
    show h.bucketIdx x = i
    by_cases hi : i = h.bucketIdx e
    · subst hi
      simp only [Hash.pushFront, update_self, mem_cons] at hx
      rcases hx with rfl | hx
      · rfl
      · exact hp.placed _ x hx
    · simp only [Hash.pushFront, update_of_ne hi] at hx
      exact hp.placed i x hx

theorem Placed.mem_pushFront (hp : h.Placed) (e x : α) :
    x ∈ (h.pushFront e).elems ↔ x = e ∨ x ∈ h.elems := by
  rw [(hp.pushFront e).mem_elems_iff, hp.mem_elems_iff]
  show x ∈ (h.pushFront e).buckets (h.bucketIdx x) ↔ _
  by_cases hi : h.bucketIdx x = h.bucketIdx e
  · simp [Hash.pushFront, findBucket, hi]
  · have hne : x ≠ e := fun hx => hi (congrArg h.bucketIdx hx)
    simp [Hash.pushFront, findBucket, update_of_ne hi, hne]

theorem Placed.insertElem (hp : h.Placed) (e : α) : (h.insertElem e).Placed :=
  ⟨(hp.pushFront e).pos, (hp.pushFront e).placed⟩

theorem Placed.mem_insertElem (hp : h.Placed) (e x : α) :
    x ∈ (h.insertElem e).elems ↔ x = e ∨ x ∈ h.elems :=
  hp.mem_pushFront e x

theorem Placed.foldl_pushFront (hp : h.Placed) (es : List α) :
    (es.foldl Hash.pushFront h).Placed := by
  induction es generalizing h with
  | nil => exact hp
  | cons e es ih => exact ih (hp.pushFront e)

theorem Placed.mem_foldl_pushFront (hp : h.Placed) (es : List α) (x : α) :
    x ∈ (es.foldl Hash.pushFront h).elems ↔ x ∈ es ∨ x ∈ h.elems := by
  induction es generalizing h with
  | nil => simp
  | cons e es ih =>
    rw [foldl_cons, ih (hp.pushFront e), hp.mem_pushFront, mem_cons, or_left_comm, or_assoc]

theorem roundToPower_pos (rounds x : Nat) (hx : 0 < x) : 0 < roundToPower rounds x := by
  induction rounds generalizing x with
  | zero => exact hx
  | succ rounds ih =>
    unfold roundToPower
    split
    · exact hx
    · rename_i hnot
      apply ih
      by_contra hzero
      apply hnot
      simp only [isPowerOf2, Bool.and_eq_true, bne_iff_ne, beq_iff_eq]
      exact ⟨by omega, by omega⟩

theorem bestCnt_pos (n : Nat) : 0 < bestCnt n := by
  apply roundToPower_pos
  split <;> omega

theorem isPowerOf2_iff (x : Nat) : isPowerOf2 x = true ↔ x.isPowerOfTwo := by
  simp only [isPowerOf2, turnOffLeast1Bit, Bool.and_eq_true, bne_iff_ne, beq_iff_eq]
  constructor
  · rintro ⟨hne, hand⟩
    exact (Nat.and_sub_one_eq_zero_iff_isPowerOfTwo hne).mp hand
  · intro hpow
    have hne : x ≠ 0 := by
      have := Nat.pos_of_isPowerOfTwo hpow
      omega
    exact ⟨hne, (Nat.and_sub_one_eq_zero_iff_isPowerOfTwo hne).mpr hpow⟩

-- The highest bit stays, so the count does not fall below the power it started above.
theorem roundToPower_spec (k rounds x : Nat) (hrounds : x ≤ rounds) (hx : 2 ^ k ≤ x) :
    (roundToPower rounds x).isPowerOfTwo ∧ 2 ^ k ≤ roundToPower rounds x := by
  induction rounds generalizing x with
  | zero =>
    have hpos := Nat.two_pow_pos k
    omega
  | succ rounds ih =>
    have hpos := Nat.two_pow_pos k
    unfold roundToPower
    split
    · rename_i hpow
      exact ⟨(isPowerOf2_iff x).mp hpow, hx⟩
    · rename_i hpow
      rw [isPowerOf2_iff] at hpow
      have hne : x ≠ 0 := by omega
      have hbit := Nat.and_sub_one_testBit_log2 hne hpow
      have htop : 2 ^ x.log2 ≤ turnOffLeast1Bit x := Nat.ge_two_pow_of_testBit hbit
      have hlog : k ≤ x.log2 := (Nat.le_log2 hne).mpr hx
      have hle : turnOffLeast1Bit x ≤ x - 1 := Nat.and_le_right
      apply ih
      · omega
      · exact Nat.le_trans (Nat.pow_le_pow_right (by omega) hlog) htop

theorem bestCnt_spec (n : Nat) : (bestCnt n).isPowerOfTwo ∧ 4 ≤ bestCnt n := by
  apply roundToPower_spec 2 _ _ (Nat.le_refl _)
  split <;> omega

theorem Placed.rehash (hp : h.Placed) (mem : Bool) :
    (h.rehash mem).Placed ∧ ∀ x, x ∈ (h.rehash mem).elems ↔ x ∈ h.elems := by
  unfold Hash.rehash
  by_cases hsame : bestCnt h.elemCnt = h.bucketCnt ∨ !mem
  · rw [if_pos hsame]
    exact ⟨hp, fun _ => Iff.rfl⟩
  · rw [if_neg hsame]
    have hempty : Placed { h with bucketCnt := bestCnt h.elemCnt, buckets := fun _ => [] } :=
      ⟨bestCnt_pos _, fun i x hx => absurd hx (by simp)⟩
    refine ⟨hempty.foldl_pushFront _, fun x => ?_⟩
    rw [hempty.mem_foldl_pushFront]
    simp [elems]

theorem Placed.insert (hp : h.Placed) (new : α) (mem : Bool) :
    (h.insert new mem).1.Placed := by
  unfold Hash.insert
  split
  · exact (hp.rehash mem).1
  · exact ((hp.insertElem new).rehash mem).1

theorem Placed.mem_insert (hp : h.Placed) (new : α) (mem : Bool) (x : α) :
    x ∈ (h.insert new mem).1.elems ↔ x ∈ h.elems ∨ h.find new = none ∧ x = new := by
  unfold Hash.insert
  split
  · rename_i old hold
    simp [hold, (hp.rehash mem).2 x]
  · rename_i hnone
    rw [((hp.insertElem new).rehash mem).2 x, hp.mem_insertElem, or_comm]
    simp [hnone]

-- Equal elements share a bucket, so it is enough to search one.
theorem Placed.find_isSome_iff (hp : h.Placed)
    (hhash : ∀ a b, h.equal a b → h.hash a = h.hash b) (e : α) :
    (h.find e).isSome ↔ ∃ x ∈ h.elems, h.equal x e := by
  unfold find findElem
  rw [find?_isSome]
  constructor
  · rintro ⟨x, hx, heq⟩
    exact ⟨x, mem_elems.mpr ⟨_, h.bucketIdx_lt e hp.pos, hx⟩, heq⟩
  · rintro ⟨x, hx, heq⟩
    refine ⟨x, ?_, heq⟩
    rw [hp.mem_elems_iff, findBucket, bucketIdx, hhash x e heq] at hx
    exact hx

theorem Placed.find_eq_some (hp : h.Placed) {e x : α} (hfind : h.find e = some x) :
    x ∈ h.elems ∧ h.equal x e := by
  have hmem : x ∈ h.findBucket e := mem_of_find?_eq_some hfind
  have hequal := find?_some hfind
  exact ⟨mem_elems.mpr ⟨_, h.bucketIdx_lt e hp.pos, hmem⟩, hequal⟩

end Hash

def hashBytes (bytes : List (BitVec 8)) : BitVec 32 :=
  bytes.foldl (fun hash b => (hash * 16777619) ^^^ b.setWidth 32) 2166136261

def hashInt (i : BitVec 32) : BitVec 32 :=
  hashBytes [i.extractLsb' 0 8, i.extractLsb' 8 8, i.extractLsb' 16 8, i.extractLsb' 24 8]

end Pintos.LibKernel
