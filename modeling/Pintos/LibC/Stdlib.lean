import Mathlib.Data.Nat.Basic
import Mathlib.Order.Basic

namespace Pintos.LibC.Stdlib

variable {α β γ : Type}

-- `outside` is a comparison with what is no element of the array.
inductive Fault
  | outside
  | runaway
deriving DecidableEq

-- What stands at an address, for an array of elements of `size` bytes.
def elementAt (array size : Nat) (elements : List β) (address : Nat) : Except Fault β :=
  if array ≤ address ∧ (address - array) % size = 0 then
    match elements[(address - array) / size]? with
    | some element => .ok element
    | none => .error .outside
  else .error .outside

-- `compare` is the comparison of the key with the element at an address.
def binarySearchLoop (compare : Nat → Except Fault Int) (size : Nat) :
    Nat → Nat → Nat → Except Fault (Option Nat)
  | 0, _, _ => .error .runaway
  | fuel + 1, first, last =>
    if first < last then do
      let range := (last - first) / size
      let middle := first + range / 2 * size
      let cmp ← compare middle
      if cmp < 0 then binarySearchLoop compare size fuel first middle
      else if 0 < cmp then binarySearchLoop compare size fuel (middle + size) last
      else return some middle
    else return none

def binarySearch (key : α) (array : Nat) (elements : List β) (size : Nat)
    (compare : α → β → γ → Int) (aux : γ) : Except Fault (Option Nat) :=
  binarySearchLoop (fun middle => (elementAt array size elements middle).map (compare key · aux))
    size (elements.length + 1) array (array + size * elements.length)

def compareThunk (a : α) (b : β) (aux : α → β → Int) : Int := aux a b

def bsearch (key : α) (array : Nat) (elements : List β) (size : Nat) (compare : α → β → Int) :
    Except Fault (Option Nat) :=
  binarySearch key array elements size compareThunk compare

-- What the order of two elements says about how the key compares with them.
structure Consistent (le : β → β → Prop) (cmp : β → Int) : Prop where
  below : ∀ x y, le x y → cmp x < 0 → cmp y < 0
  above : ∀ x y, le x y → 0 < cmp y → 0 < cmp x

def Found (array size : Nat) (elements : List β) (cmp : β → Int) : Option Nat → Prop
  | some address => ∃ i x, elements[i]? = some x ∧ address = array + i * size ∧ cmp x = 0
  | none => ∀ x ∈ elements, cmp x ≠ 0

section

variable {array size i j : Nat} {elements : List β} {cmp : β → Int} {le : β → β → Prop} {x y : β}

theorem elementAt_add (hsize : 0 < size) (hx : elements[i]? = some x) :
    elementAt array size elements (array + i * size) = .ok x := by
  unfold elementAt
  rw [Nat.add_sub_cancel_left, Nat.mul_mod_left, Nat.mul_div_cancel _ hsize, hx]
  simp

theorem le_of_lt (h : elements.Pairwise le) (hij : i < j) (hx : elements[i]? = some x)
    (hy : elements[j]? = some y) : le x y := by
  obtain ⟨hi, rfl⟩ := List.getElem?_eq_some_iff.mp hx
  obtain ⟨hj, rfl⟩ := List.getElem?_eq_some_iff.mp hy
  exact List.pairwise_iff_getElem.mp h i j hi hj hij

-- The elements before `lo` are too small and those from `hi` on too large.
theorem binarySearchLoop_spec (array : Nat) (hsize : 0 < size) (hsorted : elements.Pairwise le)
    (hcmp : Consistent le cmp) (fuel lo hi : Nat) (hhi : hi ≤ elements.length) (hlo : lo ≤ hi)
    (hfuel : hi - lo < fuel) (hsmall : ∀ i x, elements[i]? = some x → i < lo → 0 < cmp x)
    (hlarge : ∀ i x, elements[i]? = some x → hi ≤ i → cmp x < 0) :
    ∃ r, binarySearchLoop (fun middle => (elementAt array size elements middle).map cmp) size fuel
        (array + lo * size) (array + hi * size) = .ok r ∧ Found array size elements cmp r := by
  induction fuel generalizing lo hi with
  | zero => omega
  | succ fuel ih =>
    rw [binarySearchLoop]
    rcases hlo.eq_or_lt with rfl | hlt
    · rw [if_neg (Nat.lt_irrefl _)]
      refine ⟨none, rfl, fun x hx => ?_⟩
      obtain ⟨i, hi⟩ := List.mem_iff_getElem?.mp hx
      rcases Nat.lt_or_ge i lo with hlt | hge
      · exact Int.ne_of_gt (hsmall i x hi hlt)
      · exact Int.ne_of_lt (hlarge i x hi hge)
    · have hscaled : array + lo * size < array + hi * size := by
        have hmul := Nat.mul_lt_mul_of_pos_right hlt hsize
        omega
      have hrange : (array + hi * size - (array + lo * size)) / size = hi - lo := by
        rw [Nat.add_sub_add_left, ← Nat.sub_mul, Nat.mul_div_cancel _ hsize]
      have hmiddle : array + lo * size + (hi - lo) / 2 * size =
          array + (lo + (hi - lo) / 2) * size := by
        rw [Nat.add_assoc, ← Nat.add_mul]
      have hmid : lo ≤ lo + (hi - lo) / 2 ∧ lo + (hi - lo) / 2 < hi := by omega
      simp only [if_pos hscaled, hrange, hmiddle]
      generalize lo + (hi - lo) / 2 = mid at hmid
      obtain ⟨x, hx⟩ : ∃ x, elements[mid]? = some x :=
        ⟨_, List.getElem?_eq_getElem (show mid < elements.length by omega)⟩
      rw [elementAt_add hsize hx]
      change ∃ r, (if cmp x < 0 then _ else _) = _ ∧ _
      by_cases hneg : cmp x < 0
      · rw [if_pos hneg]
        refine ih lo mid (by omega) hmid.1 (by omega) hsmall fun i y hy hi => ?_
        rcases hi.eq_or_lt with rfl | hi
        · cases hx.symm.trans hy
          exact hneg
        · exact hcmp.below x y (le_of_lt hsorted hi hx hy) hneg
      · rw [if_neg hneg]
        by_cases hpos : 0 < cmp x
        · rw [if_pos hpos, Nat.add_assoc, ← Nat.succ_mul]
          refine ih (mid + 1) hi hhi hmid.2 (by omega) (fun i y hy hi => ?_) hlarge
          rcases (Nat.le_of_lt_succ hi).eq_or_lt with rfl | hi
          · cases hx.symm.trans hy
            exact hpos
          · exact hcmp.above y x (le_of_lt hsorted hi hy hx) hpos
        · rw [if_neg hpos]
          exact ⟨_, rfl, mid, x, hx, rfl, by omega⟩

end

theorem binary_search_complete (key : α) (array : Nat) (elements : List β) (size : Nat)
    (compare : α → β → γ → Int) (aux : γ) (le : β → β → Prop) (hsize : 0 < size)
    (hsorted : elements.Pairwise le) (hcmp : Consistent le (compare key · aux)) :
    ∃ r, binarySearch key array elements size compare aux = .ok r ∧
      Found array size elements (compare key · aux) r := by
  obtain ⟨r, hloop, hfound⟩ := binarySearchLoop_spec array hsize hsorted hcmp
    (elements.length + 1) 0 elements.length le_rfl (Nat.zero_le _) (by omega)
    (fun i x _ hi => absurd hi (by omega))
    fun i x hx hi => absurd (List.getElem?_eq_some_iff.mp hx).1 (by omega)
  rw [Nat.zero_mul, Nat.mul_comm elements.length] at hloop
  exact ⟨r, hloop, hfound⟩

-- Four words from address 100, the third of them sought.
theorem binary_search_complete_third :
    ∃ r, bsearch 7 100 [1, 4, 7, 9] 4 (fun a b => a - b) = .ok r ∧
      Found 100 4 [1, 4, 7, 9] (fun b => 7 - b) r :=
  binary_search_complete 7 100 [1, 4, 7, 9] 4 compareThunk _ (· ≤ ·) (by decide) (by decide)
    ⟨fun _ _ _ => by simp only [compareThunk]; omega,
      fun _ _ _ => by simp only [compareThunk]; omega⟩

end Pintos.LibC.Stdlib
