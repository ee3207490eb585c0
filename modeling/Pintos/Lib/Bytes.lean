import Mathlib.Algebra.Group.Nat.Defs
import Mathlib.Data.List.GetD
import Mathlib.Order.Lattice

namespace Pintos.Lib

open List

abbrev Bytes := Nat → UInt8

namespace Bytes

def read (m : Bytes) (start cnt : Nat) : List UInt8 :=
  (List.range cnt).map fun i => m (start + i)

def write (m : Bytes) (start : Nat) (data : List UInt8) : Bytes := fun i =>
  if start ≤ i then data.getD (i - start) (m i) else m i

def word (m : Bytes) (start : Nat) : Nat :=
  (m start).toNat + 256 * ((m (start + 1)).toNat +
    256 * ((m (start + 2)).toNat + 256 * (m (start + 3)).toNat))

def ofWord (v : Nat) : List UInt8 :=
  [UInt8.ofNat v, UInt8.ofNat (v / 256), UInt8.ofNat (v / 65536), UInt8.ofNat (v / 16777216)]

def writeAll (m : Bytes) : List (Nat × List UInt8) → Bytes
  | [] => m
  | (start, data) :: rest => (m.write start data).writeAll rest

def Apart (v w : Nat × List UInt8) : Prop := v.1 + v.2.length ≤ w.1 ∨ w.1 + w.2.length ≤ v.1

variable {m m' : Bytes} {start cnt i s : Nat} {data : List UInt8} {ws : List (Nat × List UInt8)}

@[simp] theorem length_read : (m.read start cnt).length = cnt := by simp [read]

@[simp] theorem length_ofWord (v : Nat) : (ofWord v).length = 4 := rfl

theorem getD_read (h : i < cnt) (b : UInt8) : (m.read start cnt).getD i b = m (start + i) := by
  simp [read, getD_eq_getElem?_getD, getElem?_range h]

theorem eq_of_read_eq (h : m.read start cnt = m'.read s cnt) (hi : i < cnt) :
    m (start + i) = m' (s + i) := by
  have hbyte : (m.read start cnt).getD i 0 = m (start + i) := getD_read hi 0
  rw [← hbyte, h, getD_read hi 0]

theorem read_congr (h : ∀ i < cnt, m (start + i) = m' (start + i)) :
    m.read start cnt = m'.read start cnt := by
  apply map_congr_left
  intro i hi
  exact h i (mem_range.mp hi)

theorem take_read {n : Nat} (h : n ≤ cnt) : (m.read start cnt).take n = m.read start n := by
  rw [read, ← map_take, take_range, Nat.min_eq_left h, read]

theorem read_add (cnt' : Nat) :
    m.read start (cnt + cnt') = m.read start cnt ++ m.read (start + cnt) cnt' := by
  simp [read, range_add, Nat.add_assoc]

theorem write_of_lt (h : i < start) : m.write start data i = m i := by
  unfold write
  rw [if_neg (by omega)]

theorem write_of_ge (h : start + data.length ≤ i) : m.write start data i = m i := by
  unfold write
  split
  · rw [getD_eq_default _ _ (by omega)]
  · rfl

theorem write_add (h : i < data.length) (b : UInt8) :
    m.write start data (start + i) = data.getD i b := by
  unfold write
  rw [if_pos (by omega), Nat.add_sub_cancel_left, getD_eq_getElem _ _ h, getD_eq_getElem _ _ h]

theorem write_congr (h : m i = m' i) : m.write start data i = m'.write start data i := by
  unfold write
  rw [h]

theorem write_byte (m : Bytes) (start : Nat) (b : UInt8) (i : Nat) :
    m.write start [b] i = if i = start then b else m i := by
  rcases Nat.lt_trichotomy i start with hlt | rfl | hgt
  · rw [write_of_lt hlt, if_neg (by omega)]
  · simp [write]
  · rw [if_neg (by omega)]
    exact write_of_ge (by simp only [length_singleton]; omega)

@[simp] theorem write_nil : m.write start [] = m := by
  funext i
  simp [write]

theorem read_write : (m.write start data).read start data.length = data := by
  apply ext_getElem (by simp)
  intro i hi hi'
  have hbyte : m.write start data (start + i) = data.getD i 0 := write_add hi' 0
  simp only [read, getElem_map, getElem_range]
  rw [hbyte, getD_eq_getElem _ _ hi']

theorem read_write_of_disjoint (h : s + cnt ≤ start ∨ start + data.length ≤ s) :
    (m.write start data).read s cnt = m.read s cnt := by
  apply read_congr
  intro i hi
  rcases h with h | h
  · exact write_of_lt (by omega)
  · exact write_of_ge (by omega)

theorem write_append (data' : List UInt8) :
    m.write start (data ++ data') = (m.write start data).write (start + data.length) data' := by
  funext i
  by_cases hlt : i < start
  · rw [write_of_lt hlt, write_of_lt (by omega), write_of_lt hlt]
  · obtain ⟨j, rfl⟩ := Nat.exists_eq_add_of_le (Nat.le_of_not_lt hlt)
    by_cases hfst : j < data.length
    · rw [write_add (by simp; omega) 0, write_of_lt (by omega), write_add hfst 0,
        getD_append _ _ _ _ hfst]
    · by_cases hsnd : j < data.length + data'.length
      · have hj : start + j = start + data.length + (j - data.length) := by omega
        rw [write_add (by simpa using hsnd) 0, getD_append_right _ _ _ _ (by omega), hj,
          write_add (by omega) 0]
      · rw [write_of_ge (by simp; omega), write_of_ge (by omega), write_of_ge (by omega)]

theorem writeAll_of_disjoint
    (h : ∀ w ∈ ws, i < w.1 ∨ w.1 + w.2.length ≤ i) : m.writeAll ws i = m i := by
  induction ws generalizing m with
  | nil => rfl
  | cons w ws ih =>
    rw [writeAll, ih fun v hv => h v (mem_cons_of_mem _ hv)]
    rcases h w mem_cons_self with hlt | hge
    · exact write_of_lt hlt
    · exact write_of_ge hge

theorem writeAll_congr (h : m i = m' i) (ws : List (Nat × List UInt8)) :
    m.writeAll ws i = m'.writeAll ws i := by
  induction ws generalizing m m' with
  | nil => exact h
  | cons w ws ih => exact ih (write_congr h)

theorem writeAll_append (ws ws' : List (Nat × List UInt8)) :
    m.writeAll (ws ++ ws') = (m.writeAll ws).writeAll ws' := by
  induction ws generalizing m with
  | nil => rfl
  | cons w ws ih => exact ih

theorem read_writeAll (hpair : ws.Pairwise Apart)
    (hmem : (start, data) ∈ ws) : (m.writeAll ws).read start data.length = data := by
  induction ws generalizing m with
  | nil => cases hmem
  | cons w ws ih =>
    obtain ⟨hw, hrest⟩ := pairwise_cons.mp hpair
    rw [writeAll]
    rcases mem_cons.mp hmem with rfl | hin
    · have hkeep : ∀ i < data.length,
          (m.write start data).writeAll ws (start + i) = m.write start data (start + i) := by
        intro i hi
        apply writeAll_of_disjoint
        intro v hv
        have hdisj := hw v hv
        simp only [Apart] at hdisj
        omega
      rw [read_congr hkeep, read_write]
    · exact ih hrest hin

theorem word_congr (h : ∀ i < 4, m (start + i) = m' (cnt + i)) : m.word start = m'.word cnt := by
  have h0 := h 0 (by omega)
  have h1 := h 1 (by omega)
  have h2 := h 2 (by omega)
  have h3 := h 3 (by omega)
  simp only [Nat.add_zero] at h0
  simp only [word, h0, h1, h2, h3]

theorem word_write_of_disjoint (h : s + 4 ≤ start ∨ start + data.length ≤ s) :
    (m.write start data).word s = m.word s := by
  apply word_congr
  intro i hi
  rcases h with h | h
  · exact write_of_lt (by omega)
  · exact write_of_ge (by omega)

theorem word_write_ofWord (v : Nat) : (m.write start (ofWord v)).word start = v % 2 ^ 32 := by
  have hbyte : ∀ i < 4, m.write start (ofWord v) (start + i) = (ofWord v).getD i 0 :=
    fun i hi => write_add hi 0
  have h0 := hbyte 0 (by omega)
  rw [Nat.add_zero] at h0
  rw [word, h0, hbyte 1 (by omega), hbyte 2 (by omega), hbyte 3 (by omega)]
  simp only [ofWord, getD_cons_zero, getD_cons_succ, UInt8.toNat_ofNat']
  omega

theorem word_lt : m.word start < 2 ^ 32 := by
  have h0 := (m start).toNat_lt
  have h1 := (m (start + 1)).toNat_lt
  have h2 := (m (start + 2)).toNat_lt
  have h3 := (m (start + 3)).toNat_lt
  unfold word
  omega

end Bytes

-- An array of bytes that grows when it is written past its end; bytes that were never
-- written are zero.
structure ByteFile where
  length : Nat
  bytes : Bytes
  zero : ∀ i, length ≤ i → bytes i = 0

namespace ByteFile

def zeros (length : Nat) : ByteFile := ⟨length, fun _ => 0, fun _ _ => rfl⟩

def readAt (f : ByteFile) (size ofs : Nat) : List UInt8 :=
  f.bytes.read ofs (min size (f.length - ofs))

def writeAt (f : ByteFile) (data : List UInt8) (ofs : Nat) : ByteFile where
  length := max f.length (ofs + data.length)
  bytes := f.bytes.write ofs data
  zero i h := by
    rw [Bytes.write_of_ge (by omega)]
    exact f.zero i (by omega)

theorem length_readAt (f : ByteFile) (size ofs : Nat) :
    (f.readAt size ofs).length = min size (f.length - ofs) := by
  simp [readAt]

end ByteFile

end Pintos.Lib
