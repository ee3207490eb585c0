import Mathlib.Data.List.TakeWhile

namespace Pintos.Lib

open List

variable {size : Nat} {dst : List UInt8} {src : CString}

abbrev CString := { l : List UInt8 // 0 ∉ l }

namespace CString

def length (s : CString) : Nat := s.val.length

def ofBytes (l : List UInt8) : CString :=
  ⟨l.takeWhile (· != 0), fun h => by simpa using mem_takeWhile_imp h⟩

def strlcpy (dst : List UInt8) (src : CString) (size : Nat) : List UInt8 :=
  if 0 < size then
    src.val.take (size - 1) ++ 0 :: dst.drop (min src.length (size - 1) + 1)
  else dst

theorem length_strlcpy (h : size ≤ dst.length) : (strlcpy dst src size).length = dst.length := by
  unfold strlcpy
  split
  · simp only [length_append, length_take, length_cons, length_drop, length]
    omega
  · rfl

theorem ofBytes_append_zero (s : CString) (rest : List UInt8) :
    ofBytes (s.val ++ 0 :: rest) = s := by
  have hall : ∀ b ∈ s.val, (b != 0) = true := by
    intro b hb
    rw [bne_iff_ne]
    rintro rfl
    exact s.property hb
  apply Subtype.ext
  simp only [ofBytes]
  rw [takeWhile_append_of_pos hall]
  simp

theorem ofBytes_strlcpy (h : src.length < size) : ofBytes (strlcpy dst src size) = src := by
  unfold strlcpy
  unfold length at h
  rw [if_pos (by omega), take_of_length_le (by omega)]
  exact ofBytes_append_zero src _

theorem zero_mem_strlcpy (h : 0 < size) : 0 ∈ strlcpy dst src size := by
  unfold strlcpy
  rw [if_pos h]
  simp

theorem length_ofBytes_lt {l : List UInt8} (h : 0 ∈ l) : (ofBytes l).length < l.length := by
  have hle : (l.takeWhile (· != 0)).length ≤ l.length := (takeWhile_sublist _).length_le
  refine lt_of_le_of_ne hle ?_
  intro heq
  have hself : l.takeWhile (· != 0) = l := (takeWhile_sublist _).eq_of_length heq
  rw [takeWhile_eq_self_iff] at hself
  simpa using hself 0 h

end CString

end Pintos.Lib
