import Pintos.Lib.Bytes
import Pintos.Lib.CString

namespace Pintos.LibC

open Lib List Bytes

-- `runaway` is a loop that has not come to its end within the bytes that it was given.
inductive Fault
  | assertion
  | runaway
deriving DecidableEq

def strchrLoop (c : UInt8) : List UInt8 → Nat → Option Nat
  | [], i => if 0 = c then some i else none
  | b :: bs, i => if b = c then some i else strchrLoop c bs (i + 1)

-- The terminator belongs to the string that is searched.
def strchr (string : CString) (c : UInt8) : Option Nat := strchrLoop c string.val 0

def strnlenLoop (m : Bytes) (string : Nat) : Nat → Nat → Nat
  | 0, length => length
  | left + 1, length =>
    if m (string + length) = 0 then length else strnlenLoop m string left (length + 1)

def strnlen (m : Bytes) (string maxlen : Nat) : Nat := strnlenLoop m string maxlen 0

def skipDelimiters (delimiters : CString) (m : Bytes) : Nat → Nat → Except Fault Nat
  | 0, _ => .error .runaway
  | fuel + 1, s =>
    if (strchr delimiters (m s)).isSome then
      if m s = 0 then .ok s else skipDelimiters delimiters m fuel (s + 1)
    else .ok s

def skipToken (delimiters : CString) (m : Bytes) : Nat → Nat → Except Fault Nat
  | 0, _ => .error .runaway
  | fuel + 1, s =>
    if (strchr delimiters (m s)).isNone then skipToken delimiters m fuel (s + 1) else .ok s

-- The token, the memory and what *save_ptr is left as. The null pointer is `none`.
def strtokR (fuel : Nat) (delimiters : CString) (m : Bytes) (s savePtr : Option Nat) :
    Except Fault (Option Nat × Bytes × Nat) :=
  match s.or savePtr with
  | none => .error .assertion
  | some s => do
      let s ← skipDelimiters delimiters m fuel s
      if m s = 0 then return (none, m, s)
      else
        let token := s
        let s ← skipToken delimiters m fuel s
        if m s ≠ 0 then return (some token, m.write s [0], s + 1)
        else return (some token, m, s)

-- The string `l` and its terminator stand at `a`.
def HoldsAt (m : Bytes) (a : Nat) (l : List UInt8) : Prop :=
  m.read a (l.length + 1) = l ++ [0]

def tokens (delimiters : CString) (l : List UInt8) : List (List UInt8) :=
  (l.splitOnP (· ∈ delimiters.val)).filter (· ≠ [])

variable {m m' : Bytes} {a : Nat} {l l' t : List UInt8} {d : CString}

theorem isSome_strchr (string : CString) (c : UInt8) :
    (strchr string c).isSome = true ↔ c = 0 ∨ c ∈ string.val := by
  have hloop : ∀ (bs : List UInt8) (i : Nat),
      (strchrLoop c bs i).isSome = true ↔ c = 0 ∨ c ∈ bs := by
    intro bs
    induction bs with
    | nil =>
      intro i
      by_cases hc : c = 0
      · simp [strchrLoop, hc]
      · simp [strchrLoop, hc, Ne.symm hc]
    | cons b bs ih =>
      intro i
      by_cases hb : b = c
      · simp [strchrLoop, hb]
      · simp [strchrLoop, hb, ih, Ne.symm hb]
  exact hloop string.val 0

section Holds

theorem HoldsAt.split (h : HoldsAt m a (l ++ l')) :
    m.read a l.length = l ∧ HoldsAt m (a + l.length) l' := by
  unfold HoldsAt at *
  rw [length_append, Nat.add_assoc, read_add, append_assoc] at h
  exact append_inj h (by simp)

theorem HoldsAt.head {c : UInt8} (h : HoldsAt m a (c :: l)) : m a = c ∧ HoldsAt m (a + 1) l := by
  obtain ⟨hc, hl⟩ := HoldsAt.split (l := [c]) h
  have hbyte : [m (a + 0)] = [c] := hc
  exact ⟨(cons.inj hbyte).1, hl⟩

theorem HoldsAt.end (h : HoldsAt m a []) : m a = 0 := by
  have hbyte : [m (a + 0)] = [0] := h
  exact (cons.inj hbyte).1

theorem HoldsAt.congr (h : HoldsAt m a l) (hsame : ∀ i ≤ l.length, m' (a + i) = m (a + i)) :
    HoldsAt m' a l := by
  unfold HoldsAt at *
  rw [← h]
  exact read_congr fun i hi => hsame i (by omega)

theorem HoldsAt.cut (h : m.read a l.length = l) : HoldsAt (m.write (a + l.length) [0]) a l := by
  have hend : (m.write (a + l.length) [0]).read (a + l.length) 1 = [0] := read_write
  unfold HoldsAt
  rw [read_add, read_write_of_disjoint (.inl (by omega)), h, hend]

theorem holdsAt_write (m : Bytes) (a : Nat) (l : List UInt8) :
    HoldsAt (m.write a (l ++ [0])) a l := by
  have hread : (m.write a (l ++ [0])).read a (l ++ [0]).length = l ++ [0] := read_write
  rwa [length_append] at hread

theorem strnlen_eq {maxlen : Nat} (h : HoldsAt m a t) (h0 : 0 ∉ t) (hlen : t.length ≤ maxlen) :
    strnlen m a maxlen = t.length := by
  have hloop : ∀ (t : List UInt8) (left i : Nat), HoldsAt m (a + i) t → 0 ∉ t →
      t.length ≤ left → strnlenLoop m a left i = i + t.length := by
    intro t
    induction t with
    | nil =>
      intro left i h _ _
      cases left with
      | zero => rfl
      | succ left => simp [strnlenLoop, h.end]
    | cons c t ih =>
      intro left i h h0 hlen
      obtain ⟨left, rfl⟩ := Nat.exists_eq_add_of_lt hlen
      obtain ⟨hc, ht⟩ := h.head
      have hne : m (a + i) ≠ 0 := by
        rw [hc]
        rintro rfl
        exact h0 mem_cons_self
      rw [strnlenLoop, if_neg hne, ih _ _ ht (fun hmem => h0 (mem_cons_of_mem _ hmem))
        (by omega), length_cons]
      omega
  have hlength := hloop t maxlen 0 h h0 hlen
  rwa [Nat.zero_add] at hlength

end Holds

-- *dst++ = *src++, `size` times; where dst is left is returned with the memory.
def copyUp (m : Bytes) (dst src : Nat) : Nat → Bytes × Nat
  | 0 => (m, dst)
  | size + 1 => copyUp (m.write dst [m src]) (dst + 1) (src + 1) size

-- *--dst = *--src
def copyDown (m : Bytes) (dst src : Nat) : Nat → Bytes × Nat
  | 0 => (m, dst)
  | size + 1 => copyDown (m.write (dst - 1) [m (src - 1)]) (dst - 1) (src - 1) size

def memmove (m : Bytes) (dst src size : Nat) : Except Fault (Bytes × Nat) :=
  if dst = 0 ∧ size ≠ 0 ∨ src = 0 ∧ size ≠ 0 then .error .assertion
  else if dst < src then .ok (copyUp m dst src size)
  else .ok (copyDown m (dst + size) (src + size) size)

-- The bytes at `dst` are those that were at `src`, and no others have changed.
structure Moved (m m' : Bytes) (dst src size : Nat) : Prop where
  bytes : ∀ i < size, m' (dst + i) = m (src + i)
  others : ∀ a, a < dst ∨ dst + size ≤ a → m' a = m a

variable {dst src size : Nat}

theorem moved_copyUp (m : Bytes) (size : Nat) (h : dst < src) :
    Moved m (copyUp m dst src size).1 dst src size ∧ (copyUp m dst src size).2 = dst + size := by
  induction size generalizing m dst src with
  | zero => exact ⟨⟨fun i hi => absurd hi (by omega), fun _ _ => rfl⟩, rfl⟩
  | succ size ih =>
    obtain ⟨⟨hbytes, hothers⟩, hdst⟩ := ih (m.write dst [m src])
      (show dst + 1 < src + 1 by omega)
    refine ⟨⟨fun i hi => ?_, fun a ha => ?_⟩, by rw [copyUp, hdst]; omega⟩
    · cases i with
      | zero =>
        rw [copyUp, hothers _ (.inl (by omega)), write_byte, if_pos (by omega)]
        rfl
      | succ i =>
        -- what is still to be read lies above what has been written
        have hbyte := hbytes i (by omega)
        rw [Nat.add_right_comm dst, Nat.add_right_comm src, write_byte, if_neg (by omega)] at hbyte
        exact hbyte
    · rw [copyUp, hothers a (by omega), write_byte, if_neg (by omega)]

theorem moved_copyDown (m : Bytes) (size : Nat) (h : src ≤ dst) :
    Moved m (copyDown m (dst + size) (src + size) size).1 dst src size ∧
      (copyDown m (dst + size) (src + size) size).2 = dst := by
  induction size generalizing m with
  | zero => exact ⟨⟨fun i hi => absurd hi (by omega), fun _ _ => rfl⟩, rfl⟩
  | succ size ih =>
    obtain ⟨⟨hbytes, hothers⟩, hdst⟩ := ih (m.write (dst + size) [m (src + size)])
    refine ⟨⟨fun i hi => ?_, fun a ha => ?_⟩, hdst⟩
    · by_cases hlast : i = size
      · subst hlast
        exact (hothers _ (.inr (by omega))).trans (by rw [write_byte, if_pos rfl])
      · exact (hbytes i (by omega)).trans (by rw [write_byte, if_neg (by omega)])
    · exact (hothers a (by omega)).trans (by rw [write_byte, if_neg (by omega)])

theorem memmove_eq (m : Bytes) (h : size = 0 ∨ dst ≠ 0 ∧ src ≠ 0) :
    ∃ m', memmove m dst src size = .ok (m', if dst < src then dst + size else dst) ∧
      Moved m m' dst src size := by
  unfold memmove
  rw [if_neg (by omega)]
  by_cases hlt : dst < src
  · obtain ⟨hmoved, hdst⟩ := moved_copyUp m size hlt
    rw [if_pos hlt, if_pos hlt]
    exact ⟨_, congrArg Except.ok (Prod.ext rfl hdst), hmoved⟩
  · obtain ⟨hmoved, hdst⟩ := moved_copyDown m size (not_lt.mp hlt)
    rw [if_neg hlt, if_neg hlt]
    exact ⟨_, congrArg Except.ok (Prod.ext rfl hdst), hmoved⟩

-- The bytes are moved whatever the overlap, but upwards the pointer behind the last of them is
-- returned.
theorem memmove_right_iff (m : Bytes) (dst src size : Nat) :
    ((∃ m' r, memmove m dst src size = .ok (m', r) ∧ Moved m m' dst src size) ↔
        size = 0 ∨ dst ≠ 0 ∧ src ≠ 0) ∧
      ((∃ m', memmove m dst src size = .ok (m', dst) ∧ Moved m m' dst src size) ↔
        size = 0 ∨ dst ≠ 0 ∧ src ≠ 0 ∧ src ≤ dst) := by
  by_cases hptr : size = 0 ∨ dst ≠ 0 ∧ src ≠ 0
  · obtain ⟨m', heq, hmoved⟩ := memmove_eq m hptr
    refine ⟨iff_of_true ⟨m', _, heq, hmoved⟩ hptr, fun ⟨m₁, heq₁, _⟩ => ?_, fun hright => ?_⟩
    · rw [heq] at heq₁
      have hret := (Prod.mk.inj (Except.ok.inj heq₁)).2
      split at hret <;> omega
    · have hret : (if dst < src then dst + size else dst) = dst := by
        split <;> omega
      rw [hret] at heq
      exact ⟨m', heq, hmoved⟩
  · have hfail : memmove m dst src size = .error .assertion := if_pos (by omega)
    rw [hfail]
    exact ⟨iff_of_false nofun hptr, iff_of_false nofun (by omega)⟩

theorem memmove_returns_end : (memmove (fun _ => 7) 1 2 3).map Prod.snd = .ok 4 := rfl

end Pintos.LibC
