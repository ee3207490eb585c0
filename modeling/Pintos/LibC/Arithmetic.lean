import Mathlib.Data.BitVec
import Mathlib.Tactic.IntervalCases
import Mathlib.Tactic.Ring

namespace Pintos.LibC.Arithmetic

open Option Nat Int

-- `none` is the divide error (#DE).
def divl (n : BitVec 64) (d : BitVec 32) : Option (BitVec 32) :=
  if d ≠ 0 ∧ n.toNat / d.toNat < 2 ^ 32 then some (BitVec.ofNat 32 (n.toNat / d.toNat)) else none

-- One `if` of nlz. The last one of the source leaves x alone, but nothing reads x after it.
def nlzStep (state : Nat × BitVec 32) (mask k : Nat) : Nat × BitVec 32 :=
  if state.2.toNat ≤ mask then (state.1 + k, state.2 <<< k) else state

def nlz (x : BitVec 32) : Nat :=
  let state := nlzStep (0, x) 0x0000FFFF 16
  let state := nlzStep state 0x00FFFFFF 8
  let state := nlzStep state 0x0FFFFFFF 4
  let state := nlzStep state 0x3FFFFFFF 2
  (nlzStep state 0x7FFFFFFF 1).1

def udiv64 (n d : BitVec 64) : Option (BitVec 64) :=
  if d >>> 32 = 0 then
    let b := 1#64 <<< 32
    let n1 := (n >>> 32).setWidth 32
    let n0 := n.setWidth 32
    let d0 := d.setWidth 32
    (divl (b * (n1 % d0).setWidth 64 + n0.setWidth 64) d0).map fun q =>
      q.setWidth 64 + b * (n1 / d0).setWidth 64
  else if n < d then
    some 0
  else
    let d1 := (d >>> 32).setWidth 32
    let s := nlz d1
    (divl (n >>> 1) ((d <<< s) >>> 32 |>.setWidth 32)).map fun (r : BitVec 32) =>
      let q := (r >>> (31 - s)).setWidth 64
      if n - (q - 1) * d < d then q - 1 else q

def umod64 (n d : BitVec 64) : Option (BitVec 32) :=
  (udiv64 n d).map fun q => (n - d * q).setWidth 32

def sdiv64 (n d : BitVec 64) : Option (BitVec 64) :=
  let nAbs := if 0 ≤ n.toInt then n else -n
  let dAbs := if 0 ≤ d.toInt then d else -d
  (udiv64 nAbs dAbs).map fun qAbs => if n.toInt < 0 ↔ d.toInt < 0 then qAbs else -qAbs

def smod64 (n d : BitVec 64) : Option (BitVec 32) :=
  (sdiv64 n d).map fun q => (n - d * q).setWidth 32

def divdi3 (n d : BitVec 64) : Option (BitVec 64) :=
  sdiv64 n d

def moddi3 (n d : BitVec 64) : Option (BitVec 64) :=
  (smod64 n d).map (·.signExtend 64)

def udivdi3 (n d : BitVec 64) : Option (BitVec 64) :=
  udiv64 n d

def umoddi3 (n d : BitVec 64) : Option (BitVec 64) :=
  (umod64 n d).map (·.setWidth 64)

theorem ne_zero_of_pos {w : Nat} {x : BitVec w} (h : 0 < x.toNat) : x ≠ 0 := by
  rintro rfl
  simp at h

theorem divl_eq {n : BitVec 64} {d : BitVec 32} (hd : d ≠ 0) (hq : n.toNat / d.toNat < 2 ^ 32) :
    divl n d = some (BitVec.ofNat 32 (n.toNat / d.toNat)) :=
  if_pos ⟨hd, hq⟩

-- Before the step by k at most 2 * k - 1 leading zeros are left, after it at most k - 1.
def Shifted (x : BitVec 32) (k : Nat) (state : Nat × BitVec 32) : Prop :=
  state.2.toNat = x.toNat * 2 ^ state.1 ∧ 2 ^ (32 - k) ≤ state.2.toNat

theorem Shifted.step {x : BitVec 32} {k : Nat} {state : Nat × BitVec 32} (hk : 2 * k ≤ 32)
    (h : Shifted x (2 * k) state) : Shifted x k (nlzStep state (2 ^ (32 - k) - 1) k) := by
  obtain ⟨hx, hlow⟩ := h
  have hpos := Nat.two_pow_pos (32 - k)
  unfold nlzStep
  split
  case isTrue hle =>
    have hfit : state.2.toNat * 2 ^ k < 2 ^ 32 := by
      calc state.2.toNat * 2 ^ k < 2 ^ (32 - k) * 2 ^ k :=
            Nat.mul_lt_mul_of_pos_right (by omega) (Nat.two_pow_pos k)
        _ = 2 ^ 32 := by rw [← pow_add]; congr 1; omega
    have hval : (state.2 <<< k).toNat = state.2.toNat * 2 ^ k := by
      rw [BitVec.toNat_shiftLeft, Nat.shiftLeft_eq, Nat.mod_eq_of_lt hfit]
    refine ⟨?_, ?_⟩
    · rw [hval, hx, pow_add, mul_assoc]
    · rw [hval]
      calc 2 ^ (32 - k) = 2 ^ (32 - 2 * k) * 2 ^ k := by rw [← pow_add]; congr 1; omega
        _ ≤ state.2.toNat * 2 ^ k := Nat.mul_le_mul_right _ hlow
  case isFalse hlt =>
    exact ⟨hx, by omega⟩

theorem nlz_spec {x : BitVec 32} (hx : x ≠ 0) :
    nlz x < 32 ∧ 2 ^ 31 ≤ x.toNat * 2 ^ nlz x ∧ x.toNat * 2 ^ nlz x < 2 ^ 32 := by
  have hpos : 0 < x.toNat := pos_of_ne_zero fun h => hx (BitVec.eq_of_toNat_eq h)
  have h16 : Shifted x (2 * 16) (0, x) := ⟨by simp, hpos⟩
  have h1 := ((((h16.step (by omega)).step (k := 8) (by omega)).step (k := 4)
    (by omega)).step (k := 2) (by omega)).step (k := 1) (by omega)
  obtain ⟨state, hnlz, hval, hlow⟩ : ∃ state, nlz x = state.1 ∧ Shifted x 1 state := ⟨_, rfl, h1⟩
  have hlt := state.2.isLt
  rw [hval, ← hnlz] at hlow hlt
  refine ⟨(Nat.pow_lt_pow_iff_right (a := 2) (by omega)).mp ?_, hlow, hlt⟩
  exact lt_of_le_of_lt (Nat.le_mul_of_pos_left _ hpos) hlt

section Estimate

variable {n d s : Nat}

-- The normalised high word of d, shifted back, is d without its low 32 - s bits. So dividing by
-- it gives at least the quotient; d has at least 63 - s bits, so what was cut off changes the
-- quotient by at most one.
theorem estimate_eq (hs : s < 32) :
    n / 2 / (d * 2 ^ s / 2 ^ 32) / 2 ^ (31 - s) = n / (d / 2 ^ (32 - s) * 2 ^ (32 - s)) := by
  have hword : d * 2 ^ s / 2 ^ 32 = d / 2 ^ (32 - s) := by
    rw [show (2 : Nat) ^ 32 = 2 ^ (32 - s) * 2 ^ s by rw [← pow_add]; congr 1; omega]
    exact Nat.mul_div_mul_right _ _ (Nat.two_pow_pos s)
  rw [hword, Nat.div_div_eq_div_mul, Nat.div_div_eq_div_mul, mul_left_comm,
    show (2 : Nat) * 2 ^ (31 - s) = 2 ^ (32 - s) by rw [← pow_succ']; congr 1; omega]

theorem estimate_bounds (hs : s < 32) (hn : n < 2 ^ 64) (hd : 2 ^ 63 ≤ d * 2 ^ s) :
    n / d ≤ n / (d / 2 ^ (32 - s) * 2 ^ (32 - s)) ∧
      n / (d / 2 ^ (32 - s) * 2 ^ (32 - s)) ≤ n / d + 1 := by
  have hsplit := Nat.div_add_mod d (2 ^ (32 - s))
  have hcut := Nat.mod_lt d (Nat.two_pow_pos (32 - s))
  have hdlow : 2 ^ (63 - s) ≤ d := by
    refine Nat.le_of_mul_le_mul_right ?_ (Nat.two_pow_pos s)
    rwa [← pow_add, show 63 - s + s = 63 by omega]
  have hwlow : 2 ^ (63 - s) ≤ d / 2 ^ (32 - s) * 2 ^ (32 - s) := by
    rw [show 63 - s = 31 + (32 - s) by omega, pow_add] at hdlow ⊢
    exact Nat.mul_le_mul_right _ ((Nat.le_div_iff_mul_le (Nat.two_pow_pos _)).mpr hdlow)
  rw [mul_comm] at hsplit
  generalize d / 2 ^ (32 - s) * 2 ^ (32 - s) = w at *
  have hwpos : 0 < w := lt_of_lt_of_le (Nat.two_pow_pos _) hwlow
  refine ⟨Nat.div_le_div_left (by omega) hwpos, ?_⟩
  have hq : n / d < 2 ^ (s + 1) := by
    refine (Nat.div_lt_iff_lt_mul (by omega)).mpr (lt_of_lt_of_le hn ?_)
    calc 2 ^ 64 = 2 ^ (s + 1) * 2 ^ (63 - s) := by rw [← pow_add]; congr 1; omega
      _ ≤ 2 ^ (s + 1) * d := Nat.mul_le_mul_left _ hdlow
  have herror : (n / d + 1) * (d - w) ≤ w := by
    calc (n / d + 1) * (d - w) ≤ 2 ^ (s + 1) * (2 ^ (32 - s) - 1) := Nat.mul_le_mul hq (by omega)
      _ ≤ 2 ^ (63 - s) := by interval_cases s <;> decide
      _ ≤ w := hwlow
  refine Nat.le_of_lt_succ ((Nat.div_lt_iff_lt_mul hwpos).mpr ?_)
  calc n < d * (n / d + 1) := Nat.lt_mul_div_succ n (by omega)
    _ = (n / d + 1) * w + (n / d + 1) * (d - w) := by
          rw [← mul_add, mul_comm]; congr 1; omega
    _ ≤ (n / d + 1) * w + w := by omega
    _ = (n / d + 1 + 1) * w := by ring

theorem corrected_eq {q : Nat} (hd : d ≤ n) (hlow : n / d ≤ q) (hhigh : q ≤ n / d + 1)
    (hpos : 0 < d) : (if n - (q - 1) * d < d then q - 1 else q) = n / d := by
  have hdiv := div_add_mod' n d
  have hmod := Nat.mod_lt n hpos
  have hone : 1 ≤ n / d := (one_le_div_iff hpos).mpr hd
  obtain rfl | rfl : q = n / d ∨ q = n / d + 1 := by omega
  · have hprev : (n / d - 1) * d + d = n / d * d := by
      rw [← succ_mul]; congr 1; omega
    rw [if_neg (by omega)]
  · rw [if_pos (by simp only [Nat.add_sub_cancel]; omega), Nat.add_sub_cancel]

end Estimate

theorem toNat_shift_add (high low : BitVec 32) :
    (1#64 <<< 32 * high.setWidth 64 + low.setWidth 64).toNat = 2 ^ 32 * high.toNat + low.toNat := by
  have hhigh := high.isLt
  have hlow := low.isLt
  have hb : (1#64 <<< 32).toNat = 2 ^ 32 := rfl
  simp only [BitVec.toNat_add, BitVec.toNat_mul, BitVec.toNat_setWidth, hb]
  omega

theorem toNat_high_word (x : BitVec 64) : ((x >>> 32).setWidth 32).toNat = x.toNat / 2 ^ 32 := by
  have := x.isLt
  simp only [BitVec.toNat_setWidth, BitVec.toNat_ushiftRight, Nat.shiftRight_eq_div_pow]
  omega

theorem udiv64_low {n d : BitVec 64} (hd : 0 < d.toNat) (hlow : d.toNat < 2 ^ 32) :
    udiv64 n d = some (n / d) := by
  have hshift : d >>> 32 = 0 := by
    apply BitVec.eq_of_toNat_eq
    simpa [Nat.shiftRight_eq_div_pow] using hlow
  have hd0 : (d.setWidth 32).toNat = d.toNat := by
    simpa using hlow
  have hn : 2 ^ 32 * (n.toNat / 2 ^ 32) + n.toNat % 2 ^ 32 = n.toNat := Nat.div_add_mod _ _
  have hn0 : (n.setWidth 32).toNat = n.toNat % 2 ^ 32 := BitVec.toNat_setWidth _ _
  have hn0lt := Nat.mod_lt n.toNat (Nat.two_pow_pos 32)
  have hrest := Nat.mod_lt (n.toNat / 2 ^ 32) hd
  have hdiv := Nat.div_add_mod (n.toNat / 2 ^ 32) d.toNat
  have harg := toNat_shift_add ((n >>> 32).setWidth 32 % d.setWidth 32) (n.setWidth 32)
  rw [BitVec.toNat_umod, toNat_high_word, hd0, hn0] at harg
  have hquot : (2 ^ 32 * (n.toNat / 2 ^ 32 % d.toNat) + n.toNat % 2 ^ 32) / d.toNat < 2 ^ 32 := by
    rw [Nat.div_lt_iff_lt_mul hd]
    calc _ < 2 ^ 32 * (n.toNat / 2 ^ 32 % d.toNat + 1) := by omega
      _ ≤ 2 ^ 32 * d.toNat := Nat.mul_le_mul_left _ hrest
  have hdivl := divl_eq (d := d.setWidth 32) (n := _) (ne_zero_of_pos (hd0 ▸ hd))
    (by rw [harg, hd0]; exact hquot)
  unfold udiv64
  rw [if_pos hshift]
  simp only [hdivl, map_some, some.injEq]
  apply BitVec.eq_of_toNat_eq
  rw [BitVec.add_comm, toNat_shift_add, BitVec.toNat_ofNat, harg, hd0, Nat.mod_eq_of_lt hquot,
    BitVec.toNat_udiv, BitVec.toNat_udiv, toNat_high_word, hd0, add_comm,
    ← Nat.add_mul_div_right _ _ hd]
  congr 1
  calc _ = 2 ^ 32 * (d.toNat * (n.toNat / 2 ^ 32 / d.toNat) + n.toNat / 2 ^ 32 % d.toNat) +
        n.toNat % 2 ^ 32 := by ring
    _ = n.toNat := by rw [hdiv, hn]

theorem toNat_normalised {d : BitVec 64} {s : Nat} (hs : s < 32)
    (hfit : d.toNat / 2 ^ 32 * 2 ^ s < 2 ^ 32) :
    ((d <<< s >>> 32).setWidth 32).toNat = d.toNat * 2 ^ s / 2 ^ 32 := by
  have hhigh : d.toNat / 2 ^ 32 < 2 ^ (32 - s) := by
    refine Nat.lt_of_mul_lt_mul_right (a := 2 ^ s) ?_
    rwa [← pow_add, show 32 - s + s = 32 by omega]
  have hbound : d.toNat * 2 ^ s < 2 ^ 64 := by
    calc d.toNat * 2 ^ s < 2 ^ (32 - s) * 2 ^ 32 * 2 ^ s :=
          Nat.mul_lt_mul_of_pos_right ((Nat.div_lt_iff_lt_mul (by omega)).mp hhigh)
            (Nat.two_pow_pos s)
      _ = 2 ^ 64 := by rw [← pow_add, ← pow_add]; congr 1; omega
  rw [toNat_high_word, BitVec.toNat_shiftLeft, Nat.shiftLeft_eq, Nat.mod_eq_of_lt hbound]

theorem toNat_corrected {n d q : BitVec 64} (hd : d ≤ n) (hpos : 0 < d.toNat)
    (hlow : n.toNat / d.toNat ≤ q.toNat) (hhigh : q.toNat ≤ n.toNat / d.toNat + 1) :
    (if n - (q - 1) * d < d then q - 1 else q) = n / d := by
  have hq : 1 ≤ q.toNat := le_trans ((one_le_div_iff hpos).mpr hd) hlow
  have hle : (q.toNat - 1) * d.toNat ≤ n.toNat := (Nat.le_div_iff_mul_le hpos).mp (by omega)
  have hn := n.isLt
  have hprev : (q - 1).toNat = q.toNat - 1 := BitVec.toNat_sub_of_le hq
  have hmul : ((q - 1) * d).toNat = (q.toNat - 1) * d.toNat := by
    rw [BitVec.toNat_mul, hprev, Nat.mod_eq_of_lt (by omega)]
  have hsub : (n - (q - 1) * d).toNat = n.toNat - (q.toNat - 1) * d.toNat := by
    rw [BitVec.toNat_sub_of_le (by rw [BitVec.le_def, hmul]; exact hle), hmul]
  apply BitVec.eq_of_toNat_eq
  rw [BitVec.toNat_udiv, ← corrected_eq hd hlow hhigh hpos, apply_ite BitVec.toNat, hprev]
  simp only [BitVec.lt_def, hsub]

theorem udiv64_high {n d : BitVec 64} (hhigh : 2 ^ 32 ≤ d.toNat) : udiv64 n d = some (n / d) := by
  have hshift : d >>> 32 ≠ 0 :=
    ne_zero_of_pos (by rw [BitVec.toNat_ushiftRight, Nat.shiftRight_eq_div_pow]; omega)
  have hd1 : (d >>> 32).setWidth 32 ≠ 0 := ne_zero_of_pos (by rw [toNat_high_word]; omega)
  obtain ⟨hs, hlow, hfit⟩ := nlz_spec hd1
  rw [toNat_high_word] at hlow hfit
  unfold udiv64
  rw [if_neg hshift]
  split
  case isTrue hlt =>
    congr
    apply BitVec.eq_of_toNat_eq
    rw [BitVec.toNat_udiv, div_eq_of_lt (BitVec.lt_def.mp hlt)]
    rfl
  case isFalse hge =>
    dsimp only
    generalize nlz _ = s at *
    have hn := n.isLt
    have hword := toNat_normalised hs hfit
    have hd63 : 2 ^ 63 ≤ d.toNat * 2 ^ s := by
      calc 2 ^ 63 = 2 ^ 31 * 2 ^ 32 := by norm_num
        _ ≤ d.toNat / 2 ^ 32 * 2 ^ s * 2 ^ 32 := Nat.mul_le_mul_right _ hlow
        _ = d.toNat / 2 ^ 32 * 2 ^ 32 * 2 ^ s := by ring
        _ ≤ d.toNat * 2 ^ s := Nat.mul_le_mul_right _ (div_mul_le_self _ _)
    have hwlow : 2 ^ 31 ≤ d.toNat * 2 ^ s / 2 ^ 32 := by omega
    have hhalf : (n >>> 1).toNat = n.toNat / 2 := by
      rw [BitVec.toNat_ushiftRight, Nat.shiftRight_eq_div_pow, pow_one]
    have hquot : n.toNat / 2 / (d.toNat * 2 ^ s / 2 ^ 32) < 2 ^ 32 := by
      rw [Nat.div_lt_iff_lt_mul (by omega)]
      omega
    have hdivl := divl_eq (n := n >>> 1) (d := (d <<< s >>> 32).setWidth 32)
      (ne_zero_of_pos (by omega)) (by rw [hhalf, hword]; exact hquot)
    simp only [hdivl, map_some, some.injEq, hhalf, hword]
    obtain ⟨hqlow, hqhigh⟩ := estimate_bounds hs hn hd63
    rw [← estimate_eq hs] at hqlow hqhigh
    have hq : ((BitVec.ofNat 32 (n.toNat / 2 / (d.toNat * 2 ^ s / 2 ^ 32)) >>> (31 - s)).setWidth
        64).toNat = n.toNat / 2 / (d.toNat * 2 ^ s / 2 ^ 32) / 2 ^ (31 - s) := by
      rw [BitVec.toNat_setWidth_of_le (by omega), BitVec.toNat_ushiftRight, BitVec.toNat_ofNat,
        Nat.mod_eq_of_lt hquot, Nat.shiftRight_eq_div_pow]
    rw [← hq] at hqlow hqhigh
    exact toNat_corrected (BitVec.not_lt.mp hge) (by omega) hqlow hqhigh

theorem udiv64_eq {n d : BitVec 64} (hd : d ≠ 0) : udiv64 n d = some (n / d) := by
  have hpos : 0 < d.toNat := pos_of_ne_zero fun h => hd (BitVec.eq_of_toNat_eq h)
  by_cases hlow : d.toNat < 2 ^ 32
  · exact udiv64_low hpos hlow
  · exact udiv64_high (by omega)

theorem sdiv64_eq {n d : BitVec 64} (hd : d ≠ 0) : sdiv64 n d = some (n.sdiv d) := by
  have hpos (m : BitVec 64) : udiv64 m d = some (m / d) := udiv64_eq hd
  have hneg (m : BitVec 64) : udiv64 m (-d) = some (m / -d) := udiv64_eq (by simpa using hd)
  have hsign (x : BitVec 64) : x.toInt < 0 ↔ x.msb = true := BitVec.msb_eq_toInt.symm ▸ by simp
  unfold sdiv64
  simp only [← not_lt, hsign, BitVec.sdiv]
  cases n.msb <;> cases d.msb <;> simp [hpos, hneg]

theorem division_exact {n d : BitVec 64} (hd : d ≠ 0) :
    (udivdi3 n d).map BitVec.toNat = some (n.toNat / d.toNat) ∧
      (divdi3 n d).map BitVec.toInt = some ((n.toInt.tdiv d.toInt).bmod (2 ^ 64)) := by
  refine ⟨?_, ?_⟩
  · simp [udivdi3, udiv64_eq hd]
  · simp [divdi3, sdiv64_eq hd, BitVec.toInt_sdiv]

theorem division_exact_min :
    (BitVec.ofInt 64 (-1) ≠ 0) ∧
      (divdi3 (BitVec.ofInt 64 (-2 ^ 63)) (BitVec.ofInt 64 (-1))).map BitVec.toInt =
        some (((-2 ^ 63 : Int).tdiv (-1)).bmod (2 ^ 64)) :=
  ⟨by decide, (division_exact (by decide)).2⟩

theorem sub_mul_udiv (n d : BitVec 64) : n - d * (n / d) = n % d := by
  have hdiv := Nat.div_add_mod n.toNat d.toNat
  have hn := n.isLt
  have hmul : (d * (n / d)).toNat = d.toNat * (n.toNat / d.toNat) := by
    rw [BitVec.toNat_mul, BitVec.toNat_udiv, Nat.mod_eq_of_lt (by omega)]
  apply BitVec.eq_of_toNat_eq
  rw [BitVec.toNat_sub_of_le (by rw [BitVec.le_def, hmul]; omega), hmul, BitVec.toNat_umod]
  omega

theorem sub_mul_sdiv (n d : BitVec 64) : n - d * n.sdiv d = n.srem d := by
  apply BitVec.eq_of_toInt_eq
  rw [BitVec.toInt_sub, BitVec.toInt_mul, BitVec.toInt_sdiv, mul_bmod_bmod,
    sub_bmod_bmod, ← tmod_def, ← BitVec.toInt_srem, BitVec.toInt_bmod_cancel]

-- umod64 returns uint32_t and smod64 int32_t, whatever the width of the remainder.
theorem umoddi3_eq {n d : BitVec 64} (hd : d ≠ 0) :
    (umoddi3 n d).map BitVec.toNat = some (n.toNat % d.toNat % 2 ^ 32) := by
  simp only [umoddi3, umod64, udiv64_eq hd, map_some, sub_mul_udiv]
  rw [BitVec.toNat_setWidth_of_le (by omega), BitVec.toNat_setWidth, BitVec.toNat_umod]

theorem moddi3_eq {n d : BitVec 64} (hd : d ≠ 0) :
    (moddi3 n d).map BitVec.toInt = some ((n.toInt.tmod d.toInt).bmod (2 ^ 32)) := by
  simp only [moddi3, smod64, sdiv64_eq hd, map_some, sub_mul_sdiv]
  rw [BitVec.toInt_signExtend_of_le (by omega), BitVec.toInt_setWidth, ← BitVec.toInt_srem,
    BitVec.toInt_eq_toNat_bmod (n.srem d), bmod_bmod_of_dvd (by decide)]

theorem remainder_exact_iff {n d : BitVec 64} (hd : d ≠ 0) :
    ((umoddi3 n d).map BitVec.toNat = some (n.toNat % d.toNat) ↔ n.toNat % d.toNat < 2 ^ 32) ∧
      ((moddi3 n d).map BitVec.toInt = some (n.toInt - d.toInt * n.toInt.tdiv d.toInt) ↔
        -2 ^ 31 ≤ n.toInt.tmod d.toInt ∧ n.toInt.tmod d.toInt < 2 ^ 31) := by
  rw [umoddi3_eq hd, moddi3_eq hd, ← tmod_def, some_inj, some_inj]
  refine ⟨mod_eq_iff_lt (by omega), ?_⟩
  rw [bmod_eq_iff (by omega)]
  simp

theorem remainder_exact_seven :
    (7 : BitVec 64) ≠ 0 ∧ (umoddi3 100 7).map BitVec.toNat = some 2 ∧
      (moddi3 (BitVec.ofInt 64 (-100)) 7).map BitVec.toInt = some (-2) :=
  ⟨by decide, (remainder_exact_iff (n := 100) (d := 7) (by decide)).1.mpr (by decide),
    (remainder_exact_iff (n := BitVec.ofInt 64 (-100)) (d := 7) (by decide)).2.mpr (by decide)⟩

theorem remainder_truncated :
    (umoddi3 (2 ^ 32) (2 ^ 32 + 1)).map BitVec.toNat = some 0 ∧
      (moddi3 (2 ^ 31) (2 ^ 31 + 1)).map BitVec.toInt = some (-2 ^ 31) :=
  ⟨umoddi3_eq (by decide), moddi3_eq (by decide)⟩

end Pintos.LibC.Arithmetic
