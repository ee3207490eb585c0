import Mathlib.Data.List.Basic
import Mathlib.Algebra.Order.Ring.Nat

namespace Pintos.LibC.Stdio

open List

structure Flags where
  minus : Bool := false
  plus : Bool := false
  space : Bool := false
  pound : Bool := false
  zero : Bool := false
  group : Bool := false

structure PrintfConversion where
  flags : Flags
  width : Int
  precision : Int

structure IntegerBase where
  base : Nat
  digits : List UInt8
  x : Option UInt8
  group : Nat

def baseO : IntegerBase := ⟨8, [48, 49, 50, 51, 52, 53, 54, 55], none, 3⟩

def signChar (isSigned negative : Bool) (flags : Flags) : Option UInt8 :=
  if !isSigned then none
  else if flags.plus then some (if negative then 45 else 43)
  else if flags.space then some (if negative then 45 else 32)
  else if negative then some 45
  else none

-- What the loop over the digits leaves in the buffer, the last digit first. No value has more
-- digits than the value itself.
def accumulateDigits (b : IntegerBase) (group : Bool) : Nat → Nat → Nat → List UInt8
  | 0, _, _ => []
  | fuel + 1, value, digitCnt =>
    if value = 0 then []
    else (if group ∧ 0 < digitCnt ∧ digitCnt % b.group = 0 then [44] else []) ++
      b.digits.getD (value % b.base) 0 ::
        accumulateDigits b group fuel (value / b.base) (digitCnt + 1)

def formatInteger (value : Nat) (isSigned negative : Bool) (b : IntegerBase)
    (c : PrintfConversion) : List UInt8 :=
  let sign := signChar isSigned negative c.flags
  let x := if c.flags.pound ∧ value ≠ 0 then b.x else none
  let buf := accumulateDigits b c.flags.group value value 0
  let precision := if c.precision < 0 then 1 else c.precision.toNat
  -- the last byte of the 64 is left to the zero of the # flag
  let buf := buf ++ replicate (min precision 63 - buf.length) 48
  let buf := if c.flags.pound ∧ b.base = 8 ∧ buf.getLast? ≠ some 48 then buf ++ [48] else buf
  let padCnt := (c.width - buf.length - (if x.isSome then 2 else 0) -
    if sign.isSome then 1 else 0).toNat
  (if c.flags.minus ∨ c.flags.zero then [] else replicate padCnt 32) ++ sign.toList ++
    (x.elim [] fun x => [48, x]) ++ (if c.flags.zero then replicate padCnt 48 else []) ++
    buf.reverse ++ if c.flags.minus then replicate padCnt 32 else []

-- What snprintf leaves in the buffer when the conversions put out `out`: vsnprintf_helper drops
-- what does not fit before the terminator.
def snprintf (bufSize : Nat) (out : List UInt8) : List UInt8 :=
  if 0 < bufSize then out.take (bufSize - 1) ++ [0] else []

theorem length_accumulateDigits_le (b : IntegerBase) (fuel value digitCnt width : Nat)
    (hvalue : value < b.base ^ width) :
    (accumulateDigits b false fuel value digitCnt).length ≤ width := by
  induction fuel generalizing value digitCnt width with
  | zero => simp [accumulateDigits]
  | succ fuel ih =>
    rw [accumulateDigits]
    split
    · simp
    · cases width with
      | zero =>
        rw [pow_zero] at hvalue
        omega
      | succ width =>
        have hdiv : value / b.base < b.base ^ width :=
          Nat.div_lt_of_lt_mul (by rwa [mul_comm, ← pow_succ])
        have hrest := ih (value / b.base) (digitCnt + 1) width hdiv
        simp
        omega

-- "%0<width>o"
def octalConversion (width : Nat) : PrintfConversion := ⟨{ zero := true }, width, -1⟩

theorem formatInteger_octal {width : Nat} (hwidth : 0 < width) (value : Nat) :
    formatInteger value false false baseO (octalConversion width) =
      replicate (width - (accumulateDigits baseO false value value 0).length) 48 ++
        (accumulateDigits baseO false value value 0).reverse := by
  generalize hbuf : accumulateDigits baseO false value value 0 = buf
  have hpad : ((width : Int) - ((buf.length : Int) + ((1 - buf.length : Nat) : Int))).toNat +
      (1 - buf.length) = width - buf.length := by omega
  simp [formatInteger, octalConversion, signChar, hbuf]
  rw [← append_assoc, replicate_append_replicate, hpad]

end Pintos.LibC.Stdio
