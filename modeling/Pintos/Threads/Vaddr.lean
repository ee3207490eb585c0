import Mathlib.Algebra.Group.Nat.Defs
import Mathlib.Order.Basic
import Mathlib.Data.Nat.Basic

namespace Pintos.Threads

open BitVec

-- Addresses, and the sizes and offsets that are added to them, are 32-bit words.
abbrev Addr := BitVec 32

def pgSize : Addr := 4096
def pgMask : Addr := 0xfff
def physBase : Addr := 0xc0000000

def pgOfs (va : Addr) : Addr := va &&& pgMask

def pgNo (va : Addr) : Addr := va >>> 12

def pgRoundDown (va : Addr) : Addr := va &&& ~~~pgMask

def isUserVaddr (va : Addr) : Bool := va < physBase

def ptov (paddr : Addr) : Addr := paddr + physBase

def vtop (vaddr : Addr) : Addr := vaddr - physBase

theorem toNat_pgOfs (va : Addr) : (pgOfs va).toNat = va.toNat % 4096 := by
  unfold pgOfs pgMask
  rw [toNat_and]
  exact Nat.and_two_pow_sub_one_eq_mod va.toNat 12

theorem toNat_pgNo (va : Addr) : (pgNo va).toNat = va.toNat / 4096 := by
  unfold pgNo
  rw [toNat_ushiftRight, Nat.shiftRight_eq_div_pow]

theorem pgRoundDown_eq (va : Addr) : pgRoundDown va = pgNo va <<< 12 := by
  have hmask : ~~~pgMask = allOnes 32 <<< 12 := by decide
  unfold pgRoundDown pgNo
  rw [hmask, shiftLeft_ushiftRight]

theorem toNat_pgRoundDown (va : Addr) : (pgRoundDown va).toNat = va.toNat / 4096 * 4096 := by
  have hlt := va.isLt
  rw [pgRoundDown_eq, toNat_shiftLeft, toNat_pgNo, Nat.shiftLeft_eq]
  exact Nat.mod_eq_of_lt (by omega)

-- A page is named by its first address, and every address of it rounds down to that.
theorem pgRoundDown_eq_iff (va page : Addr) (hpage : pgOfs page = 0) :
    pgRoundDown va = page ↔ page.toNat ≤ va.toNat ∧ va.toNat < page.toNat + 4096 := by
  have hround := toNat_pgRoundDown va
  have hofs : page.toNat % 4096 = 0 := by rw [← toNat_pgOfs, hpage]; rfl
  rw [← toNat_inj, hround]
  omega

theorem pgOfs_pgRoundDown (va : Addr) : pgOfs (pgRoundDown va) = 0 := by
  apply eq_of_toNat_eq
  rw [toNat_pgOfs, toNat_pgRoundDown, Nat.mul_mod_left]
  rfl

end Pintos.Threads
