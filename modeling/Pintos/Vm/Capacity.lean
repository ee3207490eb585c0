import Pintos.Threads.Palloc.Exclusive
import Pintos.Threads.Vaddr

namespace Pintos.Vm

open Threads Option BitVec

variable {ram n limit : Nat}

open Palloc (divRoundUp bitmapBufSize)

def bitmapPages (pageCnt : Nat) : Nat := divRoundUp (bitmapBufSize pageCnt) Palloc.pgSize

-- How many pages the pool can hand out, wherever it lies; `none` for the panic.
def initPool (pageCnt : Nat) : Option Nat :=
  (Palloc.initPool 0 pageCnt).toOption.map (·.usedMap.bitCnt)

-- The number of pages from 1 MB to the end of RAM. Both ends are addresses, and the
-- difference of two pointers is a signed number.
def freePages (initRamPages : Nat) : Nat :=
  ((ptov (BitVec.ofNat 32 (initRamPages * 4096)) - ptov 0x100000).toInt / 4096).toNat

structure Pools where
  kernel : Nat
  user : Nat
deriving DecidableEq

def userPages (initRamPages userPageLimit : Nat) : Nat :=
  let userPages := freePages initRamPages / 2
  if userPageLimit < userPages then userPageLimit else userPages

def pallocInit (initRamPages userPageLimit : Nat) : Option Pools := do
  let user := userPages initRamPages userPageLimit
  let kernelLeft ← initPool (freePages initRamPages - user)
  let userLeft ← initPool user
  return ⟨kernelLeft, userLeft⟩

-- The number of slots in the frame table. The limit that frame_init is called with is not
-- looked at.
def frameInit (initRamPages _userPageLimit : Nat) : Nat := freePages initRamPages / 2

def frameLimit : Nat := 766

def slotLeft (initRamPages used : Nat) : Bool := used < frameInit initRamPages frameLimit

def pageLeft (pools : Pools) (used : Nat) : Bool := used < pools.user

theorem freePages_eq (hlow : 256 < ram) (hhigh : ram ≤ 2 ^ 18) : freePages ram = ram - 256 := by
  have hdiff : (ptov (BitVec.ofNat 32 (ram * 4096)) - ptov 0x100000).toNat = (ram - 256) * 4096 := by
    have hbase : physBase.toNat = 3221225472 := rfl
    have hstart : (0x100000 : BitVec 32).toNat = 1048576 := rfl
    unfold ptov
    rw [toNat_sub, toNat_add, toNat_add, toNat_ofNat, hbase, hstart]
    omega
  have hint : (ptov (BitVec.ofNat 32 (ram * 4096)) - ptov 0x100000).toInt =
      ((ram - 256) * 4096 : Nat) := by
    rw [toInt_eq_toNat_of_lt (by omega), hdiff]
  unfold freePages
  rw [hint]
  omega

theorem bitmapPages_pos (n : Nat) : 0 < bitmapPages n := by
  unfold bitmapPages bitmapBufSize divRoundUp Palloc.pgSize
  omega

theorem bitmapPages_le (h : 0 < n) : bitmapPages n ≤ n := by
  unfold bitmapPages bitmapBufSize divRoundUp Palloc.pgSize
  omega

theorem initPool_eq_some {left : Nat} :
    initPool n = some left ↔ 0 < n ∧ left + bitmapPages n = n := by
  by_cases hn : n = 0
  · subst hn
    have hpanic : Palloc.initPool 0 0 = .error .panic := rfl
    rw [initPool, hpanic]
    simp [Except.toOption]
  · have hle := bitmapPages_le (Nat.pos_of_ne_zero hn)
    have hfits : bitmapBufSize (n - bitmapPages n) ≤ bitmapPages n * Palloc.pgSize :=
      (Palloc.bitmapBufSize_mono (Nat.sub_le ..)).trans (Palloc.le_divRoundUp_mul _)
    have hcreate : Palloc.bitmapCreateInBuf (n - bitmapPages n) (bitmapPages n * Palloc.pgSize) =
        .ok ⟨n - bitmapPages n, fun _ => false⟩ := by
      rw [Palloc.bitmapCreateInBuf, decide_eq_true hfits]
      rfl
    have hpool : Palloc.initPool 0 n = .ok _ :=
      (if_neg (not_lt.mpr hle)).trans (bind_ok_iff.mpr ⟨_, hcreate, rfl⟩)
    rw [initPool, hpool]
    change some (n - bitmapPages n) = some left ↔ _
    rw [some.injEq]
    omega

theorem userPages_eq (limit : Nat) (hlow : 256 < ram) (hhigh : ram ≤ 2 ^ 18) :
    userPages ram limit = min ((ram - 256) / 2) limit := by
  unfold userPages
  rw [freePages_eq hlow hhigh]
  dsimp only
  split <;> omega

theorem pallocInit_eq_some {pools : Pools} (h : pallocInit ram limit = some pools) :
    0 < userPages ram limit ∧
      pools.user + bitmapPages (userPages ram limit) = userPages ram limit := by
  obtain ⟨kernelLeft, -, h⟩ := bind_eq_some_iff.mp h
  obtain ⟨userLeft, huser, h⟩ := bind_eq_some_iff.mp h
  cases h
  exact initPool_eq_some.mp huser

theorem pallocInit_isSome (hlow : 256 < ram) (hhigh : ram ≤ 2 ^ 18)
    (hpos : 0 < userPages ram limit) : ∃ pools, pallocInit ram limit = some pools := by
  have huser := bitmapPages_le hpos
  have hle : userPages ram limit ≤ (ram - 256) / 2 := by
    rw [userPages_eq limit hlow hhigh]
    exact Nat.min_le_left _ _
  have hkernel : 0 < freePages ram - userPages ram limit := by
    rw [freePages_eq hlow hhigh]
    omega
  have hfits := bitmapPages_le hkernel
  refine ⟨⟨freePages ram - userPages ram limit - bitmapPages (freePages ram - userPages ram limit),
    userPages ram limit - bitmapPages (userPages ram limit)⟩, ?_⟩
  apply bind_eq_some_iff.mpr
  refine ⟨_, initPool_eq_some.mpr ⟨hkernel, Nat.sub_add_cancel hfits⟩, ?_⟩
  apply bind_eq_some_iff.mpr
  exact ⟨_, initPool_eq_some.mpr ⟨hpos, Nat.sub_add_cancel huser⟩, rfl⟩

def CapacityAgrees (ram limit : Nat) : Prop :=
  ∀ pools, pallocInit ram limit = some pools → frameInit ram frameLimit ≤ pools.user ∧
    ∀ used, slotLeft ram used = true → pageLeft pools used = true

-- Whenever the kernel boots, the slots exceed the pages by those of the pool's bitmap and
-- those that the limit took away.
theorem capacity_agrees_iff {ram limit : Nat} (hlow : 256 < ram) (hhigh : ram ≤ 2 ^ 18) :
    (CapacityAgrees ram limit ↔ ram = 257 ∨ limit = 0) ∧
      ∀ pools, pallocInit ram limit = some pools →
        frameInit ram frameLimit = pools.user + bitmapPages (userPages ram limit) +
          (frameInit ram frameLimit - userPages ram limit) := by
  have hslots : frameInit ram frameLimit = (ram - 256) / 2 := by
    rw [frameInit, freePages_eq hlow hhigh]
  have huser := userPages_eq limit hlow hhigh
  constructor
  · constructor
    · intro hagrees
      by_contra hnot
      have hpos : 0 < userPages ram limit := by omega
      obtain ⟨pools, hpools⟩ := pallocInit_isSome hlow hhigh hpos
      have hle := (hagrees pools hpools).1
      have hsum := (pallocInit_eq_some hpools).2
      have hbitmap := bitmapPages_pos (userPages ram limit)
      omega
    · intro hpanics pools hpools
      have hpos := (pallocInit_eq_some hpools).1
      omega
  · intro pools hpools
    have hsum := (pallocInit_eq_some hpools).2
    omega

theorem capacity_agrees_iff_boot : ¬ CapacityAgrees 1024 (2 ^ 32 - 1) := by
  intro hagrees
  have hpanics := (capacity_agrees_iff (by decide) (by decide)).1.mp hagrees
  omega

-- 4 MB of RAM and no limit: 384 slots, 383 pages.
theorem capacity_disagrees :
    pallocInit 1024 (2 ^ 32 - 1) = some ⟨383, 383⟩ ∧ frameInit 1024 frameLimit = 384 ∧
      slotLeft 1024 383 = true ∧ pageLeft ⟨383, 383⟩ 383 = false := by
  decide +kernel

end Pintos.Vm
