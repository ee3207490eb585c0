import Pintos.Lib.Except
import Pintos.Lib.TransitionSystem
import Pintos.LibKernel.Bitmap

namespace Pintos.Threads.Palloc

open Lib LibKernel

-- Addresses are physical.
def pgSize : Nat := 4096

def pgOfs (addr : Nat) : Nat := addr % pgSize

def pgNo (addr : Nat) : Nat := addr / pgSize

def divRoundUp (x step : Nat) : Nat := (x + step - 1) / step

def bitmapBufSize (bitCnt : Nat) : Nat := 8 + 4 * divRoundUp bitCnt 32

inductive Fault
  | panic
  | assertion
deriving DecidableEq

def assert (b : Bool) : Except Fault Unit := if b then .ok () else .error .assertion

structure Flags where
  palAssert : Bool
  palZero : Bool
  palUser : Bool
deriving DecidableEq

structure Pool where
  usedMap : Bitmap
  usedMapAddr : Nat
  base : Nat

structure Allocator where
  kernelPool : Pool
  userPool : Pool
  memory : Nat → UInt8

def bitmapCreateInBuf (bitCnt blockSize : Nat) : Except Fault Bitmap := do
  assert (bitmapBufSize bitCnt ≤ blockSize)
  return ⟨bitCnt, fun _ => false⟩

def initPool (base pageCnt : Nat) : Except Fault Pool :=
  let bmPages := divRoundUp (bitmapBufSize pageCnt) pgSize
  if bmPages > pageCnt then .error .panic
  else do
    let usedMap ← bitmapCreateInBuf (pageCnt - bmPages) (bmPages * pgSize)
    return ⟨usedMap, base, base + bmPages * pgSize⟩

def freeStart : Nat := 1024 * 1024

def pallocInit (initRamPages userPageLimit : Nat) (memory : Nat → UInt8) :
    Except Fault Allocator := do
  let freePages := (initRamPages * pgSize % 2 ^ 32 - freeStart) / pgSize
  let userPages := min (freePages / 2) userPageLimit
  let kernelPages := freePages - userPages
  let kernelPool ← initPool freeStart kernelPages
  let userPool ← initPool (freeStart + kernelPages * pgSize) userPages
  return ⟨kernelPool, userPool, memory⟩

namespace Allocator

def pool (a : Allocator) (user : Bool) : Pool := if user then a.userPool else a.kernelPool

def setUsedMap (a : Allocator) (user : Bool) (usedMap : Bitmap) : Allocator :=
  if user then { a with userPool := { a.userPool with usedMap := usedMap } }
  else { a with kernelPool := { a.kernelPool with usedMap := usedMap } }

def memset (a : Allocator) (dst : Nat) (value : UInt8) (size : Nat) : Allocator :=
  { a with memory := fun i => if dst ≤ i ∧ i < dst + size then value else a.memory i }

def pallocGetMultiple (a : Allocator) (flags : Flags) (pageCnt : Nat) :
    Except Fault (Option Nat × Allocator) :=
  if pageCnt = 0 then .ok (none, a)
  else
    match (a.pool flags.palUser).usedMap.scanAndFlip 0 pageCnt false with
    | (usedMap, some pageIdx) =>
      let pages := (a.pool flags.palUser).base + pgSize * pageIdx
      let a := a.setUsedMap flags.palUser usedMap
      .ok (some pages, if flags.palZero then a.memset pages 0 (pgSize * pageCnt) else a)
    | (_, none) => if flags.palAssert then .error .panic else .ok (none, a)

def pageFromPool (pool : Pool) (page : Nat) : Bool :=
  pgNo page ≥ pgNo pool.base && pgNo page < pgNo pool.base + pool.usedMap.bitCnt

def poolOf (a : Allocator) (pages : Nat) : Option Bool :=
  if pageFromPool a.kernelPool pages then some false
  else if pageFromPool a.userPool pages then some true
  else none

def pallocFreeMultiple (a : Allocator) (pages : Option Nat) (pageCnt : Nat) :
    Except Fault Allocator :=
  match pages with
  | none => .ok a
  | some pages => do
      assert (pgOfs pages = 0)
      if pageCnt = 0 then return a
      else
        match a.poolOf pages with
        | none => .error .panic
        | some user =>
          let pageIdx := pgNo pages - pgNo (a.pool user).base
          let a := a.memset pages 0xcc (pgSize * pageCnt)
          assert ((a.pool user).usedMap.all pageIdx pageCnt)
          return a.setUsedMap user ((a.pool user).usedMap.setMultiple pageIdx pageCnt false)

end Allocator

structure Grant where
  user : Bool
  pages : Nat
  cnt : Nat
deriving DecidableEq

-- `live` has the pages that were handed out and not given back.
structure State where
  alloc : Allocator
  live : List Grant

inductive Act
  | get (flags : Flags) (pageCnt : Nat)
  | free (grant : Grant)
deriving DecidableEq

def exec (s : State) : Act → Option State
  | .get flags pageCnt =>
    match s.alloc.pallocGetMultiple flags pageCnt with
    | .ok (some pages, a) => some ⟨a, ⟨flags.palUser, pages, pageCnt⟩ :: s.live⟩
    | .ok (none, a) => some { s with alloc := a }
    | .error _ => none
  | .free grant =>
    if grant ∈ s.live then
      match s.alloc.pallocFreeMultiple (some grant.pages) grant.cnt with
      | .ok a => some ⟨a, s.live.erase grant⟩
      | .error _ => none
    else none

def system (a : Allocator) : Lib.System State Act := .ofExec ⟨a, []⟩ exec

end Pintos.Threads.Palloc
