import Pintos.Vm.Page

namespace Pintos.Userprog

open Threads Vm

structure Phdr where
  pType : BitVec 32
  pOffset : BitVec 32
  pVaddr : BitVec 32
  pFilesz : BitVec 32
  pMemsz : BitVec 32
  pFlags : BitVec 32
deriving DecidableEq

def ptLoad : BitVec 32 := 1
def ptDynamic : BitVec 32 := 2
def ptInterp : BitVec 32 := 3
def ptShlib : BitVec 32 := 5
def pfW : BitVec 32 := 2

def validateSegment (phdr : Phdr) (fileLength : Nat) : Bool :=
  if phdr.pOffset &&& pgMask ≠ phdr.pVaddr &&& pgMask then false
  -- the offset must point into the file; where the segment ends in it is not asked
  else if fileLength < phdr.pOffset.toNat then false
  else if phdr.pMemsz < phdr.pFilesz then false
  else if phdr.pMemsz = 0 then false
  else if !isUserVaddr phdr.pVaddr then false
  else if !isUserVaddr (phdr.pVaddr + phdr.pMemsz) then false
  else if phdr.pVaddr + phdr.pMemsz < phdr.pVaddr then false
  else if phdr.pVaddr < pgSize then false
  else true

def roundUp (x step : BitVec 32) : BitVec 32 := (x + step - 1) / step * step

def segmentBytes (phdr : Phdr) : BitVec 32 × BitVec 32 :=
  let pageOffset := phdr.pVaddr &&& pgMask
  if 0 < phdr.pFilesz then
    let readBytes := pageOffset + phdr.pFilesz
    (readBytes, roundUp (pageOffset + phdr.pMemsz) pgSize - readBytes)
  else (0, roundUp (pageOffset + phdr.pMemsz) pgSize)

section LoadSegment

variable (t : UserThread) (file : FileRef) (ofs : BitVec 32) (writable : Bool)

-- The loop of load_segment under VM, the entries in the order in which they are allocated.
-- Each round takes one page of the address space, which has 2 ^ 20 of them.
def segmentPages : Nat → BitVec 32 → Addr → BitVec 32 → BitVec 32 → List SpEntry
  | 0, _, _, _, _ => []
  | rounds + 1, pageNo, upage, readBytes, zeroBytes =>
    if readBytes = 0 ∧ zeroBytes = 0 then []
    else
      let pageReadBytes := if readBytes < pgSize then readBytes else pgSize
      let pageZeroBytes := pgSize - pageReadBytes
      { SpEntry.alloc t upage with
        readBytes := pageReadBytes
        zeroBytes := pageZeroBytes
        ofs := ofs + pageNo * pgSize
        writable := writable
        fp := some file
        location := .filesystem } ::
      segmentPages rounds (pageNo + 1) (upage + pgSize) (readBytes - pageReadBytes)
        (zeroBytes - pageZeroBytes)

end LoadSegment

def loadSegment (t : UserThread) (file : FileRef) (phdr : Phdr) : List SpEntry :=
  segmentPages t file (phdr.pOffset &&& ~~~pgMask) (phdr.pFlags &&& pfW ≠ 0) (2 ^ 20) 0
    (phdr.pVaddr &&& ~~~pgMask) (segmentBytes phdr).1 (segmentBytes phdr).2

-- STACK_LIMIT against the difference of two pointers, which is a signed number
def beyondStackLimit (ptr : Addr) : Bool := 0x00800000 < (physBase - ptr).toInt

end Pintos.Userprog
