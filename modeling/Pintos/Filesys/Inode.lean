import Mathlib.Algebra.Group.Int.Defs
import Pintos.Devices.Block
import Pintos.LibKernel.Bitmap

namespace Pintos.Filesys.Inodes

open Lib LibKernel Devices

def directSectors : Nat := 6
def doubindSector : Nat := 5
def blocknumsPerInd : Nat := 128
def inodesPerSector : Nat := 16
def inodeSize : Nat := 32
def maxSectors : Nat := (directSectors - 1) * blocknumsPerInd + blocknumsPerInd * blocknumsPerInd

inductive DeviceFault
  | pastDevice
  | outOfBounds
deriving DecidableEq

inductive Fault
  | device (fault : DeviceFault)
  | assertion
  | alreadyHeld
  | notHeld
  | badPointer
deriving DecidableEq

-- `sl` is the shared lock of the inode with that number.
inductive Lock
  | gengar
  | inodeLock
  | sl (inumber : Nat)
deriving DecidableEq

inductive Mode
  | shared
  | exclusive
deriving DecidableEq

structure Inode where
  sectors : Nat
  dirSectors : Nat
  indSectors : Nat
  dindSectors : Nat
  length : Int
  large : Bool
  inumber : Nat
  sector : Nat
  openCnt : Int
  removed : Bool
  denyWriteCnt : Int
deriving DecidableEq

-- A map, the inode of its file (none for a null pointer), and whether the write of the file
-- succeeds at each of the coming allocations; at those after the list it does.
structure FreeMap where
  sectors : Bitmap
  file : Option Nat
  writes : List Bool

-- The state of the file system as the calling thread sees it between two acquisitions of a
-- lock. Blocks are accessed through the cache, so `device` is what the cache stands for, except
-- for the sectors of the files of the maps, which no other file has. `held` is how the calling
-- thread holds each lock.
structure Fs where
  device : Block
  fsMap : FreeMap
  inodeMap : FreeMap
  held : Lock → Option Mode
  openInodes : List Inode

def Fs.fileBlockStart (fs : Fs) : Nat := fs.device.size / 100

def Fs.numInodes (fs : Fs) : Nat := fs.fileBlockStart * inodesPerSector

abbrev M (α : Type) := StateT Fs (Except Fault) α

abbrev OnDevice (α : Type) := StateT Block (Except DeviceFault) α

def Fs.locking (fs : Fs) (lock : Lock) (mode : Mode) : Fs :=
  { fs with held := Function.update fs.held lock (some mode) }

def acquire (lock : Lock) (mode : Mode) : M Unit := fun fs =>
  if fs.held lock = none then .ok ((), fs.locking lock mode) else .error .alreadyHeld

def release (lock : Lock) (mode : Mode) : M Unit := fun fs =>
  if fs.held lock = some mode then .ok ((), { fs with held := Function.update fs.held lock none })
  else .error .notHeld

def withLock {α : Type} (lock : Lock) (mode : Mode) (body : M α) : M α := do
  acquire lock mode
  let a ← body
  release lock mode
  return a

def cached (sector : Nat) : OnDevice Bytes := fun d =>
  match d.read sector with
  | some data => .ok (data, d)
  | none => .error .pastDevice

def cacheWrite (sector start : Nat) (data : List UInt8) : OnDevice Unit := fun d =>
  if start + data.length ≤ Block.sectorSize then
    .ok ((), d.set sector ((d.sectors sector).write start data))
  else .error .outOfBounds

def wordAt (sector ofs : Nat) : OnDevice Nat := do
  let data ← cached sector
  if ofs + 4 ≤ Block.sectorSize then return data.word ofs else throw .outOfBounds

def onDevice {α : Type} (body : OnDevice α) : M α := fun fs =>
  match body fs.device with
  | .ok (a, d) => .ok (a, { fs with device := d })
  | .error fault => .error (.device fault)

def withGengar {α : Type} (body : OnDevice α) : M α := withLock .gengar .exclusive (onDevice body)

-- inode_write_at of the file of a map: it holds the lock of the file, and GENGAR for each chunk.
-- The file does not grow, since free_map_create writes all of the map. It could not have got a
-- second sector there: allocating one writes the map again, under the lock of the file.
def bitmapWrite (file : Option Nat) : M Unit :=
  match file with
  | none => throw .badPointer
  | some file => withLock (.sl file) .exclusive (withGengar (pure ()))

def Fs.giveBack (fs : Fs) (sector : Nat) : Fs :=
  { fs with fsMap := { fs.fsMap with sectors := fs.fsMap.sectors.setMultiple sector 1 false } }

-- Whether free_map_allocate may keep the sector that it took from `m`.
def writeMap (m : FreeMap) : M Bool := do
  if m.file = none then return true
  else
    bitmapWrite m.file
    return m.writes.headD true

-- free_map_allocate (&fs_map, file_block_start, 1)
def allocateSector : M (Option Nat) := fun fs =>
  if fs.fileBlockStart ≤ fs.fsMap.sectors.bitCnt then
    match fs.fsMap.sectors.scanAndFlip fs.fileBlockStart 1 false with
    | (_, none) => .ok (none, fs)
    | (flipped, some sector) =>
      (do
        if ← writeMap fs.fsMap then return some sector
        else
          modify (·.giveBack sector)
          return none : M (Option Nat))
          { fs with fsMap := ⟨flipped, fs.fsMap.file, fs.fsMap.writes.tail⟩ }
  else .error .assertion

def FreeMap.release (m : FreeMap) (sector : Nat) : Option FreeMap :=
  if sector + 1 ≤ m.sectors.bitCnt ∧ m.sectors.all sector 1 then
    some { m with sectors := m.sectors.setMultiple sector 1 false }
  else none

def freeMapRelease (map : Fs → FreeMap) (put : Fs → FreeMap → Fs) (bit : Nat) : M Unit := fun fs =>
  match (map fs).release bit with
  | none => .error .assertion
  | some m => bitmapWrite m.file (put fs m)

def releaseSector : Nat → M Unit := freeMapRelease Fs.fsMap fun fs m => { fs with fsMap := m }

def bytesToSectors (size : Int) : Nat :=
  (Int.tdiv (size + (Block.sectorSize - 1 : Nat)) Block.sectorSize % 2 ^ 32).toNat

def byteOfsInodeSector (inumber : Nat) : Nat := inumber % inodesPerSector * inodeSize

-- INODE_ERROR is `none`.
def inodeSectorFromInumber (fs : Fs) (inumber : Nat) : Option Nat :=
  if fs.numInodes ≤ inumber then none else some (inumber / inodesPerSector)

def pred (n : Nat) : Nat := (n + 2 ^ 32 - 1) % 2 ^ 32

def Inode.ofs (i : Inode) : Nat := byteOfsInodeSector i.inumber
def iSectors (ofs idx : Nat) : Nat := (ofs + 4 * idx) % 2 ^ 32
def lengthOfs (ofs : Nat) : Nat := ofs + 24
def largeOfs (ofs : Nat) : Nat := ofs + 29

def directLookup (i : Inode) (blockIdx : Nat) : M Nat := do
  if blockIdx < directSectors then withGengar (wordAt i.sector (iSectors i.ofs blockIdx))
  else throw .assertion

def lookupInSector (fileDataSector sectorOfs : Nat) : M Nat :=
  withGengar (wordAt fileDataSector (4 * sectorOfs % 2 ^ 32))

def indirectLookup (indirectSector blockIdx : Nat) : M Nat :=
  let indirectIdx := blockIdx / blocknumsPerInd
  if indirectIdx < doubindSector then
    lookupInSector indirectSector (blockIdx % blocknumsPerInd)
  else lookupInSector indirectSector (indirectIdx - doubindSector)

def dindirectLookup (dindirectSector blockIdx : Nat) : M Nat :=
  lookupInSector dindirectSector (blockIdx % blocknumsPerInd)

def inodeLookup (i : Inode) (blockIdx : Nat) : M Nat := do
  if i.large then
    let directIdx := blockIdx / blocknumsPerInd
    if directIdx < doubindSector then
      let indirectSector ← directLookup i directIdx
      indirectLookup indirectSector blockIdx
    else
      let indirectSector ← directLookup i doubindSector
      let dindirectSector ← indirectLookup indirectSector blockIdx
      dindirectLookup dindirectSector blockIdx
  else directLookup i blockIdx

def writeWord (sector start value : Nat) : OnDevice Unit := do
  let _ ← cached sector
  cacheWrite sector start (Bytes.ofWord value)

def setISector (i : Inode) (idx value : Nat) : OnDevice Unit :=
  writeWord i.sector (iSectors i.ofs idx) value

def zeroSector (i : Inode) (newSector : Nat) : M (Inode × Option Nat) := do
  withGengar do
    let _ ← cached newSector
    cacheWrite newSector 0 (List.replicate Block.sectorSize 0)
  return ({ i with sectors := i.sectors + 1 }, some newSector)

def toIndirect (i : Inode) (newInd newSector : Nat) : OnDevice Unit := do
  let inodeDisk ← cached i.sector
  let _ ← cached newInd
  cacheWrite newInd 0 (inodeDisk.read (iSectors i.ofs 0) (directSectors * 4))
  cacheWrite newInd (directSectors * 4) (Bytes.ofWord newSector)
  cacheWrite i.sector (iSectors i.ofs 0) (Bytes.ofWord newInd)
  cacheWrite i.sector (largeOfs i.ofs) [1]

def appendConverting (i : Inode) (newSector : Nat) : M (Inode × Option Nat) := do
  let some newInd ← allocateSector
    | releaseSector newSector
      return (i, none)
  withGengar (toIndirect i newInd newSector)
  zeroSector { i with large := true, dirSectors := 0, indSectors := i.indSectors + 1 } newSector

def appendFirstOf (i : Inode) (newSector newInd : Nat) : M (Inode × Option Nat) := do
  withGengar (writeWord newInd 0 newSector)
  zeroSector { i with indSectors := i.indSectors + 1 } newSector

def appendDoubly (i : Inode) (newSector newInd newDind dindOfs : Nat) :
    M (Inode × Option Nat) := do
  withGengar (writeWord newDind dindOfs newInd)
  appendFirstOf { i with dindSectors := i.dindSectors + 1 } newSector newInd

-- A new indirect sector is needed. The branch for a direct one acquires GENGAR again where
-- it should release it; the branch that makes the doubly indirect sector is behind it.
def appendIndirect (i : Inode) (newSector : Nat) : M (Inode × Option Nat) := do
  let some newInd ← allocateSector
    | releaseSector newSector
      return (i, none)
  if i.dirSectors ≤ directSectors - 1 then
    acquire .gengar .exclusive
    onDevice (setISector i i.dirSectors newInd)
    acquire .gengar .exclusive
    appendFirstOf { i with dirSectors := i.dirSectors + 1 } newSector newInd
  else if i.dirSectors = directSectors - 1 then
    let newDind := newInd
    let some newInd ← allocateSector
      | releaseSector newSector
        releaseSector newDind
        return (i, none)
    withGengar (setISector i directSectors newDind)
    appendDoubly { i with dirSectors := i.dirSectors + 1 } newSector newInd newDind 0
  else if i.dindSectors = maxSectors then
    releaseSector newSector
    releaseSector newInd
    return (i, none)
  else
    let newDind ← withGengar (wordAt i.sector (iSectors i.ofs directSectors))
    appendDoubly i newSector newInd newDind i.dindSectors

-- The last indirect sector has room. The word goes to byte `sectors % 128`.
def enterLast (i : Inode) (newSector : Nat) : M Unit :=
  if i.indSectors = 0 then withGengar (setISector i (pred i.dirSectors) newSector)
  else do
    let finalSector ← directLookup i (pred i.dirSectors)
    let finalSector ←
      if 0 < i.dindSectors then indirectLookup finalSector i.sectors else pure finalSector
    withGengar (writeWord finalSector (i.sectors % blocknumsPerInd) newSector)

def appendWithin (i : Inode) (newSector : Nat) : M (Inode × Option Nat) := do
  enterLast i newSector
  zeroSector i newSector

def appendDirect (i : Inode) (newSector : Nat) : M (Inode × Option Nat) := do
  withGengar (setISector i i.sectors newSector)
  zeroSector { i with dirSectors := i.dirSectors + 1 } newSector

def layOut (i : Inode) (newSector : Nat) : M (Inode × Option Nat) :=
  if i.sectors ≤ directSectors then
    if i.sectors < directSectors then appendDirect i newSector
    else appendConverting i newSector
  else if i.sectors % blocknumsPerInd = 0 then appendIndirect i newSector
  else appendWithin i newSector

def inodeAppendSector (i : Inode) : M (Inode × Option Nat) := do
  let some newSector ← allocateSector
    | return (i, none)
  layOut i newSector

-- The bound of the loop over the second level of sector `currDir`. Where the source does not
-- set num_ind it is whatever the variable holds.
def numInd (i : Inode) (currDir uninit : Nat) : Nat :=
  if 0 < i.indSectors then
    if currDir < doubindSector then
      if currDir = pred i.dirSectors then pred i.indSectors % blocknumsPerInd + 1
      else blocknumsPerInd
    else pred i.dindSectors / blocknumsPerInd + 1
  else uninit

def numDind (i : Inode) (currInd bound : Nat) : Nat :=
  if currInd = pred bound then pred i.indSectors % blocknumsPerInd + 1 else blocknumsPerInd

def closeDind (delInd currDind : Nat) : M Unit := do
  let delDind ← lookupInSector delInd currDind
  releaseSector delDind

def closeInd (i : Inode) (currDir delDir bound currInd : Nat) : M Unit := do
  let delInd ← lookupInSector delDir currInd
  -- only under the doubly indirect sector is there a third level
  let dinds := if currDir = doubindSector then numDind i currInd bound else 0
  (List.range dinds).forM (closeDind delInd)
  releaseSector delInd

def closeDir (i : Inode) (uninit currDir : Nat) : M Unit := do
  let delDir ← directLookup i currDir
  let bound := numInd i currDir uninit
  (List.range bound).forM (closeInd i currDir delDir bound)
  releaseSector delDir

def inodeCloseTree (i : Inode) (uninit : Nat) : M Unit :=
  (List.range i.dirSectors).forM (closeDir i uninit)

def Fs.inode? (fs : Fs) (inumber : Nat) : Option Inode :=
  fs.openInodes.find? (·.inumber == inumber)

def Fs.putInode (fs : Fs) (i : Inode) : Fs :=
  { fs with openInodes := fs.openInodes.map fun j => if j.inumber = i.inumber then i else j }

def withInode {α : Type} (inumber : Nat) (body : Inode → M (Inode × α)) : M α := do
  match (← get).inode? inumber with
  | none => throw .badPointer
  | some i =>
    let (i, a) ← body i
    modify (·.putInode i)
    return a

def inodeReopen (inumber : Nat) : M Nat :=
  withInode inumber fun i => do
    withLock (.sl inumber) .exclusive (return ({ i with openCnt := i.openCnt + 1 }, inumber))

-- The search of the list; it gives up inode_lock at every element.
def findOpen (inumber : Nat) : List Inode → M Bool
  | [] => return false
  | e :: rest => do
      release .inodeLock .exclusive
      if e.inumber = inumber then return true else findOpen inumber rest

def offT (word : Nat) : Int := if word < 2 ^ 31 then word else (word : Int) - 2 ^ 32

def setCounters (i : Inode) : Inode :=
  if i.large then
    let dirSectors := pred i.sectors / blocknumsPerInd + 1
    if directSectors ≤ dirSectors then
      let indSectors := (directSectors - 1) * blocknumsPerInd
      let dindSectors := (i.sectors + 2 ^ 32 - indSectors) % 2 ^ 32
      { i with
        dirSectors := directSectors
        indSectors := indSectors + pred dindSectors / blocknumsPerInd + 1
        dindSectors := dindSectors }
    else { i with dirSectors := dirSectors, indSectors := i.sectors, dindSectors := 0 }
  else { i with dirSectors := i.sectors, indSectors := 0, dindSectors := 0 }

def openedInode (inodeDisk : Bytes) (inumber inodeSector : Nat) : Inode :=
  let ofs := byteOfsInodeSector inumber
  let length := offT (inodeDisk.word (lengthOfs ofs))
  setCounters
    { sectors := bytesToSectors length, dirSectors := 0, indSectors := 0, dindSectors := 0,
      length := length, large := inodeDisk (largeOfs ofs) != 0, inumber := inumber,
      sector := inodeSector, openCnt := 1, removed := false, denyWriteCnt := 0 }

def Fs.push (fs : Fs) (i : Inode) : Fs := { fs with openInodes := i :: fs.openInodes }

-- What follows the search. Nobody holds the lock of an inode that is not open, so slock_init
-- changes nothing.
def openNew (malloc : Bool) (inumber inodeSector : Nat) : M (Option Nat) := do
  if malloc then
    let inodeDisk ← withGengar (cached inodeSector)
    modify (·.push (openedInode inodeDisk inumber inodeSector))
    release .inodeLock .exclusive
    return some inumber
  else return none

def inodeOpen (malloc : Bool) (inumber : Nat) : M (Option Nat) := do
  let inodeSector := (inodeSectorFromInumber (← get) inumber).getD (2 ^ 32 - 1)
  acquire .inodeLock .exclusive
  if ← findOpen inumber (← get).openInodes then
    let _ ← inodeReopen inumber
    return some inumber
  else openNew malloc inumber inodeSector

def releaseInumber : Nat → M Unit :=
  freeMapRelease Fs.inodeMap fun fs m => { fs with inodeMap := m }

def inodeClose (uninit : Nat) (inode : Option Nat) : M Unit := do
  let some inumber := inode
    | return ()
  acquire .inodeLock .exclusive
  let i ← withInode inumber fun i => do
    let i := { i with openCnt := i.openCnt - 1 }
    return (i, i)
  if i.openCnt = 0 then
    modify fun fs =>
      { fs with openInodes := fs.openInodes.filter fun j => j.inumber != inumber }
    release .inodeLock .exclusive
    if i.removed then
      inodeCloseTree i uninit
      releaseInumber inumber

-- The loop of inode_read_at: what the buffer holds and the bytes read. Every round that does
-- not leave the loop reads at least one byte, so `size` rounds are enough.
def readLoop (i : Inode) : Nat → Bytes → Nat → Nat → Nat → M (Bytes × Nat)
  | 0, buffer, _, _, bytesRead => return (buffer, bytesRead)
  | fuel + 1, buffer, size, offset, bytesRead => do
      if 0 < size then
        let sector ← inodeLookup i (bytesToSectors offset)
        let sectorOfs := offset % Block.sectorSize
        let inodeLeft := i.length - offset
        let minLeft := min inodeLeft (Block.sectorSize - sectorOfs : Nat)
        let chunkSize := min (size : Int) minLeft
        if chunkSize ≤ 0 then return (buffer, bytesRead)
        let chunk := chunkSize.toNat
        -- the block is read at `offset`, and the buffer always written at its start
        let data ← withGengar do
          let data ← cached sector
          if offset + chunk ≤ Block.sectorSize then return data.read offset chunk
          else throw .outOfBounds
        readLoop i fuel (buffer.write 0 data) (size - chunk) (offset + chunk) (bytesRead + chunk)
      else return (buffer, bytesRead)

-- Every return gives the lock back.
def inodeReadAt (i : Inode) (buffer : Bytes) (size offset : Nat) : M (Bytes × Nat) :=
  withLock (.sl i.inumber) .shared
    (if (i.length % 2 ^ 32).toNat < offset then return (buffer, 0)
    else readLoop i size buffer size offset 0)

def growLoop (offset : Nat) : Nat → Inode → Int → M (Inode × Option Int)
  | 0, i, length => return (i, some length)
  | fuel + 1, i, length => do
      if length < offset then
        match ← inodeAppendSector i with
        | (i, none) => return (i, none)
        | (i, some _) => growLoop offset fuel i (length + Block.sectorSize)
      else return (i, some length)

def writeChunk (inodeSector ofs sector start : Nat) (data : List UInt8) : OnDevice Unit := do
  let _ ← cached sector
  cacheWrite sector start data
  let inodeDisk ← cached inodeSector
  cacheWrite inodeSector (lengthOfs ofs)
    (Bytes.ofWord (inodeDisk.word (lengthOfs ofs) + data.length))

def writeSector (buffer : Bytes) (inodeSector : Nat) (i : Inode) (offset chunk : Nat) :
    M Unit := do
  let sector ← inodeLookup i (bytesToSectors offset)
  withGengar (writeChunk inodeSector i.ofs sector (offset % Block.sectorSize) (buffer.read 0 chunk))

def chunkSize (size offset : Nat) : Nat := min size (Block.sectorSize - offset % Block.sectorSize)

-- The loop of inode_write_at: the position reached, or `none` when a sector is missing, and
-- the bytes written. The buffer is always read from its start.
def writeLoop (buffer : Bytes) (inodeSector : Nat) :
    Nat → Inode → Int → Nat → Nat → Nat → M (Inode × Option Nat × Nat)
  | 0, i, _, _, offset, bytesWritten => return (i, some offset, bytesWritten)
  | fuel + 1, i, length, size, offset, bytesWritten => do
      if 0 < size then
        let (i, grown) ← growLoop offset 1 i length
        match grown with
        | none => return (i, none, bytesWritten)
        | some length =>
          let chunk := chunkSize size offset
          writeSector buffer inodeSector i offset chunk
          writeLoop buffer inodeSector fuel i length (size - chunk) (offset + chunk)
            (bytesWritten + chunk)
      else return (i, some offset, bytesWritten)

-- What inode_write_at does between taking the lock of the inode and, at every return, giving
-- it back.
def writeLocked (inodeSector : Nat) (i : Inode) (buffer : Bytes) (size offset : Nat) :
    M (Inode × Nat) := do
  if i.denyWriteCnt ≠ 0 then return (i, 0)
  else
    let (i, grown) ← growLoop offset (offset - i.length).toNat i i.length
    match grown with
    | none => return (i, 0)
    | some length =>
      let (i, reached, bytesWritten) ← writeLoop buffer inodeSector size i length size offset 0
      match reached with
      | none => return (i, bytesWritten)
      | some offset => return ({ i with length := offset }, bytesWritten)

def inodeWriteAt (i : Inode) (buffer : Bytes) (size offset : Nat) : M (Inode × Nat) := do
  let inodeSector := (inodeSectorFromInumber (← get) i.inumber).getD (2 ^ 32 - 1)
  withLock (.sl i.inumber) .exclusive (writeLocked inodeSector i buffer size offset)

end Pintos.Filesys.Inodes
