import Pintos.Devices.Block
import Pintos.Lib.TransitionSystem
import Pintos.LibKernel.Bitmap
import Pintos.LibKernel.Hash

namespace Pintos.Filesys

open Lib Devices LibKernel

inductive SectorType
  | fileData
  | inodeData
  | inodeMetadata
deriving DecidableEq

def SectorType.value : SectorType → Nat
  | .fileData => 1
  | .inodeData => 2
  | .inodeMetadata => 3

structure CacheBlock where
  sector : Nat
  accessed : Nat
  removed : Bool
  dirty : Bool
  type : SectorType
  data : Bytes

-- A block in the hash table: which of the frames it is, and the sector that it is hashed and
-- compared by.
structure CacheElem where
  pos : Nat
  sector : Nat
deriving DecidableEq

def cacheHash (e : CacheElem) : BitVec 32 := hashInt (BitVec.ofNat 32 e.sector)

def cacheCmp (a b : CacheElem) : Bool := decide (a.sector < b.sector)

structure Cache where
  usedBlocks : Bitmap
  cacheSegment : Hash CacheElem
  cacheFrames : Nat → CacheBlock
  cursor : Nat
  evictingHand : Nat
  device : Block

namespace Cache

def cacheMax : Nat := 64

def cacheInit (device : Block) : Cache where
  usedBlocks := ⟨cacheMax, fun _ => false⟩
  cacheSegment := Hash.init cacheHash cacheCmp
  cacheFrames _ := ⟨0, 0, false, false, .fileData, fun _ => 0⟩
  cursor := 17
  evictingHand := 0
  device := device

def setFrame (c : Cache) (pos : Nat) (b : CacheBlock) : Cache :=
  { c with cacheFrames := Function.update c.cacheFrames pos b }

def cacheFindSector (c : Cache) (sector : Nat) : Cache × Option Nat :=
  match c.cacheSegment.find ⟨0, sector⟩ with
  | none => (c, none)
  | some e =>
    let b := c.cacheFrames e.pos
    (c.setFrame e.pos { b with accessed := b.type.value }, some e.pos)

-- `mem` says whether the table finds memory when it wants to change its size; the result is
-- `none` when the device panics.
def cacheDelete (c : Cache) (pos : Nat) (mem : Bool) : Option Cache :=
  let b := c.cacheFrames pos
  if b.removed then some c
  else
    let c := c.setFrame pos { b with removed := true }
    let c := { c with cacheSegment := (c.cacheSegment.delete ⟨pos, b.sector⟩ mem).1 }
    if b.dirty then (c.device.write b.sector b.data).map fun device => { c with device := device }
    else some c

def cool (c : Cache) : Cache :=
  let b := c.cacheFrames c.cursor
  if 0 < b.accessed then c.setFrame c.cursor { b with accessed := b.accessed - 1 } else c

def cacheEvict : Nat → Cache → Bool → Option (Cache × Nat)
  | 0, _, _ => none
  | rounds + 1, c, mem =>
    let c := c.cool
    let b := c.cacheFrames c.evictingHand
    if b.removed ∨ b.accessed = 0 then
      (c.cacheDelete c.evictingHand mem).map fun c' => (c', c.evictingHand)
    else
      cacheEvict rounds
        { c with
          cursor := (c.cursor + 1) % cacheMax
          evictingHand := (c.evictingHand + 1) % cacheMax } mem

-- More rounds than it takes to bring every `accessed` down to zero.
def evictRounds : Nat := 3 * cacheMax * cacheMax + cacheMax

def claim (c : Cache) (mem : Bool) : Option (Cache × Nat) :=
  match c.usedBlocks.scanAndFlip 0 1 false with
  | (used, some pos) => some ({ c with usedBlocks := used }, pos)
  | (_, none) => c.cacheEvict evictRounds mem

def cacheFetch (c : Cache) (sector : Nat) (type : SectorType) (mem mem' : Bool) :
    Option (Cache × Nat) := do
  let (c, pos) ← c.claim mem
  let b := { c.cacheFrames pos with
    type := type, accessed := type.value, sector := sector, removed := false, dirty := false }
  let c := { c with cacheSegment := (c.cacheSegment.insert ⟨pos, sector⟩ mem').1 }
  let data ← c.device.read sector
  return (c.setFrame pos { b with data := data }, pos)

def cacheWrite (c : Cache) (pos : Nat) (buf : List UInt8) (start : Nat) : Cache :=
  let b := c.cacheFrames pos
  c.setFrame pos { b with dirty := true, data := b.data.write start buf }

def flushRounds : Nat → Cache → (Nat → Bool) → Option Cache
  | 0, c, _ => if c.cacheSegment.isEmpty then some c else none
  | rounds + 1, c, mem =>
    if c.cacheSegment.isEmpty then some c
    else do
      let e ← c.cacheSegment.elems.head?
      let c ← c.cacheDelete e.pos (mem rounds)
      flushRounds rounds c mem

def cacheFlush (c : Cache) (mem : Nat → Bool) : Option Cache :=
  flushRounds c.cacheSegment.elemCnt c mem

inductive Label
  | find (sector : Nat)
  | fetch (sector : Nat) (type : SectorType) (mem mem' : Bool)
  | write (pos : Nat) (buf : List UInt8) (start : Nat)
  | flush (mem : Nat → Bool)

def exec (c : Cache) : Label → Option Cache
  | .find sector => some (c.cacheFindSector sector).1
  | .fetch sector type mem mem' => (c.cacheFetch sector type mem mem').map Prod.fst
  | .write pos buf start => some (c.cacheWrite pos buf start)
  | .flush mem => c.cacheFlush mem

def enabled (c : Cache) : Label → Bool
  | .find _ => true
  | .fetch sector _ _ _ => (c.cacheFindSector sector).2.isNone && decide (sector < c.device.size)
  | .write pos buf start =>
    c.cacheSegment.elems.any (·.pos == pos) && decide (start + buf.length ≤ Block.sectorSize)
  | .flush _ => true

def written (c : Cache) (disk : Nat → Bytes) : Label → Nat → Bytes
  | .write pos buf start =>
    let sector := (c.cacheFrames pos).sector
    Function.update disk sector ((disk sector).write start buf)
  | _ => disk

def system (device : Block) : System (Cache × (Nat → Bytes)) Label where
  init s := s = (cacheInit device, device.sectors)
  step s label s' := enabled s.1 label = true ∧ exec s.1 label = some s'.1 ∧
    s'.2 = written s.1 s.2 label

end Cache

end Pintos.Filesys
