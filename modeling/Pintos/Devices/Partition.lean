import Pintos.Devices.Block

namespace Pintos.Devices.Partition

open Lib

structure Entry where
  type : UInt8
  offset : Nat
  size : Nat
deriving DecidableEq

def entry (table : Bytes) (i : Nat) : Entry :=
  ⟨table (446 + 16 * i + 4), table.word (446 + 16 * i + 8), table.word (446 + 16 * i + 12)⟩

def entries (table : Bytes) : List Entry := (List.range 4).map (entry table)

def signature (table : Bytes) : Nat := (table 510).toNat + 256 * (table 511).toNat

def Entry.isEmpty (e : Entry) : Bool := e.size = 0 || e.type = 0

def Entry.isExtended (e : Entry) : Bool :=
  e.type = 0x05 || e.type = 0x0f || e.type = 0x85 || e.type = 0xc5

inductive BlockType
  | kernel
  | filesys
  | scratch
  | swap
  | foreign
deriving DecidableEq

def blockType (partType : UInt8) : BlockType :=
  if partType = 0x20 then .kernel
  else if partType = 0x21 then .filesys
  else if partType = 0x22 then .scratch
  else if partType = 0x23 then .swap
  else .foreign

structure Registered where
  partNr : Nat
  type : BlockType
  partType : UInt8
  start : Nat
  size : Nat
deriving DecidableEq

-- `partNr` and the devices registered so far. Messages are left out.
structure Found where
  partNr : Nat
  registered : List Registered
deriving DecidableEq

def foundPartition (block : Block) (partType : UInt8) (start size : Nat) (found : Found) : Found :=
  if start ≥ block.size then found
  else if (start + size) % 2 ^ 32 < start ∨ (start + size) % 2 ^ 32 > block.size then found
  else
    { found with
      registered := found.registered ++
        [⟨found.partNr, blockType partType, partType, start, size⟩] }

-- One round of the loop over the entries; `recurse` reads a table by its sector and that of
-- the primary extended one.
def scanEntry (block : Block) (sector primaryExtendedSector : Nat)
    (recurse : Nat → Nat → Found → Option Found) (found : Found) (e : Entry) : Option Found :=
  if e.isEmpty then some found
  else if e.isExtended then
    if sector = 0 then recurse e.offset e.offset found
    else recurse ((e.offset + primaryExtendedSector) % 2 ^ 32) primaryExtendedSector found
  else
    let found := { found with partNr := found.partNr + 1 }
    some (foundPartition block e.type ((e.offset + sector) % 2 ^ 32) e.size found)

-- Whatever the sector, the table is read from sector 0. None when the recursion is deeper
-- than `depth`.
def readPartitionTable (block : Block) :
    Nat → (sector primaryExtendedSector : Nat) → Found → Option Found
  | 0, _, _, _ => none
  | depth + 1, sector, primaryExtendedSector, found =>
    if sector ≥ block.size then some found
    else
      let pt := block.sectors 0
      if signature pt ≠ 0xaa55 then some found
      else
        (entries pt).foldlM
          (scanEntry block sector primaryExtendedSector (readPartitionTable block depth)) found

def partitionScan (block : Block) (depth : Nat) : Option Found :=
  readPartitionTable block depth 0 0 ⟨0, []⟩

structure Listed where
  partType : UInt8
  start : Nat
  size : Nat
deriving DecidableEq

structure Walk where
  tables : List Nat
  parts : List Listed
deriving DecidableEq

def Walk.append (w w' : Walk) : Walk := ⟨w.tables ++ w'.tables, w.parts ++ w'.parts⟩

def link (sector primary : Nat) (e : Entry) : Nat :=
  if sector = 0 then e.offset else primary + e.offset

def primaryOf (sector primary : Nat) (e : Entry) : Nat :=
  if sector = 0 then e.offset else primary

def walkEntry (sector primary : Nat) (follow : Nat → Nat → Option Walk) (w : Walk) (e : Entry) :
    Option Walk :=
  if e.isEmpty then some w
  else if e.isExtended then
    (follow (link sector primary e) (primaryOf sector primary e)).map w.append
  else some (w.append ⟨[], [⟨e.type, sector + e.offset, e.size⟩]⟩)

def walk (block : Block) : Nat → (sector primary : Nat) → Option Walk
  | 0, _, _ => none
  | depth + 1, sector, primary =>
    (entries (block.sectors sector)).foldlM (walkEntry sector primary (walk block depth))
      ⟨[sector], []⟩

def devices (block : Block) (partNr : Nat) : List Listed → List Registered
  | [] => []
  | p :: parts =>
    if p.start + p.size ≤ block.size then
      ⟨partNr + 1, blockType p.partType, p.partType, p.start, p.size⟩ ::
        devices block (partNr + 1) parts
    else devices block (partNr + 1) parts

structure WellFormed (block : Block) : Prop where
  size_lt : block.size < 2 ^ 32
  chains : ∃ depth w, walk block depth 0 0 = some w ∧ w.tables.Nodup ∧
    ∀ s ∈ w.tables, s < block.size ∧ signature (block.sectors s) = 0xaa55

def ScanRight (block : Block) : Prop :=
  ∃ depth found, partitionScan block depth = some found ∧
    ∀ depth' w, walk block depth' 0 0 = some w → found.registered = devices block 0 w.parts

end Pintos.Devices.Partition
