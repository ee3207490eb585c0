import Pintos.Devices.Block
import Pintos.Filesys.Ustar

namespace Pintos.Filesys.Fsutil

open Lib Devices Ustar

structure SourceFile where
  name : CString
  contents : List UInt8

inductive Panic
  | nameTooLong (fileName : CString)
  | outOfSpace (fileName : CString)
  | pastEnd (sector : Nat)
  | badHeader (sector : Nat) (error : String)
deriving DecidableEq

def blockWrite (dst : Block) (sector : Nat) (buffer : Bytes) : Except Panic Block :=
  match dst.write sector buffer with
  | none => .error (.pastEnd sector)
  | some dst => .ok dst

def blockRead (src : Block) (sector : Nat) : Except Panic Bytes :=
  match src.read sector with
  | none => .error (.pastEnd sector)
  | some buffer => .ok buffer

def fill (buffer : Bytes) (chunk : List UInt8) : Bytes :=
  (buffer.write 0 chunk).write chunk.length (List.replicate (Block.sectorSize - chunk.length) 0)

-- The copying loop of fsutil_append. `rest` is what has not been read of the file; its
-- length bounds the number of rounds.
def copyOut (fileName : CString) :
    Nat → Block → Nat → Bytes → List UInt8 → Except Panic (Block × Nat × Bytes)
  | 0, dst, sector, buffer, _ => .ok (dst, sector, buffer)
  | fuel + 1, dst, sector, buffer, rest =>
    if rest = [] then .ok (dst, sector, buffer)
    else if dst.size ≤ sector then .error (.outOfSpace fileName)
    else do
      let buffer := fill buffer (rest.take Block.sectorSize)
      let dst ← blockWrite dst sector buffer
      copyOut fileName fuel dst (sector + 1) buffer (rest.drop Block.sectorSize)

-- `sector` is the static variable, `buffer` the memory that malloc returned and what lies
-- behind it.
def fsutilAppend (dst : Block) (sector : Nat) (file : SourceFile) (buffer : Bytes) :
    Except Panic (Block × Nat) :=
  match ustarMakeHeader file.name .regular file.contents.length buffer with
  | none => .error (.nameTooLong file.name)
  | some buffer => do
      let dst ← blockWrite dst sector buffer
      let (dst, sector, buffer) ←
        copyOut file.name file.contents.length dst (sector + 1) buffer file.contents
      let buffer := buffer.write 0 (List.replicate Block.sectorSize 0)
      let dst ← blockWrite dst sector buffer
      let dst ← blockWrite dst sector fun i => buffer (i + 1)
      return (dst, sector)

structure Extracted where
  name : CString
  size : Nat
  contents : List UInt8
deriving DecidableEq

def copyIn : Nat → Block → Nat → Nat → Except Panic (List UInt8 × Nat)
  | 0, _, sector, _ => .ok ([], sector)
  | fuel + 1, src, sector, size =>
    if size = 0 then .ok ([], sector)
    else do
      let chunkSize := min Block.sectorSize size
      let data ← blockRead src sector
      let (rest, sector) ← copyIn fuel src (sector + 1) (size - chunkSize)
      return (data.read 0 chunkSize ++ rest, sector)

-- Each round reads a sector further on, so the size of the device bounds their number.
def extractLoop : Nat → Block → Nat → Except Panic (List Extracted × Nat)
  | 0, _, sector => .error (.pastEnd sector)
  | fuel + 1, src, sector => do
      let header ← blockRead src sector
      match ← (ustarParseHeader header).mapError (.badHeader sector) with
      | .eof => return ([], sector + 1)
      | .directory _ => extractLoop fuel src (sector + 1)
      | .regular name size =>
        let (contents, sector) ← copyIn size src (sector + 1) size
        let (files, sector) ← extractLoop fuel src sector
        return (⟨name, size, contents⟩ :: files, sector)

-- The file system takes every file; the archive is erased afterwards.
def fsutilExtract (src : Block) (sector : Nat) : Except Panic (List Extracted × Block × Nat) := do
  let (files, sector) ← extractLoop (src.size + 1) src sector
  let src ← blockWrite src 0 fun _ => 0
  let src ← blockWrite src 1 fun _ => 0
  return (files, src, sector)

def appendAll (dst : Block) (sector : Nat) : List (SourceFile × Bytes) → Except Panic (Block × Nat)
  | [] => .ok (dst, sector)
  | (file, buffer) :: rest => do
      let (dst, sector) ← fsutilAppend dst sector file buffer
      appendAll dst sector rest

def sectorCnt (contents : List UInt8) : Nat := (contents.length + 511) / 512

def dataSector (contents : List UInt8) (j : Nat) : List UInt8 :=
  let chunk := (contents.drop (j * Block.sectorSize)).take Block.sectorSize
  chunk ++ List.replicate (Block.sectorSize - chunk.length) 0

def headerSector (file : SourceFile) : Option (List UInt8) :=
  (ustarMakeHeader file.name .regular file.contents.length fun _ => 0).map (·.read 0 headerSize)

def span (files : List SourceFile) : Nat :=
  (files.map fun file => 1 + sectorCnt file.contents).sum

def Stored (dev : Block) (sector : Nat) : List SourceFile → Prop
  | [] => True
  | file :: files =>
    some ((dev.sectors sector).read 0 headerSize) = headerSector file ∧
    (∀ j < sectorCnt file.contents,
      (dev.sectors (sector + 1 + j)).read 0 Block.sectorSize = dataSector file.contents j) ∧
    Stored dev (sector + (1 + sectorCnt file.contents)) files

def ZeroSector (dev : Block) (sector : Nat) : Prop :=
  ∀ i < Block.sectorSize, dev.sectors sector i = 0

def Archive (dev : Block) (files : List SourceFile) : Prop :=
  Stored dev 0 files ∧ ZeroSector dev (span files) ∧ ZeroSector dev (span files + 1)

end Pintos.Filesys.Fsutil
