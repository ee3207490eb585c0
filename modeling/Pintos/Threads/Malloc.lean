import Mathlib.Data.Finset.Basic
import Mathlib.Data.List.FinRange
import Pintos.Lib.Bytes
import Pintos.Threads.Palloc

namespace Pintos.Threads.Malloc

open Lib

export Palloc (pgSize pgOfs pgNo)

def arenaSize : Nat := 12
def elemSize : Nat := 8

structure Desc where
  blockSize : Nat
  blocksPerArena : Nat
deriving DecidableEq

def mallocInitLoop : Nat → Nat → List Desc
  | 0, _ => []
  | room + 1, blockSize =>
    if blockSize < pgSize / 2 then
      ⟨blockSize, (pgSize - arenaSize) / blockSize⟩ :: mallocInitLoop room (blockSize * 2)
    else []

-- There is room for ten descriptors.
def descs : List Desc := mallocInitLoop 10 16

abbrev DescId := Fin descs.length

def DescId.blockSize (d : DescId) : Nat := (descs.get d).blockSize

def DescId.blocksPerArena (d : DescId) : Nat := (descs.get d).blocksPerArena

-- The header of an arena whose magic is right. Of a big block `freeCnt` counts the pages.
structure Arena where
  desc : Option DescId
  freeCnt : Nat
deriving DecidableEq

-- The headers by the number of their page, the free lists, and the pages that palloc gave and
-- did not get back. The locks of the descriptors are left out: a call runs alone.
structure Books where
  arenas : Nat → Option Arena
  freeList : DescId → List Nat
  held : Nat → Bool

namespace Books

def setArena (k : Books) (page : Nat) (a : Option Arena) : Books :=
  { k with arenas := Function.update k.arenas page a }

def setFreeList (k : Books) (d : DescId) (l : List Nat) : Books :=
  { k with freeList := Function.update k.freeList d l }

def inRun (page cnt p : Nat) : Bool := page ≤ p && p < page + cnt

-- The page allocator may propose any page; it gives only free ones, or NULL.
def pallocGetMultiple (k : Books) (page : Option Nat) (cnt : Nat) : Option (Nat × Books) :=
  match page with
  | none => none
  | some page =>
    if 0 < cnt ∧ 0 < page ∧ page + cnt ≤ 2 ^ 20 ∧ ∀ i < cnt, ¬k.held (page + i) then
      some (page, { k with held := fun p => k.held p || inRun page cnt p })
    else none

-- The pages must be in use. They are cleared, and a header on them is gone.
def pallocFreeMultiple (k : Books) (page cnt : Nat) : Option Books :=
  if ∀ i < cnt, k.held (page + i) then
    some { k with
      held := fun p => k.held p && !inRun page cnt p
      arenas := fun p => if inRun page cnt p then none else k.arenas p }
  else none

def blockToArena (k : Books) (b : Nat) : Option Arena :=
  match k.arenas (pgNo b) with
  | none => none
  | some a =>
    match a.desc with
    | some d => if (pgOfs b + 2 ^ 32 - arenaSize) % 2 ^ 32 % d.blockSize = 0 then some a else none
    | none => if pgOfs b = arenaSize then some a else none

def blockSize (k : Books) (block : Nat) : Option Nat := do
  let a ← k.blockToArena block
  match a.desc with
  | some d => return d.blockSize
  | none => return pgSize * a.freeCnt - pgOfs block

end Books

def arenaToBlock (page : Nat) (d : DescId) (idx : Nat) : Nat :=
  pgSize * page + arenaSize + idx * d.blockSize

def arenaBlocks (page : Nat) (d : DescId) : List Nat :=
  (List.range d.blocksPerArena).map (arenaToBlock page d)

namespace Books

def grow (k : Books) (d : DescId) (page : Option Nat) : Option (Nat × Books) :=
  (k.pallocGetMultiple page 1).map fun (page, k) =>
    (page, (k.setArena page (some ⟨some d, d.blocksPerArena⟩)).setFreeList d
      (k.freeList d ++ arenaBlocks page d))

def take (k : Books) (d : DescId) : Option (Nat × Books) :=
  match k.freeList d with
  | [] => none
  | b :: rest => do
      let k := k.setFreeList d rest
      let a ← k.blockToArena b
      return (b, k.setArena (pgNo b) (some { a with freeCnt := (a.freeCnt + 2 ^ 32 - 1) % 2 ^ 32 }))

def give (k : Books) (d : DescId) (b : Nat) (a : Arena) : Books :=
  (k.setFreeList d (b :: k.freeList d)).setArena (pgNo b)
    (some { a with freeCnt := (a.freeCnt + 1) % 2 ^ 32 })

def removeBlocks (l blocks : List Nat) : Option (List Nat) :=
  blocks.foldlM (fun l b => if b ∈ l then some (l.erase b) else none) l

def dropArena (k : Books) (d : DescId) (page : Nat) : Option Books := do
  let l ← removeBlocks (k.freeList d) (arenaBlocks page d)
  (k.setFreeList d l).pallocFreeMultiple page 1

end Books

structure Heap where
  books : Books
  mem : Bytes

-- What palloc answers, and the bytes that a call leaves where no one may look: in the pages
-- that it gives, in the headers and in the list elements of the free blocks.
structure Env where
  page : Option Nat
  garbage : Bytes

namespace Heap

def memset (h : Heap) (dst : Nat) (value : UInt8) (size : Nat) : Heap :=
  { h with mem := h.mem.write dst (List.replicate size value) }

def memcpy (h : Heap) (dst src size : Nat) : Heap :=
  { h with mem := h.mem.write dst (h.mem.read src size) }

def isMetadata (k : Books) (addr : Nat) : Bool :=
  ((k.arenas (pgNo addr)).isSome && pgOfs addr < arenaSize) ||
    (List.finRange descs.length).any fun d =>
      (k.freeList d).any fun b => b ≤ addr && addr < b + elemSize

def scribble (h : Heap) (region : Nat → Bool) (garbage : Bytes) : Heap :=
  { h with mem := fun addr => if region addr then garbage addr else h.mem addr }

def inPages (page cnt addr : Nat) : Bool := Books.inRun page cnt (pgNo addr)

def descFor (size : Nat) : Option DescId :=
  (List.finRange descs.length).find? fun d => d.blockSize ≥ size

def mallocBig (h : Heap) (size : Nat) (env : Env) : Nat × Heap :=
  let pageCnt := (size + arenaSize + pgSize - 1) % 2 ^ 32 / pgSize
  match h.books.pallocGetMultiple env.page pageCnt with
  | none => (0, h)
  | some (page, k) =>
    (pgSize * page + arenaSize,
      { h with books := k.setArena page (some ⟨none, pageCnt⟩) }.scribble
        (inPages page pageCnt) env.garbage)

def mallocSmall (h : Heap) (d : DescId) (env : Env) : Option (Nat × Heap) :=
  if h.books.freeList d = [] then
    match h.books.grow d env.page with
    | none => some (0, h)
    | some (page, k) =>
      (k.take d).map fun (b, k) =>
        (b, { h with books := k }.scribble (inPages page 1) env.garbage)
  else
    (h.books.take d).map fun (b, k) =>
      (b, { h with books := k }.scribble (isMetadata k) env.garbage)

def malloc (h : Heap) (size : Nat) (env : Env) : Option (Nat × Heap) :=
  if size = 0 then some (0, h)
  else
    match descFor size with
    | none => some (h.mallocBig size env)
    | some d => h.mallocSmall d env

def calloc (h : Heap) (a b : Nat) (env : Env) : Option (Nat × Heap) := do
  let size := a * b % 2 ^ 32
  if size < a ∨ size < b then return (0, h)
  else
    let (p, h) ← h.malloc size env
    return (p, if p = 0 then h else h.memset p 0 size)

def freeSmall (h : Heap) (p : Nat) (a : Arena) (d : DescId) (garbage : Bytes) : Option Heap :=
  let h := h.memset p 0xcc d.blockSize
  let k := h.books.give d p a
  let h := { h with books := k }.scribble (isMetadata k) garbage
  if (a.freeCnt + 1) % 2 ^ 32 ≥ d.blocksPerArena then
    if (a.freeCnt + 1) % 2 ^ 32 = d.blocksPerArena then
      (k.dropArena d (pgNo p)).map fun k =>
        { h with books := k }.scribble (inPages (pgNo p) 1) fun _ => 0xcc
    else none
  else some h

def free (h : Heap) (p : Nat) (garbage : Bytes) : Option Heap :=
  if p = 0 then some h
  else do
    let a ← h.books.blockToArena p
    match a.desc with
    | some d => h.freeSmall p a d garbage
    | none =>
      (h.books.pallocFreeMultiple (pgNo p) a.freeCnt).map fun k =>
        { h with books := k }.scribble (inPages (pgNo p) a.freeCnt) fun _ => 0xcc

def realloc (h : Heap) (oldBlock newSize : Nat) (env : Env) (garbage : Bytes) :
    Option (Nat × Heap) :=
  if newSize = 0 then (h.free oldBlock garbage).map fun h => (0, h)
  else do
    let (newBlock, h) ← h.malloc newSize env
    if oldBlock ≠ 0 ∧ newBlock ≠ 0 then
      let oldSize ← h.books.blockSize oldBlock
      let h := h.memcpy newBlock oldBlock (min newSize oldSize)
      let h ← h.free oldBlock garbage
      return (newBlock, h)
    else return (newBlock, h)

end Heap

structure State where
  heap : Heap
  live : Finset Nat

inductive Op
  | malloc (size : Nat) (env : Env)
  | calloc (a b : Nat) (env : Env)
  | realloc (oldBlock newSize : Nat) (env : Env) (garbage : Bytes)
  | free (p : Nat) (garbage : Bytes)
  | store (p i : Nat) (value : UInt8)

def State.got (s : State) (p : Nat) (h : Heap) : State :=
  ⟨h, if p = 0 then s.live else insert p s.live⟩

def exec (s : State) : Op → Option State
  | .malloc size env => (s.heap.malloc size env).map fun (p, h) => s.got p h
  | .calloc a b env => (s.heap.calloc a b env).map fun (p, h) => s.got p h
  | .realloc oldBlock newSize env garbage =>
    (s.heap.realloc oldBlock newSize env garbage).map fun (p, h) =>
      if newSize = 0 ∨ p ≠ 0 then { s with live := s.live.erase oldBlock }.got p h
      else ⟨h, s.live⟩
  | .free p garbage => (s.heap.free p garbage).map fun h => ⟨h, s.live.erase p⟩
  | .store p i value => some { s with heap := s.heap.memset (p + i) value 1 }

-- Blocks are freed once, users write to their blocks only, and requests are below 2^31 bytes.
def Allowed (s : State) : Op → Prop
  | .malloc size _ => size < 2 ^ 31
  | .calloc a b _ => a * b % 2 ^ 32 < 2 ^ 31
  | .realloc oldBlock newSize _ _ => (oldBlock = 0 ∨ oldBlock ∈ s.live) ∧ newSize < 2 ^ 31
  | .free p _ => p = 0 ∨ p ∈ s.live
  | .store p i _ => p ∈ s.live ∧ ∃ size, s.heap.books.blockSize p = some size ∧ i < size

def start (mem : Bytes) : State := ⟨⟨⟨fun _ => none, fun _ => [], fun _ => false⟩, mem⟩, ∅⟩

def system : Lib.System State Op where
  init s := ∃ mem, s = start mem
  step s op s' := Allowed s op ∧ exec s op = some s'

end Pintos.Threads.Malloc
