import Pintos.Lib.TransitionSystem
import Pintos.LibKernel.Hash.Keyed
import Pintos.Userprog.Load
import Pintos.Vm.Frame

namespace Pintos.Vm

open Function Threads LibKernel Lib Userprog

-- An sp_entry as the hash table and the lists hold it: the block that it lives in, and the
-- entry as it was made, whose key never changes. Blocks are numbered by their allocation.
structure SpElem where
  block : Nat
  made : SpEntry
deriving DecidableEq

namespace SpElem

def key (x : SpElem) : Addr × Int := (x.made.upage, x.made.tid)

def hash (x : SpElem) : BitVec 32 := pageHash x.made

def less (x y : SpElem) : Bool := pageCmp x.made y.made

end SpElem

inductive Pool
  | kernel
  | user
deriving DecidableEq

structure KPage where
  pool : Pool
  no : Nat
deriving DecidableEq

structure FtEntry where
  pAddr : Option KPage
  user : Option Nat
deriving DecidableEq

structure Mapping where
  kpage : KPage
  writable : Bool
deriving DecidableEq

inductive Instr
  | alloc (e : SpEntry)
  | allocStack
  | obtainStack (spe : Nat)
  | validateOnStack (esp : Addr)
  | growStack (addr esp : Addr) (write : Bool)
  | obtain (addr : Addr) (user : Bool)
  | destroy
deriving DecidableEq

def leave : List Instr := [.destroy]

structure Proc where
  pagedir : Addr
  loading : Bool
  speList : List SpElem
  todo : List Instr

structure Config where
  slots : Nat
  userPages : Nat
  kernelPages : Nat
  swapSectors : Nat
  files : FileRef → FileData
  slots_lt : slots < 2 ^ 32 - 1
  swap_lt : swapSectors < 2 ^ 32

-- The functions of swap.c that are given an entry. Nothing calls swap_obtain.
inductive SwapCall
  | obtain
  | write
  | read
  | delete
deriving DecidableEq

-- The last two fields are not in the source: what each page that was brought in should hold,
-- which is its initial bytes with the writes of its owner, and the calls into swap.c that
-- have returned. As in ProcTable, next_tid does not overflow.
structure Paging where
  ptHash : Hash SpElem
  heap : Nat → Option SpEntry
  nextBlock : Nat
  procs : Int → Option Proc
  nextTid : Int
  pagedirs : List Addr
  dirs : Addr → List (Addr × Mapping)
  used : Nat → Bool
  ft : Nat → FtEntry
  taken : KPage → Bool
  mem : KPage → PageBytes
  swapUsed : Nat → Bool
  swap : Nat → Fin 512 → BitVec 8
  value : Int → Addr → Option PageBytes
  calls : List (SwapCall × SpEntry)

-- What the environment decides in one step: whether malloc finds a block and room for new
-- buckets, the page that palloc_get_page returns, whether pagedir_set_page has or gets a
-- page table, and the random number.
structure Choice where
  malloc : Bool
  buckets : Bool
  kpage : Option KPage
  tables : Bool
  random : BitVec 32

-- Why a step has no successor. `impossible` is no step of the system; `undefined` is a
-- use of freed memory or of memory outside the frame table; `swap` ends in the call named.
inductive Fault
  | impossible
  | panicked
  | undefined
  | swap (call : SwapCall) (e : SpEntry)
deriving DecidableEq

inductive Obtained
  | installed
  | failed
  | exited
deriving DecidableEq

def bitmapError : BitVec 32 := BitVec.allOnes 32

def sizeMax : BitVec 32 := BitVec.allOnes 32

namespace Paging

variable (c : Config)

def setProc (s : Paging) (t : Int) (p : Proc) : Paging :=
  { s with procs := update s.procs t (some p) }

def setEntry (s : Paging) (b : Nat) (e : SpEntry) : Paging :=
  { s with heap := update s.heap b (some e) }

def lookup (s : Paging) (pd page : Addr) : Option Mapping := (s.dirs pd).lookup page

def pageSuppAlloc (s : Paging) (t : Int) (p : Proc) (e : SpEntry) (buckets : Bool) : Paging :=
  let x : SpElem := ⟨s.nextBlock, e⟩
  { s with
    ptHash := (s.ptHash.insert x buckets).1
    heap := update s.heap s.nextBlock (some e)
    nextBlock := s.nextBlock + 1
    procs := update s.procs t
      (some { p with speList := p.speList ++ [x] }) }

def pageFind (s : Paging) (t : UserThread) (vaddr : Addr) : Option SpElem :=
  s.ptHash.find ⟨0, SpEntry.alloc t vaddr⟩

def slotSectors (sector : BitVec 32) : List Nat :=
  (List.range 8).map fun cur => (sector + BitVec.ofNat 32 cur).toNat

-- frame_get wants an index into the table, and block_write a sector of the device.
def swapWrite (s : Paging) (e : SpEntry) : Except Fault Paging :=
  if c.slots ≤ e.idx.toNat ∨ (slotSectors e.sector).any (c.swapSectors ≤ ·) then
    .error (.swap .write e)
  else match (s.ft e.idx.toNat).pAddr with
    | none => .error .undefined
    | some kpage =>
      .ok { s with
        swap := fun sector ofs =>
          if sector ∈ slotSectors e.sector then
            s.mem kpage (Fin.ofNat 4096 ((sector - e.sector.toNat) * 512 + ofs))
          else s.swap sector ofs
        calls := (.write, e) :: s.calls }

-- The bitmap has a bit for each byte of the device.
def swapDelete (s : Paging) (b : Nat) (e : SpEntry) : Except Fault Paging :=
  if c.swapSectors * 512 % 2 ^ 32 < e.sector.toNat + 8 then .error (.swap .delete e)
  else .ok
    { s.setEntry b { e with sector := sizeMax } with
      swapUsed := fun i => s.swapUsed i && !decide (e.sector.toNat ≤ i ∧ i < e.sector.toNat + 8)
      calls := (.delete, e) :: s.calls }

-- A slot of the frame table whose page is to make room. What a dirty page of an executable
-- has is not written, since its file denies writes.
def frameEvict (s : Paging) (random : BitVec 32) : Except Fault (Paging × Nat) :=
  if random.toInt < 0 ∨ c.slots ≤ random.toInt.toNat then .error .undefined
  else match (s.ft random.toInt.toNat).user with
    | none => .error .panicked
    | some b =>
      match s.heap b with
      | none => .error .undefined
      | some e =>
        match e.location with
        | .filesystem => .ok (s, random.toInt.toNat)
        | _ =>
          let e' := { e with location := .swapped }
          match (s.setEntry b e').swapWrite c e' with
          | .error fault => .error fault
          | .ok s' => .ok (s', random.toInt.toNat)

def freeSlot (s : Paging) : Option Nat := (List.range c.slots).find? fun k => !s.used k

-- The index is BITMAP_ERROR while frame_evict runs.
def claimSlot (s : Paging) (b : Nat) (e : SpEntry) (random : BitVec 32) :
    Except Fault (Paging × Nat) :=
  match s.freeSlot c with
  | some k => .ok ({ s with used := update s.used k true }, k)
  | none => (s.setEntry b { e with idx := bitmapError }).frameEvict c random

-- An all-zero page of a file is taken from the kernel's pool.
def poolOf (e : SpEntry) : Pool :=
  if e.location = .filesystem ∧ e.zeroBytes = pgSize then .kernel else .user

def capacity : Pool → Nat
  | .kernel => c.kernelPages
  | .user => c.userPages

-- Whether palloc_get_page may return this. The kernel's pool has other users.
def canReturn (s : Paging) (pool : Pool) : Option KPage → Bool
  | some kpage => kpage.pool == pool && kpage.no < capacity c pool && !s.taken kpage
  | none => pool == .kernel || (List.range (capacity c pool)).all fun no => s.taken ⟨pool, no⟩

def freedBytes : PageBytes := fun _ => 0xcc

def pallocFreePage (s : Paging) (kpage : KPage) : Paging :=
  { s with
    taken := update s.taken kpage false
    mem := update s.mem kpage freedBytes }

def giveBack (s : Paging) (b : Nat) (e : SpEntry) (k : Nat) : Paging :=
  { s.setEntry b { e with idx := bitmapError } with used := update s.used k false }

def fillFrame (s : Paging) (e : SpEntry) (k : Nat) (kpage : KPage) : Paging :=
  { s with
    taken := update s.taken kpage true
    mem := update s.mem kpage (fetchBytes c.files e (s.mem kpage))
    ft := update s.ft k { s.ft k with pAddr := some kpage } }

def initialBytes (e : SpEntry) : PageBytes := fetchBytes c.files e fun _ => 0

def installPage (s : Paging) (b : Nat) (e : SpEntry) (k : Nat) (kpage : KPage) : Paging :=
  { s with
    dirs := update s.dirs e.pagedir ((e.upage, ⟨kpage, e.writable⟩) :: s.dirs e.pagedir)
    ft := update s.ft k { s.ft k with user := some b }
    value := update s.value e.tid (update (s.value e.tid) e.upage
      (some ((s.value e.tid e.upage).getD (initialBytes c e)))) }

-- frame_fetch and frame_install_page for the entry in block `b`, which has slot `k`. What a
-- file that ends too early left in the page is not recorded: nobody ever maps the page.
def fetchInto (s : Paging) (b : Nat) (e : SpEntry) (k : Nat) (ch : Choice) :
    Except Fault (Paging × Obtained) :=
  match frameFetch (fun file => (c.files file).length) e ch.kpage.isSome, ch.kpage with
  | .fetched, some kpage =>
    let s' := s.fillFrame c e k kpage
    if (s'.lookup e.pagedir e.upage).isNone && ch.tables then
      .ok (s'.installPage c b e k kpage, .installed)
    else .ok ((s'.pallocFreePage kpage).giveBack b e k, .failed)
  | .refused, _ => .ok (s.giveBack b e k, .failed)
  | .exited, some kpage => .ok ({ s with taken := update s.taken kpage true }, .exited)
  | .panicked, _ => .error (if e.location = .swapped then .swap .read e else .panicked)
  | _, none => .error .impossible

def frameObtain (s : Paging) (b : Nat) (ch : Choice) : Except Fault (Paging × Obtained) :=
  match s.heap b with
  | none => .error .undefined
  | some e =>
    match s.claimSlot c b e ch.random with
    | .error fault => .error fault
    | .ok (s', k) =>
      match s'.heap b with
      | none => .error .undefined
      | some e' =>
        let e' := { e' with idx := BitVec.ofNat 32 k }
        if s'.canReturn c (poolOf e') ch.kpage then (s'.setEntry b e').fetchInto c b e' k ch
        else .error .impossible

-- No entry has a location for which frame_delete is called.
def pageSuppDelete (s : Paging) (b : Nat) : Except Fault Paging :=
  match s.heap b with
  | none => .error .undefined
  | some e =>
    match if e.location = .swapped then s.swapDelete c b e else .ok s with
    | .error fault => .error fault
    | .ok s' => .ok { s' with heap := update s'.heap b none }

def pagedirDestroy (s : Paging) (t : Int) (pd : Addr) : Paging :=
  let freed (kpage : KPage) := (s.dirs pd).any fun m => m.2.kpage = kpage
  { s with
    procs := update s.procs t none
    dirs := update s.dirs pd []
    pagedirs := s.pagedirs.erase pd
    taken := fun kpage => s.taken kpage && !freed kpage
    mem := fun kpage => if freed kpage then freedBytes else s.mem kpage
    value := update s.value t fun _ => none }

-- One round of the loop of page_supp_destroy, in which list_remove does nothing to an
-- element that list_pop_front has removed.
def destroyRound (s : Paging) (t : Int) (p : Proc) (x : SpElem) (rest : List SpElem)
    (buckets : Bool) : Except Fault Paging :=
  if s.heap x.block = none then .error .undefined
  else
    match { s with ptHash := (s.ptHash.delete x buckets).1 }.pageSuppDelete c x.block with
    | .error fault => .error fault
    | .ok s' => .ok (s'.setProc t { p with speList := rest, todo := leave })

def create (s : Paging) (t : Int) (pd : Addr) : Paging :=
  { s with
    procs := update s.procs t (some ⟨pd, true, [], []⟩)
    nextTid := t + 1
    pagedirs := pd :: s.pagedirs }

def allocOr (s : Paging) (t : Int) (p : Proc) (e : SpEntry) (ch : Choice) : Except Fault Paging :=
  if ch.malloc then .ok (s.pageSuppAlloc t p e ch.buckets) else .error .panicked

def stackPage : Addr := physBase - pgSize

def runInstr (s : Paging) (t : Int) (p : Proc) (ch : Choice) : Instr → Except Fault Paging
  | .alloc e => s.allocOr t p e ch
  | .allocStack =>
    s.allocOr t { p with todo := [.obtainStack s.nextBlock] }
      (SpEntry.alloc ⟨t, p.pagedir⟩ stackPage) ch
  | .obtainStack b =>
    match s.frameObtain c b ch with
    | .error fault => .error fault
    | .ok (s', .installed) => .ok (s'.setProc t { p with loading := false })
    -- the entry is freed, but stays in the table and in the list
    | .ok (s', .failed) =>
      match s'.pageSuppDelete c b with
      | .error fault => .error fault
      | .ok s'' => .ok (s''.setProc t { p with todo := leave })
    | .ok (s', .exited) => .ok (s'.setProc t { p with todo := leave })
  | .validateOnStack esp =>
    if !isUserVaddr esp then .error .panicked
    else if (s.lookup p.pagedir (pgRoundDown esp)).isSome then .ok (s.setProc t p)
    else if beyondStackLimit esp then .ok (s.setProc t { p with todo := leave })
    else s.allocOr t p (SpEntry.alloc ⟨t, p.pagedir⟩ (pgRoundDown esp)) ch
  | .growStack addr esp write =>
    match s.pageFind ⟨t, p.pagedir⟩ (pgRoundDown addr) with
    | some _ => .ok (s.setProc t p)
    | none =>
      if beyondStackLimit addr ∨ addr < esp ∧ !write then
        .ok (s.setProc t { p with todo := leave })
      else s.allocOr t p (SpEntry.alloc ⟨t, p.pagedir⟩ (pgRoundDown addr)) ch
  | .obtain addr user =>
    match s.pageFind ⟨t, p.pagedir⟩ (pgRoundDown addr) with
    | none => .error .panicked
    | some x =>
      match s.frameObtain c x.block ch with
      | .error fault => .error fault
      | .ok (s', .installed) => .ok (s'.setProc t p)
      | .ok (s', .failed) =>
        if user then .ok (s'.setProc t { p with todo := leave }) else .error .panicked
      | .ok (s', .exited) => .ok (s'.setProc t { p with todo := leave })
  | .destroy =>
    match p.speList with
    | [] => .ok (s.pagedirDestroy t p.pagedir)
    | x :: rest => s.destroyRound c t p x rest ch.buckets

def faults (s : Paging) (pd addr : Addr) (write : Bool) : Bool :=
  match s.lookup pd (pgRoundDown addr) with
  | none => true
  | some m => write && !m.writable

def pageFault (s : Paging) (t : Int) (p : Proc) (addr esp : Addr) (user write : Bool) :
    Except Fault Paging :=
  if addr < pgSize ∧ !user then .error .panicked
  else if addr < pgSize ∨ user ∧ !isUserVaddr addr then .ok (s.setProc t { p with todo := leave })
  else .ok (s.setProc t { p with
    todo := (if user then [.validateOnStack esp, .growStack addr esp write] else []) ++
      [.obtain addr user] })

def writeByte (s : Paging) (t : Int) (kpage : KPage) (addr : Addr) (byte : BitVec 8) : Paging :=
  let put (bytes : PageBytes) : PageBytes :=
    update bytes (Fin.ofNat 4096 (pgOfs addr).toNat) byte
  { s with
    mem := update s.mem kpage (put (s.mem kpage))
    value := update s.value t (update (s.value t) (pgRoundDown addr)
      ((s.value t (pgRoundDown addr)).map put)) }

end Paging

-- What happens next: a process is created, starts loading a segment or setting up its
-- stack, faults, writes a byte, leaves, or goes on with what it is doing. syscall_mmap is
-- not here: it returns before its loop whether or not its address is that of a page.
inductive Act
  | create (pd : Addr)
  | segment (file : FileRef) (phdr : Phdr)
  | stack
  | fault (addr esp : Addr) (user write : Bool)
  | store (addr : Addr) (byte : BitVec 8)
  | exit
  | run (ch : Choice)

namespace Paging

def written (t : Int) (act : Act) (t' : Int) (page : Addr) (bytes : PageBytes) : PageBytes :=
  match act with
  | .store addr byte =>
    if t' = t ∧ page = pgRoundDown addr then
      update bytes (Fin.ofNat 4096 (pgOfs addr).toNat) byte
    else bytes
  | _ => bytes

variable (c : Config)

def execProc (s : Paging) (t : Int) (p : Proc) : Act → Except Fault Paging
  | .create _ => .error .impossible
  | .segment file phdr =>
    if p.todo = [] ∧ p.loading ∧ validateSegment phdr (c.files file).length then
      .ok (s.setProc t { p with todo := (loadSegment ⟨t, p.pagedir⟩ file phdr).map .alloc })
    else .error .impossible
  | .stack =>
    if p.todo = [] ∧ p.loading then .ok (s.setProc t { p with todo := [.allocStack] })
    else .error .impossible
  | .fault addr esp user write =>
    if p.todo = [] ∧ !p.loading ∧ s.faults p.pagedir addr write then
      s.pageFault t p addr esp user write
    else .error .impossible
  | .store addr byte =>
    match s.lookup p.pagedir (pgRoundDown addr) with
    | none => .error .impossible
    | some m =>
      if p.todo = [] ∧ !p.loading ∧ m.writable then .ok (s.writeByte t m.kpage addr byte)
      else .error .impossible
  | .exit =>
    if p.todo = [] then .ok (s.setProc t { p with todo := leave }) else .error .impossible
  | .run ch =>
    match p.todo with
    | [] => .error .impossible
    | instr :: rest => s.runInstr c t { p with todo := rest } ch instr

def exec (s : Paging) : Int × Act → Except Fault Paging
  | (t, .create pd) =>
    if s.nextTid ≤ t ∧ pd ∉ s.pagedirs then .ok (s.create t pd) else .error .impossible
  | (t, act) =>
    match s.procs t with
    | none => .error .impossible
    | some p => s.execProc c t p act

-- What is in the pages and on the swap device before the first process does not matter.
def boot (mem : KPage → PageBytes) (swap : Nat → Fin 512 → BitVec 8) : Paging where
  ptHash := Hash.init SpElem.hash SpElem.less
  heap _ := none
  nextBlock := 0
  procs _ := none
  nextTid := 1
  pagedirs := []
  dirs _ := []
  used _ := false
  ft _ := ⟨none, none⟩
  taken _ := false
  mem := mem
  swapUsed _ := false
  swap := swap
  value _ _ := none
  calls := []

def system : System Paging (Int × Act) where
  init s := ∃ mem swap, s = boot mem swap
  step s label s' := s.exec c label = .ok s'

theorem reachableVia_of_leadsTo (guard : Paging → Int × Act → Bool) (labels : List (Int × Act))
    (P : Paging → Bool)
    (h : System.leadsTo (boot (fun _ _ => 0) fun _ _ => 0) (System.tryExec guard (exec c)) labels P =
      true) :
    ∃ s, (system c).ReachableVia (fun s label => guard s label = true) s ∧ P s = true :=
  System.reachableVia_of_leadsTo _ _ labels P ⟨_, _, rfl⟩
    (fun _ _ _ hexec => System.tryExec_eq_some hexec) h

end Paging

-- The machine with 264 pages of RAM, which has four slots in its frame table and three pages
-- in its user pool.
def Config.small : Config where
  slots := 4
  userPages := 3
  kernelPages := 3
  swapSectors := 8192
  files _ := ⟨4096, fun _ => 0x90, by decide⟩
  slots_lt := by decide
  swap_lt := by decide

def Choice.page (no : Nat) (random : BitVec 32) : Choice :=
  ⟨true, true, some ⟨.user, no⟩, true, random⟩

namespace Paging

def starts (t : Int) (pd : Addr) (no : Nat) : List (Int × Act) :=
  [(t, .create pd), (t, .stack), (t, .run (.page no 0)), (t, .run (.page no 0))]

def leaves (t : Int) (entries : Nat) : List (Int × Act) :=
  (t, .exit) :: List.replicate (entries + 1) (t, .run (.page 0 0))

def grows (t : Int) (addr esp : Addr) : List (Int × Act) :=
  [(t, .fault addr esp true true), (t, .run (.page 0 0)), (t, .run (.page 0 0))]

end Paging

end Pintos.Vm
