import Pintos.Lib.LockTable
import Pintos.Lib.TransitionSystem
import Pintos.Userprog.Load
import Pintos.Userprog.Pointers
import Pintos.Vm.Frame

namespace Pintos.Userprog

open Function Lib Threads Vm

-- A process as the locks and the paging code see it. Number 0 is the main thread, which
-- runs no user code.
abbrev TaskRef := Nat

inductive LockName
  | fs
  | frameTable
  | pageTable
  | children (p : TaskRef)
deriving DecidableEq

-- What load meets: the page directory it gets, the file that it opens, and the program
-- headers in the order in which it reads them, `none` for one that it cannot read. Last
-- the sizes of what push_stack_args pushes.
structure Executable where
  pagedir : Option Addr
  file : Option FileRef
  headerOk : Bool
  phdrs : List (Option Phdr)
  pushes : List Nat
deriving DecidableEq

inductive OnFail
  | killUser
  | killKernel
  | failLoad
deriving DecidableEq

inductive Instr
  | acquire (l : LockName)
  | release (l : LockName)
  | check (ptr len : Addr)
  | validateEsp (esp : Addr)
  | access (addr : Addr) (write : Bool)
  | validateOnStack (esp : Addr)
  | growStack (addr : Addr) (write : Bool) (esp : Addr)
  | obtain (addr : Addr) (fail : OnFail)
  | fetch (e : SpEntry) (fail : OnFail)
  | alloc (e : SpEntry)
  | setPagedir (pd : Addr)
  | openExec
  | header (file : FileRef) (phdr : Phdr)
  | setupStack
  | link
  | unlink
  | spawn (exe : Executable)
  | resize (file : FileRef) (length : Nat)
  | panic
  | powerOff
  | processExit
  | releaseAll
  | die
deriving DecidableEq

def Instr.isFetch : Instr → Bool
  | .fetch _ _ => true
  | _ => false

namespace Code

def touch (addr : Addr) (cnt : Nat) (write : Bool) : List Instr :=
  (List.range cnt).map fun i => .access (addr + BitVec.ofNat 32 i) write

def sections (l : LockName) (cnt : Nat) : List Instr :=
  (List.replicate cnt [.acquire l, .release l]).flatten

def under (l : LockName) (code : List Instr) : List Instr := .acquire l :: code ++ [.release l]

def suppAlloc (e : SpEntry) : List Instr := under .pageTable [.alloc e]

def frameObtain (e : SpEntry) (fail : OnFail) : List Instr :=
  under .frameTable [.fetch e fail]

def loaded (q : TaskRef) : List Instr := .release .fs :: sections (.children q) 1

def loadFailed (q : TaskRef) : List Instr :=
  .release .fs :: sections (.children q) 1 ++ [.processExit]

def headers (q : TaskRef) (file : FileRef) (rest : List Instr) : List (Option Phdr) → List Instr
  | [] => rest
  | none :: _ => loadFailed q
  | some phdr :: phdrs => .header file phdr :: headers q file rest phdrs

def pushStackArgs (esp : Addr) : List Nat → List Instr
  | [] => []
  | cnt :: cnts =>
    touch (esp - BitVec.ofNat 32 cnt) cnt true ++ pushStackArgs (esp - BitVec.ofNat 32 cnt) cnts

def load (q : TaskRef) (exe : Executable) : List Instr :=
  match exe.pagedir, exe.file with
  | none, _ => loadFailed q
  | some pd, none => .setPagedir pd :: loadFailed q
  | some pd, some file =>
    .setPagedir pd :: .openExec ::
      if exe.headerOk then
        headers q file (.setupStack :: pushStackArgs physBase exe.pushes ++ loaded q) exe.phdrs
      else loadFailed q

def startProcess (q : TaskRef) (exe : Executable) : List Instr := .acquire .fs :: load q exe

end Code

-- How process_execute goes: whether there is a page for the copy of the command line, how
-- many bytes of it are copied, there and into the name of the new thread, whether there is
-- a thread, and how often c_status is found P_LOADING.
structure Launch where
  page : Bool
  copied : Nat
  named : Nat
  exe : Option Executable
  polls : Nat
deriving DecidableEq

inductive Syscall
  | halt
  | exit
  | exec (cmdLine : Addr) (launch : Launch)
  | wait (polls : Option Nat)
  | create (file : Addr) (touched : Nat) (made : Option (FileRef × Nat))
  | remove (file : Addr) (touched : Nat)
  | open (file : Addr) (touched : Nat) (closed : Bool)
  | filesize (found : Bool)
  | read (fd : Int) (buf size : Addr) (found : Bool) (touched : Nat)
  | write (fd : Int) (buf size : Addr) (found : Bool) (touched : Nat)
      (grown : Option (FileRef × Nat))
  | seek (found : Bool)
  | tell (found : Bool)
  | close (found : Bool)
  | mmap (addr : Addr) (found : Bool) (length : Addr)
  | munmap
  | readdir (name : Addr) (touched : Nat)
  | directory
  | unknown
deriving DecidableEq

namespace Code

def processExecute (p : TaskRef) (cmdLine : Addr) (launch : Launch) : List Instr :=
  if launch.page then
    touch cmdLine launch.copied false ++ .link :: touch cmdLine launch.named false ++
      (launch.exe.map Instr.spawn).toList ++ sections (.children p) (launch.polls + 1)
  else []

def processWait (p : TaskRef) : Option Nat → List Instr
  | none => []
  | some polls => sections (.children p) polls ++ under (.children p) [.unlink]

def resized (change : Option (FileRef × Nat)) : List Instr :=
  (change.map fun c => Instr.resize c.1 c.2).toList

def ifFound (found : Bool) : List Instr := if found then sections .fs 1 else []

def syscall (p : TaskRef) : Syscall → List Instr
  | .halt => [.powerOff]
  | .exit => [.processExit]
  | .exec cmdLine launch => .check cmdLine 0 :: processExecute p cmdLine launch
  | .wait polls => processWait p polls
  | .create file touched made =>
    .check file 0 :: under .fs (touch file touched false ++ resized made)
  | .remove file touched => .check file 0 :: under .fs (touch file touched false)
  | .open file touched closed =>
    .check file 0 :: under .fs (touch file touched false) ++
      -- the file is closed again when fdt_insert fails
      if closed then sections .fs 1 else []
  | .filesize found => ifFound found
  | .read fd buf size found touched =>
    if size = 0 then []
    else .check buf (size - 1) ::
      if fd = 0 then under .fs (touch buf size.toNat true)
      else if found then under .fs (touch buf (min touched size.toNat) true)
      else []
  | .write fd buf size found touched grown =>
    if size = 0 then []
    else .check buf (size - 1) ::
      if fd = 1 then under .fs (touch buf size.toNat false)
      else if found then
        under .fs (touch buf (min touched size.toNat) false ++ resized grown)
      else []
  | .seek found | .tell found | .close found => ifFound found
  -- whatever the address, no mapping is made
  | .mmap addr found length =>
    ifFound found ++
      if length = 0 ∨ pgOfs addr ≠ 0 then [] else [.check addr (length - 1)]
  | .munmap => []
  | .readdir name touched => touch name touched true
  -- chdir, mkdir, isdir and inumber
  | .directory => []
  | .unknown => [.processExit]

def argCnt : Syscall → Nat
  | .halt | .unknown => 0
  | .exit | .exec .. | .wait _ | .remove .. | .open .. | .filesize _ | .tell _ | .close _
  | .munmap | .directory => 1
  | .create .. | .seek _ | .mmap .. | .readdir .. => 2
  | .read .. | .write .. => 3

def syscallArg (esp : Addr) (index : Nat) : List Instr :=
  let arg := esp + BitVec.ofNat 32 index * 4
  .check arg 0 :: touch arg 4 false

def syscallHandler (p : TaskRef) (esp : Addr) (call : Syscall) : List Instr :=
  .check esp 0 :: .validateEsp esp :: touch esp 4 false ++
    (List.range (argCnt call)).flatMap (fun i => syscallArg esp (i + 1)) ++ syscall p call

def pageFault (addr : Addr) (write : Bool) (esp : Addr) : List Instr :=
  [.validateOnStack esp, .growStack addr write esp, .obtain addr .killUser]

end Code

inductive Mode
  | absent
  | outside
  | kernel (code : List Instr)
  | dead
deriving DecidableEq

structure Task where
  mode : Mode
  thread : UserThread
  parent : TaskRef
  exec : Bool
  relations : Nat
deriving DecidableEq

inductive TaskFault
  | disabled
  | lock (fault : LockFault)
  | panicked
  | poweredOff
deriving DecidableEq

-- `present` is what the page directories map, with the writable bit; `swapped` the pages
-- that frame_evict moved to swap.
structure TaskTable where
  tasks : TaskRef → Task
  locks : LockTable TaskRef LockName
  table : SpTable
  present : TaskRef → Addr → Option Bool
  swapped : List (Int × Addr)
  fileLength : FileRef → Nat
  nextTask : TaskRef
  nextTid : Int

-- In `go`, `frame` says whether there is a page for a frame, `room` whether there is memory
-- for page tables and for a larger hash table.
inductive TaskChoice
  | go (frame room : Bool)
  | evict (tid : Int) (page : Addr)
  | runTask (launch : Launch) (polls : Option Nat)
  | syscall (esp : Addr) (call : Syscall)
  | fault (addr : Addr) (write : Bool) (esp : Addr)
  | exception
deriving DecidableEq

namespace OnFail

def code (q : TaskRef) : OnFail → List Instr
  | .killUser => [.processExit]
  | .killKernel => [.panic]
  | .failLoad => Code.loadFailed q

end OnFail

namespace TaskTable

def setTask (s : TaskTable) (p : TaskRef) (x : Task) : TaskTable :=
  { s with tasks := update s.tasks p x }

def enter (s : TaskTable) (p : TaskRef) (mode : Mode) : TaskTable :=
  s.setTask p { s.tasks p with mode := mode }

def goto (s : TaskTable) (p : TaskRef) (code : List Instr) : TaskTable := s.enter p (.kernel code)

def mapPage (s : TaskTable) (p : TaskRef) (e : SpEntry) : TaskTable :=
  { s with
    present := update s.present p
      (update (s.present p) e.upage (some e.writable)) }

def space (s : TaskTable) (p : TaskRef) : AddressSpace :=
  .supplemental s.table (s.tasks p).thread

def pageFind (s : TaskTable) (p : TaskRef) (addr : Addr) : Option SpEntry :=
  s.table.pageFind (s.tasks p).thread (pgRoundDown addr)

def isPresent (s : TaskTable) (p : TaskRef) (addr : Addr) : Bool :=
  (s.present p (pgRoundDown addr)).isSome

def faults (s : TaskTable) (p : TaskRef) (addr : Addr) (write : Bool) : Bool :=
  match s.present p (pgRoundDown addr) with
  | none => true
  | some writable => write && !writable

def fetch (s : TaskTable) (e : SpEntry) (frame : Bool) : Fetched :=
  if (e.tid, e.upage) ∈ s.swapped then .panicked else frameFetch s.fileLength e frame

def withLocks (s : TaskTable) (locks : Except LockFault (LockTable TaskRef LockName)) :
    Except TaskFault TaskTable :=
  match locks with
  | .ok locks => .ok { s with locks := locks }
  | .error fault => .error (.lock fault)

def spawn (s : TaskTable) (p : TaskRef) (exe : Executable) : TaskTable :=
  { s.setTask s.nextTask ⟨.kernel (Code.startProcess p exe), ⟨s.nextTid, 0⟩, p, false, 0⟩ with
    present := update s.present s.nextTask fun _ => none
    nextTask := s.nextTask + 1
    nextTid := s.nextTid + 1 }

def suppEntries (s : TaskTable) (p : TaskRef) : List SpEntry :=
  s.table.entries.filter fun e => e.tid = (s.tasks p).thread.tid

def exitCode (s : TaskTable) (p : TaskRef) : List Instr :=
  (if (s.tasks p).exec then Code.sections .fs 1 else []) ++
    Code.sections (.children (s.tasks p).parent) 1 ++
    Code.sections (.children p) (s.tasks p).relations ++ Code.sections .fs 1 ++
    .releaseAll :: Code.sections .pageTable (s.suppEntries p).length ++ [.die]

def perform (s : TaskTable) (p : TaskRef) (frame room : Bool) (code : List Instr) (i : Instr) :
    Except TaskFault TaskTable :=
  match i with
  | .acquire l => (s.goto p code).withLocks (s.locks.acquire p l)
  | .release l => (s.goto p code).withLocks (s.locks.release p l)
  | .check ptr len =>
    .ok (s.goto p (if isValidPtr (s.space p) ptr len then code else [.processExit]))
  | .validateEsp esp =>
    .ok (s.goto p (if !s.isPresent p esp && beyondStackLimit esp then [.processExit] else code))
  -- the kernel's own addresses are mapped, and a user address that faults is tried again
  | .access addr write =>
    if !isUserVaddr addr || !s.faults p addr write then .ok (s.goto p code)
    else if addr < pgSize then .error .panicked
    else .ok (s.goto p (.obtain addr .killKernel :: .access addr write :: code))
  | .validateOnStack esp =>
    if !isUserVaddr esp then .error .panicked
    else if s.isPresent p esp then .ok (s.goto p code)
    else if beyondStackLimit esp then .ok (s.goto p [.processExit])
    else .ok (s.goto p (Code.suppAlloc (.alloc (s.tasks p).thread (pgRoundDown esp)) ++ code))
  | .growStack addr write esp =>
    if (s.pageFind p addr).isSome then .ok (s.goto p code)
    else if beyondStackLimit addr || (addr < esp && !write) then .ok (s.goto p [.processExit])
    else .ok (s.goto p (Code.suppAlloc (.alloc (s.tasks p).thread (pgRoundDown addr)) ++ code))
  | .obtain addr fail =>
    match s.pageFind p addr with
    | some e => .ok (s.goto p (Code.frameObtain e fail ++ code))
    -- frame_obtain with a null pointer
    | none => .ok (s.goto p [.acquire .frameTable, .panic])
  | .fetch e fail =>
    match s.fetch e frame with
    | .fetched =>
      if !s.isPresent p e.upage && room then .ok ((s.mapPage p e).goto p code)
      else .ok (s.goto p (.release .frameTable :: fail.code (s.tasks p).parent))
    | .refused => .ok (s.goto p (.release .frameTable :: fail.code (s.tasks p).parent))
    | .exited => .ok (s.goto p [.processExit])
    | .panicked => .error .panicked
  | .alloc e => .ok { s.goto p code with table := s.table.insert e room }
  | .setPagedir pd =>
    .ok (s.setTask p { s.tasks p with
      mode := .kernel code, thread := ⟨(s.tasks p).thread.tid, pd⟩ })
  | .openExec => .ok (s.setTask p { s.tasks p with mode := .kernel code, exec := true })
  | .header file phdr =>
    if phdr.pType = ptDynamic ∨ phdr.pType = ptInterp ∨ phdr.pType = ptShlib then
      .ok (s.goto p (Code.loadFailed (s.tasks p).parent))
    else if phdr.pType = ptLoad then
      if validateSegment phdr (s.fileLength file) then
        .ok (s.goto p ((loadSegment (s.tasks p).thread file phdr).flatMap Code.suppAlloc ++ code))
      else .ok (s.goto p (Code.loadFailed (s.tasks p).parent))
    else .ok (s.goto p code)
  | .setupStack =>
    let e := SpEntry.alloc (s.tasks p).thread (physBase - pgSize)
    .ok (s.goto p (Code.suppAlloc e ++ Code.frameObtain e .failLoad ++ code))
  | .link =>
    .ok (s.setTask p { s.tasks p with
      mode := .kernel code, relations := (s.tasks p).relations + 1 })
  | .unlink =>
    .ok (s.setTask p { s.tasks p with
      mode := .kernel code, relations := (s.tasks p).relations - 1 })
  | .spawn exe => .ok ((s.spawn p exe).goto p code)
  | .resize file length =>
    .ok { s.goto p code with fileLength := update s.fileLength file length }
  | .panic => .error .panicked
  | .powerOff => .error .poweredOff
  | .processExit => .ok (s.goto p (s.exitCode p))
  | .releaseAll =>
    match s.locks.acquired p with
    | [] => .ok (s.goto p code)
    | l :: _ => s.withLocks (s.locks.release p l)
  | .die => .ok (s.enter p .dead)

-- A process in the kernel. While it looks for a frame and the table is full, a page that
-- has no file goes to swap.
def execKernel (s : TaskTable) (p : TaskRef) (code : List Instr) (choice : TaskChoice) :
    Except TaskFault TaskTable :=
  match choice, code with
  | .go _ _, [] => .ok (s.enter p .outside)
  | .go frame room, i :: code => s.perform p frame room code i
  | .evict tid page, i :: _ =>
    if i.isFetch && s.table.entries.any fun e =>
        e.tid = tid && e.upage = page && e.location = .unmapped then
      .ok { s with swapped := (tid, page) :: s.swapped }
    else .error .disabled
  | _, _ => .error .disabled

def execOutside (s : TaskTable) (p : TaskRef) (choice : TaskChoice) :
    Except TaskFault TaskTable :=
  match choice with
  | .runTask launch polls =>
    if p = 0 then .ok (s.goto p (Code.processExecute p 0 { launch with copied := 0, named := 0 } ++
      Code.processWait p polls))
    else .error .disabled
  | .syscall esp call =>
    if p = 0 then .error .disabled else .ok (s.goto p (Code.syscallHandler p esp call))
  | .fault addr write esp =>
    if p = 0 ∨ isUserVaddr addr ∧ !s.faults p addr write then .error .disabled
    else if addr < pgSize ∨ !isUserVaddr addr then .ok (s.goto p [.processExit])
    else .ok (s.goto p (Code.pageFault addr write esp))
  | .exception => if p = 0 then .error .disabled else .ok (s.goto p [.processExit])
  | _ => .error .disabled

def exec (s : TaskTable) (p : TaskRef) (choice : TaskChoice) : Except TaskFault TaskTable :=
  match (s.tasks p).mode with
  | .kernel code => s.execKernel p code choice
  | .outside => s.execOutside p choice
  | .absent | .dead => .error .disabled

def boot (fileLength : FileRef → Nat) : TaskTable where
  tasks p := ⟨if p = 0 then .outside else .absent, ⟨if p = 0 then 1 else 0, 0⟩, 0, false, 0⟩
  locks := .unheld
  table := SpTable.pageSuppInit
  present _ _ := none
  swapped := []
  fileLength := fileLength
  nextTask := 1
  nextTid := 3

def system : System TaskTable (TaskRef × TaskChoice) where
  init s := ∃ fileLength, s = boot fileLength
  step s a s' := s.exec a.1 a.2 = .ok s'

end TaskTable

end Pintos.Userprog
