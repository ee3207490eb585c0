import Mathlib.Tactic.Simps.Basic
import Pintos.Lib.Mutex
import Pintos.Lib.TransitionSystem

namespace Pintos.Userprog

open Function Lib

-- A process is named by the page of its `struct thread`, a `struct relation` by its
-- address. Pages and records that were freed are not handed out again here: what
-- matters is who still uses them.
abbrev ProcRef := Nat
abbrev RelRef := Nat

def tidError : Int := -1

inductive ProcStatus
  | running
  | exited
  | loading
deriving DecidableEq

-- `statusLock` is the process whose children_lock the record points to.
structure Relation where
  cId : Int
  pStatus : ProcStatus
  cStatus : ProcStatus
  wStatus : Int
  statusLock : ProcRef
deriving DecidableEq

namespace Relation

@[simps] def setCId (tid : Int) (x : Relation) : Relation := { x with cId := tid }
@[simps] def setPStatus (st : ProcStatus) (x : Relation) : Relation := { x with pStatus := st }
@[simps] def setCStatus (st : ProcStatus) (x : Relation) : Relation := { x with cStatus := st }
@[simps] def setWStatus (st : Int) (x : Relation) : Relation := { x with wStatus := st }

attribute [grind =] setCId setPStatus setCStatus setWStatus

end Relation

inductive Section
  | announce (success : Bool)
  | poll (rel : RelRef) (tid : Int)
  | watch (rel : RelRef) (tid : Int)
  | cutTies
  | orphan (rel : RelRef)
deriving DecidableEq

inductive Event
  | executed (rel : Option RelRef) (tid : Int)
  | waited (tid status : Int)
deriving DecidableEq

inductive After
  | returning (event : Event)
  | orphaning
  | untied
deriving DecidableEq

inductive Next
  | user
  | exiting
  | poll (rel : RelRef) (tid : Int)
  | watch (rel : RelRef) (tid : Int)
  | done (after : After)
  | free (rel : RelRef) (after : After)
deriving DecidableEq

-- Where a process is. In `leaving` it has given up the ownership of a lock and not yet
-- let others in.
inductive Pc
  | absent
  | user
  | creating (rel : RelRef)
  | created (rel : RelRef) (tid : Int)
  | loading
  | searching (tid : Int) (rest : List RelRef)
  | entering (sec : Section)
  | inside (lock : ProcRef) (sec : Section)
  | leaving (lock : ProcRef) (next : Next)
  | freeing (rel : RelRef) (after : After)
  | returning (event : Event)
  | exiting
  | untied
  | orphaning
  | closing
  | dead
deriving DecidableEq

def After.pc : After → Pc
  | .returning event => .returning event
  | .orphaning => .orphaning
  | .untied => .untied

def Next.pc : Next → Pc
  | .user => .user
  | .exiting => .exiting
  | .poll r tid => .entering (.poll r tid)
  | .watch r tid => .entering (.watch r tid)
  | .done after => after.pc
  | .free r after => .freeing r after

structure Process where
  pc : Pc
  tid : Int
  parentInR : Option RelRef
  childrenInR : List RelRef
deriving DecidableEq

-- What the process in question does next, where the code leaves a choice: the system
-- call it makes, whether memory is found, whether the executable loads.
inductive Choice
  | go
  | execute (junk : Int)
  | noPage
  | wait (tid : Int)
  | exit (status : Int)
  | kill
  | die
  | create
  | noThread
  | load (success : Bool)
deriving DecidableEq

inductive ProcFault
  | disabled
  | useAfterFree
  | destroyedLock
deriving DecidableEq

-- The last four fields are for no use by the code: the process created for a record, the
-- outcome of its load, the status a process ended with, and the calls that returned.
-- A run creates fewer than 2 ^ 31 threads: next_tid does not overflow.
structure ProcTable where
  procs : ProcRef → Process
  rels : RelRef → Relation
  freed : RelRef → Nat
  locks : ProcRef → Mutex ProcRef
  nextProc : ProcRef
  nextRel : RelRef
  nextTid : Int
  child : RelRef → Option ProcRef
  loaded : RelRef → Option Bool
  ended : ProcRef → Option Int
  log : ProcRef → List Event

namespace ProcTable

@[simps] def setProc (s : ProcTable) (p : ProcRef) (x : Process) : ProcTable :=
  { s with procs := update s.procs p x }

@[simps] def setRel (s : ProcTable) (r : RelRef) (x : Relation) : ProcTable :=
  { s with rels := update s.rels r x }

@[simps] def setLock (s : ProcTable) (q : ProcRef) (m : Mutex ProcRef) : ProcTable :=
  { s with locks := update s.locks q m }

def goto (s : ProcTable) (p : ProcRef) (pc : Pc) : ProcTable :=
  s.setProc p { s.procs p with pc := pc }

def unlink (s : ProcTable) (p : ProcRef) (r : RelRef) : ProcTable :=
  s.setProc p { s.procs p with childrenInR := (s.procs p).childrenInR.erase r }

@[simps] def finish (s : ProcTable) (p : ProcRef) (status : Int) : ProcTable :=
  { s with ended := update s.ended p (some status) }

@[simps] def setLoaded (s : ProcTable) (r : RelRef) (success : Bool) : ProcTable :=
  { s with loaded := update s.loaded r (some success) }

@[simps] def countFree (s : ProcTable) (r : RelRef) : ProcTable :=
  { s with freed := update s.freed r (s.freed r + 1) }

@[simps] def record (s : ProcTable) (p : ProcRef) (event : Event) : ProcTable :=
  { s with log := update s.log p (s.log p ++ [event]) }

def enabled {α : Type} : Option α → Except ProcFault α
  | some a => .ok a
  | none => .error .disabled

def read (s : ProcTable) (r : RelRef) : Except ProcFault Relation :=
  if s.freed r = 0 then .ok (s.rels r) else .error .useAfterFree

def useLock (s : ProcTable) (q : ProcRef) (f : Mutex ProcRef → Option (Mutex ProcRef)) :
    Except ProcFault ProcTable :=
  if (s.procs q).pc = .dead then .error .destroyedLock
  else do return s.setLock q (← enabled (f (s.locks q)))

def allocate (s : ProcTable) (p : ProcRef) (junk : Int) : ProcTable :=
  { (s.setRel s.nextRel ⟨junk, .running, .loading, -1, p⟩).setProc p
      { s.procs p with
        childrenInR := (s.procs p).childrenInR ++ [s.nextRel]
        pc := .creating s.nextRel } with
    nextRel := s.nextRel + 1
    freed := update s.freed s.nextRel 0
    loaded := update s.loaded s.nextRel none }

-- start_process stores its relation in parent_in_r before anything else.
def threadCreate (s : ProcTable) (p : ProcRef) (r : RelRef) : ProcTable :=
  { (s.setProc s.nextProc ⟨.loading, s.nextTid, some r, []⟩).goto p (.created r s.nextTid) with
    nextProc := s.nextProc + 1
    nextTid := s.nextTid + 1
    child := update s.child r (some s.nextProc)
    ended := update s.ended s.nextProc none }

def relOf (x : Process) : Section → Option RelRef
  | .announce _ | .cutTies => x.parentInR
  | .poll r _ | .watch r _ | .orphan r => some r

def critical (s : ProcTable) (p : ProcRef) (r : RelRef) (x : Relation) :
    Section → ProcTable × Next
  | .announce true => (s.setRel r (x.setCStatus .running), .user)
  | .announce false => (s.setRel r ((x.setCStatus .exited).setCId tidError), .exiting)
  | .poll _ tid =>
    if x.cStatus = .loading then (s, .poll r tid)
    else if x.cStatus = .exited then (s, .done (.returning (.executed (some r) x.cId)))
    else (s, .done (.returning (.executed (some r) tid)))
  | .watch _ tid =>
    if x.cStatus = .running then (s, .watch r tid)
    else (s.unlink p r, .free r (.returning (.waited tid x.wStatus)))
  | .cutTies =>
    (s.setRel r (x.setCStatus .exited),
      if x.pStatus = .exited then .free r .untied else .done .untied)
  | .orphan _ =>
    ((s.setRel r (x.setPStatus .exited)).unlink p r,
      if x.cStatus = .exited then .free r .orphaning else .done .orphaning)

def exec (s : ProcTable) (p : ProcRef) (choice : Choice) : Except ProcFault ProcTable :=
  match (s.procs p).pc, choice with
  | .user, .execute junk => .ok (s.allocate p junk)
  | .user, .noPage => .ok (s.goto p (.returning (.executed none tidError)))
  -- process_wait: run_task calls it with what process_execute returned, syscall_wait with
  -- any tid but TID_ERROR
  | .user, .wait tid => .ok (s.goto p (.searching tid (s.procs p).childrenInR))
  | .user, .exit status => do
      let r ← enabled (s.procs p).parentInR
      let x ← s.read r
      return ((s.setRel r (x.setWStatus status)).finish p status).goto p .exiting
  | .user, .kill => do
      let r ← enabled (s.procs p).parentInR
      let x ← s.read r
      return ((s.setRel r (x.setWStatus (-1))).finish p (-1)).goto p .exiting
  -- thread_exit without a status, as frame_fetch calls it
  | .user, .die => do
      let _ ← enabled (s.procs p).parentInR
      return (s.finish p (-1)).goto p .exiting
  | .creating r, .create => .ok (s.threadCreate p r)
  | .creating r, .noThread => .ok (s.goto p (.created r tidError))
  | .created r tid, .go => do
      let x ← s.read r
      return (s.setRel r (x.setCId tid)).goto p (.entering (.poll r tid))
  | .loading, .load success => do
      let r ← enabled (s.procs p).parentInR
      return (s.setLoaded r success).goto p (.entering (.announce success))
  | .entering sec, .go => do
      let x ← s.read (← enabled (relOf (s.procs p) sec))
      let s ← s.useLock x.statusLock (Mutex.acquire p)
      return s.goto p (.inside x.statusLock sec)
  | .inside _ sec, .go => do
      let r ← enabled (relOf (s.procs p) sec)
      let x ← s.read r
      let (s, next) := s.critical p r x sec
      let s ← s.useLock x.statusLock (Mutex.clear p)
      return s.goto p (.leaving x.statusLock next)
  | .leaving q next, .go => do
      let s ← s.useLock q (Mutex.raise p)
      return s.goto p next.pc
  | .searching tid [], .go => .ok (s.goto p (.returning (.waited tid (-1))))
  | .searching tid (r :: rest), .go => do
      let x ← s.read r
      if x.cId = tid then return s.goto p (.entering (.watch r tid))
      else return s.goto p (.searching tid rest)
  | .freeing r after, .go => do
      let _ ← s.read r
      return (s.countFree r).goto p after.pc
  | .returning event, .go => .ok ((s.record p event).goto p .user)
  -- the exit message prints w_status
  | .exiting, .go => do
      let _ ← s.read (← enabled (s.procs p).parentInR)
      return s.goto p (.entering .cutTies)
  | .untied, .go => .ok (s.goto p .orphaning)
  | .orphaning, .go =>
    match (s.procs p).childrenInR with
    | [] => .ok (s.goto p .closing)
    | r :: _ => .ok (s.goto p (.entering (.orphan r)))
  | .closing, .go => .ok (s.goto p .dead)
  | _, _ => .error .disabled

def boot : ProcTable where
  procs p := ⟨if p = 0 then .user else .absent, if p = 0 then 1 else 0, none, []⟩
  rels _ := ⟨0, .running, .loading, -1, 0⟩
  freed _ := 0
  locks _ := .free
  nextProc := 1
  nextRel := 0
  nextTid := 3
  child _ := none
  loaded _ := none
  ended _ := none
  log _ := []

def system : System ProcTable (ProcRef × Choice) where
  init s := s = boot
  step s a s' := s.exec a.1 a.2 = .ok s'

end ProcTable

end Pintos.Userprog
