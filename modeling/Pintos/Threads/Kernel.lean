import Mathlib.Algebra.Group.Int.Defs
import Mathlib.Algebra.Group.Nat.Defs
import Mathlib.Data.Int.Basic
import Mathlib.Data.List.Sort

namespace Pintos.Threads

-- fixed-point.h: an `fp` is an int32_t with 14 fraction bits. Values are kept
-- as integers and brought back into the 32-bit range where C stores them.
abbrev Fp := Int

def fConv : Int := 2 ^ 14

def int32 (x : Int) : Int := Int.bmod x (2 ^ 32)

def convItofp (n : Int) : Fp := int32 (n * fConv)

def rnconvFptoi (x : Fp) : Int :=
  if x ≥ 0 then Int.tdiv (int32 (x + fConv / 2)) fConv else Int.tdiv (int32 (x - fConv / 2)) fConv

def rzconvFptoi (x : Fp) : Int := Int.tdiv x fConv

def addFpfp (x y : Fp) : Fp := int32 (x + y)
def addFpn (x : Fp) (n : Int) : Fp := addFpfp x (convItofp n)
def subFpfp (x y : Fp) : Fp := int32 (x - y)
def subFpn (x : Fp) (n : Int) : Fp := subFpfp x (convItofp n)

-- The product of two 32-bit values fits the 64-bit intermediate.
def multFpfp (x y : Fp) : Fp := int32 (Int.tdiv (x * y) fConv)
def multFpn (x : Fp) (n : Int) : Fp := multFpfp x (convItofp n)

-- Division by zero raises a divide error, which no kernel handler survives.
def divFpfp (x y : Fp) : Option Fp :=
  if y = 0 then none else some (int32 (Int.tdiv (x * fConv) y))
def divFpn (x : Fp) (n : Int) : Option Fp := divFpfp x (convItofp n)

-- The address of the page that holds a `struct thread`. A page that was freed
-- can be handed out again, so equal addresses need not mean the same thread.
abbrev ThreadRef := Nat

inductive LockRef
  | tidLock
  | poolLock
  | user (n : Nat)
deriving DecidableEq

inductive SemaRef
  | ofLock (lock : LockRef)
  | idleStarted
  | waiter (t : ThreadRef)
  | user (n : Nat)
deriving DecidableEq

inductive ListRef
  | ready
  | sleeping
  | waiters (sema : SemaRef)
deriving DecidableEq

inductive ThreadStatus
  | running
  | ready
  | blocked
  | dying
deriving DecidableEq

inductive IntrLevel
  | off
  | on
deriving DecidableEq

def priMin : Int := 0
def priDefault : Int := 31
def priMax : Int := 63
def timeSlice : Nat := 4
def timerFreq : Int := 100

structure Thread where
  tid : Int
  status : ThreadStatus
  priority : Int
  originalPriority : Int
  nice : Int
  recentCpu : Fp
  start : Int
  sleep : Int
  recentlyUp : Bool
  donated : Bool
  threadPl : Option ListRef
  waitingForTlock : Option ThreadRef
  acquiredLocks : List LockRef
deriving DecidableEq

namespace Thread

@[simps] def setStatus (s : ThreadStatus) (t : Thread) : Thread := { t with status := s }
@[simps] def setPriority (p : Int) (t : Thread) : Thread := { t with priority := p }
@[simps] def setOriginalPriority (p : Int) (t : Thread) : Thread := { t with originalPriority := p }
@[simps] def setDonated (b : Bool) (t : Thread) : Thread := { t with donated := b }
@[simps] def setThreadPl (l : Option ListRef) (t : Thread) : Thread := { t with threadPl := l }
@[simps] def setWaitingForTlock (h : Option ThreadRef) (t : Thread) : Thread :=
  { t with waitingForTlock := h }
@[simps] def setAcquiredLocks (ls : List LockRef) (t : Thread) : Thread :=
  { t with acquiredLocks := ls }
@[simps] def setAlarm (start sleep : Int) (t : Thread) : Thread :=
  { t with start := start, sleep := sleep }
@[simps] def setNice (n : Int) (t : Thread) : Thread := { t with nice := n }
@[simps] def setRecentCpu (x : Fp) (t : Thread) : Thread := { t with recentCpu := x }
@[simps] def setRecentlyUp (b : Bool) (t : Thread) : Thread := { t with recentlyUp := b }
@[simps] def setTid (n : Int) (t : Thread) : Thread := { t with tid := n }

end Thread

-- Where a thread that gave up the processor goes on when it gets it back:
-- at the head of a sema_down loop, or simply out of the call.
inductive Resume
  | toCaller
  | semaDown (sema : SemaRef)
  | lockAcquire (lock : LockRef)
deriving DecidableEq

-- Why a run stops: a failed ASSERT, a read through a null pointer (a page
-- fault in kernel code, so a panic), a divide error, a read of a thread page
-- that was freed and not reused, or a lock that thread_create itself would
-- have to wait for.
inductive Fault
  | assertion
  | nullPointer
  | divideError
  | freedPage
  | wouldBlock
deriving DecidableEq

structure Kernel where
  mlfqs : Bool
  threads : ThreadRef → Thread
  live : ThreadRef → Bool
  lists : ListRef → List ThreadRef
  allList : List ThreadRef
  value : SemaRef → Nat
  holder : LockRef → Option ThreadRef
  current : ThreadRef
  idleThread : Option ThreadRef
  initialThread : ThreadRef
  resume : ThreadRef → Resume
  nextTid : Int
  ticks : Int
  threadTicks : Nat
  loadAvg : Fp
  loadAvgCoefficient : Fp

namespace Kernel

@[simps] def setThread (k : Kernel) (t : ThreadRef) (f : Thread → Thread) : Kernel :=
  { k with threads := Function.update k.threads t (f (k.threads t)) }

@[simps] def setList (k : Kernel) (list : ListRef) (elems : List ThreadRef) : Kernel :=
  { k with lists := Function.update k.lists list elems }

@[simps] def setResume (k : Kernel) (t : ThreadRef) (r : Resume) : Kernel :=
  { k with resume := Function.update k.resume t r }

@[simps] def setValue (k : Kernel) (sema : SemaRef) (n : Nat) : Kernel :=
  { k with value := Function.update k.value sema n }

@[simps] def setHolder (k : Kernel) (lock : LockRef) (t : Option ThreadRef) : Kernel :=
  { k with holder := Function.update k.holder lock t }

@[simps] def setLive (k : Kernel) (live : ThreadRef → Bool) : Kernel := { k with live := live }

@[simps] def setAllList (k : Kernel) (elems : List ThreadRef) : Kernel :=
  { k with allList := elems }

@[simps] def setNextTid (k : Kernel) (tid : Int) : Kernel := { k with nextTid := tid }

def assert (p : Prop) [Decidable p] : Except Fault Unit :=
  if p then .ok () else .error .assertion

def threadCmp (k : Kernel) (a b : ThreadRef) : Prop :=
  (k.threads a).priority > (k.threads b).priority

instance (k : Kernel) : DecidableRel k.threadCmp :=
  fun a b => inferInstanceAs (Decidable ((k.threads a).priority > (k.threads b).priority))

def listInsertOrdered (k : Kernel) (list : ListRef) (t : ThreadRef) : Kernel :=
  k.setList list ((k.lists list).orderedInsert k.threadCmp t)

def listPushBack (k : Kernel) (list : ListRef) (t : ThreadRef) : Kernel :=
  k.setList list (k.lists list ++ [t])

-- list_remove has no list argument: it unlinks the element from the list it is in.
def listRemove (k : Kernel) (t : ThreadRef) : Kernel :=
  { k with lists := fun list => (k.lists list).erase t }

def listUpdateElem (k : Kernel) (list : ListRef) (t : ThreadRef) : Kernel :=
  (k.listRemove t).listInsertOrdered list t

def threadListTopPri (k : Kernel) (list : ListRef) : Int :=
  match k.lists list with
  | [] => priMin
  | top :: _ => (k.threads top).priority

end Kernel

end Pintos.Threads
