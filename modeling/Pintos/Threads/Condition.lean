import Mathlib.Data.List.Perm.Basic
import Pintos.Lib.Mutex
import Pintos.Lib.TransitionSystem
import Pintos.Threads.Kernel

namespace Pintos.Threads

open Function

open Lib (Mutex Phase)

inductive CondCall
  | lockRelease
  | condWait
  | condSignal
  | condBroadcast
deriving DecidableEq

inductive CondPc
  | client
  -- has the lock, between two calls
  | holding
  -- in cond_wait, before the insertion into the list of waiters
  | queueing
  -- at the start of lock_release, which cond_wait calls if `wait` is set
  | unlocking (wait : Bool)
  -- lock_release has cleared the holder and not yet called sema_up
  | unlocked (wait : Bool)
  -- in cond_wait, at the condition of the loop of sema_down
  | testing
  -- in cond_wait, blocked in its own semaphore's list
  | asleep
  -- in cond_wait, in its lock_acquire
  | relocking
  -- in cond_signal; `loop` tells whether cond_broadcast called it
  | signalling (loop : Bool)
  | broadcasting
  -- cond_signal has popped the semaphore of `w` and not yet raised it
  | raising (w : ThreadRef) (loop : Bool)
  -- sema_up has raised the semaphore of `w`, seen that `w` is in its list and
  -- allowed interrupts again, and has not yet taken `w` from the list
  | waking (w : ThreadRef) (loop : Bool)
deriving DecidableEq

namespace CondPc

def afterSignal (loop : Bool) : CondPc := if loop then .broadcasting else .holding

def afterUnlock (wait : Bool) : CondPc := if wait then .testing else .client

def phase : CondPc → Phase
  | .client | .testing | .asleep | .relocking => .outside
  | .unlocked _ => .leaving
  | _ => .inside

def waits : CondPc → Bool
  | .unlocking wait | .unlocked wait => wait
  | .testing | .asleep => true
  | _ => false

end CondPc

-- A condition variable, its lock and the threads that use them. A thread stands
-- in `waiters` for the semaphore of its current cond_wait, and `value` is that
-- semaphore's. The other fields are for no use by the code. `removed` and `raised`
-- count what happened to the semaphore of the latest cond_wait of each thread,
-- `batch` has the waiters at the start of its latest cond_broadcast and
-- `released` those which that broadcast has popped.
structure Condition where
  lock : Mutex ThreadRef
  waiters : List ThreadRef
  value : ThreadRef → Nat
  pc : ThreadRef → CondPc
  removed : ThreadRef → Nat
  raised : ThreadRef → Nat
  batch : ThreadRef → List ThreadRef
  released : ThreadRef → List ThreadRef

inductive CondAct
  | lockAcquire (t : ThreadRef)
  | call (t : ThreadRef) (call : CondCall)
  | go (t : ThreadRef)
  -- the list operation of the thread leaves the waiters in this order
  | order (t : ThreadRef) (order : List ThreadRef)
deriving DecidableEq

def CondAct.thread : CondAct → ThreadRef
  | .lockAcquire t | .call t _ | .go t | .order t _ => t

namespace Condition

@[simps] def goto (s : Condition) (t : ThreadRef) (pc : CondPc) : Condition :=
  { s with pc := update s.pc t pc }

@[simps] def setLock (s : Condition) (m : Mutex ThreadRef) : Condition := { s with lock := m }

@[simps] def file (s : Condition) (t : ThreadRef) (order : List ThreadRef) : Condition :=
  { s with
    waiters := order
    value := update s.value t 0
    removed := update s.removed t 0
    raised := update s.raised t 0 }

@[simps] def take (s : Condition) (t w : ThreadRef) (rest : List ThreadRef) : Condition :=
  { s with
    waiters := rest
    removed := update s.removed w (s.removed w + 1)
    released := update s.released t (w :: s.released t) }

@[simps] def raise (s : Condition) (w : ThreadRef) : Condition :=
  { s with
    value := update s.value w (s.value w + 1)
    raised := update s.raised w (s.raised w + 1) }

@[simps] def lower (s : Condition) (t : ThreadRef) : Condition :=
  { s with value := update s.value t (s.value t - 1) }

@[simps] def openBatch (s : Condition) (t : ThreadRef) : Condition :=
  { s with
    batch := update s.batch t s.waiters
    released := update s.released t [] }

def condInit : Condition :=
  ⟨.free, [], fun _ => 0, fun _ => .client, fun _ => 0, fun _ => 0, fun _ => [], fun _ => []⟩

-- All four calls need the lock: lock_release, cond_wait and cond_signal assert it,
-- and cond_broadcast does so through cond_signal.
def callStep (s : Condition) (t : ThreadRef) : CondCall → Condition
  | .lockRelease => s.goto t (.unlocking false)
  | .condWait => s.goto t .queueing
  | .condSignal => s.goto t (.signalling false)
  | .condBroadcast => (s.openBatch t).goto t .broadcasting

def goStep (s : Condition) (t : ThreadRef) : Option Condition :=
  match s.pc t with
  | .unlocking wait => do
      let m ← s.lock.clear t
      return (s.setLock m).goto t (.unlocked wait)
  | .unlocked wait => do
      let m ← s.lock.raise t
      return (s.setLock m).goto t (.afterUnlock wait)
  | .testing =>
    if s.value t = 0 then some (s.goto t .asleep)
    else some ((s.lower t).goto t .relocking)
  | .relocking => do
      let m ← s.lock.acquire t
      return (s.setLock m).goto t .holding
  | .broadcasting =>
    some (s.goto t (if s.waiters = [] then .holding else .signalling true))
  | .raising w loop =>
    some ((s.raise w).goto t (if s.pc w = .asleep then .waking w loop else .afterSignal loop))
  -- list_pop_front does not accept an empty list
  | .waking w loop =>
    if s.pc w = .asleep then some ((s.goto w .testing).goto t (.afterSignal loop)) else none
  | .client | .holding | .queueing | .asleep | .signalling _ => none

-- cond_cmp compares the threads at the front of two semaphores' lists also when
-- these are still empty, and priorities change while the list is sorted. All that
-- list_insert_ordered and cond_sort_priority are relied on for is which semaphores
-- the list holds.
def orderStep (s : Condition) (t : ThreadRef) (order : List ThreadRef) : Option Condition :=
  match s.pc t with
  | .queueing =>
    if order.Perm (t :: s.waiters) then some ((s.file t order).goto t (.unlocking true))
    else none
  | .signalling loop =>
    if order.Perm s.waiters then
      match order with
      | [] => some (s.goto t (.afterSignal loop))
      | w :: rest => some ((s.take t w rest).goto t (.raising w loop))
    else none
  | _ => none

def exec (s : Condition) : CondAct → Option Condition
  | .lockAcquire t =>
    if s.pc t = .client then do
      let m ← s.lock.acquire t
      return (s.setLock m).goto t .holding
    else none
  | .call t call => if s.pc t = .holding then some (s.callStep t call) else none
  | .go t => s.goStep t
  | .order t order => s.orderStep t order

def system : Lib.System Condition CondAct := .ofExec condInit exec

end Condition

end Pintos.Threads
