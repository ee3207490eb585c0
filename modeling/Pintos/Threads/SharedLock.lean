import Mathlib.Data.List.Perm.Basic
import Pintos.Lib.Mutex
import Pintos.Lib.TransitionSystem
import Pintos.Threads.Kernel

namespace Pintos.Threads

open Lib (Mutex Phase)

inductive Mode
  | exclusive
  | shared
deriving DecidableEq

inductive SharedCall
  | acquire (mode : Mode)
  | release (mode : Mode)
deriving DecidableEq

-- The places of a thread that uses a shared lock. Between two of them it touches
-- `i`, the list of waiters, the inner lock or one semaphore once.
inductive SharedPc
  | client
  -- in the first lock_acquire of a call
  | locking (call : SharedCall)
  -- at the condition of the while loop
  | testing (mode : Mode)
  -- after the loop, before the assignment to i
  | granting (mode : Mode)
  -- a release call that has the inner lock, before its assignment to i
  | releasing (mode : Mode)
  -- in cond_wait, before the insertion into the list of waiters
  | queueing (mode : Mode)
  -- in cond_signal; `loop` tells whether cond_broadcast called it
  | signalling (loop : Bool)
  | broadcasting
  -- cond_signal has popped the semaphore of `w` and not yet raised it
  | raising (w : ThreadRef) (loop : Bool)
  -- at the start of lock_release, in cond_wait if there is a mode
  | unlocking (wait : Option Mode)
  -- lock_release has cleared the holder and not yet called sema_up
  | unlocked (wait : Option Mode)
  -- in cond_wait, in its sema_down
  | waiting (mode : Mode)
  -- in cond_wait, in its lock_acquire
  | relocking (mode : Mode)
deriving DecidableEq

def Mode.mustWait : Mode → Int → Bool
  | .exclusive, i => i ≠ 0
  | .shared, i => i < 0

def SharedCall.body : SharedCall → SharedPc
  | .acquire mode => .testing mode
  | .release mode => .releasing mode

namespace SharedPc

def afterSignal (loop : Bool) : SharedPc := if loop then .broadcasting else .unlocking none

def afterUnlock : Option Mode → SharedPc
  | none => .client
  | some mode => .waiting mode

def phase : SharedPc → Phase
  | .client | .locking _ | .waiting _ | .relocking _ => .outside
  | .unlocked _ => .leaving
  | _ => .inside

def waits : SharedPc → Option Mode
  | .unlocking wait | .unlocked wait => wait
  | .waiting mode => some mode
  | _ => none

end SharedPc

-- A shared lock and the threads that use it. The inner lock is a mutex, as
-- Interleaved.exclusive_of_reachable says of the locks of the kernel. `value` is the private semaphore that a
-- thread in cond_wait waits for. `owners` and `sharers` record, for no use by the
-- code, who has set `i` to -1 or counted itself in it and has not yet undone that.
structure SharedLock where
  slock : Mutex ThreadRef
  waiters : List ThreadRef
  i : Int
  value : ThreadRef → Nat
  pc : ThreadRef → SharedPc
  owners : List ThreadRef
  sharers : List ThreadRef

inductive SharedAct
  | call (t : ThreadRef) (call : SharedCall)
  | go (t : ThreadRef)
  -- the list operation of the thread leaves the waiters in this order
  | order (t : ThreadRef) (order : List ThreadRef)
deriving DecidableEq

namespace SharedLock

@[simps] def goto (s : SharedLock) (t : ThreadRef) (pc : SharedPc) : SharedLock :=
  { s with pc := Function.update s.pc t pc }

@[simps] def setSlock (s : SharedLock) (m : Mutex ThreadRef) : SharedLock := { s with slock := m }

@[simps] def setWaiters (s : SharedLock) (waiters : List ThreadRef) : SharedLock :=
  { s with waiters := waiters }

@[simps] def setValue (s : SharedLock) (t : ThreadRef) (n : Nat) : SharedLock :=
  { s with value := Function.update s.value t n }

@[simps] def setExclusive (s : SharedLock) (i : Int) (owners : List ThreadRef) : SharedLock :=
  { s with i := i, owners := owners }

@[simps] def setShared (s : SharedLock) (i : Int) (sharers : List ThreadRef) : SharedLock :=
  { s with i := i, sharers := sharers }

def slockInit : SharedLock := ⟨.free, [], 0, fun _ => 0, fun _ => .client, [], []⟩

def intMax : Int := 2147483647

-- Each thread releases only in a mode that it acquired.
def mayCall (s : SharedLock) (t : ThreadRef) : SharedCall → Bool
  | .acquire _ => true
  | .release .exclusive => t ∈ s.owners
  | .release .shared => t ∈ s.sharers

def goStep (s : SharedLock) (t : ThreadRef) : Option SharedLock :=
  match s.pc t with
  | .locking call => do
      let m ← s.slock.acquire t
      return (s.setSlock m).goto t call.body
  | .testing mode =>
    some (s.goto t (if mode.mustWait s.i then .queueing mode else .granting mode))
  | .granting .exclusive => some ((s.setExclusive (-1) (t :: s.owners)).goto t (.unlocking none))
  -- past INT_MAX the increment is undefined, so no run goes on from there
  | .granting .shared =>
    if s.i < intMax then
      some ((s.setShared (s.i + 1) (t :: s.sharers)).goto t (.unlocking none))
    else none
  | .releasing .exclusive => some ((s.setExclusive 0 (s.owners.erase t)).goto t .broadcasting)
  | .releasing .shared =>
    let i := s.i - 1
    some ((s.setShared i (s.sharers.erase t)).goto t
      (if i = 0 then .signalling false else .unlocking none))
  | .broadcasting =>
    some (s.goto t (if s.waiters = [] then .unlocking none else .signalling true))
  | .raising w loop => some ((s.setValue w (s.value w + 1)).goto t (.afterSignal loop))
  | .unlocking wait => do
      let m ← s.slock.clear t
      return (s.setSlock m).goto t (.unlocked wait)
  | .unlocked wait => do
      let m ← s.slock.raise t
      return (s.setSlock m).goto t (.afterUnlock wait)
  | .waiting mode =>
    if s.value t = 0 then none
    else some ((s.setValue t (s.value t - 1)).goto t (.relocking mode))
  | .relocking mode => do
      let m ← s.slock.acquire t
      return (s.setSlock m).goto t (.testing mode)
  | .client | .queueing _ | .signalling _ => none

-- As for a condition variable, only which semaphores the list holds is relied on.
def orderStep (s : SharedLock) (t : ThreadRef) (order : List ThreadRef) : Option SharedLock :=
  match s.pc t with
  | .queueing mode =>
    if order.Perm (t :: s.waiters) then
      some (((s.setValue t 0).setWaiters order).goto t (.unlocking (some mode)))
    else none
  | .signalling loop =>
    if order.Perm s.waiters then
      match order with
      | [] => some (s.goto t (.afterSignal loop))
      | w :: rest => some ((s.setWaiters rest).goto t (.raising w loop))
    else none
  | _ => none

def exec (s : SharedLock) : SharedAct → Option SharedLock
  | .call t call =>
    if s.pc t = .client ∧ s.mayCall t call then some (s.goto t (.locking call)) else none
  | .go t => s.goStep t
  | .order t order => s.orderStep t order

def system : Lib.System SharedLock SharedAct := .ofExec slockInit exec

end SharedLock

end Pintos.Threads
