import Pintos.Lib.Except
import Pintos.Lib.TransitionSystem
import Pintos.Threads.Kernel

namespace Pintos.Devices

open Function

open Threads (ThreadRef)

def intqBufsize : Nat := 64

inductive IntqCall
  | getc
  | putc (byte : UInt8)
deriving DecidableEq

inductive IntqSide
  | notEmpty
  | notFull
deriving DecidableEq

def IntqCall.side : IntqCall → IntqSide
  | .getc => .notEmpty
  | .putc _ => .notFull

inductive IntqPc
  -- not blocked in a call
  | outside
  -- blocked in the list of q->lock
  | locking (call : IntqCall)
  -- unblocked by lock_release, and not yet run
  | relocking (call : IntqCall)
  -- blocked by wait, which it called with q->lock held
  | waiting (call : IntqCall)
  -- unblocked by signal, and not yet run
  | woken (call : IntqCall)
deriving DecidableEq

def IntqPc.holds : IntqPc → Bool
  | .waiting _ | .woken _ => true
  | _ => false

def IntqPc.unblocked : IntqPc → Bool
  | .relocking _ | .woken _ => true
  | _ => false

inductive IntqFault
  | assertion
deriving DecidableEq

-- An interrupt queue with the threads that use it. q->lock is known by its holder; its
-- semaphore has the value 1 just if there is none.
structure Intq where
  lock : Option ThreadRef
  lockWaiters : List ThreadRef
  waiter : IntqSide → Option ThreadRef
  buf : Nat → UInt8
  head : Nat
  tail : Nat
  pc : ThreadRef → IntqPc

inductive IntqAct
  | call (t : ThreadRef) (call : IntqCall)
  -- a thread that was unblocked runs on; priorities decide which of the threads that wait for
  -- q->lock a sema_up unblocks
  | resume (t : ThreadRef) (pick : Nat)
  -- an interrupt handler's call
  | interrupt (call : IntqCall)
deriving DecidableEq

namespace Intq

def next (pos : Nat) : Nat := (pos + 1) % intqBufsize

def assert (b : Bool) : Except IntqFault Unit := if b then .ok () else .error .assertion

def intqEmpty (q : Intq) : Bool := q.head = q.tail

def intqFull (q : Intq) : Bool := next q.head = q.tail

def awaits (q : Intq) : IntqSide → Bool
  | .notEmpty => q.intqEmpty
  | .notFull => q.intqFull

@[simps] def goto (q : Intq) (t : ThreadRef) (pc : IntqPc) : Intq :=
  { q with pc := update q.pc t pc }

@[simps] def setLock (q : Intq) (t : Option ThreadRef) : Intq := { q with lock := t }

@[simps] def setWaiter (q : Intq) (side : IntqSide) (t : Option ThreadRef) : Intq :=
  { q with waiter := update q.waiter side t }

@[simps] def enqueue (q : Intq) (t : ThreadRef) (call : IntqCall) : Intq :=
  { q with lockWaiters := t :: q.lockWaiters, pc := update q.pc t (.locking call) }

def wait (q : Intq) (t : ThreadRef) (call : IntqCall) : Except IntqFault Intq := do
  assert (q.awaits call.side)
  return (q.setWaiter call.side (some t)).goto t (.waiting call)

-- thread_unblock wants a blocked thread.
def signal (q : Intq) (side : IntqSide) : Except IntqFault Intq := do
  assert (!q.awaits side)
  match q.waiter side with
  | none => return q
  | some w =>
    match q.pc w with
    | .waiting call => return (q.goto w (.woken call)).setWaiter side none
    | _ => .error .assertion

-- intq_getc and intq_putc after their loops; the byte is what intq_getc returns.
def transfer (q : Intq) : IntqCall → Except IntqFault (Intq × Option UInt8)
  | .getc => do
      let q' ← { q with tail := next q.tail }.signal .notFull
      return (q', some (q.buf q.tail))
  | .putc byte => do
      let q' ← { q with buf := update q.buf q.head byte, head := next q.head }.signal
        .notEmpty
      return (q', none)

-- sema_down of lock_acquire and the wait that follows it.
def lockDown (q : Intq) (t : ThreadRef) (call : IntqCall) : Except IntqFault Intq :=
  if q.lock = none then (q.setLock (some t)).wait t call else .ok (q.enqueue t call)

def lockAcquire (q : Intq) (t : ThreadRef) (call : IntqCall) : Except IntqFault Intq := do
  assert (q.lock ≠ some t)
  q.lockDown t call

def lockRelease (q : Intq) (t : ThreadRef) (pick : Nat) : Except IntqFault Intq := do
  assert (q.lock = some t)
  let q := q.setLock none
  match q.lockWaiters[pick]? with
  | none => return q
  | some w =>
    let q := { q with lockWaiters := q.lockWaiters.eraseIdx pick }
    match q.pc w with
    | .locking call => return q.goto w (.relocking call)
    | _ => .error .assertion

-- intq_getc and intq_putc from the condition of their loops, up to the point where the
-- thread blocks or the call returns.
def loop (q : Intq) (t : ThreadRef) (call : IntqCall) : Except IntqFault (Intq × Option UInt8) :=
  if q.awaits call.side then do
    let q ← q.lockAcquire t call
    return (q, none)
  else q.transfer call

def exec (q : Intq) : IntqAct → Except IntqFault (Intq × Option UInt8)
  | .call t call => q.loop t call
  | .resume t pick =>
    match q.pc t with
    | .woken call => do
        let q ← (q.goto t .outside).lockRelease t pick
        q.loop t call
    | .relocking call => do
        let q ← (q.goto t .outside).lockDown t call
        return (q, none)
    | _ => .error .assertion
  | .interrupt call => do
      assert (!q.awaits call.side)
      q.transfer call

-- A thread makes one call at a time. Interrupt handlers do not call where they would wait.
def Enabled (q : Intq) : IntqAct → Prop
  | .call t _ => q.pc t = .outside
  | .resume t pick =>
    (q.pc t).unblocked = true ∧ (q.lockWaiters = [] ∨ pick < q.lockWaiters.length)
  | .interrupt call => q.awaits call.side = false

instance (q : Intq) : DecidablePred q.Enabled
  | .call _ _ => inferInstanceAs (Decidable (_ = _))
  | .resume _ _ => inferInstanceAs (Decidable (_ ∧ _))
  | .interrupt _ => inferInstanceAs (Decidable (_ = _))

def intqInit : Intq :=
  ⟨none, [], fun _ => none, fun _ => 0, 0, 0, fun _ => .outside⟩

def step (q : Intq) (act : IntqAct) : Option Intq :=
  if q.Enabled act then (q.exec act).toOption.map Prod.fst else none

def system : Lib.System Intq IntqAct := .ofExec intqInit step

end Intq

end Pintos.Devices
