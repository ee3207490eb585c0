import Pintos.Lib.TransitionSystem
import Pintos.Threads.Synch

namespace Pintos.Threads

open Lib

def SemaRef.isClient : SemaRef → Bool
  | .waiter _ | .user _ => true
  | .ofLock _ | .idleStarted => false

def LockRef.isClient : LockRef → Bool
  | .user _ => true
  | .tidLock | .poolLock => false

def Resume.isClient : Resume → Bool
  | .toCaller => true
  | .semaDown (.ofLock _) => false
  | .semaDown _ => true
  | .lockAcquire lock => lock.isClient

-- What the running thread can do next, each operation up to the point where it
-- switches threads. `oldLevel` is the interrupt level of the caller; device
-- interrupt handlers are the callers that have it off.
inductive Op
  | threadCreate (oldLevel : IntrLevel) (page : Option ThreadRef) (priority : Int)
  | threadBlock
  | threadUnblock (oldLevel : IntrLevel) (t : ThreadRef)
  | threadYield
  | threadExit
  | threadSetPriority (newPriority : Int)
  | threadSetNice (nice : Int)
  | timerSleep (ticks : Int)
  | timerInterrupt
  | semaInit (sema : SemaRef) (value : Nat)
  | semaDown (sema : SemaRef)
  | semaTryDown (sema : SemaRef)
  | semaUp (oldLevel : IntrLevel) (sema : SemaRef)
  | lockAcquire (lock : LockRef)
  | lockTryAcquire (lock : LockRef)
  | lockRelease (oldLevel : IntrLevel) (lock : LockRef)
  | resume
deriving DecidableEq

namespace Kernel

-- The idle thread only blocks; while it runs, interrupt handlers do as well.
def idleOp : Op → Bool
  | .threadBlock | .timerInterrupt | .threadUnblock .off _ | .semaUp .off _ => true
  | _ => false

-- The arguments an operation is called with. thread_unblock's direct callers
-- (intq.c, thread_create) name a thread that blocked by thread_block itself.
def callable (k : Kernel) : Op → Bool
  | .threadCreate _ (some t) _ => !k.live t
  | .threadUnblock _ t =>
    (k.threads t).threadPl = none && t ∉ k.lists .sleeping && some t ≠ k.idleThread
  | .semaInit sema _ => sema.isClient && k.lists (.waiters sema) = []
  | .semaDown sema | .semaTryDown sema | .semaUp _ sema => sema.isClient
  | .lockAcquire lock | .lockTryAcquire lock | .lockRelease _ lock => lock.isClient
  | _ => true

def Enabled (k : Kernel) (op : Op) : Prop :=
  (op = .resume ↔ k.resume k.current ≠ .toCaller) ∧
    (some k.current = k.idleThread → idleOp op = true) ∧ k.callable op = true

instance (k : Kernel) (op : Op) : Decidable (k.Enabled op) :=
  inferInstanceAs (Decidable (_ ∧ _ ∧ _))

def exec (k : Kernel) : Op → Except Fault Kernel
  | .threadCreate oldLevel page priority => k.threadCreate oldLevel page priority
  | .threadBlock => k.threadBlock
  | .threadUnblock oldLevel t => k.threadUnblock oldLevel t
  | .threadYield => k.threadYield
  | .threadExit => k.threadExit
  | .threadSetPriority newPriority => k.threadSetPriority newPriority
  | .threadSetNice nice => k.threadSetNice nice
  | .timerSleep ticks => k.timerSleep ticks
  | .timerInterrupt => k.timerInterrupt
  | .semaInit sema value => .ok (k.setValue sema value)
  | .semaDown sema => k.semaDown sema
  | .semaTryDown sema => .ok (k.semaTryDown sema).1
  | .semaUp oldLevel sema => k.semaUp oldLevel sema
  | .lockAcquire lock => k.lockAcquire lock
  | .lockTryAcquire lock => do return (← k.lockTryAcquire lock).1
  | .lockRelease oldLevel lock => k.lockRelease oldLevel lock
  | .resume => k.resumeCurrent

def mainThread : ThreadRef := 0
def idlePage : ThreadRef := 1

def blankThread : Thread :=
  { tid := 0, status := .dying, priority := 0, originalPriority := 0, nice := 0, recentCpu := 0
    start := 0, sleep := 0, recentlyUp := false, donated := false, threadPl := none
    waitingForTlock := none, acquiredLocks := [] }

-- Before thread_init: no thread, every lock free, client semaphores with any value.
def blank (mlfqs : Bool) (semaInit : SemaRef → Nat) : Kernel :=
  { mlfqs := mlfqs
    threads := fun _ => blankThread
    live := fun _ => false
    lists := fun _ => []
    allList := []
    value := fun sema =>
      match sema with
      | .ofLock _ => 1
      | .idleStarted => 0
      | sema => semaInit sema
    holder := fun _ => none
    current := mainThread
    idleThread := none
    initialThread := mainThread
    resume := fun _ => .toCaller
    nextTid := 1
    ticks := 0
    threadTicks := 0
    loadAvg := 0
    loadAvgCoefficient := 0 }

def threadInit (mlfqs : Bool) (semaInit : SemaRef → Nat) : Except Fault Kernel := do
  let k ← (blank mlfqs semaInit).initThread mainThread priDefault
  let k := k.setThread mainThread (.setStatus .running)
  k.allocateTid .off mainThread

-- thread_start with the idle thread's first steps: main blocks in sema_down,
-- idle names itself and ups the semaphore. Under the MLFQS idle has main's
-- priority and keeps the processor, otherwise main is switched back to.
def threadStart (k : Kernel) : Except Fault Kernel := do
  let k ← k.threadCreate .off (some idlePage) priMin
  let k ← k.semaDown .idleStarted
  let k := { k with idleThread := some k.current }
  k.semaUp .on .idleStarted

def boot (mlfqs : Bool) (semaInit : SemaRef → Nat) : Except Fault Kernel := do
  (← threadInit mlfqs semaInit).threadStart

def system (mlfqs : Bool) : System Kernel Op where
  init k := ∃ semaInit, boot mlfqs semaInit = .ok k
  step k op k' := k.Enabled op ∧ k.exec op = .ok k'

def leadsTo (mlfqs : Bool) (guard : Kernel → Op → Bool) (ops : List Op) (p : Kernel → Bool) :
    Bool :=
  match boot mlfqs fun _ => 0 with
  | .error _ => false
  | .ok k => System.leadsTo k (System.tryExec (fun k op => guard k op && k.Enabled op) exec) ops p

theorem leadsTo_reachable (mlfqs : Bool) (guard : Kernel → Op → Bool) (ops : List Op)
    (p : Kernel → Bool) (h : leadsTo mlfqs guard ops p = true) :
    ∃ k, (system mlfqs).ReachableVia (fun k op => guard k op = true) k ∧ p k = true := by
  unfold leadsTo at h
  split at h
  · cases h
  · rename_i k hb
    refine System.reachableVia_of_leadsTo k _ ops p ⟨_, hb⟩ (fun k op k' hk => ?_) h
    obtain ⟨hmay, hexec⟩ := System.tryExec_eq_some hk
    obtain ⟨hguard, henabled⟩ := Bool.and_eq_true_iff.mp hmay
    exact ⟨hguard, of_decide_eq_true henabled, hexec⟩

end Kernel

end Pintos.Threads
