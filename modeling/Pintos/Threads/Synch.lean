import Pintos.Threads.Scheduler

namespace Pintos.Threads.Kernel

def semaDownLoop (k : Kernel) (sema : SemaRef) (onWake : Resume) : Except Fault (Kernel × Bool) := do
  let cur ← k.threadCurrent
  if k.value sema = 0 then
    let k := k.listInsertOrdered (.waiters sema) cur
    let k := k.setThread cur (.setThreadPl (some (.waiters sema)))
    let k ← (k.setResume cur onWake).threadBlock
    return (k, false)
  else
    return (k.setValue sema (k.value sema - 1), true)

def semaDown (k : Kernel) (sema : SemaRef) : Except Fault Kernel := do
  let (k, _) ← k.semaDownLoop sema (.semaDown sema)
  return k

def semaTryDown (k : Kernel) (sema : SemaRef) : Kernel × Bool :=
  if k.value sema > 0 then (k.setValue sema (k.value sema - 1), true) else (k, false)

def semaUp (k : Kernel) (oldLevel : IntrLevel) (sema : SemaRef) : Except Fault Kernel :=
  let k := k.setValue sema (k.value sema + 1)
  match k.lists (.waiters sema) with
  | [] => .ok k
  | top :: rest => (k.setList (.waiters sema) rest).threadUnblock oldLevel top

-- `count` is what is left of the nine threads that one donation may visit.
def lockDonate : Nat → Option ThreadRef → Int → Kernel → Except Fault Kernel
  | 0, _, _, k => .ok k
  | _ + 1, none, _, k => .ok k
  | count + 1, some cur, donatePri, k =>
    if k.live cur = false then .error .freedPage
    else if (k.threads cur).priority ≥ donatePri then .ok k
    else
      let k := (k.setThread cur (.setPriority donatePri)).setThread cur (.setDonated true)
      match (k.threads cur).threadPl with
      | none => .error .assertion
      | some list =>
        lockDonate count (k.threads cur).waitingForTlock donatePri (k.listUpdateElem list cur)

def maxDonations : Nat := 9

def giveLock (k : Kernel) (lock : LockRef) (t : ThreadRef) : Kernel :=
  ((k.setHolder lock (some t)).setThread t (.setWaitingForTlock none)).setThread t
    (.setAcquiredLocks ((k.threads t).acquiredLocks ++ [lock]))

def lockTryAcquire (k : Kernel) (lock : LockRef) : Except Fault (Kernel × Bool) := do
  let cur ← k.threadCurrent
  assert (k.holder lock ≠ some cur)
  let (k, success) := k.semaTryDown (.ofLock lock)
  return if success then (k.giveLock lock cur, true) else (k, false)

-- sema_down on the lock's semaphore and what follows it in lock_acquire. It is
-- entered once when the lock is found taken and again after each wake-up.
def lockAcquireWait (k : Kernel) (lock : LockRef) : Except Fault Kernel := do
  let cur ← k.threadCurrent
  let (k, success) ← k.semaDownLoop (.ofLock lock) (.lockAcquire lock)
  return if success then k.giveLock lock cur else k

def lockAcquireDonate (k : Kernel) (lock : LockRef) (cur : ThreadRef) : Except Fault Kernel :=
  let currentPriority := (k.threads cur).priority
  let k := k.setThread cur (.setWaitingForTlock (k.holder lock))
  match k.holder lock with
  | none => .error .nullPointer
  | some holder =>
    if k.live holder = false then .error .freedPage
    else if currentPriority > (k.threads holder).priority ∧ k.mlfqs = false then
      lockDonate maxDonations (some holder) currentPriority k
    else .ok k

def lockAcquire (k : Kernel) (lock : LockRef) : Except Fault Kernel := do
  let cur ← k.threadCurrent
  let (k, success) ← k.lockTryAcquire lock
  if success then return k
  else
    let k ← k.lockAcquireDonate lock cur
    k.lockAcquireWait lock

def nextPotentialDonation (k : Kernel) (t : ThreadRef) : Int :=
  (k.threads t).acquiredLocks.foldl
    (fun maxDonatablePri lock =>
      let highest := k.threadListTopPri (.waiters (.ofLock lock))
      if highest > maxDonatablePri then highest else maxDonatablePri)
    0

def restorePriority (k : Kernel) (cur : ThreadRef) : Kernel :=
  let k := (k.setThread cur (.setPriority (k.threads cur).originalPriority)).setThread cur
    (.setDonated false)
  if (k.threads cur).acquiredLocks ≠ [] ∧
      (k.threads cur).originalPriority < k.nextPotentialDonation cur then
    (k.setThread cur (.setPriority (k.nextPotentialDonation cur))).setThread cur (.setDonated true)
  else k

def lockReleaseOwner (k : Kernel) (lock : LockRef) : Except Fault Kernel := do
  let cur ← k.threadCurrent
  assert (k.holder lock = some cur)
  let k := k.setThread cur (.setAcquiredLocks ((k.threads cur).acquiredLocks.erase lock))
  let k := if k.mlfqs then k else k.restorePriority cur
  return k.setHolder lock none

def lockRelease (k : Kernel) (oldLevel : IntrLevel) (lock : LockRef) : Except Fault Kernel := do
  let k ← k.lockReleaseOwner lock
  k.semaUp oldLevel (.ofLock lock)

-- A critical section of the kernel's own that is entered and left within one
-- operation, so that no other thread ever finds the lock taken or waits for it.
def withLock (k : Kernel) (oldLevel : IntrLevel) (lock : LockRef) : Except Fault Kernel := do
  let (k, success) ← k.lockTryAcquire lock
  if success ∧ k.lists (.waiters (.ofLock lock)) = [] then k.lockRelease oldLevel lock
  else .error .wouldBlock

def allocateTid (k : Kernel) (oldLevel : IntrLevel) (t : ThreadRef) : Except Fault Kernel := do
  let k := k.setThread t (.setTid k.nextTid)
  (k.setNextTid (k.nextTid + 1)).withLock oldLevel .tidLock

-- `page` is what palloc_get_page returns: a free page, or none when there is
-- no memory left.
def threadCreate (k : Kernel) (oldLevel : IntrLevel) (page : Option ThreadRef) (priority : Int) :
    Except Fault Kernel := do
  let k ← k.withLock oldLevel .poolLock
  match page with
  | none => return k
  | some t =>
    let k ← k.initThread t priority
    let k ← k.allocateTid oldLevel t
    k.threadUnblock oldLevel t

def resumeCurrent (k : Kernel) : Except Fault Kernel :=
  let back := k.setResume k.current .toCaller
  match k.resume k.current with
  | .toCaller => .ok k
  | .semaDown sema => back.semaDown sema
  | .lockAcquire lock => back.lockAcquireWait lock

end Pintos.Threads.Kernel
