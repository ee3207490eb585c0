import Pintos.Threads.Kernel

namespace Pintos.Threads.Kernel

def threadCurrent (k : Kernel) : Except Fault ThreadRef := do
  assert (k.live k.current = true)
  assert ((k.threads k.current).status = .running)
  return k.current

def nextThreadToRun (k : Kernel) : Option ThreadRef × Kernel :=
  match k.lists .ready with
  | [] => (k.idleThread, k)
  | next :: rest =>
    (some next, (k.setList .ready rest).setThread next (.setThreadPl none))

-- `prev` is the thread switched away from, or none when no switch took place.
def threadScheduleTail (k : Kernel) (prev : Option ThreadRef) : Kernel :=
  let k := k.setThread k.current (.setStatus .running)
  let k := { k with threadTicks := 0 }
  match prev with
  | some p =>
    if (k.threads p).status = .dying ∧ p ≠ k.initialThread then
      k.setLive (Function.update k.live p false)
    else k
  | none => k

def schedule (k : Kernel) : Except Fault Kernel := do
  let cur := k.current
  let (next, k) := k.nextThreadToRun
  assert ((k.threads cur).status ≠ .running)
  match next with
  | none => .error .assertion
  | some next =>
    assert (k.live next = true)
    let k := { k with current := next }
    return k.threadScheduleTail (if cur = next then none else some cur)

def threadBlock (k : Kernel) : Except Fault Kernel := do
  let cur ← k.threadCurrent
  (k.setThread cur (.setStatus .blocked)).schedule

def threadYield (k : Kernel) : Except Fault Kernel := do
  let cur ← k.threadCurrent
  let k := if some cur ≠ k.idleThread then
      (k.listInsertOrdered .ready cur).setThread cur (.setThreadPl (some .ready))
    else k
  (k.setThread cur (.setStatus .ready)).schedule

def makeReady (k : Kernel) (t : ThreadRef) : Kernel :=
  ((k.listInsertOrdered .ready t).setThread t (.setThreadPl (some .ready))).setThread t
    (.setStatus .ready)

-- The caller's interrupt level decides whether the caller gives way at once.
def threadUnblock (k : Kernel) (oldLevel : IntrLevel) (t : ThreadRef) : Except Fault Kernel := do
  assert (k.live t = true)
  assert ((k.threads t).status = .blocked)
  let k := k.makeReady t
  let cur ← k.threadCurrent
  if (k.threads cur).priority < k.threadListTopPri .ready ∧ oldLevel ≠ .off then
    k.threadYield
  else return k

def threadExit (k : Kernel) : Except Fault Kernel := do
  let cur ← k.threadCurrent
  let k := k.setAllList (k.allList.erase cur)
  ((k.setThread cur (.setThreadPl none)).setThread cur (.setStatus .dying)).schedule

def timerElapsed (k : Kernel) (since : Int) : Int := k.ticks - since

def threadUpdateTimer (k : Kernel) (t : ThreadRef) : Kernel :=
  if k.timerElapsed (k.threads t).start ≥ (k.threads t).sleep then
    (k.listRemove t).makeReady t
  else k

def threadUpdateTimers (k : Kernel) : Kernel :=
  (k.lists .sleeping).foldl threadUpdateTimer k

def threadSleep (k : Kernel) : Except Fault Kernel := do
  let cur ← k.threadCurrent
  (k.listPushBack .sleeping cur).threadBlock

def timerSleep (k : Kernel) (ticks : Int) : Except Fault Kernel := do
  let cur ← k.threadCurrent
  (k.setThread cur (.setAlarm k.ticks ticks)).threadSleep

def setOwnPriority (k : Kernel) (cur : ThreadRef) (newPriority : Int) : Kernel :=
  let k := k.setThread cur (.setOriginalPriority newPriority)
  if (k.threads cur).donated then
    if (k.threads cur).priority < newPriority then
      (k.setThread cur (.setPriority newPriority)).setThread cur (.setDonated false)
    else k
  else k.setThread cur (.setPriority newPriority)

def threadSetPriority (k : Kernel) (newPriority : Int) : Except Fault Kernel :=
  if k.mlfqs then .ok k
  else do
    let cur ← k.threadCurrent
    let k := k.setOwnPriority cur newPriority
    if (k.threads cur).priority < k.threadListTopPri .ready then k.threadYield else return k

def mlfqsPriority (recentCpu : Fp) (nice : Int) : Option Int := do
  let quarterCpu ← divFpn recentCpu 4
  let sub1 := subFpfp (convItofp priMax) quarterCpu
  let newPriority := rzconvFptoi (subFpn sub1 (nice * 2))
  if newPriority < priMin then return priMin
  else if newPriority > priMax then return priMax
  else return newPriority

-- The flag says that T is outranked by the ready list: an interrupt handler
-- asks for a yield on return, any other caller yields at once.
def threadCalculatePriority (k : Kernel) (t : ThreadRef) : Except Fault (Kernel × Bool) := do
  match mlfqsPriority (k.threads t).recentCpu (k.threads t).nice with
  | none => .error .divideError
  | some p =>
    let k := k.setThread t (.setPriority p)
    let k := match (k.threads t).threadPl with
      | some list => k.listUpdateElem list t
      | none => k
    return (k, decide ((k.threads t).priority < k.threadListTopPri .ready))

def threadSetNice (k : Kernel) (nice : Int) : Except Fault Kernel := do
  assert (nice ≤ 20 ∧ -20 ≤ nice)
  let cur ← k.threadCurrent
  let k := k.setThread cur (.setNice nice)
  let (k, outranked) ← k.threadCalculatePriority cur
  if outranked then k.threadYield else return k

def nextLoadAvg (loadAvg : Fp) (numReady : Int) : Option (Fp × Fp) := do
  let product1 := multFpfp (← divFpn (convItofp 59) 60) loadAvg
  let product2 ← divFpn (convItofp numReady) 60
  let loadAvg := addFpfp product1 product2
  let coefficient ← divFpfp (multFpn loadAvg 2) (addFpn (multFpn loadAvg 2) 1)
  return (loadAvg, coefficient)

def threadCalculateLoadAvg (k : Kernel) : Except Fault Kernel :=
  let numReady : Int := (k.lists .ready).length
  let numReady := if some k.current ≠ k.idleThread then numReady + 1 else numReady
  match nextLoadAvg k.loadAvg numReady with
  | some (loadAvg, coefficient) =>
    .ok { k with loadAvg := loadAvg, loadAvgCoefficient := coefficient }
  | none => .error .divideError

def threadCalculateRecentCpu (k : Kernel) (t : ThreadRef) : Kernel :=
  let product := multFpfp k.loadAvgCoefficient (k.threads t).recentCpu
  (k.setThread t (.setRecentlyUp true)).setThread t
    (.setRecentCpu (addFpn product (k.threads t).nice))

def threadUpdatePriorities (k : Kernel) (t : ThreadRef) : Except Fault (Kernel × Bool) :=
  if (k.threads t).recentlyUp then
    (k.setThread t (.setRecentlyUp false)).threadCalculatePriority t
  else .ok (k, false)

def threadForeachPriorities : List ThreadRef → Kernel → Except Fault (Kernel × Bool)
  | [], k => .ok (k, false)
  | t :: rest, k => do
      let (k, outranked) ← k.threadUpdatePriorities t
      let (k, more) ← threadForeachPriorities rest k
      return (k, outranked || more)

def mlfqsCharge (k : Kernel) (t : ThreadRef) : Kernel :=
  if some t ≠ k.idleThread then
    (k.setThread t (.setRecentCpu (addFpn (k.threads t).recentCpu 1))).setThread t
      (.setRecentlyUp true)
  else k

def mlfqsSecond (k : Kernel) : Except Fault Kernel :=
  if k.ticks % timerFreq = 0 then do
    let k ← k.threadCalculateLoadAvg
    return k.allList.foldl threadCalculateRecentCpu k
  else .ok k

def mlfqsSlice (k : Kernel) : Except Fault (Kernel × Bool) :=
  if k.ticks % timeSlice = 0 then threadForeachPriorities k.allList k else .ok (k, false)

def mlfqsTick (k : Kernel) (t : ThreadRef) : Except Fault (Kernel × Bool) :=
  if k.mlfqs then do
    let k ← (k.mlfqsCharge t).mlfqsSecond
    k.mlfqsSlice
  else .ok (k, false)

@[simps] def countTick (k : Kernel) : Kernel := { k with ticks := k.ticks + 1 }
@[simps] def countThreadTick (k : Kernel) : Kernel := { k with threadTicks := k.threadTicks + 1 }

def wakeSleepers (k : Kernel) : Kernel :=
  if k.lists .sleeping ≠ [] then k.threadUpdateTimers else k

-- The flag is yield_on_return.
def threadTick (k : Kernel) : Except Fault (Kernel × Bool) := do
  let t ← k.threadCurrent
  let k := k.wakeSleepers
  let outranks := decide ((k.threads t).priority > k.threadListTopPri .ready)
  let (k, recomputed) ← k.mlfqsTick t
  let k := k.countThreadTick
  return (k, outranks || recomputed || decide (k.threadTicks ≥ timeSlice))

def timerInterrupt (k : Kernel) : Except Fault Kernel := do
  let (k, yieldOnReturn) ← k.countTick.threadTick
  if yieldOnReturn then k.threadYield else return k

def initThread (k : Kernel) (t : ThreadRef) (priority : Int) : Except Fault Kernel := do
  assert (priMin ≤ priority ∧ priority ≤ priMax)
  let priority := if k.mlfqs then priDefault else priority
  let thread : Thread :=
    { tid := 0, status := .blocked, priority := priority, originalPriority := priority
      nice := 0, recentCpu := 0, start := -1, sleep := -1, recentlyUp := false
      donated := false, threadPl := none, waitingForTlock := none, acquiredLocks := [] }
  return { (k.setThread t fun _ => thread).setResume t .toCaller with
    live := Function.update k.live t true
    allList := k.allList ++ [t] }

end Pintos.Threads.Kernel
