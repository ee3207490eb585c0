import Pintos.Threads.Locks.Theorems

namespace Pintos.Threads

open Function

-- The places where lock_release and sema_up run with interrupts on.
inductive Pc
  | client
  -- lock_release has cleared the holder and not yet called sema_up
  | released (lock : LockRef)
  -- sema_up has found waiters and not yet called list_pop_front
  | tested (sema : SemaRef)
  -- list_pop_front has read the front and not yet unlinked it
  | front (sema : SemaRef) (t : ThreadRef)
  -- list_pop_front has returned and thread_unblock has not disabled interrupts
  | popped (sema : SemaRef) (t : ThreadRef)
deriving DecidableEq

def Pc.unlinks : Pc → Bool
  | .front _ _ | .popped _ _ => true
  | _ => false

-- What happens next: the running thread calls an operation that keeps interrupts
-- off while it touches shared data, takes its next step inside thread_create,
-- lock_release or sema_up, or is interrupted. With torn lists it is not said
-- which thread runs next, only what it does to the locks.
inductive Act
  | call (op : Op)
  | initThread (t : ThreadRef) (priority : Int)
  | release (lock : LockRef)
  | up (sema : SemaRef)
  | front
  | unlink
  | unblock
  | interrupt (op : Op)
  | loose (t : ThreadRef)
deriving DecidableEq

-- thread_create is the calls that it makes: it takes and gives back the locks of
-- the page pool and of the thread ids as it would any other.
def Op.isCall : Op → Bool
  | .threadCreate _ _ _ | .lockRelease .on _ | .semaUp _ _ | .timerInterrupt
  | .threadUnblock .off _ => false
  | _ => true

def Op.isInterrupt : Op → Bool
  | .timerInterrupt | .semaUp .off _ | .threadUnblock .off _ => true
  | _ => false

-- `inside` records, for no use by the code, which threads have acquired a lock
-- and not yet called lock_release.
--
-- An interrupt between reading the front of a waiters list and linking that
-- thread into ready_list finds links, or a thread_pl, that are out of date; the
-- lists are torn from then on.
structure Interleaved where
  kernel : Kernel
  pc : ThreadRef → Pc
  inside : LockRef → List ThreadRef
  torn : Bool

namespace Interleaved

def currentPc (s : Interleaved) : Pc := s.pc s.kernel.current

@[simps] def setKernel (s : Interleaved) (k : Kernel) : Interleaved := { s with kernel := k }

@[simps] def setPc (s : Interleaved) (t : ThreadRef) (pc : Pc) : Interleaved :=
  { s with pc := update s.pc t pc }

@[simps] def enter (s : Interleaved) (lock : LockRef) (t : ThreadRef) : Interleaved :=
  { s with inside := update s.inside lock (t :: s.inside lock) }

@[simps] def leave (s : Interleaved) (lock : LockRef) (t : ThreadRef) : Interleaved :=
  { s with inside := update s.inside lock ((s.inside lock).erase t) }

def enabled (s : Interleaved) : Act → Bool
  | .call op => s.currentPc = .client ∧ op.isCall ∧ s.kernel.Enabled op ∧ s.kernel.exitsClean op
  | .initThread t priority =>
    s.currentPc = .client ∧ s.kernel.Enabled (.threadCreate .on (some t) priority)
  | .release lock => s.currentPc = .client ∧ s.kernel.Enabled (.lockRelease .on lock)
  | .up (.ofLock lock) => s.currentPc = .released lock
  | .up sema => s.currentPc = .client ∧ s.kernel.Enabled (.semaUp .on sema)
  | .interrupt op => op.isInterrupt ∧ s.kernel.Enabled op
  | .front | .unlink | .unblock => true
  | .loose _ => false

def track (s : Interleaved) (op : Op) : Interleaved :=
  match s.kernel.lockTaken op, op with
  | some lock, _ => s.enter lock s.kernel.current
  | none, .lockRelease _ lock => s.leave lock s.kernel.current
  | none, _ => s

def exec (s : Interleaved) : Act → Except Fault Interleaved
  | .call op => do
      let k ← s.kernel.exec op
      return (s.track op).setKernel k
  | .initThread t priority => do
      let k ← s.kernel.initThread t priority
      return (s.setPc t .client).setKernel k
  | .release lock => do
      let k ← s.kernel.lockReleaseOwner lock
      return ((s.leave lock s.kernel.current).setPc s.kernel.current (.released lock)).setKernel k
  | .up sema =>
    let k := s.kernel.setValue sema (s.kernel.value sema + 1)
    let pc := if k.lists (.waiters sema) = [] then .client else .tested sema
    .ok ((s.setPc s.kernel.current pc).setKernel k)
  | .front =>
    match s.currentPc with
    | .tested sema =>
      match s.kernel.lists (.waiters sema) with
      | [] => .error .assertion
      | t :: _ => .ok (s.setPc s.kernel.current (.front sema t))
    | _ => .ok s
  | .unlink =>
    match s.currentPc with
    | .front sema t =>
      .ok ((s.setPc s.kernel.current (.popped sema t)).setKernel (s.kernel.listRemove t))
    | _ => .ok s
  | .unblock =>
    match s.currentPc with
    | .popped _ t => do
        let k ← s.kernel.threadUnblock .on t
        return (s.setPc s.kernel.current .client).setKernel k
    | _ => .ok s
  -- with torn lists the handler's own steps are among those of LooseStep
  | .interrupt op =>
    if s.currentPc.unlinks then .ok { s with torn := true }
    else do
      let k ← s.kernel.exec op
      return s.setKernel k
  | .loose _ => .ok s

end Interleaved

structure Kernel.SameLocks (k k' : Kernel) : Prop where
  allList : k'.allList = k.allList
  holder : k'.holder = k.holder
  value : ∀ lock, k'.value (.ofLock lock) = k.value (.ofLock lock)
  acquiredLocks : ∀ t, (k'.threads t).acquiredLocks = (k.threads t).acquiredLocks

namespace Interleaved

-- What thread `t` can do once the lists are torn. They may link any thread
-- anywhere, so all that is kept of the kernel is the records of lock owners, and
-- what the code does to these does not depend on the lists.
inductive LooseStep (s : Interleaved) (t : ThreadRef) : Interleaved → Prop
  | quiet {k : Kernel} {pc : ThreadRef → Pc} (hk : s.kernel.SameLocks k)
      (hpc : ∀ u lock, pc u = .released lock ↔ s.pc u = .released lock) :
      LooseStep s t { s with kernel := k, pc := pc }
  | take {k : Kernel} {lock : LockRef} (hk : s.kernel.SameLocks k) (ht : t ∈ s.kernel.allList)
      (hpc : s.pc t = .client) (hv : 0 < s.kernel.value (.ofLock lock)) :
      LooseStep s t ((s.enter lock t).setKernel
        ((k.setValue (.ofLock lock) (k.value (.ofLock lock) - 1)).giveLock lock t))
  | release {k k' : Kernel} {lock : LockRef} (hk : s.kernel.SameLocks k)
      (ht : t ∈ s.kernel.allList) (hpc : s.pc t = .client) (hc : k.current = t)
      (hl : k.lockReleaseOwner lock = .ok k') :
      LooseStep s t (((s.leave lock t).setPc t (.released lock)).setKernel k')
  | raise {k : Kernel} {lock : LockRef} {pc : Pc} (hk : s.kernel.SameLocks k)
      (ht : s.pc t = .released lock) (hpc : pc = .client ∨ pc = .tested (.ofLock lock)) :
      LooseStep s t ((s.setPc t pc).setKernel
        (k.setValue (.ofLock lock) (k.value (.ofLock lock) + 1)))
  | init {k k' : Kernel} {u : ThreadRef} {p : Int} (hk : s.kernel.SameLocks k)
      (hu : u ∉ s.kernel.allList) (hi : k.initThread u p = .ok k') :
      LooseStep s t ((s.setPc u .client).setKernel k')
  | exit {k : Kernel} (hk : s.kernel.SameLocks k) (hpc : s.pc t = .client)
      (ha : (s.kernel.threads t).acquiredLocks = []) :
      LooseStep s t (s.setKernel (k.setAllList (k.allList.erase t)))

def Step (s : Interleaved) (act : Act) (s' : Interleaved) : Prop :=
  (s.torn = false ∧ s.enabled act = true ∧ s.exec act = .ok s') ∨
    (s.torn = true ∧ ∃ t, act = .loose t ∧ s.LooseStep t s')

def boot (k : Kernel) : Interleaved := ⟨k, fun _ => .client, fun _ => [], false⟩

def system (mlfqs : Bool) : Lib.System Interleaved Act where
  init s := ∃ k semaInit, Kernel.boot mlfqs semaInit = .ok k ∧ s = boot k
  step := Step

def leadsTo (mlfqs : Bool) (guard : Interleaved → Act → Bool) (acts : List Act)
    (p : Interleaved → Bool) : Bool :=
  match Kernel.boot mlfqs fun _ => 0 with
  | .error _ => false
  | .ok k =>
    let may := fun s act => !s.torn && guard s act && s.enabled act
    Lib.System.leadsTo (boot k) (Lib.System.tryExec may exec) acts p

theorem leadsTo_reachable (mlfqs : Bool) (guard : Interleaved → Act → Bool) (acts : List Act)
    (p : Interleaved → Bool) (h : leadsTo mlfqs guard acts p = true) :
    ∃ s, (system mlfqs).ReachableVia (fun s act => guard s act = true) s ∧ p s = true := by
  unfold leadsTo at h
  split at h
  · cases h
  · rename_i k hb
    refine Lib.System.reachableVia_of_leadsTo (boot k) _ acts p ⟨k, _, hb, rfl⟩
      (fun s act s' hs => ?_) h
    obtain ⟨hmay, hexec⟩ := Lib.System.tryExec_eq_some hs
    simp only [Bool.and_eq_true, Bool.not_eq_true'] at hmay
    exact ⟨hmay.1.2, .inl ⟨hmay.1.1, hmay.2, hexec⟩⟩

end Interleaved

end Pintos.Threads
