import Pintos.Threads.Queues.Theorems

namespace Pintos.Threads.Kernel

open Kernel

variable {k k1 k' : Kernel} {op : Op} {lock : LockRef} {oldLevel : IntrLevel} {flag : Bool}
  {sema : SemaRef} {p : Int}

def lockTaken (k : Kernel) : Op → Option LockRef
  | .lockAcquire lock | .lockTryAcquire lock =>
    if k.value (.ofLock lock) = 0 then none else some lock
  | .resume =>
    match k.resume k.current with
    | .lockAcquire lock => if k.value (.ofLock lock) = 0 then none else some lock
    | _ => none
  | _ => none

def lockAwaited (k : Kernel) : Op → Option LockRef
  | .lockAcquire lock => if k.value (.ofLock lock) = 0 then some lock else none
  | .resume =>
    match k.resume k.current with
    | .lockAcquire lock => if k.value (.ofLock lock) = 0 then some lock else none
    | _ => none
  | _ => none

def wakeTop (k : Kernel) (lock : LockRef) : Kernel :=
  (k.setValue (.ofLock lock) (k.value (.ofLock lock) + 1)).setList (.waiters (.ofLock lock))
    (k.waitersOf lock).tail

def joinWaiters (k : Kernel) (lock : LockRef) (t : ThreadRef) : Kernel :=
  k.listInsertOrdered (.waiters (.ofLock lock)) t

inductive LockStep (k : Kernel) : Op → Kernel → Prop
  | quiet {op : Op} {k' : Kernel} (hf : k.DonationFrame k') : LockStep k op k'
  | recompute {op : Op} {k' : Kernel} (hop : k.mlfqs = true ∨ ∃ nice, op = .threadSetNice nice)
      (hf : k.LockFrame k') : LockStep k op k'
  | setPriority {p : Int} {k' : Kernel} (hm : k.mlfqs = false)
      (hf : (k.setOwnPriority k.current p).DonationFrame k') : LockStep k (.threadSetPriority p) k'
  | take {op : Op} {lock : LockRef} {k1 : Kernel} (hc : lock.isClient = true)
      (hop : k.lockTaken op = some lock)
      (hv : 0 < k.value (.ofLock lock)) (hf : k.DonationFrame k1) :
      LockStep k op ((k1.setValue (.ofLock lock) (k1.value (.ofLock lock) - 1)).giveLock lock
        k.current)
  | contend {lock : LockRef} {k1 k' : Kernel} (hc : lock.isClient = true)
      (hv : k.value (.ofLock lock) = 0)
      (hne : k.holder lock ≠ some k.current)
      (hd : k.lockAcquireDonate lock k.current = .ok k1)
      (hf : (k1.joinWaiters lock k.current).DonationFrame k') : LockStep k (.lockAcquire lock) k'
  | requeue {lock : LockRef} {k' : Kernel} (hc : lock.isClient = true)
      (hr : k.resume k.current = .lockAcquire lock)
      (hv : k.value (.ofLock lock) = 0) (hf : (k.joinWaiters lock k.current).DonationFrame k') :
      LockStep k .resume k'
  | release {oldLevel : IntrLevel} {lock : LockRef} {k1 k' : Kernel}
      (hc : lock.isClient = true) (ho : k.lockReleaseOwner lock = .ok k1)
      (hf : (k1.wakeTop lock).DonationFrame k') :
      LockStep k (.lockRelease oldLevel lock) k'
  | noMemory {oldLevel : IntrLevel} {p : Int} {k' : Kernel}
      (hw : k.withLock oldLevel .poolLock = .ok k') : LockStep k (.threadCreate oldLevel none p) k'
  | create {oldLevel : IntrLevel} {t : ThreadRef} {p : Int} {k1 k2 k3 k4 k' : Kernel}
      (hfree : k.live t = false) (h1 : k.withLock oldLevel .poolLock = .ok k1)
      (h2 : k1.initThread t p = .ok k2) (hn : k2.DonationFrame k3) (hq : k3.QueueInv)
      (hcur : k3.current = k2.current) (h3 : k3.withLock oldLevel .tidLock = .ok k4)
      (hf : k4.DonationFrame k') : LockStep k (.threadCreate oldLevel (some t) p) k'
  | exit {k' : Kernel}
      (hf : ((k.setLive k'.live).setAllList (k.allList.erase k.current)).DonationFrame k')
      (hlive : k'.live = k.live ∨ k'.live = Function.update k.live k.current false) :
      LockStep k .threadExit k'

theorem semaDownLoop_ok {onWake : Resume}
    (hd : k.semaDownLoop sema onWake = .ok (k', flag)) (hr : onWake.isClient = true) :
    (flag = false ∧ k.value sema = 0 ∧
      (k.listInsertOrdered (.waiters sema) k.current).DonationFrame k') ∨
    (flag = true ∧ 0 < k.value sema ∧ k' = k.setValue sema (k.value sema - 1)) := by
  obtain ⟨_, _, hd⟩ := threadCurrent_bind_ok hd
  split_ifs at hd with hz
  · obtain ⟨k1, hb, heq⟩ := bind_ok_iff.mp hd
    cases heq
    refine .inl ⟨rfl, hz, ?_⟩
    exact ((DonationFrame.setThread _ rfl rfl rfl rfl rfl).trans (.setResume _ hr)).trans
      (threadBlock_frame hb)
  · cases hd
    exact .inr ⟨rfl, by omega, rfl⟩

theorem lockAcquireWait_ok (hc : lock.isClient = true) (hl : k.lockAcquireWait lock = .ok k') :
    (k.value (.ofLock lock) = 0 ∧ (k.joinWaiters lock k.current).DonationFrame k') ∨
    (0 < k.value (.ofLock lock) ∧
      k' = (k.setValue (.ofLock lock) (k.value (.ofLock lock) - 1)).giveLock lock k.current) := by
  obtain ⟨_, _, hl⟩ := threadCurrent_bind_ok hl
  obtain ⟨⟨k1, success⟩, h1, heq⟩ := bind_ok_iff.mp hl
  obtain ⟨rfl, hz, hf⟩ | ⟨rfl, hz, rfl⟩ := semaDownLoop_ok h1 hc
  · cases heq
    exact .inl ⟨hz, hf⟩
  · cases heq
    exact .inr ⟨hz, rfl⟩

theorem setList_lists_self (k : Kernel) (list : ListRef) : k.setList list (k.lists list) = k := by
  unfold setList
  rw [Function.update_eq_self]

theorem semaUp_lock_ok (hu : k.semaUp oldLevel (.ofLock lock) = .ok k') :
    (k.wakeTop lock).DonationFrame k' := by
  unfold semaUp at hu
  simp only at hu
  unfold wakeTop waitersOf
  split at hu
  · rename_i hl
    cases hu
    have hself := setList_lists_self (k.setValue (.ofLock lock) (k.value (.ofLock lock) + 1))
      (.waiters (.ofLock lock))
    rw [hl] at hself
    rw [show k.lists (.waiters (.ofLock lock)) = [] from hl, List.tail_nil, hself]
    exact .refl _
  · rename_i top rest hl
    rw [show k.lists (.waiters (.ofLock lock)) = top :: rest from hl]
    exact threadUnblock_frame hu

theorem isClient_ne_ofLock (h : sema.isClient = true) (lock : LockRef) : sema ≠ .ofLock lock := by
  rintro rfl
  cases h

theorem lockTryAcquire_lockStep (hc : lock.isClient = true)
    (ht : op = .lockAcquire lock ∨ op = .lockTryAcquire lock)
    (h : k.lockTryAcquire lock = .ok (k', flag)) : LockStep k op k' := by
  obtain ⟨_, ⟨_, hz, rfl⟩ | ⟨_, _, rfl⟩⟩ := lockTryAcquire_ok h
  · refine .take hc ?_ hz (.refl k)
    have hz : k.value (.ofLock lock) ≠ 0 := by omega
    obtain rfl | rfl := ht <;> simp [lockTaken, hz]
  · exact .quiet (.refl _)

theorem lockAcquireDonate_frame (hq : k.QueueInv)
    (hd : k.lockAcquireDonate lock k.current = .ok k') :
    ∃ holder, k.holder lock = some holder ∧ k.live holder = true ∧
      (k.setThread k.current (.setWaitingForTlock (some holder))).LockFrame k' := by
  obtain ⟨holder, hh, hv, ⟨_, rfl⟩ | ⟨_, _, hd⟩⟩ := lockAcquireDonate_ok hd
  · exact ⟨holder, hh, hv, .refl _⟩
  · exact ⟨holder, hh, hv, lockDonate_frame (hq.setCurrent _ rfl rfl) hd⟩

theorem lockAcquire_lockStep (hq : k.QueueInv) (hc : lock.isClient = true)
    (h : k.lockAcquire lock = .ok k') :
    LockStep k (.lockAcquire lock) k' := by
  obtain ⟨_, _, h⟩ := threadCurrent_bind_ok h
  obtain ⟨⟨k1, success⟩, h1, h⟩ := bind_ok_iff.mp h
  have hs := lockTryAcquire_lockStep hc (.inl rfl) h1
  obtain ⟨hne, ⟨rfl, _, rfl⟩ | ⟨rfl, hz, rfl⟩⟩ := lockTryAcquire_ok h1
  · cases h
    exact hs
  · obtain ⟨k2, h2, h⟩ := bind_ok_iff.mp h
    obtain ⟨_, _, _, hframe⟩ := lockAcquireDonate_frame hq h2
    have hv : k2.value (.ofLock lock) = k1.value (.ofLock lock) := hframe.value lock
    obtain ⟨_, hf⟩ | ⟨hz', _⟩ := lockAcquireWait_ok hc h
    · rw [(hq.lockAcquireDonate h2).2.1] at hf
      exact .contend hc hz hne h2 hf
    · omega

theorem resumeCurrent_lockStep (h : k.resumeCurrent = .ok k')
    (hs : (k.resume k.current).isClient = true) : LockStep k .resume k' := by
  have hf := DonationFrame.setResume (k := k) k.current (r := .toCaller) rfl
  unfold resumeCurrent at h
  simp only at h
  split at h
  · cases h
    exact .quiet (.refl k)
  · rename_i sema hr
    refine .quiet (hf.trans (semaDown_frame ?_ h))
    rintro lock rfl
    rw [hr] at hs
    cases hs
  · rename_i lock hr
    have hc : lock.isClient = true := by
      rw [hr] at hs
      exact hs
    obtain ⟨hz, hw⟩ | ⟨hz, rfl⟩ := lockAcquireWait_ok hc h
    · exact .requeue hc hr hz
        ((DonationFrame.setResume (k := k.joinWaiters lock k.current) k.current rfl).trans hw)
    · refine .take hc ?_ hz hf
      have hz : k.value (.ofLock lock) ≠ 0 := by
        have : 0 < k.value (.ofLock lock) := hz
        omega
      simp [lockTaken, hr, hz]

theorem lockRelease_lockStep (hc : lock.isClient = true)
    (h : k.lockRelease oldLevel lock = .ok k') :
    LockStep k (.lockRelease oldLevel lock) k' := by
  obtain ⟨k1, h1, h⟩ := bind_ok_iff.mp h
  exact .release hc h1 (semaUp_lock_ok h)

theorem allocateTid_ok {t : ThreadRef} (hq : k.QueueInv) (ha : k.allocateTid oldLevel t = .ok k') :
    ∃ k1, k.DonationFrame k1 ∧ k1.QueueInv ∧ k1.current = k.current ∧
      k1.withLock oldLevel .tidLock = .ok k' := by
  refine ⟨(k.setThread t (.setTid k.nextTid)).setNextTid (k.nextTid + 1), ?_, ?_, rfl, ha⟩
  · have hset := DonationFrame.setThread (k := k) (t := t) (.setTid k.nextTid) rfl rfl rfl rfl rfl
    exact hset.trans { DonationFrame.refl _ with }
  · exact (hq.setThread (.setTid k.nextTid) rfl rfl fun _ _ _ => rfl).congr rfl rfl rfl rfl rfl rfl

theorem threadCreate_lockStep {page : Option ThreadRef} (hq : k.QueueInv)
    (hpage : ∀ t, page = some t → k.live t = false) (h : k.threadCreate oldLevel page p = .ok k') :
    LockStep k (.threadCreate oldLevel page p) k' := by
  obtain ⟨k1, h1, h⟩ := bind_ok_iff.mp h
  cases page with
  | none =>
    cases h
    exact .noMemory h1
  | some t =>
    simp only [bind_ok_iff] at h
    obtain ⟨k2, h2, k3, h3, h⟩ := h
    have hlive : k1.live t = false := (withLock_frame h1).2.1 ▸ hpage t rfl
    obtain ⟨k4, hn, hq4, hcur, h4⟩ := allocateTid_ok ((hq.withLock h1).initThread hlive h2).1 h3
    exact .create (hpage t rfl) h1 h2 hn hq4 hcur h4 (threadUnblock_frame h)

theorem threadExit_lockStep (h : k.threadExit = .ok k') : LockStep k .threadExit k' := by
  simp only [threadExit, bind_ok_iff, threadCurrent_ok_iff, setThread_setThread] at h
  obtain ⟨_, ⟨_, _, rfl⟩, hs⟩ := h
  refine .exit (DonationFrame.trans ?_ (schedule_frame hs)) ?_
  · exact DonationFrame.setThread (k := (k.setLive k'.live).setAllList (k.allList.erase k.current))
      (fun x => Thread.setStatus .dying (Thread.setThreadPl none x)) rfl rfl rfl rfl rfl
  · obtain hl | ⟨_, hl⟩ := schedule_live hs
    · exact .inl hl
    · exact .inr hl

theorem threadSetPriority_lockStep (h : k.threadSetPriority p = .ok k') :
    LockStep k (.threadSetPriority p) k' := by
  unfold threadSetPriority at h
  split_ifs at h with hm
  · cases h
    exact .quiet (.refl _)
  · simp only [bind_ok_iff, threadCurrent_ok_iff] at h
    obtain ⟨_, ⟨_, _, rfl⟩, h⟩ := h
    refine .setPriority (by simpa using hm) ?_
    split_ifs at h
    · exact threadYield_frame h
    · cases h
      exact .refl _

theorem exec_lockStep (hq : k.QueueInv) (he : k.Enabled op) (hx : k.exec op = .ok k')
    (hs : (k.resume k.current).isClient = true) : LockStep k op k' := by
  obtain ⟨_, _, hc⟩ := he
  cases op with
  | threadCreate oldLevel page p => exact threadCreate_lockStep hq (callable_threadCreate hc) hx
  | threadBlock => exact .quiet (threadBlock_frame hx)
  | threadUnblock oldLevel t => exact .quiet (threadUnblock_frame hx)
  | threadYield => exact .quiet (threadYield_frame hx)
  | threadExit => exact threadExit_lockStep hx
  | threadSetPriority p => exact threadSetPriority_lockStep hx
  | threadSetNice n => exact .recompute (.inr ⟨n, rfl⟩) (threadSetNice_frame hq hx)
  | timerSleep ticks => exact .quiet (timerSleep_frame hx)
  | timerInterrupt =>
    obtain ⟨hl, hd⟩ := timerInterrupt_frame hq hx
    by_cases hm : k.mlfqs = true
    · exact .recompute (.inl hm) hl
    · exact .quiet (hd (by simpa using hm))
  | semaInit sema n =>
    cases hx
    simp only [callable, Bool.and_eq_true] at hc
    exact .quiet (.setValue (isClient_ne_ofLock hc.1) _)
  | semaDown sema => exact .quiet (semaDown_frame (isClient_ne_ofLock hc) hx)
  | semaTryDown sema =>
    cases hx
    exact .quiet (semaTryDown_frame (isClient_ne_ofLock hc))
  | semaUp oldLevel sema => exact .quiet (semaUp_frame (isClient_ne_ofLock hc) hx)
  | lockAcquire lock => exact lockAcquire_lockStep hq hc hx
  | lockTryAcquire lock =>
    obtain ⟨⟨k1, flag⟩, h1, heq⟩ := bind_ok_iff.mp hx
    cases heq
    exact lockTryAcquire_lockStep hc (.inr rfl) h1
  | lockRelease oldLevel lock => exact lockRelease_lockStep hc hx
  | resume => exact resumeCurrent_lockStep hx hs

theorem LockStep.config (hq : k.QueueInv) (hs : LockStep k op k') :
    k'.mlfqs = k.mlfqs ∧ k'.idleThread = k.idleThread ∧
      ((∀ t, (k.resume t).isClient = true) → ∀ t, (k'.resume t).isClient = true) := by
  have hframe : ∀ {a b : Kernel}, a.LockFrame b → b.mlfqs = a.mlfqs ∧ b.idleThread = a.idleThread ∧
      ((∀ t, (a.resume t).isClient = true) → ∀ t, (b.resume t).isClient = true) :=
    fun hf => ⟨hf.mlfqs, hf.idleThread, fun hr t => hf.resume t (hr t)⟩
  cases hs with
  | quiet hf => exact hframe hf.toLockFrame
  | recompute _ hf => exact hframe hf
  | setPriority _ hf => exact hframe ((setOwnPriority_frame k _).trans hf.toLockFrame)
  | take _ _ _ hf | requeue _ _ _ hf | exit hf _ =>
    have hc := hframe hf.toLockFrame
    exact hc
  | contend _ _ _ hd hf =>
    obtain ⟨_, _, _, hdon⟩ := lockAcquireDonate_frame hq hd
    obtain ⟨hm, hi, hr⟩ := hframe hf.toLockFrame
    exact ⟨hm.trans hdon.mlfqs, hi.trans hdon.idleThread, fun h => hr fun t => hdon.resume t (h t)⟩
  | release _ ho hf =>
    obtain ⟨_, x, _, rfl⟩ := lockReleaseOwner_ok ho
    have hc := hframe hf.toLockFrame
    exact hc
  | noMemory hw =>
    obtain ⟨_, _, x, _, rfl⟩ := withLock_ok hw
    exact ⟨rfl, rfl, id⟩
  | @create _ t _ _ _ _ _ _ _ h1 h2 hn _ _ h3 hf =>
    obtain ⟨_, _, x, _, rfl⟩ := withLock_ok h1
    obtain ⟨_, _, _, _, _, hm2, hi2, _, hr2, _⟩ := initThread_ok h2
    obtain ⟨_, _, y, _, rfl⟩ := withLock_ok h3
    obtain ⟨hm, hi, hr⟩ := hframe hf.toLockFrame
    refine ⟨hm.trans (hn.mlfqs.trans hm2), hi.trans (hn.idleThread.trans hi2), fun h => hr fun u => ?_⟩
    refine hn.resume u ?_
    rw [hr2]
    by_cases hu : u = t
    · subst hu
      simp [Resume.isClient]
    · simpa [hu] using h u

end Pintos.Threads.Kernel
