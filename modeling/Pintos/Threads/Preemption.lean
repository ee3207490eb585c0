import Pintos.Threads.Donation.Entitlement

namespace Pintos.Threads.Kernel

open Lib PriorityQueue

variable {k k1 k' s : Kernel} {t u : ThreadRef} {oldLevel : IntrLevel} {flag : Bool}
  {sema : SemaRef} {lock : LockRef} {op : Op} {p : Int}

def Foremost (k : Kernel) : Prop := ∀ t ∈ k.lists .ready, k.pri t ≤ k.pri k.current

def due (k : Kernel) (t : ThreadRef) : Bool :=
  k.countTick.timerElapsed (k.threads t).start ≥ (k.threads t).sleep

def readyAtTick (k : Kernel) : List ThreadRef :=
  k.lists .ready ++ (k.lists .sleeping).filter k.due

def recomputes (k : Kernel) : Bool := k.mlfqs && decide (k.countTick.ticks % timeSlice = 0)

-- `t` does not outrank the running thread once this holds only `locks`: it is
-- not above the thread's own priority or above that of a thread that waits for
-- one of them.
def staysBelow (k : Kernel) (locks : List LockRef) (t : ThreadRef) : Bool :=
  decide (k.pri t ≤ (k.threads k.current).originalPriority) ||
    locks.any fun lock => (k.waitersOf lock).any fun w => decide (k.pri t ≤ k.pri w)

-- The steps that leave the running thread foremost. A tick within the time slice
-- finds or wakes no thread above the running one or, when it recomputes
-- priorities, only threads that all_list has before it. Interrupt handlers wake
-- no thread above it. A lock that nobody waits for is given back only when the
-- priority that is left is enough.
def keepsOrder (k : Kernel) : Op → Bool
  | .timerInterrupt =>
    decide (timeSlice ≤ k.threadTicks + 1) || k.readyAtTick.all fun u =>
      if k.recomputes then
        some k.current ≠ k.idleThread ∧ u ∈ k.allList.takeWhile (· ≠ k.current)
      else k.pri u ≤ k.pri k.current
  | .threadUnblock .off t => k.pri t ≤ k.pri k.current
  | .semaUp .off sema => (k.lists (.waiters sema)).all fun w => k.pri w ≤ k.pri k.current
  | .threadCreate _ none _ =>
    k.mlfqs || (k.lists .ready).all (k.staysBelow (k.threads k.current).acquiredLocks)
  | .threadCreate .off (some _) _ => false
  | .lockRelease .on lock =>
    k.mlfqs || k.waitersOf lock ≠ [] ||
      (k.lists .ready).all (k.staysBelow ((k.threads k.current).acquiredLocks.erase lock))
  | .lockRelease .off _ => false
  | _ => true

theorem Foremost.congr (h : k.Foremost) (hl : s.lists .ready = k.lists .ready)
    (hp : ∀ t, s.pri t = k.pri t) (hc : s.current = k.current) : s.Foremost := by
  intro t ht
  rw [hp, hp, hc]
  exact h t (hl ▸ ht)

theorem foremost_of_not_lt (hs : PriorityQueue.Descending k.pri (k.lists .ready))
    (h : ¬ k.pri k.current < k.threadListTopPri .ready) : k.Foremost := by
  intro t ht
  unfold threadListTopPri at h
  split at h
  · rename_i hl
    rw [hl] at ht
    cases ht
  · rename_i top rest hl
    rw [hl] at ht hs
    exact (hs.le_head ht).trans (not_lt.mp h)

theorem threadScheduleTail_pri (k : Kernel) (prev : Option ThreadRef) :
    (k.threadScheduleTail prev).lists = k.lists ∧ (k.threadScheduleTail prev).current = k.current ∧
      ∀ t, (k.threadScheduleTail prev).pri t = k.pri t := by
  have hp : ∀ t, (k.setThread k.current (.setStatus .running)).pri t = k.pri t :=
    pri_setThread _ rfl
  unfold threadScheduleTail
  simp only
  split
  · split_ifs
    · exact ⟨rfl, rfl, hp⟩
    · exact ⟨rfl, rfl, hp⟩
  · exact ⟨rfl, rfl, hp⟩

section

variable (hd : PriorityQueue.Descending k.pri (k.lists .ready))
include hd

-- The thread that schedule picks is the first of a sorted list, or the idle
-- thread when the list is empty.
theorem schedule_foremost (hs : k.schedule = .ok k') : k'.Foremost := by
  obtain ⟨next, k1, he, _, rfl⟩ := schedule_ok hs
  obtain ⟨hl, hc, hp⟩ := threadScheduleTail_pri { k1 with current := next }
    (if k.current = next then none else some k.current)
  suffices h : Foremost { k1 with current := next } from h.congr (by rw [hl]) hp hc
  unfold nextThreadToRun at he
  split at he
  · rename_i hnil
    obtain ⟨_, rfl⟩ := Prod.mk.inj he
    intro t ht
    rw [hnil] at ht
    cases ht
  · rename_i top rest hcons
    obtain ⟨htop, rfl⟩ := Prod.mk.inj he
    obtain rfl := Option.some.inj htop
    intro t ht
    have ht : t ∈ rest := by simpa using ht
    have hpri := pri_setThread (k := k.setList .ready rest) (t := top) (.setThreadPl none) rfl
    rw [hcons] at hd
    calc _ = k.pri t := hpri t
      _ ≤ k.pri top := hd.le_head (List.mem_cons_of_mem _ ht)
      _ = _ := (hpri top).symm

theorem threadBlock_foremost (hb : k.threadBlock = .ok k') : k'.Foremost := by
  obtain ⟨_, _, hb⟩ := threadCurrent_bind_ok hb
  refine schedule_foremost ?_ hb
  exact (descending_congr fun u _ => (pri_setThread _ rfl u).symm).mp hd

theorem threadYield_foremost (hy : k.threadYield = .ok k') : k'.Foremost := by
  obtain ⟨_, _, hy⟩ := threadCurrent_bind_ok hy
  refine schedule_foremost ?_ hy
  refine (descending_congr fun u _ => (pri_setThread _ rfl u).symm).mp ?_
  split_ifs
  · refine (descending_congr fun u _ => (pri_setThread _ rfl u).symm).mp ?_
    rw [setThread_lists, setThread_lists, listInsertOrdered_eq, setList_lists, Function.update_self]
    exact descending_insert hd
  · exact hd

theorem makeReady_descending :
    PriorityQueue.Descending (k.makeReady t).pri ((k.makeReady t).lists .ready) := by
  rw [makeReady_ready]
  exact (descending_congr fun u _ => (makeReady_pri k t u).symm).mp
    (descending_insert hd)

theorem threadUnblock_foremost (hoff : oldLevel = .off → k.Foremost ∧ k.pri t ≤ k.pri k.current)
    (hu : k.threadUnblock oldLevel t = .ok k') : k'.Foremost := by
  simp only [threadUnblock, bind_ok_iff, assert_ok_iff, exists_const, threadCurrent_ok_iff] at hu
  obtain ⟨_, _, _, ⟨_, _, rfl⟩, hu⟩ := hu
  have hr := makeReady_descending (t := t) hd
  split_ifs at hu with hc
  · exact threadYield_foremost hr hu
  · cases hu
    cases oldLevel with
    | on =>
      apply foremost_of_not_lt hr
      intro hlt
      exact hc ⟨hlt, by simp⟩
    | off =>
      obtain ⟨hf, ht⟩ := hoff rfl
      intro u hu
      rw [makeReady_pri, makeReady_pri]
      rw [makeReady_ready, mem_insert] at hu
      rcases hu with rfl | hu
      · exact ht
      · exact hf u hu

end

theorem semaUp_foremost (hq : k.QueueInv)
    (hon : oldLevel = .on → k.lists (.waiters sema) = [] → k.Foremost)
    (hoff : oldLevel = .off → k.Foremost ∧ ∀ w ∈ k.lists (.waiters sema), k.pri w ≤ k.pri k.current)
    (hu : k.semaUp oldLevel sema = .ok k') : k'.Foremost := by
  unfold semaUp at hu
  simp only at hu
  split at hu
  · rename_i hl
    cases hu
    have hf : k.Foremost := by
      cases oldLevel with
      | on => exact hon rfl hl
      | off => exact (hoff rfl).1
    exact hf.congr rfl (fun _ => rfl) rfl
  · rename_i top rest hl
    have hl : k.lists (.waiters sema) = top :: rest := hl
    refine threadUnblock_foremost ?_ ?_ hu
    · rw [setList_lists, Function.update_of_ne (by simp)]
      exact hq.queues.sorted .ready (by simp)
    · intro ho
      obtain ⟨hf, hw⟩ := hoff ho
      refine ⟨hf.congr ?_ (fun _ => rfl) rfl, hw top (by simp [hl])⟩
      rw [setList_lists, Function.update_of_ne (by simp), setValue_lists]

theorem semaDownLoop_foremost {onWake : Resume} (h : 0 < k.value sema → k.Foremost)
    (hq : k.QueueInv) (hd : k.semaDownLoop sema onWake = .ok (k', flag)) : k'.Foremost := by
  obtain ⟨_, _, hd⟩ := threadCurrent_bind_ok hd
  split_ifs at hd with hz
  · obtain ⟨k1, hb, heq⟩ := bind_ok_iff.mp hd
    cases heq
    refine threadBlock_foremost ?_ hb
    refine (descending_congr fun u _ => (pri_setThread _ rfl u).symm).mp ?_
    rw [setResume_lists, setThread_lists, listInsertOrdered_eq, setList_lists,
      Function.update_of_ne (by simp)]
    exact hq.queues.sorted .ready (by simp)
  · cases hd
    exact (h (by omega)).congr rfl (fun _ => rfl) rfl

theorem giveLock_foremost (h : k.Foremost) (n : Nat) :
    ((k.setValue sema n).giveLock lock k.current).Foremost := by
  refine h.congr rfl ?_ rfl
  intro u
  unfold giveLock
  rw [setThread_setThread]
  exact pri_setThread (k := (k.setValue sema n).setHolder lock (some k.current)) _ rfl u

theorem lockTryAcquire_foremost (h : k.Foremost) (hl : k.lockTryAcquire lock = .ok (k', flag)) :
    k'.Foremost := by
  obtain ⟨_, ⟨_, _, rfl⟩ | ⟨_, _, rfl⟩⟩ := lockTryAcquire_ok hl
  · exact giveLock_foremost h _
  · exact h

theorem lockAcquireWait_foremost (h : 0 < k.value (.ofLock lock) → k.Foremost) (hq : k.QueueInv)
    (hl : k.lockAcquireWait lock = .ok k') : k'.Foremost := by
  obtain ⟨_, _, hl⟩ := threadCurrent_bind_ok hl
  obtain ⟨⟨k1, success⟩, h1, heq⟩ := bind_ok_iff.mp hl
  cases success with
  | false =>
    cases heq
    exact semaDownLoop_foremost h hq h1
  | true =>
    cases heq
    obtain ⟨_, _, h1⟩ := threadCurrent_bind_ok h1
    split_ifs at h1 with hz
    · obtain ⟨_, _, heq⟩ := bind_ok_iff.mp h1
      cases heq
    · cases h1
      exact giveLock_foremost (h (by omega)) _

theorem lockAcquire_foremost (h : k.Foremost) (hq : k.QueueInv)
    (hl : k.lockAcquire lock = .ok k') : k'.Foremost := by
  obtain ⟨_, _, hl⟩ := threadCurrent_bind_ok hl
  obtain ⟨⟨k1, success⟩, h1, hl⟩ := bind_ok_iff.mp hl
  obtain ⟨_, ⟨rfl, _, rfl⟩ | ⟨rfl, hz, rfl⟩⟩ := lockTryAcquire_ok h1
  · cases hl
    exact giveLock_foremost h _
  · obtain ⟨k2, h2, hl⟩ := bind_ok_iff.mp hl
    obtain ⟨_, _, _, hf⟩ := lockAcquireDonate_frame hq h2
    refine lockAcquireWait_foremost ?_ (hq.lockAcquireDonate h2).1 hl
    intro hpos
    rw [hf.value, setThread_value, hz] at hpos
    cases hpos

theorem resumeCurrent_foremost (h : k.Foremost) (hq : k.QueueInv)
    (hr : k.resumeCurrent = .ok k') : k'.Foremost := by
  have hb : (k.setResume k.current .toCaller).QueueInv := hq.congr rfl rfl rfl rfl rfl rfl
  have hf : (k.setResume k.current .toCaller).Foremost := h.congr rfl (fun _ => rfl) rfl
  unfold resumeCurrent at hr
  simp only at hr
  split at hr
  · cases hr
    exact h
  · obtain ⟨⟨k1, b⟩, h1, heq⟩ := bind_ok_iff.mp hr
    cases heq
    exact semaDownLoop_foremost (fun _ => hf) hb h1
  · exact lockAcquireWait_foremost (fun _ => hf) hb hr

theorem threadExit_foremost (hq : k.QueueInv) (he : k.threadExit = .ok k') : k'.Foremost := by
  simp only [threadExit, bind_ok_iff, threadCurrent_ok_iff] at he
  obtain ⟨_, ⟨_, _, rfl⟩, hs⟩ := he
  rw [setThread_setThread] at hs
  refine schedule_foremost ?_ hs
  exact (descending_congr fun u _ =>
    (pri_setThread (k := k.setAllList (k.allList.erase k.current)) _ rfl u).symm).mp
    (hq.queues.sorted .ready (by simp))

theorem timerSleep_foremost {ticks : Int} (hq : k.QueueInv) (hs : k.timerSleep ticks = .ok k') :
    k'.Foremost := by
  obtain ⟨_, _, hs⟩ := threadCurrent_bind_ok hs
  obtain ⟨_, _, hb⟩ := threadCurrent_bind_ok hs
  refine threadBlock_foremost ?_ hb
  unfold listPushBack
  rw [setList_lists, Function.update_of_ne (by simp)]
  exact (descending_congr fun u _ => (pri_setThread _ rfl u).symm).mp
    (hq.queues.sorted .ready (by simp))

theorem threadSetPriority_foremost (h : k.Foremost) (hq : k.QueueInv)
    (hs : k.threadSetPriority p = .ok k') : k'.Foremost := by
  unfold threadSetPriority at hs
  split_ifs at hs with hm
  · cases hs
    exact h
  · simp only [bind_ok_iff, threadCurrent_ok_iff] at hs
    obtain ⟨_, ⟨_, _, rfl⟩, hs⟩ := hs
    have hd := (hq.setOwnPriority p).queues.sorted .ready (by simp)
    split_ifs at hs with hc
    · exact threadYield_foremost hd hs
    · cases hs
      apply foremost_of_not_lt hd
      rw [setOwnPriority_current]
      exact hc

theorem threadCalculatePriority_flag (hc : k.threadCalculatePriority t = .ok (k', flag)) :
    k'.current = k.current ∧ flag = decide (k'.pri t < k'.threadListTopPri .ready) := by
  unfold threadCalculatePriority at hc
  split at hc
  · cases hc
  · simp only [pure, Except.pure, Except.ok.injEq, Prod.mk.injEq] at hc
    obtain ⟨rfl, rfl⟩ := hc
    refine ⟨?_, rfl⟩
    split <;> rfl

theorem threadSetNice_foremost {nice : Int} (hq : k.QueueInv)
    (hs : k.threadSetNice nice = .ok k') : k'.Foremost := by
  simp only [threadSetNice, bind_ok_iff, assert_ok_iff, exists_const, threadCurrent_ok_iff] at hs
  obtain ⟨_, _, ⟨_, _, rfl⟩, ⟨k1, outranked⟩, hc, hs⟩ := hs
  have h1 := ((hq.setCurrent (.setNice nice) rfl rfl).threadCalculatePriority hq.running.1 hc).1
  obtain ⟨hcur, hflag⟩ := threadCalculatePriority_flag hc
  have hd := h1.queues.sorted .ready (by simp)
  cases outranked with
  | true => exact threadYield_foremost hd hs
  | false =>
    cases hs
    apply foremost_of_not_lt hd
    rw [hcur]
    exact of_decide_eq_false hflag.symm

theorem le_restoredPriority_of_staysBelow {locks : List LockRef} (hq : k.QueueInv)
    (hl : s.lists = k.lists) (hp : ∀ t, s.pri t = k.pri t)
    (ho : (s.threads k.current).originalPriority = (k.threads k.current).originalPriority)
    (ha : ∀ other ∈ locks, other ∈ (s.threads k.current).acquiredLocks)
    (ht : k.staysBelow locks t = true) : k.pri t ≤ s.restoredPriority k.current := by
  have hwaiters : ∀ lock, s.waitersOf lock = k.waitersOf lock := by
    intro lock
    unfold waitersOf
    rw [hl]
  obtain ⟨horig, hdonors⟩ := le_restoredPriority (k := s) (t := k.current)
    (fun lock _ => by
      rw [hwaiters]
      exact (descending_congr fun u _ => (hp u).symm).mp
        (hq.queues.sorted (.waiters (.ofLock lock)) (by simp)))
    (fun lock _ => by
      rw [hwaiters]
      exact hq.not_waiting)
  simp only [staysBelow, Bool.or_eq_true, decide_eq_true_eq, List.any_eq_true] at ht
  rcases ht with ht | ⟨other, hm, w, hw, hle⟩
  · rw [ho] at horig
    exact ht.trans horig
  · have hd := hdonors w (mem_donors.mpr ⟨other, ha other hm, (hwaiters other).symm ▸ hw⟩)
    rw [hp] at hd
    exact hle.trans hd

theorem foremost_setCurrent {x : Thread} (hq : k.QueueInv)
    (h : ∀ t ∈ k.lists .ready, k.pri t ≤ x.priority) :
    ((k.setThread k.current fun _ => x).setHolder lock none).Foremost := by
  intro t ht
  have hne : t ≠ k.current := by
    rintro rfl
    exact hq.absent _ ht
  have := h t ht
  simpa [pri, hne] using this

theorem lockReleaseOwner_foremost (h : k.Foremost) (hq : k.QueueInv)
    (hg : k.mlfqs = true ∨ ∀ t ∈ k.lists .ready,
      k.staysBelow ((k.threads k.current).acquiredLocks.erase lock) t = true)
    (hl : k.lockReleaseOwner lock = .ok k') : k'.Foremost := by
  obtain ⟨_, x, hx, rfl⟩ := lockReleaseOwner_ok hl
  refine foremost_setCurrent hq ?_
  intro t ht
  cases hm : k.mlfqs with
  | true =>
    rw [(hx.unmoved hm).1]
    exact h t ht
  | false =>
    rw [(hx.restored hm).1]
    refine le_restoredPriority_of_staysBelow hq rfl (fun u => pri_setThread _ rfl u) ?_ ?_
      (hg.resolve_left (by simp [hm]) t ht)
    · simp
    · simp

theorem withLock_foremost (h : k.Foremost) (hq : k.QueueInv)
    (hg : k.mlfqs = true ∨ ∀ t ∈ k.lists .ready,
      k.staysBelow (k.threads k.current).acquiredLocks t = true)
    (hl : k.withLock oldLevel lock = .ok k') : k'.Foremost := by
  obtain ⟨_, _, x, hx, rfl⟩ := withLock_ok hl
  refine foremost_setCurrent hq ?_
  intro t ht
  cases hm : k.mlfqs with
  | true =>
    rw [(hx.unmoved hm).1]
    exact h t ht
  | false =>
    obtain ⟨s, hlists, hpri, ho, ha, hp, _⟩ := hx.restored hm
    rw [hp]
    refine le_restoredPriority_of_staysBelow hq hlists hpri (ho.trans hx.originalPriority) ?_
      (hg.resolve_left (by simp [hm]) t ht)
    -- the lock that was taken in between is the one given back
    intro other hmem
    rw [ha, hx.acquiredLocks]
    have hperm := (List.perm_append_singleton lock (k.threads k.current).acquiredLocks).erase lock
    rw [List.erase_cons_head] at hperm
    exact hperm.mem_iff.mpr hmem

end Pintos.Threads.Kernel
