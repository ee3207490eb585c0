import Pintos.Threads.Locks.Frames

namespace Pintos.Threads

def Thread.kept (t : Thread) : Int × Int × Int × Fp × Int × Bool :=
  (t.start, t.sleep, t.priority, t.recentCpu, t.nice, t.recentlyUp)

namespace Kernel

variable {k k1 k' : Kernel} {t : ThreadRef} {oldLevel : IntrLevel} {flag : Bool}
  {sema : SemaRef} {lock : LockRef}

structure SwitchFrame (k k' : Kernel) : Prop where
  mlfqs : k'.mlfqs = k.mlfqs
  allList : k'.allList = k.allList
  ticks : k'.ticks = k.ticks
  loadAvg : k'.loadAvg = k.loadAvg
  loadAvgCoefficient : k'.loadAvgCoefficient = k.loadAvgCoefficient
  sleeping : k'.lists .sleeping = k.lists .sleeping
  kept : ∀ t, (k'.threads t).kept = (k.threads t).kept

theorem SwitchFrame.refl (k : Kernel) : k.SwitchFrame k :=
  ⟨rfl, rfl, rfl, rfl, rfl, rfl, fun _ => rfl⟩

theorem SwitchFrame.trans (h : k.SwitchFrame k1) (h' : k1.SwitchFrame k') : k.SwitchFrame k' where
  mlfqs := h'.mlfqs.trans h.mlfqs
  allList := h'.allList.trans h.allList
  ticks := h'.ticks.trans h.ticks
  loadAvg := h'.loadAvg.trans h.loadAvg
  loadAvgCoefficient := h'.loadAvgCoefficient.trans h.loadAvgCoefficient
  sleeping := h'.sleeping.trans h.sleeping
  kept t := (h'.kept t).trans (h.kept t)

theorem SwitchFrame.setThread (f : Thread → Thread)
    (hf : (f (k.threads t)).kept = (k.threads t).kept) : k.SwitchFrame (k.setThread t f) :=
  ⟨rfl, rfl, rfl, rfl, rfl, rfl, setThread_field Thread.kept f hf⟩

theorem SwitchFrame.setList (list : ListRef) (hne : list ≠ .sleeping) (elems : List ThreadRef) :
    k.SwitchFrame (k.setList list elems) :=
  ⟨rfl, rfl, rfl, rfl, rfl, Function.update_of_ne hne.symm _ _, fun _ => rfl⟩

theorem SwitchFrame.setValue (sema : SemaRef) (n : Nat) : k.SwitchFrame (k.setValue sema n) :=
  ⟨rfl, rfl, rfl, rfl, rfl, rfl, fun _ => rfl⟩

theorem SwitchFrame.setHolder (lock : LockRef) (holder : Option ThreadRef) :
    k.SwitchFrame (k.setHolder lock holder) :=
  ⟨rfl, rfl, rfl, rfl, rfl, rfl, fun _ => rfl⟩

theorem SwitchFrame.setResume (t : ThreadRef) (r : Resume) : k.SwitchFrame (k.setResume t r) :=
  ⟨rfl, rfl, rfl, rfl, rfl, rfl, fun _ => rfl⟩

theorem schedule_switch (hs : k.schedule = .ok k') : k.SwitchFrame k' := by
  obtain ⟨next, k1, hnext, _, rfl⟩ := schedule_ok hs
  have hpop : k.SwitchFrame k1 := by
    unfold nextThreadToRun at hnext
    split at hnext
    · obtain ⟨_, rfl⟩ := Prod.mk.inj hnext
      exact .refl k
    · rename_i top rest _
      obtain ⟨_, rfl⟩ := Prod.mk.inj hnext
      exact (SwitchFrame.setList .ready nofun rest).trans (.setThread (.setThreadPl none) rfl)
  have htail : k1.SwitchFrame ({ k1 with current := next }.threadScheduleTail
      (if k.current = next then none else some k.current)) := by
    have hrun := SwitchFrame.setThread (k := k1) (t := next) (.setStatus .running) rfl
    unfold threadScheduleTail
    simp only
    split
    · split_ifs
      · exact ⟨rfl, rfl, rfl, rfl, rfl, rfl, hrun.kept⟩
      · exact ⟨rfl, rfl, rfl, rfl, rfl, rfl, hrun.kept⟩
    · exact ⟨rfl, rfl, rfl, rfl, rfl, rfl, hrun.kept⟩
  exact hpop.trans htail

theorem threadBlock_switch (hb : k.threadBlock = .ok k') : k.SwitchFrame k' := by
  obtain ⟨_, _, hb⟩ := threadCurrent_bind_ok hb
  exact (SwitchFrame.setThread (.setStatus .blocked) rfl).trans (schedule_switch hb)

theorem threadYield_switch (hy : k.threadYield = .ok k') : k.SwitchFrame k' := by
  obtain ⟨_, _, hy⟩ := threadCurrent_bind_ok hy
  refine SwitchFrame.trans (SwitchFrame.trans ?_ (.setThread _ rfl)) (schedule_switch hy)
  split_ifs
  · exact (SwitchFrame.setList .ready nofun _).trans (.setThread (.setThreadPl (some .ready)) rfl)
  · exact .refl k

theorem makeReady_switch (k : Kernel) (t : ThreadRef) : k.SwitchFrame (k.makeReady t) :=
  ((SwitchFrame.setList .ready nofun _).trans (.setThread (.setThreadPl (some .ready)) rfl)).trans
    (.setThread (.setStatus .ready) rfl)

theorem threadUnblock_switch (hu : k.threadUnblock oldLevel t = .ok k') : k.SwitchFrame k' := by
  simp only [threadUnblock, bind_ok_iff, assert_ok_iff, exists_const] at hu
  obtain ⟨_, _, _, _, hu⟩ := hu
  split_ifs at hu
  · exact (makeReady_switch k t).trans (threadYield_switch hu)
  · cases hu
    exact makeReady_switch k t

theorem semaDownLoop_switch {onWake : Resume}
    (hd : k.semaDownLoop sema onWake = .ok (k', flag)) : k.SwitchFrame k' := by
  obtain ⟨_, _, hd⟩ := threadCurrent_bind_ok hd
  split_ifs at hd
  · obtain ⟨k1, hb, heq⟩ := bind_ok_iff.mp hd
    cases heq
    have hlink : k.SwitchFrame ((k.listInsertOrdered (.waiters sema) k.current).setThread
        k.current (.setThreadPl (some (.waiters sema)))) :=
      (SwitchFrame.setList (.waiters sema) nofun _).trans (.setThread _ rfl)
    exact (hlink.trans (.setResume _ _)).trans (threadBlock_switch hb)
  · cases hd
    exact .setValue sema _

theorem semaUp_switch (hu : k.semaUp oldLevel sema = .ok k') : k.SwitchFrame k' := by
  unfold semaUp at hu
  simp only at hu
  split at hu
  · cases hu
    exact .setValue sema _
  · exact ((SwitchFrame.setValue sema _).trans (.setList (.waiters sema) nofun _)).trans
      (threadUnblock_switch hu)

theorem giveLock_switch (k : Kernel) (lock : LockRef) (t : ThreadRef) :
    k.SwitchFrame (k.giveLock lock t) :=
  ((SwitchFrame.setHolder lock (some t)).trans (.setThread (.setWaitingForTlock none) rfl)).trans
    (.setThread (.setAcquiredLocks ((k.threads t).acquiredLocks ++ [lock])) rfl)

theorem lockTryAcquire_switch (hl : k.lockTryAcquire lock = .ok (k', flag)) : k.SwitchFrame k' := by
  obtain ⟨_, ⟨_, _, rfl⟩ | ⟨_, _, rfl⟩⟩ := lockTryAcquire_ok hl
  · exact (SwitchFrame.setValue (.ofLock lock) _).trans (giveLock_switch _ lock _)
  · exact .refl _

theorem lockAcquireWait_switch (hl : k.lockAcquireWait lock = .ok k') : k.SwitchFrame k' := by
  obtain ⟨_, _, hl⟩ := threadCurrent_bind_ok hl
  obtain ⟨⟨k1, success⟩, h1, heq⟩ := bind_ok_iff.mp hl
  have hdown := semaDownLoop_switch h1
  cases success with
  | true =>
    cases heq
    exact hdown.trans (giveLock_switch k1 lock _)
  | false =>
    cases heq
    exact hdown

theorem resumeCurrent_switch (hr : k.resumeCurrent = .ok k') : k.SwitchFrame k' := by
  have hback : k.SwitchFrame (k.setResume k.current .toCaller) := .setResume _ _
  unfold resumeCurrent at hr
  simp only at hr
  split at hr
  · cases hr
    exact .refl k
  · obtain ⟨⟨k1, success⟩, h1, heq⟩ := bind_ok_iff.mp hr
    cases heq
    exact hback.trans (semaDownLoop_switch h1)
  · exact hback.trans (lockAcquireWait_switch hr)

end Kernel

end Pintos.Threads
