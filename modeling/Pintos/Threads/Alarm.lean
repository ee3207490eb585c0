import Pintos.Threads.ReadyQueue
import Pintos.Threads.Preemption.Theorems
import Pintos.Threads.Switch

namespace Pintos.Threads

def Thread.alarm (t : Thread) : Int × Int := (t.start, t.sleep)

namespace Kernel

variable {k k1 k' : Kernel} {t u : ThreadRef} {list : ListRef} {oldLevel : IntrLevel} {flag : Bool}
  {sema : SemaRef} {lock : LockRef} {op : Op} {p : Int}

def alarm (k : Kernel) (t : ThreadRef) : Int × Int := (k.threads t).alarm

-- The same threads sleep in both states, with the same alarms at the same tick.
structure AlarmFrame (k k' : Kernel) : Prop where
  ticks : k'.ticks = k.ticks
  sleeping : k'.lists .sleeping = k.lists .sleeping
  alarm : ∀ t ∈ k.lists .sleeping, k'.alarm t = k.alarm t

theorem AlarmFrame.refl (k : Kernel) : k.AlarmFrame k := ⟨rfl, rfl, fun _ _ => rfl⟩

theorem AlarmFrame.trans (h : k.AlarmFrame k1) (h' : k1.AlarmFrame k') : k.AlarmFrame k' where
  ticks := h'.ticks.trans h.ticks
  sleeping := h'.sleeping.trans h.sleeping
  alarm t ht := (h'.alarm t (h.sleeping ▸ ht)).trans (h.alarm t ht)

theorem SwitchFrame.alarms (h : k.SwitchFrame k') : k.AlarmFrame k' :=
  ⟨h.ticks, h.sleeping, fun t _ => congrArg (fun x => (x.1, x.2.1)) (h.kept t)⟩

theorem AlarmFrame.setThread (f : Thread → Thread)
    (hf : (f (k.threads t)).alarm = (k.threads t).alarm) : k.AlarmFrame (k.setThread t f) :=
  ⟨rfl, rfl, fun u _ => setThread_field Thread.alarm f hf u⟩

theorem AlarmFrame.setAwake (ht : t ∉ k.lists .sleeping) (f : Thread → Thread) :
    k.AlarmFrame (k.setThread t f) := by
  refine ⟨rfl, rfl, fun u hu => ?_⟩
  have hne : u ≠ t := fun heq => ht (heq ▸ hu)
  rw [Kernel.alarm, setThread_threads_ne _ _ hne, Kernel.alarm]

theorem AlarmFrame.setList (list : ListRef) (hne : list ≠ .sleeping) (elems : List ThreadRef) :
    k.AlarmFrame (k.setList list elems) :=
  ⟨rfl, Function.update_of_ne hne.symm _ _, fun _ _ => rfl⟩

theorem AlarmFrame.congr (ht : k'.ticks = k.ticks) (hl : k'.lists = k.lists)
    (hthreads : k'.threads = k.threads) : k.AlarmFrame k' :=
  ⟨ht, by rw [hl], fun u _ => by rw [Kernel.alarm, hthreads, Kernel.alarm]⟩

theorem threadExit_alarms (hx : k.threadExit = .ok k') : k.AlarmFrame k' := by
  simp only [threadExit, bind_ok_iff, threadCurrent_ok_iff, setThread_setThread] at hx
  obtain ⟨_, ⟨_, _, rfl⟩, hs⟩ := hx
  have hunlist : k.AlarmFrame (k.setAllList (k.allList.erase k.current)) := .congr rfl rfl rfl
  exact (hunlist.trans (.setThread _ rfl)).trans (schedule_switch hs).alarms

theorem setOwnPriority_alarms (k : Kernel) (t : ThreadRef) (p : Int) :
    k.AlarmFrame (k.setOwnPriority t p) := by
  have horiginal : k.AlarmFrame (k.setThread t (.setOriginalPriority p)) := .setThread _ rfl
  unfold setOwnPriority
  simp only
  split_ifs
  · rw [setThread_setThread _ t (.setPriority p)]
    exact horiginal.trans (.setThread _ rfl)
  · exact horiginal
  · exact horiginal.trans (.setThread _ rfl)

theorem threadSetPriority_alarms (hx : k.threadSetPriority p = .ok k') : k.AlarmFrame k' := by
  unfold threadSetPriority at hx
  split_ifs at hx
  · cases hx
    exact .refl k
  · simp only [bind_ok_iff] at hx
    obtain ⟨cur, _, hx⟩ := hx
    split_ifs at hx
    · exact (setOwnPriority_alarms k cur p).trans (threadYield_switch hx).alarms
    · cases hx
      exact setOwnPriority_alarms k cur p

-- A thread that a queue links is not asleep, so that moving it in its queue wakes nobody.
theorem listUpdateElem_alarms (hne : list ≠ .sleeping) (ht : t ∉ k.lists .sleeping) :
    k.AlarmFrame (k.listUpdateElem list t) := by
  have hremove : k.AlarmFrame (k.listRemove t) := ⟨rfl, List.erase_of_not_mem ht, fun _ _ => rfl⟩
  exact hremove.trans (.setList list hne _)

section

variable (h : k.QueueInv)
include h

theorem QueueInv.not_sleeping (hv : k.live t = true) (hl : (k.threads t).threadPl = some list) :
    list ≠ .sleeping ∧ t ∉ k.lists .sleeping := by
  obtain ⟨hne, hm⟩ := (h.queues.threadPl t hv list).mp hl
  exact ⟨hne, fun hs => hne (h.queues.unique hm hs)⟩

theorem threadCalculatePriority_alarms (hv : k.live t = true)
    (hc : k.threadCalculatePriority t = .ok (k', flag)) : k.AlarmFrame k' := by
  obtain ⟨p, _, ⟨_, rfl⟩ | ⟨list, hl, rfl⟩⟩ := threadCalculatePriority_ok hc
  · exact .setThread _ rfl
  · obtain ⟨hne, hs⟩ := h.not_sleeping hv hl
    have hpri : k.AlarmFrame (k.setThread t (.setPriority p)) := .setThread _ rfl
    exact hpri.trans (listUpdateElem_alarms hne hs)

theorem threadSetNice_alarms {n : Int} (hx : k.threadSetNice n = .ok k') : k.AlarmFrame k' := by
  simp only [threadSetNice, bind_ok_iff, assert_ok_iff, exists_const, threadCurrent_ok_iff] at hx
  obtain ⟨_, _, ⟨_, _, rfl⟩, ⟨k1, outranked⟩, hc, hx⟩ := hx
  have hnice : k.AlarmFrame (k.setThread k.current (.setNice n)) := .setThread _ rfl
  have hcalc := hnice.trans (threadCalculatePriority_alarms (h.setCurrent (.setNice n) rfl rfl)
    h.running.1 hc)
  cases outranked with
  | true => exact hcalc.trans (threadYield_switch hx).alarms
  | false =>
    cases hx
    exact hcalc

theorem lockDonate_alarms {count : Nat} {cur : Option ThreadRef}
    (hd : lockDonate count cur p k = .ok k') : k.AlarmFrame k' := by
  refine (lockDonate_induct (P := k.AlarmFrame) h hd (.refl k)
    fun k1 t list h1 hk hlive hl => ?_).2
  obtain ⟨hne, hs⟩ := h1.not_sleeping hlive hl
  have hpri : k1.AlarmFrame (k1.setThread t fun x => (x.setPriority p).setDonated true) :=
    .setThread _ rfl
  exact (hk.trans hpri).trans (listUpdateElem_alarms hne hs)

theorem lockAcquire_alarms (hl : k.lockAcquire lock = .ok k') : k.AlarmFrame k' := by
  obtain ⟨_, _, hl⟩ := threadCurrent_bind_ok hl
  obtain ⟨⟨k1, success⟩, h1, hl⟩ := bind_ok_iff.mp hl
  have htry := (lockTryAcquire_switch h1).alarms
  obtain ⟨_, ⟨rfl, _, rfl⟩ | ⟨rfl, _, rfl⟩⟩ := lockTryAcquire_ok h1
  · cases hl
    exact htry
  · obtain ⟨k2, h2, hl⟩ := bind_ok_iff.mp hl
    have hdonate : k1.AlarmFrame k2 := by
      obtain ⟨holder, _, _, ⟨_, rfl⟩ | ⟨_, _, hd⟩⟩ := lockAcquireDonate_ok h2
      · exact .setThread _ rfl
      · exact AlarmFrame.trans (.setThread _ rfl)
          (lockDonate_alarms (h.setCurrent _ rfl rfl) hd)
    exact hdonate.trans (lockAcquireWait_switch hl).alarms

theorem releaseOwner_alarms (lock : LockRef) (x : Thread) :
    k.AlarmFrame ((k.setThread k.current fun _ => x).setHolder lock none) :=
  (AlarmFrame.setAwake (h.absent _) fun _ => x).trans (.congr rfl rfl rfl)

theorem lockRelease_alarms (hl : k.lockRelease oldLevel lock = .ok k') : k.AlarmFrame k' := by
  obtain ⟨k1, h1, hl⟩ := bind_ok_iff.mp hl
  obtain ⟨-, x, -, rfl⟩ := lockReleaseOwner_ok h1
  exact (releaseOwner_alarms h lock x).trans (semaUp_switch hl).alarms

theorem withLock_alarms (hl : k.withLock oldLevel lock = .ok k') : k.AlarmFrame k' := by
  obtain ⟨-, -, x, -, rfl⟩ := withLock_ok hl
  exact releaseOwner_alarms h lock x

theorem allocateTid_alarms (ha : k.allocateTid oldLevel t = .ok k') : k.AlarmFrame k' := by
  have htid : k.AlarmFrame ((k.setThread t (.setTid k.nextTid)).setNextTid (k.nextTid + 1)) :=
    (AlarmFrame.setThread (.setTid k.nextTid) rfl).trans (.congr rfl rfl rfl)
  refine htid.trans (withLock_alarms ?_ ha)
  exact (h.setThread (.setTid k.nextTid) rfl rfl fun _ _ _ => rfl).congr rfl rfl rfl rfl rfl rfl

end

theorem initThread_alarms (ht : t ∉ k.lists .sleeping)
    (hi : k.initThread t p = .ok k') : k.AlarmFrame k' := by
  simp only [initThread, bind_ok_iff, assert_ok_iff, exists_const] at hi
  obtain ⟨_, heq⟩ := hi
  cases heq
  refine ⟨rfl, rfl, fun u hu => ?_⟩
  have hne : u ≠ t := fun heq => ht (heq ▸ hu)
  simp [alarm, hne]

theorem threadCreate_alarms {page : Option ThreadRef} (h : k.QueueInv)
    (hpage : ∀ t, page = some t → k.live t = false)
    (hc : k.threadCreate oldLevel page p = .ok k') : k.AlarmFrame k' := by
  obtain ⟨k1, h1, hc⟩ := bind_ok_iff.mp hc
  have hpool := withLock_alarms h h1
  cases page with
  | none =>
    cases hc
    exact hpool
  | some t =>
    simp only [bind_ok_iff] at hc
    obtain ⟨k2, h2, k3, h3, hc⟩ := hc
    have hv : k1.live t = false := by
      rw [(withLock_frame h1).2.1]
      exact hpage t rfl
    obtain ⟨hq2, -⟩ := (h.withLock h1).initThread hv h2
    have ht : t ∉ k1.lists .sleeping := by
      intro hm
      have hlive := ((h.withLock h1).queues.member _ _ hm).1
      rw [hv] at hlive
      cases hlive
    exact ((hpool.trans (initThread_alarms ht h2)).trans (allocateTid_alarms hq2 h3)).trans
      (threadUnblock_switch hc).alarms

theorem timerSleep_alarms {ticks : Int} (hx : k.timerSleep ticks = .ok k') :
    k'.ticks = k.ticks ∧ k'.lists .sleeping = k.lists .sleeping ++ [k.current] ∧
      k'.alarm k.current = (k.ticks, ticks) ∧
      ∀ t ∈ k.lists .sleeping, t ≠ k.current → k'.alarm t = k.alarm t := by
  obtain ⟨_, _, hx⟩ := threadCurrent_bind_ok hx
  obtain ⟨_, _, hx⟩ := threadCurrent_bind_ok hx
  have hblock := (threadBlock_switch hx).alarms
  have hsleeping : ((k.setThread k.current (.setAlarm k.ticks ticks)).listPushBack .sleeping
      (k.setThread k.current (.setAlarm k.ticks ticks)).current).lists .sleeping =
        k.lists .sleeping ++ [k.current] := by
    simp [listPushBack]
  refine ⟨hblock.ticks, hblock.sleeping.trans hsleeping, ?_, fun t ht hne => ?_⟩
  · rw [hblock.alarm k.current (hsleeping ▸ List.mem_append_right _ List.mem_cons_self)]
    simp [alarm, listPushBack, Thread.alarm]
  · rw [hblock.alarm t (hsleeping ▸ List.mem_append_left _ ht)]
    simp [alarm, listPushBack, hne]

theorem recomputes_alarms : Recomputes AlarmFrame where
  refl := .refl
  trans := .trans
  recentCpu _ _ _ := .setThread _ rfl
  recentlyUp _ _ := .setThread _ rfl
  loadAvg _ _ _ := .congr rfl rfl rfl
  priority h hv hc := AlarmFrame.trans (.setThread (.setRecentlyUp false) rfl)
    (threadCalculatePriority_alarms (h.setThread _ rfl rfl fun _ _ _ => rfl) hv hc)

inductive AlarmStep (k : Kernel) : Op → Kernel → Prop
  | quiet {op : Op} {k' : Kernel} (hop : op ≠ .timerInterrupt ∧ ∀ ticks, op ≠ .timerSleep ticks)
      (hf : k.AlarmFrame k') : AlarmStep k op k'
  | sleep {ticks : Int} {k' : Kernel} (ht : k'.ticks = k.ticks)
      (hl : k'.lists .sleeping = k.lists .sleeping ++ [k.current])
      (hcur : k'.alarm k.current = (k.ticks, ticks))
      (hrest : ∀ t ∈ k.lists .sleeping, t ≠ k.current → k'.alarm t = k.alarm t) :
      AlarmStep k (.timerSleep ticks) k'
  | tick {k' : Kernel} (hf : k.countTick.wakeSleepers.AlarmFrame k') :
      AlarmStep k .timerInterrupt k'

theorem exec_alarmStep (h : k.QueueInv) (he : k.Enabled op) (hx : k.exec op = .ok k') :
    AlarmStep k op k' := by
  cases op with
  | threadCreate oldLevel page p =>
    exact .quiet ⟨nofun, nofun⟩ (threadCreate_alarms h (callable_threadCreate he.2.2) hx)
  | threadBlock => exact .quiet ⟨nofun, nofun⟩ (threadBlock_switch hx).alarms
  | threadUnblock oldLevel t => exact .quiet ⟨nofun, nofun⟩ (threadUnblock_switch hx).alarms
  | threadYield => exact .quiet ⟨nofun, nofun⟩ (threadYield_switch hx).alarms
  | threadExit => exact .quiet ⟨nofun, nofun⟩ (threadExit_alarms hx)
  | threadSetPriority p => exact .quiet ⟨nofun, nofun⟩ (threadSetPriority_alarms hx)
  | threadSetNice n => exact .quiet ⟨nofun, nofun⟩ (threadSetNice_alarms h hx)
  | timerSleep ticks =>
    obtain ⟨ht, hl, hcur, hrest⟩ := timerSleep_alarms hx
    exact .sleep ht hl hcur hrest
  | timerInterrupt =>
    obtain ⟨k1, yieldOnReturn, htick, hreturn⟩ := timerInterrupt_ok hx
    obtain ⟨k2, recomputed, h2, rfl, -⟩ := threadTick_ok htick
    have hwoken : k.countTick.wakeSleepers.AlarmFrame k2.countThreadTick :=
      (recomputes_alarms.mlfqsTick h.countTick.wakeSleepers h2).2.trans (.congr rfl rfl rfl)
    rcases hreturn with ⟨-, hy⟩ | ⟨-, rfl⟩
    · exact .tick (hwoken.trans (threadYield_switch hy).alarms)
    · exact .tick hwoken
  | semaInit sema n =>
    cases hx
    exact .quiet ⟨nofun, nofun⟩ (.congr rfl rfl rfl)
  | semaDown sema =>
    obtain ⟨⟨k1, success⟩, h1, heq⟩ := bind_ok_iff.mp hx
    cases heq
    exact .quiet ⟨nofun, nofun⟩ (semaDownLoop_switch h1).alarms
  | semaTryDown sema =>
    cases hx
    refine .quiet ⟨nofun, nofun⟩ ?_
    unfold semaTryDown
    split_ifs
    · exact .congr rfl rfl rfl
    · exact .refl k
  | semaUp oldLevel sema => exact .quiet ⟨nofun, nofun⟩ (semaUp_switch hx).alarms
  | lockAcquire lock => exact .quiet ⟨nofun, nofun⟩ (lockAcquire_alarms h hx)
  | lockTryAcquire lock =>
    obtain ⟨⟨k1, success⟩, h1, heq⟩ := bind_ok_iff.mp hx
    cases heq
    exact .quiet ⟨nofun, nofun⟩ (lockTryAcquire_switch h1).alarms
  | lockRelease oldLevel lock => exact .quiet ⟨nofun, nofun⟩ (lockRelease_alarms h hx)
  | resume => exact .quiet ⟨nofun, nofun⟩ (resumeCurrent_switch hx).alarms

end Kernel

end Pintos.Threads
