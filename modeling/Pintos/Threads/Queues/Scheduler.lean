import Pintos.Threads.Queues.Lemmas

namespace Pintos.Threads.Kernel

open Function Lib

variable {k k' k1 s : Kernel} {t u next : ThreadRef} {list : ListRef} {flag : Bool}

theorem Queues.free (h : k.Queues) (ha : ∀ list, t ∉ k.lists list) (hi : some t ≠ k.idleThread) :
    Queues { k with live := update k.live t false } := by
  have hne : ∀ {list u}, u ∈ k.lists list → u ≠ t := by
    rintro list u hu rfl
    exact ha list hu
  have hlive : ∀ {u}, update k.live t false u = true → k.live u = true := by
    intro u hu
    by_cases he : u = t
    · subst he
      simp at hu
    · rwa [update_of_ne he] at hu
  constructor
  · intro list u hu
    refine ⟨?_, (h.member list u hu).2⟩
    change update k.live t false u = true
    rw [update_of_ne (hne hu)]
    exact (h.member list u hu).1
  · intro u hu
    exact h.ready u (hlive hu)
  · exact h.nodup
  · exact h.sorted
  · intro u hu
    exact h.threadPl u (hlive hu)
  · exact h.sleeping
  · intro u hu
    refine ⟨?_, (h.idle u hu).2⟩
    change update k.live t false u = true
    rw [update_of_ne]
    · exact (h.idle u hu).1
    · rintro rfl
      exact hi hu.symm

theorem AllListed.setThread (h : k.AllListed) (f : Thread → Thread)
    (hs : (f (k.threads t)).status = .dying ↔ (k.threads t).status = .dying) :
    (k.setThread t f).AllListed := by
  refine ⟨h.1, ?_⟩
  intro u
  rw [setThread_allList, h.2 u]
  by_cases hu : u = t
  · subst hu
    simp [hs]
  · rw [setThread_threads_ne k f hu]
    rfl

theorem AllListed.free (h : k.AllListed) (hd : (k.threads t).status = .dying) :
    AllListed { k with live := update k.live t false } := by
  refine ⟨h.1, ?_⟩
  intro u
  change u ∈ k.allList ↔ update k.live t false u = true ∧ _
  rw [h.2 u]
  by_cases hu : u = t
  · subst hu
    simp [hd]
  · rw [update_of_ne hu]

theorem AllListed.congr (h : k.AllListed) (hs : ∀ t, (s.threads t).status = (k.threads t).status)
    (hv : s.live = k.live) (hl : s.allList = k.allList) : s.AllListed := by
  unfold AllListed
  rw [hv, hl]
  simp only [hs]
  exact h

theorem Queues.nextThreadToRun (h : k.Queues) (he : k.nextThreadToRun = (some next, k1)) :
    k1.Loose next ∧ (k1.threads next).threadPl = none ∧ (k.threads next).status ≠ .dying ∧
      (∀ t, (k1.threads t).status = (k.threads t).status) ∧ k1.live = k.live ∧
      k1.idleThread = k.idleThread ∧ k1.allList = k.allList := by
  unfold Kernel.nextThreadToRun at he
  split at he
  · obtain ⟨hi, rfl⟩ := Prod.mk.inj he
    obtain ⟨hv, hd, ha⟩ := h.idle next hi
    exact ⟨h.loose ha, h.threadPl_eq_none hv ha, hd, fun _ => rfl, rfl, rfl, rfl⟩
  · rename_i top rest hl
    obtain ⟨ht, rfl⟩ := Prod.mk.inj he
    obtain rfl := Option.some.inj ht
    refine ⟨(h.popFront hl).setThread _, by simp, ?_, ?_, rfl, rfl, rfl⟩
    · have hs := (h.member .ready top (by simp [hl])).2
      rw [hs]
      simp [ListRef.status]
    · intro t
      by_cases heq : t = top
      · subst heq
        simp
      · simp [heq]

theorem schedule_ok (hs : k.schedule = .ok k') :
    ∃ next k1, k.nextThreadToRun = (some next, k1) ∧ k1.live next = true ∧
      k' = { k1 with current := next }.threadScheduleTail
        (if k.current = next then none else some k.current) := by
  unfold schedule at hs
  simp only [bind_ok_iff, assert_ok_iff, exists_const] at hs
  obtain ⟨_, hs⟩ := hs
  split at hs
  · cases hs
  · rename_i next hn
    simp only [bind_ok_iff, assert_ok_iff, exists_const] at hs
    obtain ⟨hv, hs⟩ := hs
    exact ⟨next, k.nextThreadToRun.2, Prod.ext hn rfl, hv, (Except.ok.inj hs).symm⟩

theorem oneRunning_of_others (hv : k.live k.current = true)
    (hr : (k.threads k.current).status = .running)
    (hother : ∀ t, t ≠ k.current → k.live t = true → (k.threads t).status ≠ .running) :
    k.OneRunning := by
  refine ⟨hv, fun t ht => ⟨fun hs => ?_, fun heq => heq ▸ hr⟩⟩
  by_contra hne
  exact hother t hne ht hs

theorem schedule_queueInv (h : k.Queues) (hn : k.NoneRunning) (hall : k.AllListed)
    (hs : k.schedule = .ok k') : k'.QueueInv := by
  obtain ⟨next, k1, he, hv, rfl⟩ := schedule_ok hs
  obtain ⟨hl, hpl, hnd, hst, hlive, hidle, hlist⟩ := h.nextThreadToRun he
  have hq : (k1.setThread next (.setStatus .running)).Queues := by
    apply (hl.setThread _).settle
    · simp
    · simp
    · simpa using hpl
  -- the threads other than `next` keep their status, and none of them runs
  have hother : ∀ t, t ≠ next → k.live t = true →
      ((k1.setThread next (.setStatus .running)).threads t).status ≠ .running := by
    intro t ht htv
    rw [setThread_threads_ne _ _ ht, hst t]
    exact hn.2 t htv
  have hall' : (k1.setThread next (.setStatus .running)).AllListed := by
    apply (hall.congr hst hlive hlist).setThread
    simp only [Thread.setStatus_status, reduceCtorEq, false_iff]
    rwa [hst]
  by_cases hc : k.current = next
  · rw [if_pos hc]
    refine ⟨hq.congr rfl rfl rfl rfl, oneRunning_of_others hv ?_ ?_, hall'⟩
    · simp [threadScheduleTail]
    · exact fun t htn ht => hother t htn (hlive ▸ ht)
  · rw [if_neg hc]
    have hcur : ((k1.setThread next (.setStatus .running)).threads
        k.current).status = (k.threads k.current).status := by
      rw [setThread_threads_ne _ _ hc, hst]
    unfold threadScheduleTail
    simp only
    split_ifs with hd
    · have hdy : (k.threads k.current).status = .dying := hcur ▸ hd.1
      have ha : ∀ list, k.current ∉ (k1.setThread next (.setStatus .running)).lists list := by
        apply hq.absent
        · rw [hcur, hdy]; simp
        · rw [hcur, hdy]; simp
      have hi : some k.current ≠ k1.idleThread := by
        intro hi
        exact (h.idle _ (hidle ▸ hi.symm)).2.1 hdy
      refine ⟨(hq.free ha hi).congr rfl rfl rfl rfl, oneRunning_of_others ?_ (by simp) ?_,
        hall'.free hd.1⟩
      · change update k1.live k.current false next = true
        rw [update_of_ne (Ne.symm hc)]
        exact hv
      · intro t htn ht
        refine hother t htn ?_
        change update k1.live k.current false t = true at ht
        by_cases htc : t = k.current
        · subst htc
          simp at ht
        · rwa [update_of_ne htc, hlive] at ht
    · exact ⟨hq.congr rfl rfl rfl rfl,
        oneRunning_of_others hv (by simp) fun t htn ht => hother t htn (hlive ▸ ht), hall'⟩

section

variable (h : k.OneRunning)
include h

theorem OneRunning.congr (hs : ∀ t, (s.threads t).status = (k.threads t).status)
    (hv : s.live = k.live) (hc : s.current = k.current) : s.OneRunning := by
  unfold OneRunning
  rw [hv, hc]
  refine ⟨h.1, ?_⟩
  intro t ht
  rw [hs]
  exact h.2 t ht

theorem OneRunning.status : (k.threads k.current).status = .running := (h.2 k.current h.1).mpr rfl

theorem OneRunning.ne_current (hs : (k.threads t).status ≠ .running) : t ≠ k.current := by
  rintro rfl
  exact hs h.status

theorem OneRunning.setThread (f : Thread → Thread)
    (hs : (f (k.threads t)).status = (k.threads t).status) : (k.setThread t f).OneRunning := by
  refine h.congr (s := k.setThread t f) ?_ rfl rfl
  intro u
  by_cases hu : u = t
  · subst hu
    simpa using hs
  · rw [setThread_threads_ne k f hu]

theorem OneRunning.setOther (f : Thread → Thread) (hne : t ≠ k.current)
    (hs : (f (k.threads t)).status ≠ .running) : (k.setThread t f).OneRunning := by
  refine ⟨h.1, ?_⟩
  intro u hu
  by_cases he : u = t
  · subst he
    rw [setThread_threads_self]
    exact iff_of_false hs hne
  · rw [setThread_threads_ne k f he]
    exact h.2 u hu

theorem OneRunning.park (f : Thread → Thread) (hs : (f (k.threads k.current)).status ≠ .running) :
    (k.setThread k.current f).NoneRunning := by
  refine ⟨h.1, ?_⟩
  intro t ht
  by_cases hc : t = k.current
  · subst hc
    simpa using hs
  · rw [setThread_threads_ne k f hc]
    exact fun hr => hc ((h.2 t ht).mp hr)

end

section

variable (h : k.QueueInv)
include h

theorem QueueInv.absent (list : ListRef) : k.current ∉ k.lists list := by
  have hs := h.running.status
  apply h.queues.absent <;> rw [hs] <;> simp

theorem QueueInv.threadPl : (k.threads k.current).threadPl = none :=
  h.queues.threadPl_eq_none h.running.1 h.absent

theorem QueueInv.congr (ht : s.threads = k.threads) (hv : s.live = k.live)
    (hl : s.lists = k.lists) (hi : s.idleThread = k.idleThread) (hc : s.current = k.current)
    (ha : s.allList = k.allList) : s.QueueInv where
  queues := h.queues.congr ht hv hl hi
  running := h.running.congr (fun _ => by rw [ht]) hv hc
  allListed := h.allListed.congr (fun _ => by rw [ht]) hv ha

theorem QueueInv.setThread (f : Thread → Thread)
    (hs : (f (k.threads t)).status = (k.threads t).status)
    (hp : (f (k.threads t)).threadPl = (k.threads t).threadPl)
    (hpri : ∀ list, list ≠ .sleeping → t ∈ k.lists list →
      (f (k.threads t)).priority = (k.threads t).priority) : (k.setThread t f).QueueInv where
  queues := h.queues.setThread f hs hp hpri
  running := h.running.setThread f hs
  allListed := h.allListed.setThread f (by rw [hs])

theorem QueueInv.setCurrent (f : Thread → Thread)
    (hs : (f (k.threads k.current)).status = (k.threads k.current).status)
    (hp : (f (k.threads k.current)).threadPl = (k.threads k.current).threadPl) :
    (k.setThread k.current f).QueueInv :=
  h.setThread f hs hp fun list _ hm => absurd hm (h.absent list)

end

theorem threadBlock_queueInv (hr : k.OneRunning) (hall : k.AllListed)
    (h : (k.setThread k.current (.setStatus .blocked)).Queues)
    (hb : k.threadBlock = .ok k') : k'.QueueInv := by
  obtain ⟨_, hst, hs⟩ := threadCurrent_bind_ok hb
  exact schedule_queueInv h (hr.park _ (by simp)) (hall.setThread _ (by simp [hst])) hs

theorem QueueInv.threadBlock (h : k.QueueInv) (hb : k.threadBlock = .ok k') : k'.QueueInv := by
  apply threadBlock_queueInv h.running h.allListed ?_ hb
  apply ((h.queues.loose h.absent).setThread _).settle
  · simp
  · simp
  · simpa using h.threadPl

theorem Loose.makeReady (h : k.Loose t) (hv : k.live t = true) (hi : some t ≠ k.idleThread) :
    (k.makeReady t).Queues := by
  unfold Kernel.makeReady
  rw [setThread_setThread, listInsertOrdered_setThread]
  · exact (h.setThread _).insertOrdered hv hi (by simp) (by simp [ListRef.status]) (by simp)
  · intro x
    rfl

theorem OneRunning.makeReady (h : k.OneRunning) (hne : t ≠ k.current) :
    (k.makeReady t).OneRunning := by
  unfold Kernel.makeReady
  rw [setThread_setThread]
  exact (h.congr (s := k.listInsertOrdered .ready t) (fun _ => rfl) rfl rfl).setOther _ hne
    (by simp)

theorem AllListed.makeReady (h : k.AllListed) (hd : (k.threads t).status ≠ .dying) :
    (k.makeReady t).AllListed := by
  unfold Kernel.makeReady
  rw [setThread_setThread]
  exact (h.congr (s := k.listInsertOrdered .ready t) (fun _ => rfl) rfl rfl).setThread _
    (by simp [hd])

theorem QueueInv.threadYield (h : k.QueueInv) (hy : k.threadYield = .ok k') : k'.QueueInv := by
  obtain ⟨_, hst, hs⟩ := threadCurrent_bind_ok hy
  have hloose := h.queues.loose h.absent
  split_ifs at hs with hi
  · refine schedule_queueInv (hloose.makeReady h.running.1 hi) ?_
      (h.allListed.makeReady (by simp [hst])) hs
    unfold Kernel.makeReady
    rw [setThread_setThread]
    exact (h.running.congr (s := k.listInsertOrdered .ready k.current)
      (fun _ => rfl) rfl rfl).park _ (by simp)
  · refine schedule_queueInv ?_ (h.running.park _ (by simp))
      (h.allListed.setThread _ (by simp [hst])) hs
    apply (hloose.setThread _).settle
    · simpa [eq_comm] using hi
    · simp
    · simpa using h.threadPl

theorem Loose.threadUnblock {oldLevel : IntrLevel} (h : k.Loose t) (hr : k.OneRunning)
    (hall : k.AllListed) (hi : some t ≠ k.idleThread)
    (hu : k.threadUnblock oldLevel t = .ok k') : k'.QueueInv := by
  simp only [Kernel.threadUnblock, bind_ok_iff, assert_ok_iff, exists_const,
    threadCurrent_ok_iff] at hu
  obtain ⟨hv, hb, _, ⟨_, _, rfl⟩, hu⟩ := hu
  have hready : (k.makeReady t).QueueInv :=
    ⟨h.makeReady hv hi, hr.makeReady (hr.ne_current (by simp [hb])), hall.makeReady (by simp [hb])⟩
  split_ifs at hu
  · exact hready.threadYield hu
  · cases hu
    exact hready

theorem QueueInv.threadExit (h : k.QueueInv) (hi : some k.current ≠ k.idleThread)
    (he : k.threadExit = .ok k') : k'.QueueInv := by
  simp only [Kernel.threadExit, bind_ok_iff, threadCurrent_ok_iff] at he
  obtain ⟨_, ⟨_, _, rfl⟩, hs⟩ := he
  rw [setThread_setThread] at hs
  have hq : Kernel.Queues { k with allList := k.allList.erase k.current } :=
    h.queues.congr rfl rfl rfl rfl
  have hr : Kernel.OneRunning { k with allList := k.allList.erase k.current } :=
    h.running.congr (fun _ => rfl) rfl rfl
  refine schedule_queueInv ?_ (hr.park _ (by simp)) ?_ hs
  · apply ((hq.loose h.absent).setThread _).settle
    · simp
    · intro he
      exact absurd he hi
    · simp
  · refine ⟨h.allListed.1.erase _, ?_⟩
    intro t
    change t ∈ k.allList.erase k.current ↔ _
    by_cases ht : t = k.current
    · subst ht
      simp [h.allListed.1.not_mem_erase]
    · rw [List.mem_erase_of_ne ht, setThread_threads_ne _ _ ht]
      exact h.allListed.2 t

theorem QueueInv.listRemove_makeReady (h : k.QueueInv) (hv : k.live t = true)
    (hi : some t ≠ k.idleThread) (hne : t ≠ k.current) (hd : (k.threads t).status ≠ .dying) :
    ((k.listRemove t).makeReady t).QueueInv where
  queues := (h.queues.listRemove t).makeReady hv hi
  running := (h.running.congr (s := k.listRemove t) (fun _ => rfl) rfl rfl).makeReady hne
  allListed := (h.allListed.congr (s := k.listRemove t) (fun _ => rfl) rfl rfl).makeReady hd

def Wakeable (k : Kernel) (t : ThreadRef) : Prop :=
  k.live t = true ∧ some t ≠ k.idleThread ∧ t ≠ k.current ∧ (k.threads t).status ≠ .dying

theorem QueueInv.wakeable (h : k.QueueInv) (ht : t ∈ k.lists .sleeping) : k.Wakeable t := by
  obtain ⟨hv, hs⟩ := h.queues.member _ t ht
  refine ⟨hv, h.queues.not_idle ht, ?_, ?_⟩
  · rintro rfl
    exact h.absent _ ht
  · rw [hs]
    simp [ListRef.status]

theorem Wakeable.threadUpdateTimer {u : ThreadRef} (h : k.Wakeable u) :
    (k.threadUpdateTimer t).Wakeable u := by
  unfold Kernel.threadUpdateTimer
  split_ifs
  · obtain ⟨hv, hi, hc, hd⟩ := h
    refine ⟨hv, hi, hc, ?_⟩
    unfold makeReady
    rw [setThread_setThread]
    by_cases hu : u = t
    · subst hu
      simp
    · rw [setThread_threads_ne _ _ hu]
      exact hd
  · exact h

theorem QueueInv.threadUpdateTimer (h : k.QueueInv) (hw : k.Wakeable t) :
    (k.threadUpdateTimer t).QueueInv := by
  unfold Kernel.threadUpdateTimer
  split_ifs
  · exact h.listRemove_makeReady hw.1 hw.2.1 hw.2.2.1 hw.2.2.2
  · exact h

theorem QueueInv.threadUpdateTimers (h : k.QueueInv) : k.threadUpdateTimers.QueueInv := by
  unfold Kernel.threadUpdateTimers
  have hw : ∀ t ∈ k.lists .sleeping, k.Wakeable t := fun t ht => h.wakeable ht
  generalize k.lists .sleeping = l at hw
  induction l generalizing k with
  | nil => exact h
  | cons t l ih =>
    rw [List.foldl_cons]
    apply ih (h.threadUpdateTimer (hw t (by simp)))
    intro u hu
    exact (hw u (by simp [hu])).threadUpdateTimer

theorem QueueInv.timerSleep {ticks : Int} (h : k.QueueInv) (hi : some k.current ≠ k.idleThread)
    (hs : k.timerSleep ticks = .ok k') : k'.QueueInv := by
  obtain ⟨_, _, hs⟩ := threadCurrent_bind_ok hs
  have h := h.setCurrent (.setAlarm k.ticks ticks) rfl rfl
  obtain ⟨_, _, hs⟩ := threadCurrent_bind_ok hs
  generalize hk : k.setThread k.current (.setAlarm k.ticks ticks) = k0 at h hs
  have hi : some k0.current ≠ k0.idleThread := by rw [← hk]; exact hi
  have hl := (h.queues.loose h.absent).setThread (.setStatus .blocked)
  refine threadBlock_queueInv (k := k0.listPushBack .sleeping k0.current)
    (h.running.congr (fun _ => rfl) rfl rfl) (h.allListed.congr (fun _ => rfl) rfl rfl) ?_ hs
  exact hl.pushSleeping h.running.1 hi (by simp) (by simpa using h.threadPl)

theorem QueueInv.setOwnPriority (h : k.QueueInv) (p : Int) :
    (k.setOwnPriority k.current p).QueueInv := by
  unfold Kernel.setOwnPriority
  simp only [setThread_setThread]
  split_ifs <;> exact h.setCurrent _ rfl rfl

theorem setOwnPriority_current (k : Kernel) (t : ThreadRef) (p : Int) :
    (k.setOwnPriority t p).current = k.current := by
  unfold setOwnPriority
  simp only
  split_ifs <;> rfl

theorem QueueInv.threadSetPriority {p : Int} (h : k.QueueInv)
    (hs : k.threadSetPriority p = .ok k') : k'.QueueInv := by
  unfold Kernel.threadSetPriority at hs
  split_ifs at hs with hm
  · cases hs
    exact h
  · simp only [bind_ok_iff, threadCurrent_ok_iff] at hs
    obtain ⟨_, ⟨_, _, rfl⟩, hs⟩ := hs
    split_ifs at hs
    · exact (h.setOwnPriority p).threadYield hs
    · cases hs
      exact h.setOwnPriority p

theorem QueueInv.setPriority_listUpdateElem {list : ListRef} (h : k.QueueInv) (hv : k.live t = true)
    (f : Thread → Thread) (hs : (f (k.threads t)).status = (k.threads t).status)
    (hp : (f (k.threads t)).threadPl = (k.threads t).threadPl)
    (hl : (k.threads t).threadPl = some list) :
    ((k.setThread t f).listUpdateElem list t).QueueInv := by
  obtain ⟨hne, hm⟩ := (h.queues.threadPl t hv list).mp hl
  unfold listUpdateElem
  rw [listRemove_setThread]
  refine ⟨?_, ?_, ?_⟩
  · apply ((h.queues.listRemove t).setThread f).insertOrdered hv (h.queues.not_idle hm) hne
    · rw [setThread_threads_self, listRemove_threads, hs]
      exact (h.queues.member list t hm).2
    · rw [setThread_threads_self, listRemove_threads, hp]
      exact hl
  · exact (h.running.setThread f hs).congr (fun _ => rfl) rfl rfl
  · exact (h.allListed.setThread f (by rw [hs])).congr (fun _ => rfl) rfl rfl

theorem threadCalculatePriority_ok (hc : k.threadCalculatePriority t = .ok (k', flag)) :
    ∃ p, mlfqsPriority (k.threads t).recentCpu (k.threads t).nice = some p ∧
      (((k.threads t).threadPl = none ∧ k' = k.setThread t (.setPriority p)) ∨
        ∃ list, (k.threads t).threadPl = some list ∧
          k' = (k.setThread t (.setPriority p)).listUpdateElem list t) := by
  unfold threadCalculatePriority at hc
  split at hc
  · cases hc
  · rename_i p hp
    simp only [pure, Except.pure, Except.ok.injEq, Prod.mk.injEq, setThread_threads_self,
      Thread.setPriority_threadPl] at hc
    obtain ⟨hk, _⟩ := hc
    refine ⟨p, hp, ?_⟩
    split at hk
    · rename_i list hl
      exact .inr ⟨list, hl, hk.symm⟩
    · rename_i hl
      exact .inl ⟨hl, hk.symm⟩

theorem QueueInv.threadCalculatePriority (h : k.QueueInv) (hv : k.live t = true)
    (hc : k.threadCalculatePriority t = .ok (k', flag)) :
    k'.QueueInv ∧ k'.live = k.live ∧ k'.allList = k.allList := by
  obtain ⟨p, -, ⟨hl, rfl⟩ | ⟨list, hl, rfl⟩⟩ := threadCalculatePriority_ok hc
  · refine ⟨h.setThread (.setPriority p) rfl rfl ?_, rfl, rfl⟩
    intro list hne hm
    rw [(h.queues.threadPl t hv list).mpr ⟨hne, hm⟩] at hl
    cases hl
  · exact ⟨h.setPriority_listUpdateElem hv (.setPriority p) rfl rfl hl, rfl, rfl⟩

theorem QueueInv.threadSetNice {nice : Int} (h : k.QueueInv)
    (hs : k.threadSetNice nice = .ok k') : k'.QueueInv := by
  simp only [Kernel.threadSetNice, bind_ok_iff, assert_ok_iff, exists_const,
    threadCurrent_ok_iff] at hs
  obtain ⟨_, _, ⟨_, _, rfl⟩, ⟨k1, outranked⟩, hc, hs⟩ := hs
  have h1 := ((h.setCurrent (.setNice nice) rfl rfl).threadCalculatePriority h.running.1 hc).1
  cases outranked with
  | true => exact h1.threadYield hs
  | false =>
    cases hs
    exact h1

-- What thread_tick writes to the accounts leaves its kernel related to the one before.
structure Charges (R : Kernel → Kernel → Prop) : Prop where
  refl : ∀ k, R k k
  trans : ∀ {k k1 k'}, R k k1 → R k1 k' → R k k'
  recentCpu : ∀ k t x, R k (k.setThread t (.setRecentCpu x))
  recentlyUp : ∀ k t, R k (k.setThread t (.setRecentlyUp true))
  loadAvg : ∀ k a c, R k { k with loadAvg := a, loadAvgCoefficient := c }

structure Recomputes (R : Kernel → Kernel → Prop) : Prop extends Charges R where
  priority : ∀ {k t k' flag}, k.QueueInv → k.live t = true →
    (k.setThread t (.setRecentlyUp false)).threadCalculatePriority t = .ok (k', flag) → R k k'

variable {R : Kernel → Kernel → Prop}

theorem Charges.mlfqsCharge (hR : Charges R) (k : Kernel) (t : ThreadRef) :
    R k (k.mlfqsCharge t) := by
  unfold Kernel.mlfqsCharge
  split_ifs
  · exact hR.trans (hR.recentCpu k t _) (hR.recentlyUp _ t)
  · exact hR.refl k

theorem Charges.foldl_threadCalculateRecentCpu (hR : Charges R) (k : Kernel)
    (l : List ThreadRef) : R k (l.foldl threadCalculateRecentCpu k) := by
  induction l generalizing k with
  | nil => exact hR.refl k
  | cons t l ih => exact hR.trans (hR.trans (hR.recentlyUp k t) (hR.recentCpu _ t _)) (ih _)

theorem Charges.mlfqsSecond (hR : Charges R) (hm : k.mlfqsSecond = .ok k') : R k k' := by
  unfold Kernel.mlfqsSecond at hm
  split_ifs at hm
  · obtain ⟨k1, h1, hm⟩ := bind_ok_iff.mp hm
    cases hm
    refine hR.trans ?_ (hR.foldl_threadCalculateRecentCpu k1 _)
    unfold threadCalculateLoadAvg at h1
    simp only at h1
    split at h1
    · cases h1
      exact hR.loadAvg ..
    · cases h1
  · cases hm
    exact hR.refl k

theorem QueueInv.charges : Charges fun k k' => k.QueueInv → k'.QueueInv where
  refl _ h := h
  trans h h' := fun hk => h' (h hk)
  recentCpu _ _ _ h := h.setThread _ rfl rfl fun _ _ _ => rfl
  recentlyUp _ _ h := h.setThread _ rfl rfl fun _ _ _ => rfl
  loadAvg _ _ _ h := h.congr rfl rfl rfl rfl rfl rfl

theorem QueueInv.mlfqsCharge (h : k.QueueInv) (t : ThreadRef) : (k.mlfqsCharge t).QueueInv :=
  QueueInv.charges.mlfqsCharge k t h

theorem QueueInv.mlfqsSecond (h : k.QueueInv) (hm : k.mlfqsSecond = .ok k') : k'.QueueInv :=
  QueueInv.charges.mlfqsSecond hm h

theorem Recomputes.threadForeachPriorities (hR : Recomputes R) {l : List ThreadRef}
    (h : k.QueueInv) (hv : ∀ t ∈ l, k.live t = true)
    (hf : Kernel.threadForeachPriorities l k = .ok (k', flag)) : k'.QueueInv ∧ R k k' := by
  induction l generalizing k flag with
  | nil =>
    cases hf
    exact ⟨h, hR.refl _⟩
  | cons t l ih =>
    simp only [Kernel.threadForeachPriorities, bind_ok_iff] at hf
    obtain ⟨⟨k1, b⟩, hu, ⟨k2, c⟩, hrest, heq⟩ := hf
    cases heq
    unfold threadUpdatePriorities at hu
    split_ifs at hu
    · have h0 : (k.setThread t (.setRecentlyUp false)).QueueInv :=
        h.setThread _ rfl rfl fun _ _ _ => rfl
      obtain ⟨h1, hlive, -⟩ := h0.threadCalculatePriority (hv t (by simp)) hu
      have hrel := hR.priority h (hv t (by simp)) hu
      obtain ⟨hq, hrest⟩ := ih h1 (fun u hu => hlive ▸ hv u (by simp [hu])) hrest
      exact ⟨hq, hR.trans hrel hrest⟩
    · cases hu
      exact ih h (fun u hu => hv u (by simp [hu])) hrest

theorem Recomputes.mlfqsTick (hR : Recomputes R) (h : k.QueueInv)
    (hm : k.mlfqsTick t = .ok (k', flag)) : k'.QueueInv ∧ R k k' := by
  unfold Kernel.mlfqsTick at hm
  split_ifs at hm
  · obtain ⟨k1, h1, hm⟩ := bind_ok_iff.mp hm
    have hq := (h.mlfqsCharge t).mlfqsSecond h1
    have hrel := hR.trans (hR.mlfqsCharge k t) (hR.mlfqsSecond h1)
    unfold mlfqsSlice at hm
    split_ifs at hm
    · obtain ⟨hq', hslice⟩ :=
        hR.threadForeachPriorities hq (fun t ht => ((hq.allListed.2 t).mp ht).1) hm
      exact ⟨hq', hR.trans hrel hslice⟩
    · cases hm
      exact ⟨hq, hrel⟩
  · cases hm
    exact ⟨h, hR.refl _⟩

section

variable (h : k.QueueInv)
include h

theorem QueueInv.mlfqsTick (hm : k.mlfqsTick t = .ok (k', flag)) : k'.QueueInv :=
  (Recomputes.mlfqsTick (R := fun _ _ => True) ⟨by constructor <;> simp, fun _ _ _ => trivial⟩
    h hm).1

theorem QueueInv.wakeSleepers : k.wakeSleepers.QueueInv := by
  unfold Kernel.wakeSleepers
  split_ifs
  · exact h.threadUpdateTimers
  · exact h

theorem QueueInv.threadTick (ht : k.threadTick = .ok (k', flag)) : k'.QueueInv := by
  obtain ⟨k1, recomputed, h1, rfl, _⟩ := threadTick_ok ht
  exact (h.wakeSleepers.mlfqsTick h1).congr rfl rfl rfl rfl rfl rfl

theorem QueueInv.countTick : k.countTick.QueueInv := h.congr rfl rfl rfl rfl rfl rfl

theorem QueueInv.timerInterrupt (ht : k.timerInterrupt = .ok k') : k'.QueueInv := by
  obtain ⟨k1, _, h1, ⟨_, hy⟩ | ⟨_, rfl⟩⟩ := timerInterrupt_ok ht
  · exact (h.countTick.threadTick h1).threadYield hy
  · exact h.countTick.threadTick h1

end

end Pintos.Threads.Kernel
