import Pintos.Lib.FifoLevels
import Pintos.Threads.Preemption

namespace Pintos.Threads.Kernel

open Lib List PriorityQueue Option Function

variable {k k' : Kernel} {t u : ThreadRef} {labels : List (List (FifoLevels.Event Int ThreadRef))}
  {label : List (FifoLevels.Event Int ThreadRef)} {list : ListRef} {sema : SemaRef}

inductive QueueAct
  | threadUnblock (t : ThreadRef)
  | threadYield
  -- one round of the loop of thread_update_timers
  | threadUpdateTimer (t : ThreadRef)
  | nextThreadToRun
deriving DecidableEq

def yieldReady (k : Kernel) : Kernel :=
  let k' := if some k.current ≠ k.idleThread then
      (k.listInsertOrdered .ready k.current).setThread k.current (.setThreadPl (some .ready))
    else k
  k'.setThread k.current (.setStatus .ready)

theorem threadYield_eq (h : k.threadCurrent = .ok k.current) :
    k.threadYield = k.yieldReady.schedule := by
  unfold threadYield yieldReady
  rw [h]
  rfl

-- The events of a step, and the state after it; none where an ASSERT fails. The
-- callers of thread_unblock name neither the idle thread nor one in timer_sleep.
def perform (k : Kernel) : QueueAct → Option (List (FifoLevels.Event Int ThreadRef) × Kernel)
  | .threadUnblock t =>
    if (k.threads t).status = .blocked ∧ some t ≠ k.idleThread ∧ t ∉ k.lists .sleeping then
      some ([.enqueued (k.pri t) t], k.makeReady t)
    else none
  | .threadYield =>
    if (k.threads k.current).status = .running then
      some (if some k.current ≠ k.idleThread then [.enqueued (k.pri k.current) k.current] else [],
        k.yieldReady)
    else none
  | .threadUpdateTimer t =>
    if t ∈ k.lists .sleeping then
      some (if k.timerElapsed (k.threads t).start ≥ (k.threads t).sleep then
        [.enqueued (k.pri t) t] else [], k.threadUpdateTimer t)
    else none
  | .nextThreadToRun => some ([.returned k.nextThreadToRun.1], k.nextThreadToRun.2)

structure Tidy (k : Kernel) : Prop where
  ready : ∀ t ∈ k.lists .ready, (k.threads t).status = .ready
  sleeping : ∀ t ∈ k.lists .sleeping, (k.threads t).status = .blocked
  readyNodup : (k.lists .ready).Nodup
  sleepingNodup : (k.lists .sleeping).Nodup
  idle : ∀ t, k.idleThread = some t → t ∉ k.lists .ready ∧ t ∉ k.lists .sleeping

structure Apart (k k' : Kernel) : Prop where
  tidy : k'.Tidy
  ready : k'.lists .ready = k.lists .ready
  pri : ∀ t ∈ k.lists .ready, k'.pri t = k.pri t
  idleThread : k'.idleThread = k.idleThread

def queueSystem : Lib.System Kernel (List (FifoLevels.Event Int ThreadRef)) where
  init k := k.Tidy ∧ PriorityQueue.Descending k.pri (k.lists .ready)
  step k label k' := (∃ act, k.perform act = some (label, k')) ∨ label = [] ∧ k.Apart k'

def levels (k : Kernel) : FifoLevels Int ThreadRef := .ofList k.pri (k.lists .ready)

structure Ranked (k : Kernel) : Prop extends k.Tidy where
  descending : PriorityQueue.Descending k.pri (k.lists .ready)

theorem levels_congr (hl : k'.lists .ready = k.lists .ready)
    (hp : ∀ t ∈ k.lists .ready, k'.pri t = k.pri t) : k'.levels = k.levels := by
  unfold levels
  rw [hl]
  exact FifoLevels.ofList_congr hp

theorem makeReady_levels (h : k.Ranked) (t : ThreadRef) :
    (k.makeReady t).levels = k.levels.enqueue (k.pri t) t := by
  unfold levels
  rw [funext (makeReady_pri k t), makeReady_ready]
  exact FifoLevels.ofList_insert h.descending

theorem Ranked.makeReady (h : k.Ranked) (hr : t ∉ k.lists .ready) (hs : t ∉ k.lists .sleeping)
    (hi : some t ≠ k.idleThread) : (k.makeReady t).Ranked := by
  have hstatus : ∀ u, u ≠ t → ((k.makeReady t).threads u).status = (k.threads u).status := by
    intro u hu
    simp [Kernel.makeReady, hu]
  refine ⟨⟨?_, ?_, ?_, ?_, ?_⟩, ?_⟩
  · intro u hu
    by_cases hut : u = t
    · subst hut
      simp [Kernel.makeReady]
    · rw [makeReady_ready, mem_insert] at hu
      rw [hstatus u hut]
      exact h.ready u (hu.resolve_left hut)
  · intro u hu
    rw [makeReady_sleeping] at hu
    have hut : u ≠ t := fun heq => hs (heq ▸ hu)
    rw [hstatus u hut]
    exact h.sleeping u hu
  · rw [makeReady_ready, (insert_perm _ _ _).nodup_iff]
    exact nodup_cons.mpr ⟨hr, h.readyNodup⟩
  · rw [makeReady_sleeping]
    exact h.sleepingNodup
  · intro u hu
    have hidle : k.idleThread = some u := hu
    have hut : u ≠ t := fun heq => hi (heq ▸ hidle.symm)
    rw [makeReady_ready, makeReady_sleeping, mem_insert]
    exact ⟨not_or.mpr ⟨hut, (h.idle u hidle).1⟩, (h.idle u hidle).2⟩
  · rw [funext (makeReady_pri k t), makeReady_ready]
    exact descending_insert h.descending

theorem Tidy.not_mem_ready (h : k.Tidy) (ht : (k.threads t).status ≠ .ready) : t ∉ k.lists .ready :=
  fun hmem => ht (h.ready t hmem)

theorem Tidy.not_mem_sleeping (h : k.Tidy) (ht : (k.threads t).status ≠ .blocked) :
    t ∉ k.lists .sleeping :=
  fun hmem => ht (h.sleeping t hmem)

theorem Ranked.listRemove (h : k.Ranked) (ht : t ∉ k.lists .ready) :
    (k.listRemove t).Ranked ∧ (k.listRemove t).levels = k.levels := by
  have hready : (k.listRemove t).lists .ready = k.lists .ready := erase_of_not_mem ht
  have hsub : (k.listRemove t).lists .sleeping ⊆ k.lists .sleeping := erase_subset
  refine ⟨⟨⟨?_, ?_, ?_, ?_, ?_⟩, ?_⟩, levels_congr hready fun _ _ => rfl⟩
  · rw [hready]
    exact h.ready
  · exact fun u hu => h.sleeping u (hsub hu)
  · rw [hready]
    exact h.readyNodup
  · exact h.sleepingNodup.erase t
  · intro u hu
    rw [hready]
    exact ⟨(h.idle u hu).1, fun hmem => (h.idle u hu).2 (hsub hmem)⟩
  · rw [hready]
    exact h.descending

theorem Apart.ranked (ha : k.Apart k') (h : k.Ranked) : k'.Ranked := by
  refine ⟨ha.tidy, ?_⟩
  rw [ha.ready]
  exact (descending_congr ha.pri).mpr h.descending

theorem Ranked.setThread_apart (h : k.Ranked) (hr : t ∉ k.lists .ready)
    (hs : t ∉ k.lists .sleeping) (f : Thread → Thread) : k.Apart (k.setThread t f) := by
  have hsame : ∀ u, u ≠ t → (k.setThread t f).threads u = k.threads u := fun u hu =>
    setThread_threads_ne k f hu
  refine ⟨⟨?_, ?_, h.readyNodup, h.sleepingNodup, h.idle⟩, rfl, ?_, rfl⟩
  · intro u hu
    rw [hsame u fun heq => hr (heq ▸ hu)]
    exact h.ready u hu
  · intro u hu
    rw [hsame u fun heq => hs (heq ▸ hu)]
    exact h.sleeping u hu
  · intro u hu
    unfold pri
    rw [hsame u fun heq => hr (heq ▸ hu)]

theorem Ranked.popFront {rest : List ThreadRef} (h : k.Ranked) (hl : k.lists .ready = t :: rest) :
    ((k.setList .ready rest).setThread t (.setThreadPl none)).Ranked ∧
      ((k.setList .ready rest).setThread t (.setThreadPl none)).levels = .ofList k.pri rest := by
  have hnodup : t ∉ rest ∧ rest.Nodup := nodup_cons.mp (hl ▸ h.readyNodup)
  have hmem : ∀ u ∈ rest, u ∈ k.lists .ready := fun u hu => hl ▸ mem_cons_of_mem t hu
  have hdescending : PriorityQueue.Descending k.pri rest := by
    have hd := h.descending
    rw [hl] at hd
    exact (pairwise_cons.mp hd).2
  have hrest : (k.setList .ready rest).Ranked := by
    refine ⟨⟨?_, h.sleeping, ?_, h.sleepingNodup, ?_⟩, ?_⟩
    · intro u hu
      exact h.ready u (hmem u (by simpa using hu))
    · simpa using hnodup.2
    · intro u hu
      refine ⟨fun hu' => (h.idle u hu).1 (hmem u (by simpa using hu')), (h.idle u hu).2⟩
    · rw [setList_lists, Function.update_self]
      exact hdescending
  have hready : t ∉ (k.setList .ready rest).lists .ready := by simpa using hnodup.1
  have hsleeping : t ∉ (k.setList .ready rest).lists .sleeping := by
    have hstatus : (k.threads t).status = .ready := h.ready t (by simp [hl])
    simpa using h.not_mem_sleeping (t := t) (by simp [hstatus])
  have happart := hrest.setThread_apart hready hsleeping (.setThreadPl none)
  refine ⟨happart.ranked hrest, (levels_congr happart.ready happart.pri).trans ?_⟩
  simp only [levels, setList_lists, Function.update_self]
  rfl

theorem yieldReady_eq (k : Kernel) : k.yieldReady =
    if some k.current ≠ k.idleThread then k.makeReady k.current
    else k.setThread k.current (.setStatus .ready) := by
  unfold yieldReady makeReady
  split_ifs <;> rfl

theorem Ranked.perform {act : QueueAct} (h : k.Ranked) (hx : k.perform act = some (label, k')) :
    k'.Ranked ∧ k'.idleThread = k.idleThread ∧
      (FifoLevels.system k.idleThread).Trace k.levels label k'.levels := by
  cases act with
  | threadUnblock t =>
    simp only [Kernel.perform, ite_none_right_eq_some, some.injEq, Prod.mk.injEq] at hx
    obtain ⟨⟨hblocked, hidle, hsleeping⟩, rfl, rfl⟩ := hx
    refine ⟨h.makeReady (h.not_mem_ready (by simp [hblocked])) hsleeping hidle, rfl, ?_⟩
    rw [makeReady_levels h]
    exact .cons (.enqueue ..) .nil
  | threadYield =>
    simp only [Kernel.perform, ite_none_right_eq_some, some.injEq, Prod.mk.injEq] at hx
    obtain ⟨hrunning, rfl, rfl⟩ := hx
    have hready := h.not_mem_ready (t := k.current) (by simp [hrunning])
    have hsleeping := h.not_mem_sleeping (t := k.current) (by simp [hrunning])
    rw [yieldReady_eq]
    split_ifs with hidle
    · refine ⟨h.makeReady hready hsleeping hidle, rfl, ?_⟩
      rw [makeReady_levels h]
      exact .cons (.enqueue ..) .nil
    · have happart := h.setThread_apart hready hsleeping (.setStatus .ready)
      refine ⟨happart.ranked h, rfl, ?_⟩
      rw [levels_congr happart.ready happart.pri]
      exact .nil
  | threadUpdateTimer t =>
    simp only [Kernel.perform, ite_none_right_eq_some, some.injEq, Prod.mk.injEq] at hx
    obtain ⟨hmem, rfl, rfl⟩ := hx
    have hready := h.not_mem_ready (t := t) (by simp [h.sleeping t hmem])
    obtain ⟨hranked, hlevels⟩ := h.listRemove hready
    unfold Kernel.threadUpdateTimer
    split_ifs with helapsed
    · have hidle : some t ≠ k.idleThread := fun heq => (h.idle t heq.symm).2 hmem
      refine ⟨hranked.makeReady (fun hu => hready (mem_of_mem_erase hu))
        h.sleepingNodup.not_mem_erase hidle, rfl, ?_⟩
      rw [makeReady_levels hranked, hlevels]
      exact .cons (.enqueue ..) .nil
    · exact ⟨h, rfl, .nil⟩
  | nextThreadToRun =>
    simp only [Kernel.perform, some.injEq, Prod.mk.injEq] at hx
    obtain ⟨rfl, rfl⟩ := hx
    unfold Kernel.nextThreadToRun
    split
    · rename_i hnil
      refine ⟨h, rfl, .cons (.idle fun p => ?_) .nil⟩
      exact FifoLevels.ofList_eq_nil_iff.mpr hnil p
    · rename_i next rest hcons
      obtain ⟨hranked, hlevels⟩ := h.popFront hcons
      refine ⟨hranked, rfl, ?_⟩
      have hd := h.descending
      rw [hlevels, levels]
      rw [hcons] at hd ⊢
      exact .cons (FifoLevels.step_serve hd) .nil

theorem Ranked.step (h : k.Ranked) (hs : queueSystem.step k label k') :
    k'.Ranked ∧ k'.idleThread = k.idleThread ∧
      (FifoLevels.system k.idleThread).Trace k.levels label k'.levels := by
  rcases hs with ⟨act, hx⟩ | ⟨rfl, happart⟩
  · exact h.perform hx
  · refine ⟨happart.ranked h, happart.idleThread, ?_⟩
    rw [levels_congr happart.ready happart.pri]
    exact .nil

def Refines (idle : Option ThreadRef) (k : Kernel) (queues : FifoLevels Int ThreadRef) : Prop :=
  k.Ranked ∧ k.idleThread = idle ∧ queues = k.levels

theorem Refines.trace {idle : Option ThreadRef} {queues : FifoLevels Int ThreadRef}
    (h : Refines idle k queues) (ht : queueSystem.Trace k labels k') :
    ∃ queues', (FifoLevels.system idle).Trace queues labels.flatten queues' ∧
      Refines idle k' queues' := by
  refine ht.simulates (Refines idle) ?_ queues h
  rintro k label k' _ ⟨hranked, rfl, rfl⟩ hs
  obtain ⟨hranked', hidle, htrace⟩ := hranked.step hs
  exact ⟨k'.levels, htrace, hranked', hidle, rfl⟩

theorem nextThreadToRun_eq_idle_iff (h : k.Ranked) :
    k.nextThreadToRun.1 = k.idleThread ↔ ∀ p, k.levels p = [] := by
  rw [levels, FifoLevels.ofList_eq_nil_iff]
  unfold nextThreadToRun
  split
  · rename_i hnil
    simp [hnil]
  · rename_i next rest hcons
    have hnext : some next ≠ k.idleThread := fun heq => (h.idle next heq.symm).1 (by simp [hcons])
    simp [hcons, hnext]

theorem QueueInv.init (h : k.QueueInv) : queueSystem.init k := by
  refine ⟨⟨?_, ?_, h.queues.nodup _, h.queues.nodup _, ?_⟩, h.queues.sorted _ (by simp)⟩
  · exact fun t ht => (h.queues.member .ready t ht).2
  · exact fun t ht => (h.queues.member .sleeping t ht).2
  · exact fun t ht => ⟨(h.queues.idle t ht).2.2 _, (h.queues.idle t ht).2.2 _⟩

theorem ready_list_refines_fifo_levels (k k' : Kernel)
    (labels : List (List (FifoLevels.Event Int ThreadRef))) (hk : queueSystem.init k)
    (ht : queueSystem.Trace k labels k') :
    (FifoLevels.system k.idleThread).Trace k.levels labels.flatten k'.levels ∧
      (k'.nextThreadToRun.1 = k.idleThread ↔ ∀ p, k'.levels p = []) := by
  have hstart : Refines k.idleThread k k.levels := ⟨⟨hk.1, hk.2⟩, rfl, rfl⟩
  obtain ⟨queues, htrace, hranked, hidle, rfl⟩ := hstart.trace ht
  refine ⟨htrace, ?_⟩
  rw [← hidle]
  exact nextThreadToRun_eq_idle_iff hranked

-- Two threads created with one priority leave the list in the order they came.
theorem ready_list_refines_fifo_levels_two_equal :
    ∃ k k', queueSystem.init k ∧ k.lists .ready = [2, 3] ∧ k.pri 2 = k.pri 3 ∧
      queueSystem.Trace k [[.returned (some 2)], [.returned (some 3)]] k' ∧
      (k'.nextThreadToRun.1 = k.idleThread ↔ ∀ p, k'.levels p = []) := by
  obtain ⟨k, hr, hk⟩ := leadsTo_reachable false (fun _ _ => true)
    [.resume, .threadCreate .on (some 2) 31, .threadCreate .on (some 3) 31]
    (fun k => k.lists .ready = [2, 3] ∧ k.pri 2 = k.pri 3) (by decide +kernel)
  obtain ⟨hlist, hpri⟩ := of_decide_eq_true hk
  have hinit : queueSystem.init k := (queueInv_of_reachable hr.reachable).init
  have hfirst : k.perform .nextThreadToRun = some ([.returned (some 2)], k.nextThreadToRun.2) := by
    simp [perform, nextThreadToRun, hlist]
  have hsecond : k.nextThreadToRun.2.perform .nextThreadToRun =
      some ([.returned (some 3)], k.nextThreadToRun.2.nextThreadToRun.2) := by
    simp [perform, nextThreadToRun, hlist]
  have htrace : queueSystem.Trace k [[.returned (some 2)], [.returned (some 3)]]
      k.nextThreadToRun.2.nextThreadToRun.2 :=
    .cons (.inl ⟨_, hfirst⟩) (.cons (.inl ⟨_, hsecond⟩) .nil)
  exact ⟨k, _, hinit, hlist, hpri, htrace, (ready_list_refines_fifo_levels k _ _ hinit htrace).2⟩

theorem nextThreadToRun_status (k : Kernel) (t : ThreadRef) :
    (k.nextThreadToRun.2.threads t).status = (k.threads t).status := by
  unfold nextThreadToRun
  split
  · rfl
  · exact setThread_field Thread.status _ rfl _

theorem nextThreadToRun_live (k : Kernel) : k.nextThreadToRun.2.live = k.live := by
  unfold nextThreadToRun
  split <;> rfl

theorem nextThreadToRun_lists (k : Kernel) (hne : list ≠ .ready) :
    k.nextThreadToRun.2.lists list = k.lists list := by
  unfold nextThreadToRun
  split
  · rfl
  · simp [hne]

theorem schedule_lists (hs : k.schedule = .ok k') (hne : list ≠ .ready) :
    k'.lists list = k.lists list := by
  obtain ⟨next, k1, he, -, rfl⟩ := schedule_ok hs
  obtain ⟨hlists, -, -⟩ := threadScheduleTail_pri { k1 with current := next }
    (if k.current = next then none else some k.current)
  rw [hlists, ← nextThreadToRun_lists k hne, he]

theorem yieldReady_lists (k : Kernel) (hne : list ≠ .ready) :
    k.yieldReady.lists list = k.lists list := by
  unfold yieldReady
  simp only
  split_ifs
  · simp [listInsertOrdered_eq, hne]
  · rfl

theorem yieldReady_current (k : Kernel) : k.yieldReady.current = k.current := by
  unfold yieldReady
  simp only
  split_ifs <;> rfl

theorem yieldReady_live (k : Kernel) : k.yieldReady.live = k.live := by
  unfold yieldReady
  simp only
  split_ifs <;> rfl

theorem threadYield_lists (hy : k.threadYield = .ok k') (hne : list ≠ .ready) :
    k'.lists list = k.lists list := by
  have hcur : k.threadCurrent = .ok k.current := by
    simp only [threadYield, bind_ok_iff] at hy
    obtain ⟨cur, hc, -⟩ := hy
    obtain ⟨-, -, rfl⟩ := threadCurrent_ok_iff.mp hc
    exact hc
  rw [threadYield_eq hcur] at hy
  rw [schedule_lists hy hne, yieldReady_lists k hne]

theorem schedule_returns (next : ThreadRef) (hn : k.nextThreadToRun.1 = some next)
    (hlive : k.live next = true) (hs : (k.threads k.current).status ≠ .running) :
    ∃ k', k.schedule = .ok k' := by
  have hstatus : (k.nextThreadToRun.2.threads k.current).status ≠ .running := by
    rwa [nextThreadToRun_status]
  have halive : k.nextThreadToRun.2.live next = true := by rwa [nextThreadToRun_live]
  unfold schedule
  simp only [hn, assert, if_pos hstatus, if_pos halive, bind, Except.bind]
  exact ⟨_, rfl⟩

theorem QueueInv.threadCurrent (h : k.QueueInv) : k.threadCurrent = .ok k.current :=
  threadCurrent_ok_iff.mpr ⟨h.running.1, (h.running.2 _ h.running.1).mpr rfl, rfl⟩

theorem QueueInv.threadYield_returns (h : k.QueueInv) : ∃ k', k.threadYield = .ok k' := by
  rw [threadYield_eq h.threadCurrent]
  have hstatus : (k.yieldReady.threads k.yieldReady.current).status ≠ .running := by
    rw [yieldReady_current]
    unfold yieldReady
    simp
  have hready : ∀ u ∈ k.yieldReady.lists .ready, k.live u = true := by
    intro u hu
    unfold yieldReady at hu
    simp only at hu
    split_ifs at hu
    · simp only [setThread_lists, mem_listInsertOrdered] at hu
      rcases hu with ⟨-, rfl⟩ | hu
      · exact h.running.1
      · exact (h.queues.member _ _ hu).1
    · exact (h.queues.member _ _ hu).1
  cases hl : k.yieldReady.lists .ready with
  | cons next rest =>
    refine schedule_returns next ?_ ?_ hstatus
    · simp [nextThreadToRun, hl]
    · rw [yieldReady_live]
      exact hready next (hl ▸ List.mem_cons_self)
  | nil =>
    have hidle : k.yieldReady.idleThread = some k.current := by
      unfold yieldReady at hl ⊢
      simp only at hl ⊢
      split_ifs at hl ⊢ with hi
      · have hmem : k.current ∈ (k.listInsertOrdered .ready k.current).lists .ready :=
          mem_listInsertOrdered.mpr (.inl ⟨rfl, rfl⟩)
        rw [show (k.listInsertOrdered .ready k.current).lists .ready = [] from hl] at hmem
        cases hmem
      · exact (not_not.mp hi).symm
    refine schedule_returns k.current ?_ ?_ hstatus
    · simp [nextThreadToRun, hl, hidle]
    · rw [yieldReady_live]
      exact h.running.1

theorem QueueInv.semaUp_returns {rest : List ThreadRef} (h : k.QueueInv)
    (oldLevel : IntrLevel) (hw : k.lists (.waiters sema) = t :: rest) :
    ∃ k', k.semaUp oldLevel sema = .ok k' ∧
      ∀ list, list ≠ .ready → k'.lists list = update k.lists (.waiters sema) rest list := by
  have hmem : t ∈ k.lists (.waiters sema) := hw ▸ List.mem_cons_self
  obtain ⟨hlive, hblocked⟩ := h.queues.member _ _ hmem
  have hv := h.setValue sema (k.value sema + 1)
  have hidle := h.queues.not_idle hmem
  set s := (k.setValue sema (k.value sema + 1)).setList (.waiters sema) rest
  have hup : k.semaUp oldLevel sema = s.threadUnblock oldLevel t := by
    unfold Kernel.semaUp
    simp only [setValue_lists, hw]
    rfl
  have hrun : s.OneRunning := hv.running.congr (fun _ => rfl) rfl rfl
  have hready : (s.makeReady t).QueueInv :=
    ⟨(hv.queues.popFront hw).makeReady hlive hidle,
      hrun.makeReady (hrun.ne_current (by simp [s, hblocked, ListRef.status])),
      (hv.allListed.congr (fun _ => rfl) rfl rfl).makeReady
        (by simp [hblocked, ListRef.status])⟩
  have hlists : ∀ list, list ≠ .ready →
      (s.makeReady t).lists list = update k.lists (.waiters sema) rest list := by
    intro list hne
    unfold makeReady
    simp only [setThread_lists, listInsertOrdered_eq, setList_lists, update_of_ne hne]
    rfl
  have hunblock : s.threadUnblock oldLevel t =
      if ((s.makeReady t).threads s.current).priority < (s.makeReady t).threadListTopPri .ready ∧
          oldLevel ≠ .off then (s.makeReady t).threadYield else .ok (s.makeReady t) := by
    have hcur : (s.makeReady t).threadCurrent = .ok s.current := hready.threadCurrent
    have halive : s.live t = true := hlive
    have hstatus : (s.threads t).status = .blocked := hblocked
    unfold Kernel.threadUnblock
    simp only [assert, if_pos halive, if_pos hstatus, hcur, bind, Except.bind]
    rfl
  rw [hup, hunblock]
  split_ifs with hc
  · obtain ⟨k', hy⟩ := hready.threadYield_returns
    refine ⟨k', hy, fun list hne => ?_⟩
    rw [threadYield_lists hy hne, hlists list hne]
  · exact ⟨_, rfl, hlists⟩

end Pintos.Threads.Kernel
