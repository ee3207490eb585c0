import Pintos.Threads.Preemption

namespace Pintos.Threads.Kernel

open Lib List

variable {k k1 k' : Kernel} {t u : ThreadRef} {flag mlfqs : Bool} {l : List ThreadRef} {op : Op}
  {oldLevel : IntrLevel} {lock : LockRef}

structure TickFrame (k k' : Kernel) : Prop where
  current : k'.current = k.current
  idleThread : k'.idleThread = k.idleThread
  allList : k'.allList = k.allList
  ticks : k'.ticks = k.ticks
  threadTicks : k'.threadTicks = k.threadTicks
  mlfqs : k'.mlfqs = k.mlfqs
  priority : ∀ t, k'.pri t = k.pri t

theorem TickFrame.refl (k : Kernel) : k.TickFrame k := ⟨rfl, rfl, rfl, rfl, rfl, rfl, fun _ => rfl⟩

theorem TickFrame.trans (h : k.TickFrame k1) (h' : k1.TickFrame k') : k.TickFrame k' where
  current := h'.current.trans h.current
  idleThread := h'.idleThread.trans h.idleThread
  allList := h'.allList.trans h.allList
  ticks := h'.ticks.trans h.ticks
  threadTicks := h'.threadTicks.trans h.threadTicks
  mlfqs := h'.mlfqs.trans h.mlfqs
  priority t := (h'.priority t).trans (h.priority t)

theorem TickFrame.setThread (f : Thread → Thread)
    (hf : (f (k.threads t)).priority = (k.threads t).priority) : k.TickFrame (k.setThread t f) :=
  ⟨rfl, rfl, rfl, rfl, rfl, rfl, pri_setThread f hf⟩

theorem threadUpdateTimer_tickFrame (k : Kernel) (t : ThreadRef) :
    k.TickFrame (k.threadUpdateTimer t) := by
  unfold threadUpdateTimer
  split_ifs
  · exact ⟨rfl, rfl, rfl, rfl, rfl, rfl, makeReady_pri (k.listRemove t) t⟩
  · exact .refl k

theorem threadUpdateTimer_ready (h : u ∈ (k.threadUpdateTimer t).lists .ready) :
    u ∈ k.lists .ready ∨ (u = t ∧ k.timerElapsed (k.threads t).start ≥ (k.threads t).sleep) := by
  unfold threadUpdateTimer at h
  split_ifs at h with hd
  · rw [makeReady_ready, PriorityQueue.mem_insert] at h
    rcases h with rfl | h
    · exact .inr ⟨rfl, hd⟩
    · exact .inl (mem_of_mem_erase h)
  · exact .inl h

theorem threadUpdateTimer_alarm (k : Kernel) (t u : ThreadRef) :
    ((k.threadUpdateTimer t).threads u).start = (k.threads u).start ∧
      ((k.threadUpdateTimer t).threads u).sleep = (k.threads u).sleep := by
  unfold threadUpdateTimer
  split_ifs
  · unfold makeReady
    rw [setThread_setThread]
    by_cases hu : u = t
    · subst hu
      simp
    · simp [hu]
  · exact ⟨rfl, rfl⟩

theorem foldl_threadUpdateTimer_ready (h : u ∈ (l.foldl threadUpdateTimer k).lists .ready) :
    u ∈ k.lists .ready ∨ (u ∈ l ∧ k.timerElapsed (k.threads u).start ≥ (k.threads u).sleep) := by
  induction l generalizing k with
  | nil => exact .inl h
  | cons t l ih =>
    rcases ih h with h | ⟨hm, hd⟩
    · rcases threadUpdateTimer_ready h with h | ⟨rfl, hd⟩
      · exact .inl h
      · exact .inr ⟨mem_cons_self, hd⟩
    · obtain ⟨hstart, hsleep⟩ := threadUpdateTimer_alarm k t u
      have hticks := (threadUpdateTimer_tickFrame k t).ticks
      unfold timerElapsed at hd
      rw [hstart, hsleep, hticks] at hd
      exact .inr ⟨mem_cons_of_mem _ hm, hd⟩

theorem foldl_threadUpdateTimer_tickFrame (k : Kernel) (l : List ThreadRef) :
    k.TickFrame (l.foldl threadUpdateTimer k) := by
  induction l generalizing k with
  | nil => exact .refl k
  | cons t l ih => exact (threadUpdateTimer_tickFrame k t).trans (ih _)

theorem wakeSleepers_tickFrame (k : Kernel) : k.TickFrame k.wakeSleepers := by
  unfold wakeSleepers threadUpdateTimers
  split_ifs
  · exact foldl_threadUpdateTimer_tickFrame k _
  · exact .refl k

theorem wakeSleepers_ready (h : u ∈ k.countTick.wakeSleepers.lists .ready) : u ∈ k.readyAtTick := by
  have hor : u ∈ k.lists .ready ∨ (u ∈ k.lists .sleeping ∧ k.due u = true) := by
    unfold wakeSleepers threadUpdateTimers at h
    split_ifs at h
    · rcases foldl_threadUpdateTimer_ready h with h | ⟨hm, hd⟩
      · exact .inl h
      · exact .inr ⟨hm, decide_eq_true hd⟩
    · exact .inl h
  unfold readyAtTick
  rw [mem_append, mem_filter]
  exact hor

theorem charges_tickFrame : Charges fun k k' => k.TickFrame k' ∧ k'.lists = k.lists ∧
    ∀ u, (k.threads u).recentlyUp = true → (k'.threads u).recentlyUp = true where
  refl k := ⟨.refl k, rfl, fun _ => id⟩
  trans h h' := ⟨h.1.trans h'.1, h'.2.1.trans h.2.1, fun u hu => h'.2.2 u (h.2.2 u hu)⟩
  recentCpu k t x := by
    refine ⟨.setThread _ rfl, rfl, fun u hu => ?_⟩
    by_cases hut : u = t
    · subst hut
      simpa using hu
    · simpa [hut] using hu
  recentlyUp k t := by
    refine ⟨.setThread _ rfl, rfl, fun u hu => ?_⟩
    by_cases hut : u = t
    · simp [hut]
    · simpa [hut] using hu
  loadAvg _ _ _ := ⟨⟨rfl, rfl, rfl, rfl, rfl, rfl, fun _ => rfl⟩, rfl, fun _ => id⟩

section

variable (h : k.QueueInv) (hv : k.live t = true)
include h hv

theorem listUpdateElem_ready {list : ListRef} (hl : (k.threads t).threadPl = some list)
    (f : Thread → Thread) (v : ThreadRef) :
    v ∈ ((k.setThread t f).listUpdateElem list t).lists .ready ↔ v ∈ k.lists .ready := by
  obtain ⟨_, hm⟩ := (h.queues.threadPl t hv list).mp hl
  unfold listUpdateElem
  rw [mem_listInsertOrdered]
  change (_ ∨ v ∈ (k.lists .ready).erase t) ↔ _
  by_cases hvt : v = t
  · subst hvt
    rw [(h.queues.nodup .ready).mem_erase_iff]
    constructor
    · rintro (⟨rfl, _⟩ | ⟨hne, _⟩)
      · exact hm
      · exact absurd rfl hne
    · intro hr
      exact .inl ⟨h.queues.unique hr hm, rfl⟩
  · rw [mem_erase_of_ne hvt]
    simp [hvt]

theorem threadCalculatePriority_others (hc : k.threadCalculatePriority t = .ok (k', flag)) :
    (∀ u, u ≠ t → k'.threads u = k.threads u) ∧ ∀ v, v ∈ k'.lists .ready ↔ v ∈ k.lists .ready := by
  obtain ⟨p, _, ⟨_, rfl⟩ | ⟨list, hl, rfl⟩⟩ := threadCalculatePriority_ok hc
  · exact ⟨fun u hu => setThread_threads_ne _ _ hu, fun _ => Iff.rfl⟩
  · refine ⟨fun u hu => ?_, listUpdateElem_ready h hv hl _⟩
    exact setThread_threads_ne k (.setPriority p) hu

theorem threadUpdatePriorities_ok (hu : k.threadUpdatePriorities t = .ok (k', flag)) :
    k'.QueueInv ∧ k'.live = k.live ∧ k'.current = k.current ∧
      (∀ u, u ≠ t → k'.threads u = k.threads u) ∧
      (∀ v, v ∈ k'.lists .ready ↔ v ∈ k.lists .ready) ∧
      ((k.threads t).recentlyUp = true →
        flag = decide (k'.pri t < k'.threadListTopPri .ready)) := by
  unfold threadUpdatePriorities at hu
  split_ifs at hu with hup
  · have h0 : (k.setThread t (.setRecentlyUp false)).QueueInv :=
      h.setThread _ rfl rfl fun _ _ _ => rfl
    obtain ⟨hq, hlive, _⟩ := h0.threadCalculatePriority hv hu
    obtain ⟨hc, hflag⟩ := threadCalculatePriority_flag hu
    obtain ⟨hother, hready⟩ := threadCalculatePriority_others h0 hv hu
    refine ⟨hq, hlive, hc, fun u hut => ?_, hready, fun _ => hflag⟩
    rw [hother u hut, setThread_threads_ne _ _ hut]
  · cases hu
    exact ⟨h, rfl, rfl, fun _ _ => rfl, fun _ => Iff.rfl, fun hr => absurd hr hup⟩

end

theorem threadForeachPriorities_cons (hf : threadForeachPriorities (t :: l) k = .ok (k', flag)) :
    ∃ k1 outranked more, k.threadUpdatePriorities t = .ok (k1, outranked) ∧
      threadForeachPriorities l k1 = .ok (k', more) ∧ flag = (outranked || more) := by
  simp only [threadForeachPriorities, bind_ok_iff] at hf
  obtain ⟨⟨k1, outranked⟩, hu, ⟨k2, more⟩, hrest, heq⟩ := hf
  cases heq
  exact ⟨k1, outranked, more, hu, hrest, rfl⟩

theorem threadForeachPriorities_ok (h : k.QueueInv) (hv : ∀ t ∈ l, k.live t = true)
    (hf : threadForeachPriorities l k = .ok (k', flag)) :
    k'.current = k.current ∧ (∀ u, u ∉ l → k'.threads u = k.threads u) ∧
      ∀ v, v ∈ k'.lists .ready ↔ v ∈ k.lists .ready := by
  induction l generalizing k flag with
  | nil =>
    cases hf
    exact ⟨rfl, fun _ _ => rfl, fun _ => Iff.rfl⟩
  | cons t l ih =>
    obtain ⟨k1, outranked, more, hu, hrest, _⟩ := threadForeachPriorities_cons hf
    obtain ⟨hq, hlive, hc, hother, hready, _⟩ := threadUpdatePriorities_ok h (hv t mem_cons_self) hu
    obtain ⟨hc', hother', hready'⟩ := ih hq
      (fun u hm => by rw [hlive]; exact hv u (mem_cons_of_mem _ hm)) hrest
    refine ⟨hc'.trans hc, ?_, fun v => (hready' v).trans (hready v)⟩
    intro u hm
    rw [mem_cons, not_or] at hm
    rw [hother' u hm.2, hother u hm.1]

theorem Foremost.recomputed (h : k.Foremost) (hc : k'.current = k.current)
    (hr : ∀ v, v ∈ k'.lists .ready ↔ v ∈ k.lists .ready)
    (hp : ∀ u, u = k.current ∨ u ∈ k.lists .ready → k'.threads u = k.threads u) :
    k'.Foremost := by
  intro t ht
  have ht := (hr t).mp ht
  unfold pri
  rw [hc, hp t (.inr ht), hp k.current (.inl rfl)]
  exact h t ht

-- The running thread is compared with a ready_list in which every thread has
-- its new priority: thread_foreach comes to none of them after it.
theorem threadForeachPriorities_foremost {rest : List ThreadRef} (h : k.QueueInv)
    (hv : ∀ t ∈ l ++ k.current :: rest, k.live t = true) (hl : k.current ∉ l)
    (hrest : k.current ∉ rest) (hup : (k.threads k.current).recentlyUp = true)
    (hr : ∀ u ∈ k.lists .ready, u ∉ rest)
    (hf : threadForeachPriorities (l ++ k.current :: rest) k = .ok (k', false)) :
    k'.Foremost := by
  induction l generalizing k with
  | nil =>
    obtain ⟨k1, outranked, more, hu, hmore, hflag⟩ := threadForeachPriorities_cons hf
    obtain ⟨rfl, rfl⟩ : outranked = false ∧ more = false := by
      simpa only [Bool.or_eq_false_iff] using hflag.symm
    obtain ⟨hq, hlive, hc, _, hready, hlast⟩ := threadUpdatePriorities_ok h (hv _ mem_cons_self) hu
    have hnow : k1.Foremost := by
      apply foremost_of_not_lt (hq.queues.sorted .ready (by simp))
      rw [hc]
      exact of_decide_eq_false (hlast hup).symm
    obtain ⟨hc', hother, hready'⟩ := threadForeachPriorities_ok hq
      (fun u hm => by rw [hlive]; exact hv u (mem_cons_of_mem _ hm)) hmore
    refine hnow.recomputed hc' hready' ?_
    rintro u (rfl | hu)
    · exact hother _ (hc.symm ▸ hrest)
    · exact hother u (hr u ((hready u).mp hu))
  | cons t l ih =>
    obtain ⟨k1, outranked, more, hu, hmore, hflag⟩ := threadForeachPriorities_cons hf
    obtain ⟨rfl, rfl⟩ : outranked = false ∧ more = false := by
      simpa only [Bool.or_eq_false_iff] using hflag.symm
    obtain ⟨hq, hlive, hc, hother, hready, _⟩ := threadUpdatePriorities_ok h (hv t mem_cons_self) hu
    rw [mem_cons, not_or] at hl
    rw [← hc] at hl hrest hup hmore
    refine ih hq ?_ hl.2 hrest ?_ (fun u hu => hr u ((hready u).mp hu)) hmore
    · intro u hm
      rw [hlive]
      rw [hc] at hm
      exact hv u (mem_cons_of_mem _ hm)
    · rw [hother _ hl.1]
      exact hup

theorem recomputes_threadTicks : Recomputes fun k k' => k'.threadTicks = k.threadTicks where
  refl _ := rfl
  trans h h' := h'.trans h
  recentCpu _ _ _ := rfl
  recentlyUp _ _ := rfl
  loadAvg _ _ _ := rfl
  priority _ _ hc := by
    obtain ⟨p, _, ⟨_, rfl⟩ | ⟨_, _, rfl⟩⟩ := threadCalculatePriority_ok hc <;> rfl

theorem mlfqsCharge_recentlyUp (hi : some t ≠ k.idleThread) :
    ((k.mlfqsCharge t).threads t).recentlyUp = true := by
  unfold mlfqsCharge
  rw [if_pos hi, setThread_threads_self]
  rfl

theorem mlfqsTick_foremost (h : k.QueueInv)
    (hkeep : ¬ (k.mlfqs = true ∧ k.ticks % timeSlice = 0) → k.Foremost)
    (hnew : k.mlfqs = true ∧ k.ticks % timeSlice = 0 → ∀ u ∈ k.lists .ready,
      some k.current ≠ k.idleThread ∧ u ∈ k.allList.takeWhile (· ≠ k.current))
    (ht : k.mlfqsTick k.current = .ok (k', false)) : k'.Foremost := by
  unfold mlfqsTick at ht
  split_ifs at ht with hm
  · obtain ⟨k1, h1, ht⟩ := bind_ok_iff.mp ht
    have hq1 := (h.mlfqsCharge k.current).mlfqsSecond h1
    obtain ⟨hf0, hl0, -⟩ := charges_tickFrame.mlfqsCharge k k.current
    obtain ⟨hf1, hl1, hup⟩ := charges_tickFrame.mlfqsSecond h1
    have hf := hf0.trans hf1
    have hl := hl1.trans hl0
    unfold mlfqsSlice at ht
    rw [hf.ticks] at ht
    split_ifs at ht with hz
    · have hbefore := hnew ⟨hm, hz⟩
      obtain ⟨first, rest, hsplit, hnot⟩ := eq_append_cons_of_mem hq1.current_mem_allList
      have hnodup := hq1.allListed.1
      rw [hsplit, nodup_append, nodup_cons] at hnodup
      obtain ⟨_, ⟨hrest, _⟩, hdisj⟩ := hnodup
      have hlive : ∀ t ∈ k1.allList, k1.live t = true := fun t ht => ((hq1.allListed.2 t).mp ht).1
      -- the list of ready threads is not empty when there is anything to show
      intro v hv
      have hv1 := ((threadForeachPriorities_ok hq1 hlive ht).2.2 v).mp hv
      obtain ⟨hi, _⟩ := hbefore v (hl ▸ hv1)
      rw [hsplit] at ht hlive
      refine threadForeachPriorities_foremost hq1 hlive hnot hrest ?_ ?_ ht v hv
      · rw [hf.current]
        exact hup _ (mlfqsCharge_recentlyUp hi)
      · intro u hu hmem
        have hfirst := (hbefore u (hl ▸ hu)).2
        have htake : (first ++ k1.current :: rest).takeWhile (· ≠ k1.current) = first := by
          rw [takeWhile_append_of_pos]
          · simp
          · intro a ha
            have : a ≠ k1.current := by
              rintro rfl
              exact hnot ha
            simpa using this
        rw [← hf.allList, ← hf.current, hsplit, htake] at hfirst
        exact hdisj u hfirst u (mem_cons_of_mem _ hmem) rfl
    · cases ht
      exact (hkeep fun hc => hz hc.2).congr (by rw [hl]) hf.priority hf.current
  · cases ht
    exact hkeep fun hc => hm hc.1

theorem threadTick_foremost (hq : k.QueueInv) (hg : k.keepsOrder .timerInterrupt = true)
    (ht : k.countTick.threadTick = .ok (k', false)) : k'.Foremost := by
  obtain ⟨k1, recomputed, h1, rfl, hy⟩ := threadTick_ok ht
  obtain ⟨⟨_, rfl⟩, hslice⟩ : (_ = false ∧ recomputed = false) ∧
      decide (k1.threadTicks + 1 ≥ timeSlice) = false := by
    simpa only [Bool.or_eq_false_iff] using hy.symm
  have hf := wakeSleepers_tickFrame k.countTick
  have hall := hg
  simp only [keepsOrder, Bool.or_eq_true, decide_eq_true_eq, all_eq_true] at hall
  have hall := hall.resolve_left (by
    rw [(recomputes_threadTicks.mlfqsTick hq.countTick.wakeSleepers h1).2, hf.threadTicks] at hslice
    exact of_decide_eq_false hslice)
  have hrec : (k.countTick.wakeSleepers.mlfqs = true ∧
      k.countTick.wakeSleepers.ticks % timeSlice = 0) ↔ k.recomputes = true := by
    rw [hf.mlfqs, hf.ticks]
    simp [recomputes]
  have hcur : k.countTick.wakeSleepers.current = k.current := hf.current
  refine Foremost.congr (k := k1) ?_ rfl (fun _ => rfl) rfl
  refine mlfqsTick_foremost hq.countTick.wakeSleepers ?_ ?_ (hcur ▸ h1)
  · intro hno u hu
    rw [hrec] at hno
    have := hall u (wakeSleepers_ready hu)
    rw [if_neg hno, decide_eq_true_eq] at this
    rw [hf.priority, hf.priority, hf.current]
    exact this
  · intro hyes u hu
    rw [hrec] at hyes
    have := hall u (wakeSleepers_ready hu)
    rw [if_pos hyes, decide_eq_true_eq] at this
    rw [hf.current, hf.idleThread, hf.allList]
    exact this

open Bool

theorem lockRelease_foremost (h : k.Foremost) (hq : k.QueueInv)
    (hg : k.keepsOrder (.lockRelease oldLevel lock) = true)
    (hl : k.lockRelease oldLevel lock = .ok k') : k'.Foremost := by
  cases oldLevel with
  | off => cases hg
  | on =>
    simp only [keepsOrder, or_eq_true, decide_eq_true_eq, List.all_eq_true] at hg
    obtain ⟨k1, h1, hu⟩ := bind_ok_iff.mp hl
    refine semaUp_foremost (hq.lockReleaseOwner h1) ?_ (fun ho => by cases ho) hu
    intro _ hnil
    have hlists : k1.lists = k.lists := by
      obtain ⟨_, x, _, rfl⟩ := lockReleaseOwner_ok h1
      rfl
    rw [hlists] at hnil
    refine lockReleaseOwner_foremost h hq ?_ h1
    rcases hg with (hm | hne) | hall
    · exact .inl hm
    · exact absurd hnil hne
    · exact .inr hall

theorem threadCreate_foremost {page : Option ThreadRef} {p : Int} (h : k.Foremost)
    (hq : k.QueueInv) (hpage : ∀ t, page = some t → k.live t = false)
    (hg : k.keepsOrder (.threadCreate oldLevel page p) = true)
    (hc : k.threadCreate oldLevel page p = .ok k') : k'.Foremost := by
  obtain ⟨k1, h1, hc⟩ := bind_ok_iff.mp hc
  cases page with
  | none =>
    cases hc
    simp only [keepsOrder, or_eq_true, List.all_eq_true] at hg
    exact withLock_foremost h hq hg h1
  | some t =>
    simp only [bind_ok_iff] at hc
    obtain ⟨k2, h2, k3, h3, hc⟩ := hc
    have hlive : k1.live t = false := (withLock_frame h1).2.1 ▸ hpage t rfl
    have hq3 := ((hq.withLock h1).initThread hlive h2).1.allocateTid h3
    refine threadUnblock_foremost (hq3.queues.sorted .ready (by simp)) ?_ hc
    rintro rfl
    cases hg

theorem timerInterrupt_foremost (hq : k.QueueInv) (hg : k.keepsOrder .timerInterrupt = true)
    (ht : k.timerInterrupt = .ok k') : k'.Foremost := by
  obtain ⟨k1, _, h1, ⟨_, hy⟩ | ⟨rfl, rfl⟩⟩ := timerInterrupt_ok ht
  · exact threadYield_foremost ((hq.countTick.threadTick h1).queues.sorted .ready (by simp)) hy
  · exact threadTick_foremost hq hg h1

theorem Foremost.exec (h : k.Foremost) (hq : k.QueueInv) (hg : k.keepsOrder op = true)
    (he : k.Enabled op) (hx : k.exec op = .ok k') : k'.Foremost := by
  have hd := hq.queues.sorted .ready (by simp)
  cases op with
  | threadCreate oldLevel page p =>
    exact threadCreate_foremost h hq (callable_threadCreate he.2.2) hg hx
  | threadBlock => exact threadBlock_foremost hd hx
  | threadUnblock oldLevel t =>
    refine threadUnblock_foremost hd ?_ hx
    rintro rfl
    exact ⟨h, of_decide_eq_true hg⟩
  | threadYield => exact threadYield_foremost hd hx
  | threadExit => exact threadExit_foremost hq hx
  | threadSetPriority p => exact threadSetPriority_foremost h hq hx
  | threadSetNice n => exact threadSetNice_foremost hq hx
  | timerSleep ticks => exact timerSleep_foremost hq hx
  | timerInterrupt => exact timerInterrupt_foremost hq hg hx
  | semaInit sema n =>
    cases hx
    exact h.congr rfl (fun _ => rfl) rfl
  | semaDown sema =>
    obtain ⟨⟨k1, b⟩, h1, heq⟩ := bind_ok_iff.mp hx
    cases heq
    exact semaDownLoop_foremost (fun _ => h) hq h1
  | semaTryDown sema =>
    cases hx
    unfold semaTryDown
    split_ifs
    · exact h.congr rfl (fun _ => rfl) rfl
    · exact h
  | semaUp oldLevel sema =>
    refine semaUp_foremost hq (fun _ _ => h) ?_ hx
    rintro rfl
    simp only [keepsOrder, List.all_eq_true, decide_eq_true_eq] at hg
    exact ⟨h, hg⟩
  | lockAcquire lock => exact lockAcquire_foremost h hq hx
  | lockTryAcquire lock =>
    obtain ⟨⟨k1, flag⟩, h1, heq⟩ := bind_ok_iff.mp hx
    cases heq
    exact lockTryAcquire_foremost h h1
  | lockRelease oldLevel lock => exact lockRelease_foremost h hq hg hx
  | resume => exact resumeCurrent_foremost h hq hx

theorem boot_foremost {semaInit : SemaRef → Nat} (hb : boot mlfqs semaInit = .ok k) :
    k.Foremost := by
  obtain ⟨k1, k2, hq1, hz, h2, hq2, hu⟩ := boot_ok hb
  refine semaUp_foremost hq2 (fun _ _ => ?_) (fun ho => by cases ho) hu
  obtain ⟨⟨k3, b⟩, h3, heq⟩ := bind_ok_iff.mp h2
  cases heq
  have hf := semaDownLoop_foremost (fun hpos => by omega) hq1 h3
  exact hf.congr rfl (fun _ => rfl) rfl

theorem foremost_of_reachable
    (h : (system mlfqs).ReachableVia (fun k op => k.keepsOrder op = true) k) : k.Foremost := by
  apply h.invariant
  · rintro k ⟨semaInit, hb⟩
    exact boot_foremost hb
  · intro k op k' hr hk hg hs
    exact hk.exec (queueInv_of_reachable hr.reachable) hg hs.1 hs.2

theorem priority_preemption
    (h : (system mlfqs).ReachableVia (fun k op => k.keepsOrder op = true) k) :
    (∀ t ∈ k.lists .ready, (k.threads t).priority ≤ (k.threads k.current).priority) ∧
    ∀ k1 yieldOnReturn, k.keepsOrder .timerInterrupt = true →
      k.countTick.threadTick = .ok (k1, yieldOnReturn) →
      (∃ t ∈ k1.lists .ready, (k1.threads k1.current).priority < (k1.threads t).priority) →
      yieldOnReturn = true := by
  refine ⟨foremost_of_reachable h, ?_⟩
  rintro k1 yieldOnReturn hg ht ⟨t, hm, hlt⟩
  by_contra hno
  rw [not_eq_true] at hno
  subst hno
  have hf := threadTick_foremost (queueInv_of_reachable h.reachable) hg ht
  exact absurd hlt (not_lt.mpr (hf t hm))

def ticksTo (p : Kernel → Bool → Bool) (k : Kernel) : Bool :=
  match k.countTick.threadTick with
  | .ok (k1, yieldOnReturn) => p k1 yieldOnReturn
  | .error _ => false

theorem exists_of_ticksTo {p : Kernel → Bool → Bool} (h : k.ticksTo p = true) :
    ∃ k1 yieldOnReturn, k.countTick.threadTick = .ok (k1, yieldOnReturn) ∧
      p k1 yieldOnReturn = true := by
  unfold ticksTo at h
  split at h
  · exact ⟨_, _, ‹_›, h⟩
  · cases h

-- Thread 2 is woken by the tick that ends the slice of thread 3: thread 3 is
-- asked to give way.
theorem priority_preemption_slice :
    ∃ k k1 yieldOnReturn, (system false).ReachableVia (fun k op => k.keepsOrder op = true) k ∧
      k.current = 3 ∧ k.lists .ready = [mainThread] ∧
      (k.threads mainThread).priority ≤ (k.threads k.current).priority ∧
      k.countTick.threadTick = .ok (k1, yieldOnReturn) ∧
      (∃ t ∈ k1.lists .ready, (k1.threads k1.current).priority < (k1.threads t).priority) ∧
      yieldOnReturn = true := by
  obtain ⟨k, hk, hp⟩ := leadsTo_reachable false keepsOrder
    [.resume, .threadCreate .on (some 3) 31, .threadCreate .on (some 2) 40, .timerSleep 4,
      .timerInterrupt, .timerInterrupt, .timerInterrupt]
    (fun k => decide (k.current = 3 ∧ k.lists .ready = [mainThread]) &&
      k.keepsOrder .timerInterrupt && k.ticksTo fun k1 _ =>
        decide (∃ t ∈ k1.lists .ready, (k1.threads k1.current).priority < (k1.threads t).priority))
    (by decide +kernel)
  simp only [and_eq_true, decide_eq_true_eq] at hp
  obtain ⟨⟨⟨hc, hr⟩, hg⟩, ht⟩ := hp
  obtain ⟨k1, yieldOnReturn, htick, hlt⟩ := exists_of_ticksTo ht
  obtain ⟨hall, hyield⟩ := priority_preemption hk
  exact ⟨k, k1, yieldOnReturn, hk, hc, hr, hall mainThread (by rw [hr]; exact List.mem_cons_self),
    htick, of_decide_eq_true hlt, hyield k1 yieldOnReturn hg htick (of_decide_eq_true hlt)⟩

-- Thread 2, of priority 40, is woken in the middle of the slice of main, of
-- priority 31, which is not asked to give way.
theorem tick_keeps_outranked_thread :
    ∃ k k1 k', (system false).Reachable k ∧ k.Enabled .timerInterrupt ∧
      k.countTick.threadTick = .ok (k1, false) ∧ k.exec .timerInterrupt = .ok k' ∧
      k'.current = k.current ∧ k'.lists .ready = [2] ∧
      (k'.threads 2).priority = 40 ∧ (k'.threads k'.current).priority = 31 := by
  obtain ⟨k, hk, hp⟩ := leadsTo_reachable false (fun _ _ => true)
    [.resume, .threadCreate .on (some 2) 40, .timerSleep 1]
    (fun k => decide (k.Enabled .timerInterrupt) && k.ticksTo fun k1 yieldOnReturn =>
      !yieldOnReturn && decide (k1.current = k.current ∧ k1.lists .ready = [2] ∧
        (k1.threads 2).priority = 40 ∧ (k1.threads k1.current).priority = 31))
    (by decide +kernel)
  simp only [and_eq_true, decide_eq_true_eq] at hp
  obtain ⟨he, ht⟩ := hp
  obtain ⟨k1, yieldOnReturn, htick, hk1⟩ := exists_of_ticksTo ht
  simp only [and_eq_true, not_eq_true', decide_eq_true_eq] at hk1
  obtain ⟨rfl, hk1⟩ := hk1
  have hx : k.exec .timerInterrupt = .ok k1 := by
    simp only [exec, timerInterrupt, bind_ok_iff]
    exact ⟨(k1, false), htick, rfl⟩
  exact ⟨k, k1, k1, hk.reachable, he, htick, hx, hk1⟩

end Pintos.Threads.Kernel
