import Pintos.Threads.Alarm

namespace Pintos.Threads.Kernel

open Lib List PriorityQueue

variable {mlfqs : Bool} {k k' : Kernel} {t u : ThreadRef} {op : Op} {ops : List Op}

def wakeTime (alarm : Int × Int) : Int := max (alarm.1 + 1) (alarm.1 + alarm.2)

def expired (k : Kernel) (t : ThreadRef) : Bool :=
  decide (k.timerElapsed (k.threads t).start ≥ (k.threads t).sleep)

theorem expired_threadUpdateTimer (k : Kernel) (t u : ThreadRef) :
    (k.threadUpdateTimer t).expired u = k.expired u := by
  obtain ⟨hstart, hsleep⟩ := threadUpdateTimer_alarm k t u
  unfold expired timerElapsed
  rw [hstart, hsleep, (threadUpdateTimer_tickFrame k t).ticks]

def insertAll (k : Kernel) (woken ready : List ThreadRef) : List ThreadRef :=
  woken.foldl (fun ready t => PriorityQueue.insert k.pri t ready) ready

theorem foldl_threadUpdateTimer_lists (kept l : List ThreadRef) (hl : k.lists .sleeping = kept ++ l)
    (hnodup : (kept ++ l).Nodup) (hready : ∀ u ∈ l, u ∉ k.lists .ready) :
    (l.foldl threadUpdateTimer k).lists .sleeping = kept ++ l.filter (fun t => !k.expired t) ∧
      (l.foldl threadUpdateTimer k).lists .ready =
        k.insertAll (l.filter k.expired) (k.lists .ready) := by
  induction l generalizing k kept with
  | nil => exact ⟨hl, rfl⟩
  | cons t l ih =>
    obtain ⟨hkept, htl, hdisjoint⟩ := nodup_append.mp hnodup
    obtain ⟨ht, hrest⟩ := nodup_cons.mp htl
    have hnotKept : t ∉ kept := fun hm => hdisjoint t hm t mem_cons_self rfl
    have hexpired : (k.threadUpdateTimer t).expired = k.expired :=
      funext (expired_threadUpdateTimer k t)
    have hpri : (k.threadUpdateTimer t).pri = k.pri :=
      funext (threadUpdateTimer_tickFrame k t).priority
    rw [foldl_cons]
    by_cases hx : k.expired t = true
    · have hwake : k.threadUpdateTimer t = (k.listRemove t).makeReady t :=
        if_pos (of_decide_eq_true hx)
      have hasleep : (k.threadUpdateTimer t).lists .sleeping = kept ++ l := by
        rw [hwake, makeReady_sleeping]
        change (k.lists .sleeping).erase t = kept ++ l
        rw [hl, erase_append_right _ hnotKept, erase_cons_head]
      have hlinked : (k.threadUpdateTimer t).lists .ready = insert k.pri t (k.lists .ready) := by
        rw [hwake, makeReady_ready]
        change insert k.pri t ((k.lists .ready).erase t) = _
        rw [erase_of_not_mem (hready t mem_cons_self)]
      have hothers : ∀ u ∈ l, u ∉ (k.threadUpdateTimer t).lists .ready := by
        intro u hu
        rw [hlinked, mem_insert]
        rintro (rfl | hm)
        · exact ht hu
        · exact hready u (mem_cons_of_mem _ hu) hm
      obtain ⟨hs, hr⟩ := ih kept hasleep
        (hnodup.sublist (append_sublist_append_left _ |>.mpr (sublist_cons_self t l)))
        hothers
      rw [hs, hr, hexpired, insertAll, hpri, hlinked, filter_cons_of_pos hx,
        filter_cons_of_neg (by simp [hx])]
      exact ⟨rfl, rfl⟩
    · have hstay : k.threadUpdateTimer t = k := if_neg fun h => hx (decide_eq_true h)
      have hsplit : kept ++ t :: l = (kept ++ [t]) ++ l := by simp
      obtain ⟨hs, hr⟩ := ih (k := k) (kept ++ [t]) (hl.trans hsplit) (hsplit ▸ hnodup)
        fun u hu => hready u (mem_cons_of_mem _ hu)
      rw [hstay, hs, hr, filter_cons_of_neg hx, filter_cons_of_pos (by simp [hx]), append_assoc]
      exact ⟨rfl, rfl⟩

theorem wakeSleepers_lists (h : k.QueueInv) :
    k.wakeSleepers.lists .sleeping = (k.lists .sleeping).filter (fun t => !k.expired t) ∧
      k.wakeSleepers.lists .ready =
        k.insertAll ((k.lists .sleeping).filter k.expired) (k.lists .ready) := by
  unfold wakeSleepers
  split_ifs with hne
  · refine foldl_threadUpdateTimer_lists [] (k.lists .sleeping) rfl (h.queues.nodup _) ?_
    intro u hu hr
    cases h.queues.unique hu hr
  · rw [not_not.mp hne]
    exact ⟨rfl, rfl⟩

def Pending (k : Kernel) : Prop :=
  ∀ t ∈ k.lists .sleeping, (k.alarm t).1 ≤ k.ticks ∧ k.ticks < wakeTime (k.alarm t)

theorem expired_countTick_iff (h : k.Pending) (ht : t ∈ k.lists .sleeping) :
    k.countTick.expired t = true ↔ k.ticks + 1 = wakeTime (k.alarm t) := by
  obtain ⟨hstart, hwake⟩ := h t ht
  unfold expired timerElapsed
  rw [decide_eq_true_iff]
  change k.ticks + 1 - (k.alarm t).1 ≥ (k.alarm t).2 ↔ _
  unfold wakeTime at hwake ⊢
  omega

theorem alarm_wakeSleepers (k : Kernel) (t : ThreadRef) : k.wakeSleepers.alarm t = k.alarm t := by
  have hloop : ∀ l : List ThreadRef, ∀ k : Kernel,
      (l.foldl threadUpdateTimer k).alarm t = k.alarm t := by
    intro l
    induction l with
    | nil => exact fun k => rfl
    | cons u l ih =>
      intro k
      obtain ⟨hstart, hsleep⟩ := threadUpdateTimer_alarm k u t
      rw [foldl_cons, ih]
      exact Prod.ext hstart hsleep
  unfold wakeSleepers threadUpdateTimers
  split_ifs
  · exact hloop _ k
  · rfl

theorem sleeping_step (hq : k.QueueInv) (hp : k.Pending) (hs : (system mlfqs).step k op k') :
    (op = .timerInterrupt ∧ k'.ticks = k.ticks + 1 ∨ op ≠ .timerInterrupt ∧ k'.ticks = k.ticks) ∧
    (∀ t ∈ k.lists .sleeping,
      (t ∉ k'.lists .sleeping ↔ op = .timerInterrupt ∧ k.ticks + 1 = wakeTime (k.alarm t)) ∧
      (t ∈ k'.lists .sleeping → k'.alarm t = k.alarm t)) ∧
    ∀ t ∈ k'.lists .sleeping, t ∉ k.lists .sleeping →
      t = k.current ∧ ∃ ticks, op = .timerSleep ticks ∧ k'.alarm t = (k.ticks, ticks) := by
  cases exec_alarmStep hq hs.1 hs.2 with
  | quiet hop hf =>
    refine ⟨.inr ⟨hop.1, hf.ticks⟩, fun t ht => ⟨?_, fun _ => hf.alarm t ht⟩, fun t ht hnot => ?_⟩
    · rw [hf.sleeping]
      exact ⟨fun hn => absurd ht hn, fun hc => absurd hc.1 hop.1⟩
    · exact absurd (hf.sleeping ▸ ht) hnot
  | sleep hticks hl hcur hrest =>
    refine ⟨.inr ⟨nofun, hticks⟩, fun t ht => ⟨?_, fun _ => hrest t ht ?_⟩, fun t ht hnot => ?_⟩
    · rw [hl]
      exact ⟨fun hn => absurd (mem_append_left _ ht) hn, fun hc => nomatch hc.1⟩
    · rintro rfl
      exact hq.absent _ ht
    · rw [hl] at ht
      rcases mem_append.mp ht with ht | ht
      · exact absurd ht hnot
      · obtain rfl := mem_singleton.mp ht
        exact ⟨rfl, _, rfl, hcur⟩
  | tick hf =>
    obtain ⟨hsleeping, -⟩ := wakeSleepers_lists hq.countTick
    have hticks : k'.ticks = k.ticks + 1 :=
      hf.ticks.trans (wakeSleepers_tickFrame k.countTick).ticks
    have hmem : ∀ t, t ∈ k'.lists .sleeping ↔
        t ∈ k.lists .sleeping ∧ k.countTick.expired t = false := by
      intro t
      rw [hf.sleeping, hsleeping, mem_filter, Bool.not_eq_true']
      rfl
    refine ⟨.inl ⟨rfl, hticks⟩, fun t ht => ⟨?_, fun ht' => ?_⟩, fun t ht hnot => ?_⟩
    · rw [hmem t, ← expired_countTick_iff hp ht]
      simp [ht]
    · exact (hf.alarm t (hf.sleeping ▸ ht')).trans (alarm_wakeSleepers k.countTick t)
    · exact absurd ((hmem t).mp ht).1 hnot

theorem Pending.step (hq : k.QueueInv) (hp : k.Pending) (hs : (system mlfqs).step k op k') :
    k'.Pending := by
  obtain ⟨hticks, hstay, hnew⟩ := sleeping_step hq hp hs
  intro t ht
  by_cases hold : t ∈ k.lists .sleeping
  · obtain ⟨hleave, halarm⟩ := hstay t hold
    have hwake : ¬ (op = .timerInterrupt ∧ k.ticks + 1 = wakeTime (k.alarm t)) :=
      fun hc => hleave.mpr hc ht
    obtain ⟨hstart, hlt⟩ := hp t hold
    rw [halarm ht]
    rcases hticks with ⟨hop, hticks⟩ | ⟨-, hticks⟩
    · have hne : k.ticks + 1 ≠ wakeTime (k.alarm t) := fun heq => hwake ⟨hop, heq⟩
      omega
    · omega
  · obtain ⟨-, ticks, rfl, halarm⟩ := hnew t ht hold
    rcases hticks with ⟨hop, -⟩ | ⟨-, hticks⟩
    · cases hop
    · rw [halarm]
      unfold wakeTime
      simp only
      omega

theorem boot_sleeping {semaInit : SemaRef → Nat} (hb : boot mlfqs semaInit = .ok k) :
    k.lists .sleeping = [] := by
  simp only [boot, threadStart, bind_ok_iff] at hb
  obtain ⟨k0, h0, k1, h1, k2, h2, hb⟩ := hb
  obtain ⟨-, hfree, -⟩ := threadInit_ok h0
  have hinit : (blank mlfqs semaInit).AlarmFrame k0 := by
    obtain ⟨k3, h3, h0⟩ := bind_ok_iff.mp h0
    have hmain : (blank mlfqs semaInit).AlarmFrame k3 := initThread_alarms List.not_mem_nil h3
    exact (hmain.trans (.setThread (.setStatus .running) rfl)).trans
      (allocateTid_alarms (blank_initThread_queueInv h3) h0)
  have hidle : k0.AlarmFrame k1 := by
    refine threadCreate_alarms (threadInit_queueInv h0) (fun t ht => ?_) h1
    cases ht
    exact hfree
  simp only [semaDown, bind_ok_iff] at h2
  obtain ⟨⟨k3, success⟩, h3, heq⟩ := h2
  cases heq
  have hnamed : k3.AlarmFrame { k3 with idleThread := some k3.current } := .congr rfl rfl rfl
  have hall := (((hinit.trans hidle).trans (semaDownLoop_switch h3).alarms).trans hnamed).trans
    (semaUp_switch hb).alarms
  exact hall.sleeping

theorem pending_of_reachable (h : (system mlfqs).Reachable k) : k.Pending := by
  apply h.invariant
  · rintro k ⟨semaInit, hb⟩ t ht
    rw [boot_sleeping hb] at ht
    cases ht
  · intro k op k' hr hp hs
    exact hp.step (queueInv_of_reachable hr) hs

section

variable (hr : (system mlfqs).Reachable k)
include hr

theorem ticks_le_of_trace (h : (system mlfqs).Trace k ops k') : k.ticks ≤ k'.ticks := by
  induction h with
  | nil => exact le_rfl
  | cons hs _ ih =>
    obtain ⟨hticks, -, -⟩ := sleeping_step (queueInv_of_reachable hr) (pending_of_reachable hr) hs
    have hrest := ih (hr.next hs)
    omega

theorem sleeper_trace (ht : t ∈ k.lists .sleeping) (h : (system mlfqs).Trace k ops k') :
    (t ∈ k'.lists .sleeping ∧ k'.alarm t = k.alarm t) ∨
    ∃ before after m m', ops = before ++ .timerInterrupt :: after ∧
      (system mlfqs).Trace k before m ∧ (system mlfqs).step m .timerInterrupt m' ∧
      (system mlfqs).Trace m' after k' ∧ (system mlfqs).Reachable m ∧ t ∈ m.lists .sleeping ∧
      m.alarm t = k.alarm t ∧ m.ticks + 1 = wakeTime (k.alarm t) := by
  induction h with
  | nil => exact .inl ⟨ht, rfl⟩
  | @cons k n k' op ops hs hrest ih =>
    obtain ⟨-, hstay, -⟩ := sleeping_step (queueInv_of_reachable hr) (pending_of_reachable hr) hs
    obtain ⟨hleave, halarm⟩ := hstay t ht
    by_cases hn : t ∈ n.lists .sleeping
    · rw [← halarm hn]
      rcases ih (hr.next hs) hn with hend | ⟨before, after, m, m', hops, hbefore, hm⟩
      · exact .inl hend
      · exact .inr ⟨op :: before, after, m, m', congrArg (op :: ·) hops, .cons hs hbefore, hm⟩
    · obtain ⟨rfl, hwake⟩ := hleave.mp hn
      exact .inr ⟨[], ops, k, n, rfl, .nil, hs, hrest, hr, ht, rfl, hwake⟩

theorem tick_lists : k.countTick.wakeSleepers.lists .sleeping =
        (k.lists .sleeping).filter (fun t => k.ticks + 1 ≠ wakeTime (k.alarm t)) ∧
      k.countTick.wakeSleepers.lists .ready =
        k.insertAll ((k.lists .sleeping).filter fun t => k.ticks + 1 = wakeTime (k.alarm t))
          (k.lists .ready) := by
  obtain ⟨hsleeping, hready⟩ := wakeSleepers_lists (queueInv_of_reachable hr).countTick
  have hexpired : ∀ t ∈ k.lists .sleeping,
      k.countTick.expired t = decide (k.ticks + 1 = wakeTime (k.alarm t)) := by
    intro t ht
    rw [Bool.eq_iff_iff, expired_countTick_iff (pending_of_reachable hr) ht, decide_eq_true_iff]
  constructor
  · rw [hsleeping]
    refine filter_congr fun t ht => ?_
    rw [hexpired t ht, ← decide_not]
  · rw [hready]
    exact congrArg (k.insertAll · _) (filter_congr hexpired)

end

theorem mem_insertAll {woken ready : List ThreadRef} :
    t ∈ k.insertAll woken ready ↔ t ∈ woken ∨ t ∈ ready := by
  induction woken generalizing ready with
  | nil => simp [insertAll]
  | cons u woken ih =>
    have hstep : k.insertAll (u :: woken) ready = k.insertAll woken (insert k.pri u ready) := rfl
    rw [hstep, ih, mem_insert, mem_cons]
    tauto

end Pintos.Threads.Kernel
