import Pintos.Threads.Mlfqs.Tick

namespace Pintos.Threads

namespace Account

variable {a : Account} {running second slice : Bool} {coefficient : Fp}

def Settled (a : Account) : Prop := Kernel.mlfqsPriority a.recentCpu a.nice = some a.priority

instance (a : Account) : Decidable a.Settled :=
  inferInstanceAs (Decidable (Kernel.mlfqsPriority a.recentCpu a.nice = some a.priority))

theorem exists_mlfqsPriority (recentCpu : Fp) (nice : Int) :
    ∃ p, Kernel.mlfqsPriority recentCpu nice = some p := by
  have hfour : convItofp 4 ≠ 0 := by decide
  unfold Kernel.mlfqsPriority
  simp only [divFpn, divFpfp, if_neg hfour, bind, Option.bind]
  split_ifs <;> exact ⟨_, rfl⟩

theorem not_settled_opened : ¬ opened.Settled := by decide

theorem refreshed_settled (h : a.recentlyUp = true ∨ a.Settled) : a.refreshed.Settled := by
  obtain ⟨p, hp⟩ := exists_mlfqsPriority a.recentCpu a.nice
  cases hup : a.recentlyUp with
  | true => simp [refreshed, hup, hp, Settled]
  | false =>
    have hsettled : a.Settled := h.resolve_left (by simp [hup])
    simpa [refreshed, hup] using hsettled

theorem ticked_settled (slice : Bool) (coefficient : Fp)
    (h : running = true ∨ second = true ∨ a.recentlyUp = true ∨ a.Settled) :
    ((a.ticked running second slice coefficient).recentlyUp = true ∨
      (a.ticked running second slice coefficient).Settled) ∧
    (slice = true → (a.ticked running second slice coefficient).Settled) := by
  have hmarked : (if second then (if running then a.charged else a).decayed coefficient
        else if running then a.charged else a).recentlyUp = true ∨
      (if second then (if running then a.charged else a).decayed coefficient
        else if running then a.charged else a).Settled := by
    cases second with
    | true => exact .inl rfl
    | false =>
      cases running with
      | true => exact .inl rfl
      | false => simpa using h
  cases slice with
  | true => exact ⟨.inr (refreshed_settled hmarked), fun _ => refreshed_settled hmarked⟩
  | false => exact ⟨hmarked, fun hslice => by cases hslice⟩

def Tracked (fresh : Bool) (a : Account) : Prop :=
  if fresh then a = opened else a.recentlyUp = true ∨ a.Settled

theorem ticked_opened (hrunning : running = false) (hsecond : second = false) :
    opened.ticked running second slice coefficient = opened := by
  subst hrunning hsecond
  cases slice <;> rfl

end Account

namespace Kernel

variable {k k' : Kernel} {t : ThreadRef} {op : Op} {flag : Bool}

def reaches (k : Kernel) (t : ThreadRef) : Bool :=
  (t = k.current ∧ some t ≠ k.idleThread) ∨ (k.ticks + 1) % timerFreq = 0

-- The threads that no tick has reached and that have not set their nice value
-- since they were created.
def nextFresh (k : Kernel) (fresh : ThreadRef → Bool) : Op → ThreadRef → Bool
  | .threadCreate _ (some t) _ => Function.update fresh t true
  | .threadSetNice _ => Function.update fresh k.current false
  | .timerInterrupt => fun t => fresh t && !k.reaches t
  | _ => fresh

def AllOpened (k : Kernel) : Prop := k.mlfqs = true ∧ ∀ t ∈ k.allList, k.account t = .opened

theorem AllOpened.frame (h : k.AllOpened) (hf : k.AccountFrame k') : k'.AllOpened := by
  refine ⟨hf.mlfqs.trans h.1, fun t ht => ?_⟩
  rw [hf.account]
  exact h.2 t (hf.allList ▸ ht)

theorem AllOpened.open (h : k.AllOpened) (t : ThreadRef) :
    ((k.setThread t (.setAccount .opened)).setAllList (k.allList ++ [t])).AllOpened := by
  refine ⟨h.1, fun u hu => ?_⟩
  by_cases hut : u = t
  · subst hut
    simp [account, Thread.account, Thread.setAccount]
  · simpa [account, hut] using h.2 u (by simpa [hut] using hu)

theorem boot_allOpened {semaInit : SemaRef → Nat} (hb : boot true semaInit = .ok k) :
    k.AllOpened := by
  apply boot_accounts (fun k hk => hk.1) _ _ _ hb
  · exact fun k k' hk hf => AllOpened.frame hk hf
  · exact fun k t hk => AllOpened.open hk t
  · exact ⟨rfl, fun t ht => by cases ht⟩

end Kernel

structure Traced where
  kernel : Kernel
  fresh : ThreadRef → Bool

namespace Traced

open Kernel

variable {s s' : Traced} {t : ThreadRef} {op : Op} {k' : Kernel} {flag : Bool}

def system : Lib.System Traced Op where
  init s := (∃ semaInit, boot true semaInit = .ok s.kernel) ∧ s.fresh = fun _ => true
  step s op s' := (s.kernel.Enabled op ∧ s.kernel.exec op = .ok s'.kernel) ∧
    s'.fresh = s.kernel.nextFresh s.fresh op

def exec (s : Traced) (op : Op) : Option Traced :=
  if s.kernel.Enabled op then
    match s.kernel.exec op with
    | .ok k' => some ⟨k', s.kernel.nextFresh s.fresh op⟩
    | .error _ => none
  else none

theorem step_of_exec (s : Traced) (op : Op) (s' : Traced) (h : s.exec op = some s') :
    system.step s op s' := by
  unfold exec at h
  split_ifs at h with he
  split at h
  · rename_i k' hx
    cases h
    exact ⟨⟨he, hx⟩, rfl⟩
  · cases h

theorem reachable_kernel (h : system.Reachable s) : (Kernel.system true).Reachable s.kernel := by
  apply h.invariant
  · exact fun s hs => .init hs.1
  · exact fun s op s' _ hk hs => hk.next hs.1

structure Accounted (s : Traced) : Prop where
  mlfqs : s.kernel.mlfqs = true
  tracked : ∀ t ∈ s.kernel.allList, (s.kernel.account t).Tracked (s.fresh t)

theorem nextFresh_of_not_accounting {k : Kernel} {fresh : ThreadRef → Bool}
    (hop : op.isAccounting = false) : k.nextFresh fresh op = fresh := by
  cases op with
  | threadCreate _ page _ =>
    cases page with
    | none => rfl
    | some _ => cases hop
  | threadSetNice | timerInterrupt => cases hop
  | _ => rfl

theorem Accounted.ticked (h : s.Accounted) (ht : s.kernel.Ticked k') (hmem : t ∈ s.kernel.allList) :
    (k'.account t).Tracked (s.fresh t && !s.kernel.reaches t) ∧
      ((s.kernel.ticks + 1) % timeSlice = 0 → (s.fresh t && !s.kernel.reaches t) = false →
        (k'.account t).Settled) := by
  have htracked := h.tracked t hmem
  rw [ht.account t hmem]
  cases hstill : s.fresh t && !s.kernel.reaches t with
  | true =>
    obtain ⟨hfresh, hnot⟩ : s.fresh t = true ∧ s.kernel.reaches t = false := by
      simpa using hstill
    simp only [reaches, decide_eq_false_iff_not, not_or] at hnot
    rw [hfresh] at htracked
    have hopened : s.kernel.account t = .opened := htracked
    refine ⟨?_, fun _ hfalse => by cases hfalse⟩
    rw [hopened]
    exact Account.ticked_opened (decide_eq_false hnot.1) (decide_eq_false hnot.2)
  | false =>
    have hmarked : decide (t = s.kernel.current ∧ some t ≠ s.kernel.idleThread) = true ∨
        decide ((s.kernel.ticks + 1) % timerFreq = 0) = true ∨
        (s.kernel.account t).recentlyUp = true ∨ (s.kernel.account t).Settled := by
      cases hfresh : s.fresh t with
      | false =>
        rw [hfresh] at htracked
        exact .inr (.inr htracked)
      | true =>
        have hreach : s.kernel.reaches t = true := by simpa [hfresh] using hstill
        simp only [reaches, decide_eq_true_eq] at hreach
        exact hreach.imp decide_eq_true fun hsecond => .inl (decide_eq_true hsecond)
    obtain ⟨hkeep, hslice⟩ := Account.ticked_settled
      (decide ((s.kernel.ticks + 1) % timeSlice = 0)) k'.loadAvgCoefficient hmarked
    exact ⟨hkeep, fun hz _ => hslice (decide_eq_true hz)⟩

theorem Accounted.step (h : s.Accounted) (hq : s.kernel.QueueInv) (hs : system.step s op s') :
    s'.Accounted := by
  obtain ⟨⟨_, hx⟩, hnext⟩ := hs
  have hstep := exec_accountStep h.mlfqs hx
  generalize hkernel : s'.kernel = k' at hstep
  suffices hafter : k'.mlfqs = true ∧
      ∀ t ∈ k'.allList, (k'.account t).Tracked (s.kernel.nextFresh s.fresh op t) from
    ⟨hkernel ▸ hafter.1, hkernel ▸ hnext ▸ hafter.2⟩
  cases hstep with
  | quiet hop hf =>
    refine ⟨hf.mlfqs.trans h.mlfqs, fun t ht => ?_⟩
    rw [nextFresh_of_not_accounting hop, hf.account]
    exact h.tracked t (hf.allList ▸ ht)
  | @create _ t _ _ hf =>
    refine ⟨hf.mlfqs.trans h.mlfqs, fun u hu => ?_⟩
    rw [hf.account]
    by_cases hut : u = t
    · subst hut
      simp [nextFresh, account, Thread.account, Thread.setAccount, Account.Tracked]
    · have hmem : u ∈ s.kernel.allList := by simpa [hf.allList, hut] using hu
      simpa [nextFresh, account, hut] using h.tracked u hmem
  | exit hf =>
    refine ⟨hf.mlfqs.trans h.mlfqs, fun t ht => ?_⟩
    rw [hf.account]
    rw [hf.allList] at ht
    exact h.tracked t (List.mem_of_mem_erase ht)
  | nice _ hp hf =>
    refine ⟨hf.mlfqs.trans h.mlfqs, fun t ht => ?_⟩
    rw [hf.account]
    by_cases hcur : t = s.kernel.current
    · subst hcur
      simpa [nextFresh, account, Thread.account, Account.Tracked] using .inr hp
    · simpa [nextFresh, account, hcur] using h.tracked t (hf.allList ▸ ht)
  | tick ht hf =>
    have hticked := threadTick_ticked hq h.mlfqs ht
    refine ⟨hf.mlfqs.trans (hticked.mlfqs.trans h.mlfqs), fun t hmem => ?_⟩
    rw [hf.account]
    rw [hf.allList, hticked.allList] at hmem
    exact (h.ticked hticked hmem).1

theorem accounted_of_reachable (h : system.Reachable s) : s.Accounted := by
  apply h.invariant
  · rintro s ⟨⟨semaInit, hb⟩, hfresh⟩
    obtain ⟨hm, hopened⟩ := boot_allOpened hb
    exact ⟨hm, fun t ht => by rw [hfresh, hopened t ht]; rfl⟩
  · intro s op s' hr ha hs
    exact ha.step (queueInv_of_reachable (reachable_kernel hr)) hs

-- The selective recomputation is complete at a tick exactly when the tick reaches
-- every thread that is still fresh.
theorem mlfqs_recomputation_complete_iff (s : Traced) (k' : Kernel) (flag : Bool)
    (hr : system.Reachable s) (hslice : (s.kernel.ticks + 1) % timeSlice = 0)
    (ht : s.kernel.countTick.threadTick = .ok (k', flag)) :
    (∀ t ∈ k'.allList,
      mlfqsPriority (k'.threads t).recentCpu (k'.threads t).nice =
        some (k'.threads t).priority) ↔
      ∀ t ∈ s.kernel.allList, s.fresh t = true → s.kernel.reaches t = true := by
  have ha := accounted_of_reachable hr
  have hticked := threadTick_ticked (queueInv_of_reachable (reachable_kernel hr)) ha.mlfqs ht
  rw [hticked.allList]
  refine forall₂_congr fun t hmem => ?_
  obtain ⟨htracked, hsettled⟩ := ha.ticked hticked hmem
  constructor
  · intro hp hfresh
    by_contra hnot
    have hstill : (s.fresh t && !s.kernel.reaches t) = true := by simpa [hfresh] using hnot
    rw [hstill] at htracked
    have hopened : k'.account t = .opened := htracked
    exact Account.not_settled_opened (hopened ▸ hp)
  · intro hreached
    refine hsettled hslice ?_
    cases hfresh : s.fresh t with
    | false => rfl
    | true => simp [hreached hfresh]

def newThreadRun (p : Traced → Kernel → Bool) : Bool :=
  match boot true fun _ => 0 with
  | .error _ => false
  | .ok k =>
    match Lib.System.execAll exec
        [.threadBlock, .resume, .threadCreate .on (some 2) 31, .timerInterrupt, .timerInterrupt,
          .timerInterrupt] ⟨k, fun _ => true⟩ with
    | none => false
    | some s =>
      match s.kernel.countTick.threadTick with
      | .error _ => false
      | .ok (k', _) => p s k'

theorem exists_of_newThreadRun (p : Traced → Kernel → Bool) (h : newThreadRun p = true) :
    ∃ s k' flag, system.Reachable s ∧ s.kernel.countTick.threadTick = .ok (k', flag) ∧
      p s k' = true := by
  unfold newThreadRun at h
  split at h
  · cases h
  · rename_i k hb
    split at h
    · cases h
    · rename_i s hs
      split at h
      · cases h
      · rename_i k' flag ht
        have hr := Lib.System.reachable_of_execAll _ _ s step_of_exec (.init ⟨⟨_, hb⟩, rfl⟩) hs
        exact ⟨s, k', flag, hr, ht, h⟩

theorem mlfqs_recomputation_complete_iff_new_thread :
    ∃ s k' flag, system.Reachable s ∧ s.kernel.countTick.threadTick = .ok (k', flag) ∧
      2 ∈ s.kernel.allList ∧ s.fresh 2 = true ∧ s.kernel.reaches 2 = false ∧
      ¬ ∀ t ∈ k'.allList, mlfqsPriority (k'.threads t).recentCpu (k'.threads t).nice =
        some (k'.threads t).priority := by
  obtain ⟨s, k', flag, hr, ht, hp⟩ := exists_of_newThreadRun
    (fun s _ => (s.kernel.ticks + 1) % timeSlice = 0 ∧ 2 ∈ s.kernel.allList ∧
      s.fresh 2 = true ∧ s.kernel.reaches 2 = false) (by decide +kernel)
  obtain ⟨hslice, hmem, hfresh, hnot⟩ := of_decide_eq_true hp
  refine ⟨s, k', flag, hr, ht, hmem, hfresh, hnot, fun hall => ?_⟩
  have hreached := (mlfqs_recomputation_complete_iff s k' flag hr hslice ht).mp hall 2 hmem hfresh
  rw [hnot] at hreached
  cases hreached

-- At the fourth tick the new thread has its initial priority and not 63.
theorem mlfqs_new_thread_not_recomputed :
    ∃ s k' flag, system.Reachable s ∧ s.kernel.countTick.threadTick = .ok (k', flag) ∧
      k'.ticks % timeSlice = 0 ∧ 2 ∈ k'.allList ∧ (k'.threads 2).priority = 31 ∧
      mlfqsPriority (k'.threads 2).recentCpu (k'.threads 2).nice = some 63 := by
  obtain ⟨s, k', flag, hr, ht, hp⟩ := exists_of_newThreadRun
    (fun _ k' => k'.ticks % timeSlice = 0 ∧ 2 ∈ k'.allList ∧ (k'.threads 2).priority = 31 ∧
      mlfqsPriority (k'.threads 2).recentCpu (k'.threads 2).nice = some 63) (by decide +kernel)
  exact ⟨s, k', flag, hr, ht, of_decide_eq_true hp⟩

end Traced

end Pintos.Threads
