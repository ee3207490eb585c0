import Mathlib.Tactic.Linarith
import Pintos.Threads.Mlfqs

namespace Pintos.Threads

namespace Account

def charged (a : Account) : Account :=
  { a with recentCpu := addFpn a.recentCpu 1, recentlyUp := true }

def decayed (coefficient : Fp) (a : Account) : Account :=
  { a with recentCpu := addFpn (multFpfp coefficient a.recentCpu) a.nice, recentlyUp := true }

def refreshed (a : Account) : Account :=
  match a.recentlyUp, Kernel.mlfqsPriority a.recentCpu a.nice with
  | true, some p => { a with priority := p, recentlyUp := false }
  | _, _ => a

def ticked (running second slice : Bool) (coefficient : Fp) (a : Account) : Account :=
  let a := if running then a.charged else a
  let a := if second then a.decayed coefficient else a
  if slice then a.refreshed else a

end Account

namespace Kernel

variable {k k1 k' : Kernel} {t u : ThreadRef} {flag : Bool} {l : List ThreadRef}

theorem threadUpdateTimer_accounts (k : Kernel) (t : ThreadRef) :
    k.AccountFrame (k.threadUpdateTimer t) := by
  unfold threadUpdateTimer
  split_ifs
  · have hremove : k.AccountFrame (k.listRemove t) := ⟨rfl, rfl, rfl, rfl, rfl, fun _ => rfl⟩
    exact hremove.trans (makeReady_switch _ t).accounts
  · exact .refl k

theorem wakeSleepers_accounts (k : Kernel) : k.AccountFrame k.wakeSleepers := by
  have hloop : ∀ l : List ThreadRef, ∀ k : Kernel,
      k.AccountFrame (l.foldl threadUpdateTimer k) := by
    intro l
    induction l with
    | nil => exact fun k => .refl k
    | cons t l ih => exact fun k => (threadUpdateTimer_accounts k t).trans (ih _)
  unfold wakeSleepers threadUpdateTimers
  split_ifs
  · exact hloop _ k
  · exact .refl k

theorem mlfqsCharge_account (k : Kernel) (t u : ThreadRef) : (k.mlfqsCharge t).account u =
      if u = t ∧ some t ≠ k.idleThread then (k.account u).charged else k.account u := by
  unfold mlfqsCharge
  by_cases hi : some t = k.idleThread
  · simp [hi]
  · by_cases hu : u = t
    · subst hu
      simp [hi, account, Thread.account, Account.charged]
    · simp [hi, hu, account]

theorem mlfqsCharge_load (k : Kernel) (t : ThreadRef) : (k.mlfqsCharge t).loadAvg = k.loadAvg ∧
      (k.mlfqsCharge t).loadAvgCoefficient = k.loadAvgCoefficient := by
  unfold mlfqsCharge
  split_ifs <;> exact ⟨rfl, rfl⟩

theorem threadCalculateRecentCpu_account (k : Kernel) (t u : ThreadRef) :
    (k.threadCalculateRecentCpu t).account u =
      if u = t then (k.account u).decayed k.loadAvgCoefficient else k.account u := by
  unfold threadCalculateRecentCpu
  by_cases hu : u = t
  · subst hu
    simp [account, Thread.account, Account.decayed]
  · simp [hu, account]

theorem foldl_threadCalculateRecentCpu_account (hl : l.Nodup) (k : Kernel) (u : ThreadRef) :
    (l.foldl threadCalculateRecentCpu k).account u =
      if u ∈ l then (k.account u).decayed k.loadAvgCoefficient else k.account u := by
  induction l generalizing k with
  | nil => simp
  | cons t l ih =>
    obtain ⟨hnot, hl⟩ := List.nodup_cons.mp hl
    have hcoefficient : (k.threadCalculateRecentCpu t).loadAvgCoefficient =
      k.loadAvgCoefficient := rfl
    rw [List.foldl_cons, ih hl, threadCalculateRecentCpu_account, hcoefficient]
    by_cases hu : u = t
    · subst hu
      simp [hnot]
    · simp [hu]

theorem threadUpdatePriorities_account (hu : k.threadUpdatePriorities t = .ok (k', flag)) :
    k'.allList = k.allList ∧ k'.ticks = k.ticks ∧ k'.mlfqs = k.mlfqs ∧ k'.loadAvg = k.loadAvg ∧
      k'.loadAvgCoefficient = k.loadAvgCoefficient ∧
      ∀ u, k'.account u = if u = t then (k.account u).refreshed else k.account u := by
  unfold threadUpdatePriorities at hu
  split_ifs at hu with hup
  · obtain ⟨p, hp, hf⟩ := threadCalculatePriority_accounts hu
    refine ⟨hf.allList, hf.ticks, hf.mlfqs, hf.loadAvg, hf.loadAvgCoefficient, fun u => ?_⟩
    rw [hf.account]
    rw [setThread_threads_self] at hp
    by_cases hut : u = t
    · subst hut
      have hpri : mlfqsPriority (k.threads u).recentCpu (k.threads u).nice = some p := hp
      simp [account, Thread.account, Account.refreshed, hup, hpri]
    · simp [hut, account]
  · cases hu
    refine ⟨rfl, rfl, rfl, rfl, rfl, fun u => ?_⟩
    split_ifs with hut
    · subst hut
      have hdown : (k.account u).recentlyUp = false := by simpa [account, Thread.account] using hup
      simp [Account.refreshed, hdown]
    · rfl

theorem threadForeachPriorities_account (hl : l.Nodup)
    (hf : threadForeachPriorities l k = .ok (k', flag)) :
    k'.allList = k.allList ∧ k'.ticks = k.ticks ∧ k'.mlfqs = k.mlfqs ∧ k'.loadAvg = k.loadAvg ∧
      k'.loadAvgCoefficient = k.loadAvgCoefficient ∧
      ∀ u, k'.account u = if u ∈ l then (k.account u).refreshed else k.account u := by
  induction l generalizing k flag with
  | nil =>
    cases hf
    exact ⟨rfl, rfl, rfl, rfl, rfl, by simp⟩
  | cons t l ih =>
    obtain ⟨k1, _, _, hu, hrest, _⟩ := threadForeachPriorities_cons hf
    obtain ⟨hnot, hl⟩ := List.nodup_cons.mp hl
    obtain ⟨hall, hticks, hm, hload, hcoef, haccount⟩ := threadUpdatePriorities_account hu
    obtain ⟨hall', hticks', hm', hload', hcoef', haccount'⟩ := ih hl hrest
    refine ⟨hall'.trans hall, hticks'.trans hticks, hm'.trans hm, hload'.trans hload,
      hcoef'.trans hcoef, fun u => ?_⟩
    rw [haccount', haccount]
    by_cases hut : u = t
    · subst hut
      simp [hnot]
    · simp [hut]

def readyCount (k : Kernel) : Int :=
  (k.countTick.wakeSleepers.lists .ready).length + if some k.current ≠ k.idleThread then 1 else 0

structure Ticked (k k' : Kernel) : Prop where
  mlfqs : k'.mlfqs = k.mlfqs
  allList : k'.allList = k.allList
  ticks : k'.ticks = k.ticks + 1
  load : if (k.ticks + 1) % timerFreq = 0 then
      nextLoadAvg k.loadAvg k.readyCount = some (k'.loadAvg, k'.loadAvgCoefficient)
    else k'.loadAvg = k.loadAvg ∧ k'.loadAvgCoefficient = k.loadAvgCoefficient
  account : ∀ t ∈ k.allList, k'.account t = (k.account t).ticked
    (t = k.current ∧ some t ≠ k.idleThread) ((k.ticks + 1) % timerFreq = 0)
    ((k.ticks + 1) % timeSlice = 0) k'.loadAvgCoefficient

theorem threadCalculateLoadAvg_ok (hc : k.threadCalculateLoadAvg = .ok k') : ∃ loadAvg coefficient,
      nextLoadAvg k.loadAvg ((k.lists .ready).length +
        if some k.current ≠ k.idleThread then 1 else 0) = some (loadAvg, coefficient) ∧
      k' = { k with loadAvg := loadAvg, loadAvgCoefficient := coefficient } := by
  unfold threadCalculateLoadAvg at hc
  have hcount : (if some k.current ≠ k.idleThread then ((k.lists .ready).length : Int) + 1
      else (k.lists .ready).length) =
      (k.lists .ready).length + if some k.current ≠ k.idleThread then 1 else 0 := by
    split_ifs <;> omega
  simp only [hcount] at hc
  split at hc
  · rename_i loadAvg coefficient hnext
    cases hc
    exact ⟨loadAvg, coefficient, hnext, rfl⟩
  · cases hc

theorem mlfqsSecond_account (hl : k.allList.Nodup) (hs : k.mlfqsSecond = .ok k') :
    k'.mlfqs = k.mlfqs ∧ k'.allList = k.allList ∧ k'.ticks = k.ticks ∧
      (if k.ticks % timerFreq = 0 then
        nextLoadAvg k.loadAvg ((k.lists .ready).length +
          if some k.current ≠ k.idleThread then 1 else 0) =
          some (k'.loadAvg, k'.loadAvgCoefficient)
      else k'.loadAvg = k.loadAvg ∧ k'.loadAvgCoefficient = k.loadAvgCoefficient) ∧
      ∀ u ∈ k.allList, k'.account u =
        if k.ticks % timerFreq = 0 then (k.account u).decayed k'.loadAvgCoefficient
        else k.account u := by
  unfold mlfqsSecond at hs
  split_ifs at hs with hsecond
  · obtain ⟨k1, h1, heq⟩ := bind_ok_iff.mp hs
    cases heq
    obtain ⟨loadAvg, coefficient, hnext, rfl⟩ := threadCalculateLoadAvg_ok h1
    have hfold : ∀ (l : List ThreadRef) (k : Kernel),
        (l.foldl threadCalculateRecentCpu k).mlfqs = k.mlfqs ∧
          (l.foldl threadCalculateRecentCpu k).allList = k.allList ∧
          (l.foldl threadCalculateRecentCpu k).ticks = k.ticks ∧
          (l.foldl threadCalculateRecentCpu k).loadAvg = k.loadAvg ∧
          (l.foldl threadCalculateRecentCpu k).loadAvgCoefficient = k.loadAvgCoefficient := by
      intro l
      induction l with
      | nil => exact fun k => ⟨rfl, rfl, rfl, rfl, rfl⟩
      | cons t l ih => exact fun k => ih (k.threadCalculateRecentCpu t)
    obtain ⟨hm, hall, hticks, hload, hcoef⟩ :=
      hfold k.allList { k with loadAvg := loadAvg, loadAvgCoefficient := coefficient }
    refine ⟨hm, hall, hticks, ?_, fun u hu => ?_⟩
    · rw [if_pos hsecond, hload, hcoef]
      exact hnext
    · rw [foldl_threadCalculateRecentCpu_account hl, if_pos hu, if_pos hsecond, hcoef]
      rfl
  · cases hs
    refine ⟨rfl, rfl, rfl, ?_, fun u _ => ?_⟩
    · rw [if_neg hsecond]
      exact ⟨rfl, rfl⟩
    · rw [if_neg hsecond]

theorem mlfqsSlice_account (hl : k.allList.Nodup) (hs : k.mlfqsSlice = .ok (k', flag)) :
    k'.mlfqs = k.mlfqs ∧ k'.allList = k.allList ∧ k'.ticks = k.ticks ∧ k'.loadAvg = k.loadAvg ∧
      k'.loadAvgCoefficient = k.loadAvgCoefficient ∧
      ∀ u ∈ k.allList, k'.account u =
        if k.ticks % timeSlice = 0 then (k.account u).refreshed else k.account u := by
  unfold mlfqsSlice at hs
  split_ifs at hs with hslice
  · obtain ⟨hall, hticks, hm, hload, hcoef, haccount⟩ := threadForeachPriorities_account hl hs
    refine ⟨hm, hall, hticks, hload, hcoef, fun u hu => ?_⟩
    rw [haccount, if_pos hu, if_pos hslice]
  · cases hs
    refine ⟨rfl, rfl, rfl, rfl, rfl, fun u _ => ?_⟩
    rw [if_neg hslice]

theorem threadTick_ticked (hq : k.QueueInv) (hm : k.mlfqs = true)
    (ht : k.countTick.threadTick = .ok (k', flag)) : k.Ticked k' := by
  obtain ⟨k4, recomputed, h4, rfl, _⟩ := threadTick_ok ht
  have hwake := wakeSleepers_accounts k.countTick
  have hframe := wakeSleepers_tickFrame k.countTick
  have hmode : k.countTick.wakeSleepers.mlfqs = true := hwake.mlfqs.trans hm
  simp only [mlfqsTick, hmode, if_true, bind_ok_iff] at h4
  obtain ⟨k3, h3, h4⟩ := h4
  rw [countTick_current] at h3
  obtain ⟨hcharge, hlists, -⟩ := charges_tickFrame.mlfqsCharge k.countTick.wakeSleepers k.current
  have hload := mlfqsCharge_load k.countTick.wakeSleepers k.current
  have hall2 : (k.countTick.wakeSleepers.mlfqsCharge k.current).allList = k.allList :=
    hcharge.allList.trans hwake.allList
  have hticks2 : (k.countTick.wakeSleepers.mlfqsCharge k.current).ticks = k.ticks + 1 :=
    hcharge.ticks.trans hwake.ticks
  have hidle2 : (k.countTick.wakeSleepers.mlfqsCharge k.current).idleThread = k.idleThread :=
    hcharge.idleThread.trans hframe.idleThread
  have hcur2 : (k.countTick.wakeSleepers.mlfqsCharge k.current).current = k.current :=
    hcharge.current.trans hframe.current
  obtain ⟨hm3, hall3, hticks3, hload3, haccount3⟩ :=
    mlfqsSecond_account (by rw [hall2]; exact hq.allListed.1) h3
  obtain ⟨hm4, hall4, hticks4, hload4, hcoef4, haccount4⟩ :=
    mlfqsSlice_account (by rw [hall3, hall2]; exact hq.allListed.1) h4
  rw [hticks2] at hload3 haccount3
  rw [hall2] at hall3 haccount3
  rw [hall3, hticks3, hticks2] at haccount4
  refine ⟨?_, hall4.trans hall3, hticks4.trans (hticks3.trans hticks2), ?_, fun t ht => ?_⟩
  · exact hm4.trans (hm3.trans (hcharge.mlfqs.trans hwake.mlfqs))
  · rw [hload.1, hload.2, hlists, hcur2, hidle2, hwake.loadAvg, hwake.loadAvgCoefficient] at hload3
    change if _ then nextLoadAvg _ _ = some (k4.loadAvg, k4.loadAvgCoefficient) else
      k4.loadAvg = _ ∧ k4.loadAvgCoefficient = _
    rw [hload4, hcoef4]
    exact hload3
  · change k4.account t = _
    rw [haccount4 t ht, haccount3 t ht, mlfqsCharge_account, hwake.account, hframe.idleThread]
    have hcoef : k4.countThreadTick.loadAvgCoefficient = k3.loadAvgCoefficient := hcoef4
    have hsame : k.countTick.account t = k.account t := rfl
    have hidle : k.countTick.idleThread = k.idleThread := rfl
    have hrunning : (t = k.current ∧ some k.current ≠ k.idleThread) ↔
        (t = k.current ∧ some t ≠ k.idleThread) :=
      and_congr_right fun heq => by rw [heq]
    simp only [Account.ticked, decide_eq_true_eq, hcoef, hsame, hidle, hrunning]

end Kernel

def IsInt32 (x : Int) : Prop := -2 ^ 31 ≤ x ∧ x < 2 ^ 31

instance : DecidablePred IsInt32 := fun x => inferInstanceAs (Decidable (-2 ^ 31 ≤ x ∧ x < 2 ^ 31))

theorem int32_eq {x : Int} (h : IsInt32 x) : int32 x = x := by
  obtain ⟨hlow, hhigh⟩ := h
  apply Int.bmod_eq_of_le
  · norm_num
    omega
  · norm_num
    omega

-- The functions of the MLFQS with every stored value checked: none when a value is
-- not an int32_t, when a divisor is zero or when an assertion fails.
namespace Checked

def store (x : Int) : Option Fp := if IsInt32 x then some x else none

def convItofp (n : Int) : Option Fp := store (n * fConv)

def addFpfp (x y : Fp) : Option Fp := store (x + y)
def addFpn (x : Fp) (n : Int) : Option Fp := do addFpfp x (← convItofp n)
def subFpfp (x y : Fp) : Option Fp := store (x - y)
def subFpn (x : Fp) (n : Int) : Option Fp := do subFpfp x (← convItofp n)

def multFpfp (x y : Fp) : Option Fp := store (Int.tdiv (x * y) fConv)
def multFpn (x : Fp) (n : Int) : Option Fp := do multFpfp x (← convItofp n)

def divFpfp (x y : Fp) : Option Fp := if y = 0 then none else store (Int.tdiv (x * fConv) y)
def divFpn (x : Fp) (n : Int) : Option Fp := do divFpfp x (← convItofp n)

def mlfqsPriority (recentCpu : Fp) (nice : Int) : Option Int := do
  let quarterCpu ← divFpn recentCpu 4
  let sub1 ← subFpfp (← convItofp priMax) quarterCpu
  let newPriority := rzconvFptoi (← subFpn sub1 (← store (nice * 2)))
  if newPriority < priMin then return priMin
  else if newPriority > priMax then return priMax
  else return newPriority

def threadCalculatePriority (k : Kernel) (t : ThreadRef) : Option (Kernel × Bool) := do
  let p ← mlfqsPriority (k.threads t).recentCpu (k.threads t).nice
  let k := k.setThread t (.setPriority p)
  let k := match (k.threads t).threadPl with
    | some list => k.listUpdateElem list t
    | none => k
  return (k, decide ((k.threads t).priority < k.threadListTopPri .ready))

def nextLoadAvg (loadAvg : Fp) (numReady : Int) : Option (Fp × Fp) := do
  let product1 ← multFpfp (← divFpn (← convItofp 59) 60) loadAvg
  let product2 ← divFpn (← convItofp numReady) 60
  let loadAvg ← addFpfp product1 product2
  let coefficient ← divFpfp (← multFpn loadAvg 2) (← addFpn (← multFpn loadAvg 2) 1)
  return (loadAvg, coefficient)

def threadCalculateLoadAvg (k : Kernel) : Option Kernel := do
  let numReady : Int := (k.lists .ready).length
  let numReady := if some k.current ≠ k.idleThread then numReady + 1 else numReady
  let (loadAvg, coefficient) ← nextLoadAvg k.loadAvg numReady
  return { k with loadAvg := loadAvg, loadAvgCoefficient := coefficient }

def threadCalculateRecentCpu (k : Kernel) (t : ThreadRef) : Option Kernel := do
  let product ← multFpfp k.loadAvgCoefficient (k.threads t).recentCpu
  let sum ← addFpn product (k.threads t).nice
  return (k.setThread t (.setRecentlyUp true)).setThread t (.setRecentCpu sum)

def threadUpdatePriorities (k : Kernel) (t : ThreadRef) : Option (Kernel × Bool) :=
  if (k.threads t).recentlyUp then
    threadCalculatePriority (k.setThread t (.setRecentlyUp false)) t
  else some (k, false)

def threadForeachPriorities : List ThreadRef → Kernel → Option (Kernel × Bool)
  | [], k => some (k, false)
  | t :: rest, k => do
      let (k, outranked) ← threadUpdatePriorities k t
      let (k, more) ← threadForeachPriorities rest k
      return (k, outranked || more)

def mlfqsCharge (k : Kernel) (t : ThreadRef) : Option Kernel :=
  if some t ≠ k.idleThread then do
    let recentCpu ← addFpn (k.threads t).recentCpu 1
    return (k.setThread t (.setRecentCpu recentCpu)).setThread t (.setRecentlyUp true)
  else some k

def mlfqsSecond (k : Kernel) : Option Kernel :=
  if k.ticks % timerFreq = 0 then do
    let k ← threadCalculateLoadAvg k
    k.allList.foldlM threadCalculateRecentCpu k
  else some k

def mlfqsSlice (k : Kernel) : Option (Kernel × Bool) :=
  if k.ticks % timeSlice = 0 then threadForeachPriorities k.allList k else some (k, false)

def mlfqsTick (k : Kernel) (t : ThreadRef) : Option (Kernel × Bool) :=
  if k.mlfqs then do
    let k ← mlfqsCharge k t
    let k ← mlfqsSecond k
    mlfqsSlice k
  else some (k, false)

def threadTick (k : Kernel) : Option (Kernel × Bool) := do
  let t ← k.threadCurrent.toOption
  let k := k.wakeSleepers
  let outranks := decide ((k.threads t).priority > k.threadListTopPri .ready)
  let (k, recomputed) ← mlfqsTick k t
  let k := k.countThreadTick
  return (k, outranks || recomputed || decide (k.threadTicks ≥ timeSlice))

section Exact

variable {x y : Fp} {n : Int}

theorem store_eq (h : IsInt32 x) : store x = some x := if_pos h

theorem addFpfp_exact (h : IsInt32 (x + y)) :
    addFpfp x y = some (x + y) ∧ Threads.addFpfp x y = x + y :=
  ⟨store_eq h, int32_eq h⟩

theorem subFpfp_exact (h : IsInt32 (x - y)) :
    subFpfp x y = some (x - y) ∧ Threads.subFpfp x y = x - y :=
  ⟨store_eq h, int32_eq h⟩

theorem multFpfp_exact (h : IsInt32 ((x * y).tdiv fConv)) :
    multFpfp x y = some ((x * y).tdiv fConv) ∧ Threads.multFpfp x y = (x * y).tdiv fConv :=
  ⟨store_eq h, int32_eq h⟩

theorem divFpfp_exact (hy : y ≠ 0) (h : IsInt32 ((x * fConv).tdiv y)) :
    divFpfp x y = some ((x * fConv).tdiv y) ∧ Threads.divFpfp x y = some ((x * fConv).tdiv y) := by
  unfold divFpfp Threads.divFpfp
  rw [if_neg hy, if_neg hy, store_eq h, int32_eq h]
  exact ⟨rfl, rfl⟩

theorem convItofp_exact (h : IsInt32 (n * fConv)) :
    convItofp n = some (n * fConv) ∧ Threads.convItofp n = n * fConv :=
  ⟨store_eq h, int32_eq h⟩

section

variable (hn : IsInt32 (n * fConv))
include hn

theorem addFpn_exact (h : IsInt32 (x + n * fConv)) :
    addFpn x n = some (x + n * fConv) ∧ Threads.addFpn x n = x + n * fConv := by
  obtain ⟨hc, hp⟩ := convItofp_exact hn
  unfold addFpn Threads.addFpn
  rw [hc, hp]
  exact addFpfp_exact h

theorem subFpn_exact (h : IsInt32 (x - n * fConv)) :
    subFpn x n = some (x - n * fConv) ∧ Threads.subFpn x n = x - n * fConv := by
  obtain ⟨hc, hp⟩ := convItofp_exact hn
  unfold subFpn Threads.subFpn
  rw [hc, hp]
  exact subFpfp_exact h

theorem multFpn_exact (h : IsInt32 ((x * (n * fConv)).tdiv fConv)) :
    multFpn x n = some ((x * (n * fConv)).tdiv fConv) ∧
      Threads.multFpn x n = (x * (n * fConv)).tdiv fConv := by
  obtain ⟨hc, hp⟩ := convItofp_exact hn
  unfold multFpn Threads.multFpn
  rw [hc, hp]
  exact multFpfp_exact h

theorem divFpn_exact (hz : n * fConv ≠ 0) (h : IsInt32 ((x * fConv).tdiv (n * fConv))) :
    divFpn x n = some ((x * fConv).tdiv (n * fConv)) ∧
      Threads.divFpn x n = some ((x * fConv).tdiv (n * fConv)) := by
  obtain ⟨hc, hp⟩ := convItofp_exact hn
  unfold divFpn Threads.divFpn
  rw [hc, hp]
  exact divFpfp_exact hz h

end

end Exact

end Checked

end Pintos.Threads
