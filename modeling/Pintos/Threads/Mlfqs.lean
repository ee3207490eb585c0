import Pintos.Threads.Preemption.Theorems
import Pintos.Threads.Switch

namespace Pintos.Threads

@[ext] structure Account where
  priority : Int
  recentCpu : Fp
  nice : Int
  recentlyUp : Bool
deriving DecidableEq

def Thread.account (t : Thread) : Account := ⟨t.priority, t.recentCpu, t.nice, t.recentlyUp⟩

def Thread.setAccount (a : Account) (t : Thread) : Thread :=
  { t with
    priority := a.priority
    recentCpu := a.recentCpu
    nice := a.nice
    recentlyUp := a.recentlyUp }

def Account.opened : Account := ⟨priDefault, 0, 0, false⟩

def Op.isAccounting : Op → Bool
  | .threadCreate _ (some _) _ | .threadSetNice _ | .timerInterrupt => true
  | _ => false

namespace Kernel

variable {k k1 k' : Kernel} {t u : ThreadRef} {list : ListRef} {oldLevel : IntrLevel} {flag : Bool}
  {sema : SemaRef} {lock : LockRef} {op : Op}

def account (k : Kernel) (t : ThreadRef) : Account := (k.threads t).account

-- All accounts are the same in both states, and so is all they are computed from.
structure AccountFrame (k k' : Kernel) : Prop where
  mlfqs : k'.mlfqs = k.mlfqs
  allList : k'.allList = k.allList
  ticks : k'.ticks = k.ticks
  loadAvg : k'.loadAvg = k.loadAvg
  loadAvgCoefficient : k'.loadAvgCoefficient = k.loadAvgCoefficient
  account : ∀ t, k'.account t = k.account t

theorem AccountFrame.refl (k : Kernel) : k.AccountFrame k := ⟨rfl, rfl, rfl, rfl, rfl, fun _ => rfl⟩

theorem AccountFrame.trans (h : k.AccountFrame k1) (h' : k1.AccountFrame k') :
    k.AccountFrame k' where
  mlfqs := h'.mlfqs.trans h.mlfqs
  allList := h'.allList.trans h.allList
  ticks := h'.ticks.trans h.ticks
  loadAvg := h'.loadAvg.trans h.loadAvg
  loadAvgCoefficient := h'.loadAvgCoefficient.trans h.loadAvgCoefficient
  account t := (h'.account t).trans (h.account t)

theorem SwitchFrame.accounts (h : k.SwitchFrame k') : k.AccountFrame k' :=
  ⟨h.mlfqs, h.allList, h.ticks, h.loadAvg, h.loadAvgCoefficient,
    fun t => congrArg (fun x => Account.mk x.2.2.1 x.2.2.2.1 x.2.2.2.2.1 x.2.2.2.2.2) (h.kept t)⟩

theorem AccountFrame.setThread (f : Thread → Thread)
    (hf : (f (k.threads t)).account = (k.threads t).account) : k.AccountFrame (k.setThread t f) :=
  ⟨rfl, rfl, rfl, rfl, rfl, setThread_field Thread.account f hf⟩

theorem AccountFrame.setList (list : ListRef) (elems : List ThreadRef) :
    k.AccountFrame (k.setList list elems) :=
  ⟨rfl, rfl, rfl, rfl, rfl, fun _ => rfl⟩

theorem timerSleep_accounts {ticks : Int} (hs : k.timerSleep ticks = .ok k') :
    k.AccountFrame k' := by
  obtain ⟨_, _, hs⟩ := threadCurrent_bind_ok hs
  obtain ⟨_, _, hs⟩ := threadCurrent_bind_ok hs
  exact ((AccountFrame.setThread (.setAlarm k.ticks ticks) rfl).trans (.setList .sleeping _)).trans
    (threadBlock_switch hs).accounts

section

variable (hm : k.mlfqs = true)
include hm

theorem lockAcquire_accounts (hl : k.lockAcquire lock = .ok k') : k.AccountFrame k' := by
  obtain ⟨_, _, hl⟩ := threadCurrent_bind_ok hl
  obtain ⟨⟨k1, success⟩, h1, hl⟩ := bind_ok_iff.mp hl
  have htry := (lockTryAcquire_switch h1).accounts
  cases success with
  | true =>
    cases hl
    exact htry
  | false =>
    obtain ⟨_, ⟨hflag, _⟩ | ⟨_, _, rfl⟩⟩ := lockTryAcquire_ok h1
    · cases hflag
    · obtain ⟨k2, h2, hl⟩ := bind_ok_iff.mp hl
      obtain ⟨holder, _, _, ⟨_, rfl⟩ | ⟨_, hf, _⟩⟩ := lockAcquireDonate_ok h2
      · exact (AccountFrame.setThread (.setWaitingForTlock (some holder)) rfl).trans
          (lockAcquireWait_switch hl).accounts
      · rw [hm] at hf
        cases hf

theorem lockReleaseOwner_accounts (hl : k.lockReleaseOwner lock = .ok k') : k.AccountFrame k' := by
  simp only [lockReleaseOwner, bind_ok_iff, threadCurrent_ok_iff, assert_ok_iff, exists_const] at hl
  obtain ⟨_, ⟨_, _, rfl⟩, _, heq⟩ := hl
  cases heq
  rw [setThread_mlfqs, hm, if_pos rfl]
  exact (AccountFrame.setThread (.setAcquiredLocks
    ((k.threads k.current).acquiredLocks.erase lock)) rfl).trans
    (SwitchFrame.setHolder lock none).accounts

theorem lockRelease_accounts (hl : k.lockRelease oldLevel lock = .ok k') : k.AccountFrame k' := by
  obtain ⟨k1, h1, hl⟩ := bind_ok_iff.mp hl
  exact (lockReleaseOwner_accounts hm h1).trans (semaUp_switch hl).accounts

theorem withLock_accounts (hl : k.withLock oldLevel lock = .ok k') : k.AccountFrame k' := by
  simp only [withLock, bind_ok_iff] at hl
  obtain ⟨⟨k1, success⟩, h1, hl⟩ := hl
  have htry := (lockTryAcquire_switch h1).accounts
  split_ifs at hl
  exact htry.trans (lockRelease_accounts (htry.mlfqs.trans hm) hl)

end

theorem listUpdateElem_accounts (k : Kernel) (list : ListRef) (t : ThreadRef) :
    k.AccountFrame (k.listUpdateElem list t) :=
  ⟨rfl, rfl, rfl, rfl, rfl, fun _ => rfl⟩

theorem threadCalculatePriority_accounts (hc : k.threadCalculatePriority t = .ok (k', flag)) :
    ∃ p, mlfqsPriority (k.threads t).recentCpu (k.threads t).nice = some p ∧
      (k.setThread t (.setPriority p)).AccountFrame k' := by
  obtain ⟨p, hp, ⟨_, rfl⟩ | ⟨list, _, rfl⟩⟩ := threadCalculatePriority_ok hc
  · exact ⟨p, hp, .refl _⟩
  · exact ⟨p, hp, listUpdateElem_accounts _ list t⟩

inductive AccountStep (k : Kernel) : Op → Kernel → Prop
  | quiet {op : Op} {k' : Kernel} (hop : op.isAccounting = false) (hf : k.AccountFrame k') :
      AccountStep k op k'
  | create {oldLevel : IntrLevel} {t : ThreadRef} {p : Int} {k' : Kernel}
      (hf : ((k.setThread t (.setAccount .opened)).setAllList (k.allList ++ [t])).AccountFrame k') :
      AccountStep k (.threadCreate oldLevel (some t) p) k'
  | exit {k' : Kernel} (hf : (k.setAllList (k.allList.erase k.current)).AccountFrame k') :
      AccountStep k .threadExit k'
  | nice {n p : Int} {k' : Kernel} (hn : n ≤ 20 ∧ -20 ≤ n)
      (hp : mlfqsPriority (k.threads k.current).recentCpu n = some p)
      (hf : (k.setThread k.current fun x => (x.setNice n).setPriority p).AccountFrame k') :
      AccountStep k (.threadSetNice n) k'
  | tick {k1 k' : Kernel} {yieldOnReturn : Bool}
      (ht : k.countTick.threadTick = .ok (k1, yieldOnReturn)) (hf : k1.AccountFrame k') :
      AccountStep k .timerInterrupt k'

theorem initThread_accounts {p : Int} (hm : k.mlfqs = true) (hi : k.initThread t p = .ok k') :
    ((k.setThread t (.setAccount .opened)).setAllList (k.allList ++ [t])).AccountFrame k' := by
  simp only [initThread, bind_ok_iff, assert_ok_iff, exists_const] at hi
  obtain ⟨_, heq⟩ := hi
  cases heq
  refine ⟨rfl, rfl, rfl, rfl, rfl, fun u => ?_⟩
  by_cases hu : u = t
  · subst hu
    simp [account, Thread.account, Thread.setAccount, Account.opened, hm]
  · simp [account, hu]

theorem AccountFrame.open (h : k.AccountFrame k1) (t : ThreadRef) :
    ((k.setThread t (.setAccount .opened)).setAllList (k.allList ++ [t])).AccountFrame
      ((k1.setThread t (.setAccount .opened)).setAllList (k1.allList ++ [t])) := by
  refine ⟨h.mlfqs, ?_, h.ticks, h.loadAvg, h.loadAvgCoefficient, fun u => ?_⟩
  · simp [h.allList]
  · by_cases hu : u = t
    · subst hu
      simp [Kernel.account, Thread.account, Thread.setAccount]
    · simpa [Kernel.account, hu] using h.account u

theorem allocateTid_accounts (hm : k.mlfqs = true) (ha : k.allocateTid oldLevel t = .ok k') :
    k.AccountFrame k' := by
  have htid : k.AccountFrame ((k.setThread t (.setTid k.nextTid)).setNextTid (k.nextTid + 1)) :=
    (AccountFrame.setThread (.setTid k.nextTid) rfl).trans ⟨rfl, rfl, rfl, rfl, rfl, fun _ => rfl⟩
  exact htid.trans (withLock_accounts hm ha)

theorem threadCreate_accountStep {page : Option ThreadRef} {p : Int} (hm : k.mlfqs = true)
    (hc : k.threadCreate oldLevel page p = .ok k') :
    AccountStep k (.threadCreate oldLevel page p) k' := by
  obtain ⟨k1, h1, hc⟩ := bind_ok_iff.mp hc
  have hpool := withLock_accounts hm h1
  cases page with
  | none =>
    cases hc
    exact .quiet rfl hpool
  | some t =>
    simp only [bind_ok_iff] at hc
    obtain ⟨k2, h2, k3, h3, hc⟩ := hc
    have hm1 : k1.mlfqs = true := hpool.mlfqs.trans hm
    have hinit := initThread_accounts hm1 h2
    have htid := allocateTid_accounts (hinit.mlfqs.trans hm1) h3
    exact .create ((((hpool.open t).trans hinit).trans htid).trans (threadUnblock_switch hc).accounts)

theorem threadExit_accountStep (hx : k.threadExit = .ok k') : AccountStep k .threadExit k' := by
  simp only [threadExit, bind_ok_iff, threadCurrent_ok_iff, setThread_setThread] at hx
  obtain ⟨_, ⟨_, _, rfl⟩, hs⟩ := hx
  exact .exit ((AccountFrame.setThread _ rfl).trans (schedule_switch hs).accounts)

theorem threadSetNice_accountStep {n : Int} (hx : k.threadSetNice n = .ok k') :
    AccountStep k (.threadSetNice n) k' := by
  simp only [threadSetNice, bind_ok_iff, assert_ok_iff, exists_const, threadCurrent_ok_iff] at hx
  obtain ⟨hn, _, ⟨_, _, rfl⟩, ⟨k1, outranked⟩, hc, hx⟩ := hx
  obtain ⟨p, hp, hf⟩ := threadCalculatePriority_accounts hc
  rw [setThread_threads_self] at hp
  rw [setThread_setThread] at hf
  refine .nice hn hp (hf.trans ?_)
  cases outranked with
  | true => exact (threadYield_switch hx).accounts
  | false =>
    cases hx
    exact .refl _

theorem exec_accountStep (hm : k.mlfqs = true) (hx : k.exec op = .ok k') : AccountStep k op k' := by
  cases op with
  | threadCreate oldLevel page p => exact threadCreate_accountStep hm hx
  | threadBlock => exact .quiet rfl (threadBlock_switch hx).accounts
  | threadUnblock oldLevel t => exact .quiet rfl (threadUnblock_switch hx).accounts
  | threadYield => exact .quiet rfl (threadYield_switch hx).accounts
  | threadExit => exact threadExit_accountStep hx
  | threadSetPriority p =>
    simp only [exec, threadSetPriority, hm, if_true] at hx
    cases hx
    exact .quiet rfl (.refl k)
  | threadSetNice n => exact threadSetNice_accountStep hx
  | timerSleep ticks => exact .quiet rfl (timerSleep_accounts hx)
  | timerInterrupt =>
    obtain ⟨k1, yieldOnReturn, ht, ⟨_, hy⟩ | ⟨_, rfl⟩⟩ := timerInterrupt_ok hx
    · exact .tick ht (threadYield_switch hy).accounts
    · exact .tick ht (.refl _)
  | semaInit sema n =>
    cases hx
    exact .quiet rfl (SwitchFrame.setValue sema n).accounts
  | semaDown sema =>
    obtain ⟨⟨k1, success⟩, h1, heq⟩ := bind_ok_iff.mp hx
    cases heq
    exact .quiet rfl (semaDownLoop_switch h1).accounts
  | semaTryDown sema =>
    cases hx
    refine .quiet rfl ?_
    unfold semaTryDown
    split_ifs
    · exact (SwitchFrame.setValue sema _).accounts
    · exact .refl k
  | semaUp oldLevel sema => exact .quiet rfl (semaUp_switch hx).accounts
  | lockAcquire lock => exact .quiet rfl (lockAcquire_accounts hm hx)
  | lockTryAcquire lock =>
    obtain ⟨⟨k1, success⟩, h1, heq⟩ := bind_ok_iff.mp hx
    cases heq
    exact .quiet rfl (lockTryAcquire_switch h1).accounts
  | lockRelease oldLevel lock => exact .quiet rfl (lockRelease_accounts hm hx)
  | resume => exact .quiet rfl (resumeCurrent_switch hx).accounts

theorem boot_accounts {P : Kernel → Prop} {semaInit : SemaRef → Nat}
    (hmode : ∀ k, P k → k.mlfqs = true)
    (hframe : ∀ k k', P k → k.AccountFrame k' → P k')
    (hopen : ∀ k t, P k → P ((k.setThread t (.setAccount .opened)).setAllList (k.allList ++ [t])))
    (hblank : P (blank true semaInit)) (hb : boot true semaInit = .ok k) : P k := by
  simp only [boot, threadStart, threadInit, bind_ok_iff] at hb
  obtain ⟨k0, ⟨k1, h1, h0⟩, k2, h2, k3, h3, hb⟩ := hb
  have hmain := hframe _ _ (hopen _ mainThread hblank) (initThread_accounts rfl h1)
  have hrunning := hframe _ _ hmain (.setThread (t := mainThread) (.setStatus .running) rfl)
  have hstart := hframe _ _ hrunning (allocateTid_accounts (hmode _ hrunning) h0)
  have hidle : P k2 := by
    cases threadCreate_accountStep (hmode _ hstart) h2 with
    | quiet hop => cases hop
    | create hf => exact hframe _ _ (hopen _ idlePage hstart) hf
  simp only [semaDown, bind_ok_iff] at h3
  obtain ⟨⟨k4, success⟩, h4, heq⟩ := h3
  cases heq
  have hnamed := hframe _ { k4 with idleThread := some k4.current }
    (hframe _ _ hidle (semaDownLoop_switch h4).accounts) ⟨rfl, rfl, rfl, rfl, rfl, fun _ => rfl⟩
  exact hframe _ _ hnamed (semaUp_switch hb).accounts

end Kernel

end Pintos.Threads
