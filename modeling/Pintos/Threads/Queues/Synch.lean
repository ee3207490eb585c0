import Pintos.Threads.Queues.Scheduler

namespace Pintos.Threads.Kernel

open Function Lib Kernel

variable {k k' : Kernel} {t : ThreadRef} {flag : Bool} {sema : SemaRef} {lock : LockRef}
  {onWake : Resume} {oldLevel : IntrLevel} {p : Int} {count : Nat} {cur : Option ThreadRef}

section

variable (h : k.QueueInv)
include h

theorem QueueInv.setValue (sema : SemaRef) (n : Nat) : (k.setValue sema n).QueueInv :=
  h.congr rfl rfl rfl rfl rfl rfl

theorem QueueInv.semaDownLoop (hi : some k.current ≠ k.idleThread)
    (hs : k.semaDownLoop sema onWake = .ok (k', flag)) : k'.QueueInv := by
  obtain ⟨_, _, hs⟩ := threadCurrent_bind_ok hs
  split_ifs at hs with hz
  · obtain ⟨k1, hb, heq⟩ := bind_ok_iff.mp hs
    cases heq
    refine threadBlock_queueInv ?_ ?_ ?_ hb
    · exact (((h.running.congr (s := k.listInsertOrdered (.waiters sema) k.current)
        (fun _ => rfl) rfl rfl).setThread (.setThreadPl (some (.waiters sema))) rfl).congr
        (fun _ => rfl) rfl rfl)
    · exact ((h.allListed.congr (s := k.listInsertOrdered (.waiters sema) k.current)
        (fun _ => rfl) rfl rfl).setThread (.setThreadPl (some (.waiters sema))) Iff.rfl).congr
        (fun _ => rfl) rfl rfl
    · have hq : (((k.listInsertOrdered (.waiters sema) k.current).setThread k.current
          (.setThreadPl (some (.waiters sema)))).setThread k.current (.setStatus .blocked)).Queues := by
        rw [setThread_setThread, listInsertOrdered_setThread]
        · exact ((h.queues.loose h.absent).setThread _).insertOrdered h.running.1 hi (by simp)
            (by simp [ListRef.status]) (by simp)
        · intro x
          rfl
      exact hq.congr rfl rfl rfl rfl
  · cases hs
    exact h.setValue _ _

theorem QueueInv.semaDown (hi : some k.current ≠ k.idleThread) (hs : k.semaDown sema = .ok k') :
    k'.QueueInv := by
  obtain ⟨⟨k1, b⟩, h1, heq⟩ := bind_ok_iff.mp hs
  cases heq
  exact h.semaDownLoop hi h1

theorem QueueInv.semaTryDown : (k.semaTryDown sema).1.QueueInv := by
  unfold Kernel.semaTryDown
  split_ifs
  · exact h.setValue _ _
  · exact h

theorem QueueInv.semaUp (hs : k.semaUp oldLevel sema = .ok k') : k'.QueueInv := by
  unfold Kernel.semaUp at hs
  have hv := h.setValue sema (k.value sema + 1)
  simp only at hs
  split at hs
  · cases hs
    exact hv
  · rename_i top rest hl
    have hm : top ∈ k.lists (.waiters sema) := by
      rw [show k.lists (.waiters sema) = top :: rest from hl]
      simp
    exact (hv.queues.popFront hl).threadUnblock (hv.running.congr (fun _ => rfl) rfl rfl)
      (hv.allListed.congr (fun _ => rfl) rfl rfl) (h.queues.not_idle hm) hs

theorem lockDonate_induct {P : Kernel → Prop}
    (hd : lockDonate count cur p k = .ok k') (hk : P k)
    (hstep : ∀ (k : Kernel) (t : ThreadRef) (list : ListRef), k.QueueInv → P k →
      k.live t = true → (k.threads t).threadPl = some list →
      P ((k.setThread t fun x => (x.setPriority p).setDonated true).listUpdateElem list t)) :
    k'.QueueInv ∧ P k' := by
  induction count generalizing cur k with
  | zero =>
    cases hd
    exact ⟨h, hk⟩
  | succ count ih =>
    cases cur with
    | none =>
      cases hd
      exact ⟨h, hk⟩
    | some t =>
      unfold lockDonate at hd
      split_ifs at hd with hv
      · cases hd
        exact ⟨h, hk⟩
      · rw [setThread_setThread] at hd
        simp only at hd
        split at hd
        · cases hd
        · rename_i list hl
          rw [setThread_threads_self] at hl
          have hlive : k.live t = true := by simpa using hv
          exact ih (h.setPriority_listUpdateElem hlive _ rfl rfl hl) hd (hstep k t list h hk hlive hl)

theorem QueueInv.lockDonate (hd : lockDonate count cur p k = .ok k') :
    k'.QueueInv ∧ k'.current = k.current ∧ k'.idleThread = k.idleThread :=
  lockDonate_induct (P := fun k' => k'.current = k.current ∧ k'.idleThread = k.idleThread) h hd
    ⟨rfl, rfl⟩ fun _ _ _ _ hk _ _ => hk

theorem QueueInv.giveLock (lock : LockRef) (t : ThreadRef) : (k.giveLock lock t).QueueInv := by
  unfold Kernel.giveLock
  rw [setThread_setThread]
  exact (h.congr (s := k.setHolder lock (some t)) rfl rfl rfl rfl rfl rfl).setThread _ rfl rfl
    fun _ _ _ => rfl

end

theorem lockTryAcquire_ok (hl : k.lockTryAcquire lock = .ok (k', flag)) :
    k.holder lock ≠ some k.current ∧ ((flag = true ∧ 0 < k.value (.ofLock lock) ∧
        k' = (k.setValue (.ofLock lock) (k.value (.ofLock lock) - 1)).giveLock lock k.current) ∨
      (flag = false ∧ k.value (.ofLock lock) = 0 ∧ k' = k)) := by
  simp only [lockTryAcquire, bind_ok_iff, threadCurrent_ok_iff, assert_ok_iff, exists_const] at hl
  obtain ⟨_, ⟨_, _, rfl⟩, hne, hl⟩ := hl
  refine ⟨hne, ?_⟩
  unfold Kernel.semaTryDown at hl
  by_cases hz : k.value (.ofLock lock) > 0
  · simp only [hz, if_true, pure, Except.pure, Except.ok.injEq, Prod.mk.injEq] at hl
    exact .inl ⟨hl.2.symm, hz, hl.1.symm⟩
  · simp only [hz, if_false, Bool.false_eq_true, pure, Except.pure, Except.ok.injEq,
      Prod.mk.injEq] at hl
    exact .inr ⟨hl.2.symm, by omega, hl.1.symm⟩

theorem QueueInv.lockTryAcquire (h : k.QueueInv) (hl : k.lockTryAcquire lock = .ok (k', flag)) :
    k'.QueueInv := by
  obtain ⟨_, ⟨_, _, rfl⟩ | ⟨_, _, rfl⟩⟩ := lockTryAcquire_ok hl
  · exact (h.setValue _ _).giveLock _ _
  · exact h

theorem QueueInv.lockAcquireWait (h : k.QueueInv) (hi : some k.current ≠ k.idleThread)
    (hl : k.lockAcquireWait lock = .ok k') : k'.QueueInv := by
  obtain ⟨_, _, hl⟩ := threadCurrent_bind_ok hl
  obtain ⟨⟨k1, success⟩, h1, heq⟩ := bind_ok_iff.mp hl
  have hq := h.semaDownLoop hi h1
  cases success with
  | true =>
    cases heq
    exact hq.giveLock _ _
  | false =>
    cases heq
    exact hq

theorem lockAcquireDonate_ok (hd : k.lockAcquireDonate lock k.current = .ok k') :
    ∃ holder, k.holder lock = some holder ∧ k.live holder = true ∧
      ((((k.threads k.current).priority ≤
            ((k.setThread k.current (.setWaitingForTlock (some holder))).threads holder).priority ∨
          k.mlfqs = true) ∧
        k' = k.setThread k.current (.setWaitingForTlock (some holder))) ∨
      ((k.threads k.current).priority >
          ((k.setThread k.current (.setWaitingForTlock (some holder))).threads holder).priority ∧
        k.mlfqs = false ∧
        lockDonate maxDonations (some holder) (k.threads k.current).priority
          (k.setThread k.current (.setWaitingForTlock (some holder))) = .ok k')) := by
  unfold lockAcquireDonate at hd
  simp only [setThread_holder, setThread_live, setThread_mlfqs] at hd
  split at hd
  · cases hd
  · rename_i holder hh
    rw [hh] at hd
    split_ifs at hd with hv hp
    · exact ⟨holder, hh, by simpa using hv, .inr ⟨hp.1, hp.2, hd⟩⟩
    · cases hd
      refine ⟨holder, hh, by simpa using hv, .inl ⟨?_, rfl⟩⟩
      by_cases hm : k.mlfqs = true
      · exact .inr hm
      · left
        by_contra hlt
        exact hp ⟨not_le.mp hlt, by simpa using hm⟩

theorem QueueInv.lockAcquireDonate (h : k.QueueInv)
    (hd : k.lockAcquireDonate lock k.current = .ok k') :
    k'.QueueInv ∧ k'.current = k.current ∧ k'.idleThread = k.idleThread := by
  obtain ⟨holder, _, _, ⟨_, rfl⟩ | ⟨_, _, hd⟩⟩ := lockAcquireDonate_ok hd
  · exact ⟨h.setCurrent _ rfl rfl, rfl, rfl⟩
  · exact (h.setCurrent _ rfl rfl).lockDonate hd

theorem QueueInv.lockAcquire (h : k.QueueInv) (hi : some k.current ≠ k.idleThread)
    (hl : k.lockAcquire lock = .ok k') : k'.QueueInv := by
  obtain ⟨_, _, hl⟩ := threadCurrent_bind_ok hl
  obtain ⟨⟨k1, success⟩, h1, hl⟩ := bind_ok_iff.mp hl
  have hq := h.lockTryAcquire h1
  obtain ⟨_, ⟨rfl, _, rfl⟩ | ⟨rfl, _, rfl⟩⟩ := lockTryAcquire_ok h1
  · cases hl
    exact hq
  · obtain ⟨k2, h2, hl⟩ := bind_ok_iff.mp hl
    obtain ⟨hq2, hc, hid⟩ := hq.lockAcquireDonate h2
    exact hq2.lockAcquireWait (by rw [hc, hid]; exact hi) hl

def restoredPriority (k : Kernel) (cur : ThreadRef) : Int :=
  let k := (k.setThread cur (.setPriority (k.threads cur).originalPriority)).setThread cur
    (.setDonated false)
  if (k.threads cur).acquiredLocks ≠ [] ∧
      (k.threads cur).originalPriority < k.nextPotentialDonation cur then
    k.nextPotentialDonation cur
  else (k.threads cur).originalPriority

theorem restorePriority_eq (k : Kernel) (cur : ThreadRef) : k.restorePriority cur =
      (k.setThread cur (.setPriority (k.restoredPriority cur))).setThread cur
        (.setDonated (decide ((k.threads cur).originalPriority < k.restoredPriority cur))) := by
  unfold restorePriority restoredPriority
  simp only
  split_ifs with hd
  · have hlt : (k.threads cur).originalPriority <
        ((k.setThread cur (.setPriority (k.threads cur).originalPriority)).setThread cur
          (.setDonated false)).nextPotentialDonation cur := by simpa using hd.2
    rw [decide_eq_true hlt]
    simp only [setThread_setThread]
    rfl
  · simp only [setThread_setThread, setThread_threads_self]
    simp

structure Released (k : Kernel) (lock : LockRef) (x : Thread) : Prop where
  status : x.status = (k.threads k.current).status
  threadPl : x.threadPl = (k.threads k.current).threadPl
  waitingForTlock : x.waitingForTlock = (k.threads k.current).waitingForTlock
  originalPriority : x.originalPriority = (k.threads k.current).originalPriority
  acquiredLocks : x.acquiredLocks = (k.threads k.current).acquiredLocks.erase lock
  unmoved : k.mlfqs = true →
    x.priority = (k.threads k.current).priority ∧ x.donated = (k.threads k.current).donated
  restored : k.mlfqs = false →
    x.priority = (k.setThread k.current (.setAcquiredLocks
      ((k.threads k.current).acquiredLocks.erase lock))).restoredPriority k.current ∧
    x.donated = decide (x.originalPriority < x.priority)

theorem lockReleaseOwner_ok (hl : k.lockReleaseOwner lock = .ok k') :
    k.holder lock = some k.current ∧ ∃ x, k.Released lock x ∧
      k' = (k.setThread k.current fun _ => x).setHolder lock none := by
  simp only [lockReleaseOwner, bind_ok_iff, threadCurrent_ok_iff, assert_ok_iff, exists_const] at hl
  obtain ⟨_, ⟨_, _, rfl⟩, hh, heq⟩ := hl
  refine ⟨hh, ?_⟩
  cases heq
  split_ifs with hm
  · refine ⟨(k.threads k.current).setAcquiredLocks ((k.threads k.current).acquiredLocks.erase lock),
      ⟨rfl, rfl, rfl, rfl, rfl, fun _ => ⟨rfl, rfl⟩, fun hf => ?_⟩, rfl⟩
    rw [setThread_mlfqs, hf] at hm
    cases hm
  · rw [restorePriority_eq, setThread_setThread, setThread_setThread, setThread_threads_self]
    refine ⟨_, ⟨?_, ?_, ?_, ?_, ?_, fun ht => ?_, fun _ => ⟨?_, ?_⟩⟩, rfl⟩
    case refine_6 =>
      rw [setThread_mlfqs, ht] at hm
      exact absurd rfl hm
    all_goals rfl

theorem QueueInv.released {x : Thread} (h : k.QueueInv)
    (hs : x.status = (k.threads k.current).status)
    (hp : x.threadPl = (k.threads k.current).threadPl) :
    ((k.setThread k.current fun _ => x).setHolder lock none).QueueInv :=
  (h.setCurrent (fun _ => x) hs hp).congr rfl rfl rfl rfl rfl rfl

theorem QueueInv.lockReleaseOwner (h : k.QueueInv) (hl : k.lockReleaseOwner lock = .ok k') :
    k'.QueueInv := by
  obtain ⟨_, x, hx, rfl⟩ := lockReleaseOwner_ok hl
  exact h.released hx.status hx.threadPl

theorem QueueInv.lockRelease (h : k.QueueInv) (hl : k.lockRelease oldLevel lock = .ok k') :
    k'.QueueInv := by
  obtain ⟨k1, h1, hl⟩ := bind_ok_iff.mp hl
  exact (h.lockReleaseOwner h1).semaUp hl

structure Passed (k : Kernel) (lock : LockRef) (x : Thread) : Prop where
  status : x.status = (k.threads k.current).status
  threadPl : x.threadPl = (k.threads k.current).threadPl
  waitingForTlock : x.waitingForTlock = none
  originalPriority : x.originalPriority = (k.threads k.current).originalPriority
  acquiredLocks : x.acquiredLocks = ((k.threads k.current).acquiredLocks ++ [lock]).erase lock
  unmoved : k.mlfqs = true →
    x.priority = (k.threads k.current).priority ∧ x.donated = (k.threads k.current).donated
  restored : k.mlfqs = false → ∃ s : Kernel, s.lists = k.lists ∧
    (∀ t, (s.threads t).priority = (k.threads t).priority) ∧
    (s.threads k.current).originalPriority = x.originalPriority ∧
    (s.threads k.current).acquiredLocks = x.acquiredLocks ∧
    x.priority = s.restoredPriority k.current ∧
    x.donated = decide (x.originalPriority < x.priority)

theorem withLock_ok (hl : k.withLock oldLevel lock = .ok k') :
    0 < k.value (.ofLock lock) ∧ k.lists (.waiters (.ofLock lock)) = [] ∧
      ∃ x, k.Passed lock x ∧ k' = (k.setThread k.current fun _ => x).setHolder lock none := by
  simp only [withLock, bind_ok_iff] at hl
  obtain ⟨⟨k1, success⟩, h1, hl⟩ := hl
  split_ifs at hl with hc
  obtain ⟨rfl, hw⟩ := hc
  obtain ⟨_, ⟨_, hz, rfl⟩ | ⟨hf, _⟩⟩ := lockTryAcquire_ok h1
  · obtain ⟨k2, h2, hl⟩ := bind_ok_iff.mp hl
    obtain ⟨_, x, hx, rfl⟩ := lockReleaseOwner_ok h2
    have hn : k.value (.ofLock lock) - 1 + 1 = k.value (.ofLock lock) := by omega
    refine ⟨hz, hw, x, ?_, ?_⟩
    · refine ⟨?_, ?_, ?_, ?_, ?_, fun hm => ?_, fun hm => ?_⟩
      · simpa [Kernel.giveLock] using hx.status
      · simpa [Kernel.giveLock] using hx.threadPl
      · simpa [Kernel.giveLock] using hx.waitingForTlock
      · simpa [Kernel.giveLock] using hx.originalPriority
      · simpa [Kernel.giveLock] using hx.acquiredLocks
      · simpa [Kernel.giveLock] using hx.unmoved hm
      · obtain ⟨hp, hd⟩ := hx.restored hm
        refine ⟨_, ?_, ?_, ?_, ?_, hp, hd⟩
        · rfl
        · intro t
          by_cases ht : t = k.current
          · rw [ht]
            simp [Kernel.giveLock]
          · simp [Kernel.giveLock, ht]
        · rw [hx.originalPriority]
          simp [Kernel.giveLock]
        · rw [hx.acquiredLocks]
          simp [Kernel.giveLock]
    · unfold Kernel.semaUp at hl
      simp only at hl
      split at hl
      · cases hl
        simp [Kernel.giveLock, setThread, setHolder, setValue, hn]
      · rename_i top rest hcons
        have hnil : k.lists (.waiters (.ofLock lock)) = [] := hw
        rw [show k.lists (.waiters (.ofLock lock)) = top :: rest from hcons] at hnil
        cases hnil
  · cases hf

theorem QueueInv.withLock (h : k.QueueInv) (hl : k.withLock oldLevel lock = .ok k') :
    k'.QueueInv := by
  obtain ⟨_, _, x, hx, rfl⟩ := withLock_ok hl
  exact h.released hx.status hx.threadPl

theorem withLock_frame (hl : k.withLock oldLevel lock = .ok k') :
    k'.lists = k.lists ∧ k'.live = k.live ∧ k'.idleThread = k.idleThread ∧
      k'.allList = k.allList ∧ k'.resume = k.resume ∧
      k'.holder = update k.holder lock none := by
  obtain ⟨_, _, x, _, rfl⟩ := withLock_ok hl
  exact ⟨rfl, rfl, rfl, rfl, rfl, rfl⟩

theorem initThread_ok (hi : k.initThread t p = .ok k') :
    k'.holder = k.holder ∧ k'.value = k.value ∧ k'.allList = k.allList ++ [t] ∧
      k'.lists = k.lists ∧ k'.live = update k.live t true ∧ k'.mlfqs = k.mlfqs ∧
      k'.idleThread = k.idleThread ∧ k'.current = k.current ∧
      k'.resume = update k.resume t .toCaller ∧
      (∀ u, u ≠ t → k'.threads u = k.threads u) ∧
      (k'.threads t).waitingForTlock = none ∧ (k'.threads t).acquiredLocks = [] ∧
      (k'.threads t).donated = false ∧ (k'.threads t).priority = (k'.threads t).originalPriority ∧
      priMin ≤ (k'.threads t).originalPriority := by
  simp only [Kernel.initThread, bind_ok_iff, assert_ok_iff, exists_const] at hi
  obtain ⟨hp, heq⟩ := hi
  cases heq
  refine ⟨rfl, rfl, rfl, rfl, rfl, rfl, rfl, rfl, rfl, fun u hu => ?_, ?_, ?_, ?_, ?_, ?_⟩
  · simp [hu]
  · simp
  · simp
  · simp
  · simp
  · simp only [setResume_threads, setThread_threads_self]
    split_ifs
    · decide
    · exact hp.1

theorem QueueInv.initThread (h : k.QueueInv) (hv : k.live t = false)
    (hi : k.initThread t p = .ok k') :
    k'.QueueInv ∧ ∀ list, t ∉ k'.lists list := by
  simp only [Kernel.initThread, bind_ok_iff, assert_ok_iff, exists_const] at hi
  obtain ⟨_, heq⟩ := hi
  cases heq
  have hold : ∀ {u : ThreadRef}, k.live u = true → u ≠ t := by
    rintro u hu rfl
    rw [hv] at hu
    cases hu
  have habs : ∀ list, t ∉ k.lists list := fun list hm => hold (h.queues.member list t hm).1 rfl
  refine ⟨⟨⟨?_, ?_, h.queues.nodup, ?_, ?_, ?_, ?_⟩, ⟨?_, ?_⟩, ?_, ?_⟩, habs⟩
  · intro list u hu
    have := h.queues.member list u hu
    simpa [hold this.1] using this
  · intro u hu hs hidle
    by_cases hut : u = t
    · subst hut
      simp at hs
    · exact h.queues.ready u (by simpa [hut] using hu) (by simpa [hut] using hs) hidle
  · intro list hls
    refine (PriorityQueue.descending_congr fun u hu => ?_).mp (h.queues.sorted list hls)
    simp [pri, hold (h.queues.member list u hu).1]
  · intro u hu list
    by_cases hut : u = t
    · subst hut
      simp [habs]
    · simpa [hut] using h.queues.threadPl u (by simpa [hut] using hu) list
  · intro u hu
    simpa [hold (h.queues.member _ u hu).1] using h.queues.sleeping u hu
  · intro u hu
    obtain ⟨h1, h2, h3⟩ := h.queues.idle u hu
    exact ⟨by simpa [hold h1] using h1, by simpa [hold h1] using h2, h3⟩
  · simpa [hold h.running.1] using h.running.1
  · intro u hu
    by_cases hut : u = t
    · subst hut
      simpa using (hold h.running.1).symm
    · simpa [hut] using h.running.2 u (by simpa [hut] using hu)
  · refine List.nodup_append'.mpr ⟨h.allListed.1, List.nodup_singleton t, ?_⟩
    intro u hu hut
    exact hold ((h.allListed.2 u).mp hu).1 (List.mem_singleton.mp hut)
  · intro u
    by_cases hut : u = t
    · subst hut
      simp
    · simpa [hut] using h.allListed.2 u

theorem QueueInv.allocateTid (h : k.QueueInv) (ha : k.allocateTid oldLevel t = .ok k') :
    k'.QueueInv := by
  refine QueueInv.withLock ?_ ha
  exact (h.setThread (.setTid k.nextTid) rfl rfl fun _ _ _ => rfl).congr rfl rfl rfl rfl rfl rfl

theorem QueueInv.threadCreate {page : Option ThreadRef} (h : k.QueueInv)
    (hpage : ∀ t, page = some t → k.live t = false)
    (hc : k.threadCreate oldLevel page p = .ok k') : k'.QueueInv := by
  obtain ⟨k1, h1, hc⟩ := bind_ok_iff.mp hc
  have hq1 := h.withLock h1
  cases page with
  | none =>
    cases hc
    exact hq1
  | some t =>
    simp only [bind_ok_iff] at hc
    obtain ⟨k2, h2, k3, h3, hc⟩ := hc
    have hv : k1.live t = false := by
      rw [(withLock_frame h1).2.1]
      exact hpage t rfl
    obtain ⟨hq2, habs⟩ := hq1.initThread hv h2
    have hq3 := hq2.allocateTid h3
    obtain ⟨hlists, _, hidle, _⟩ := withLock_frame h3
    have habs3 : ∀ list, t ∉ k3.lists list := by
      intro list
      rw [hlists]
      exact habs list
    refine (hq3.queues.loose habs3).threadUnblock hq3.running hq3.allListed ?_ hc
    have hid : k3.idleThread = k1.idleThread := by
      obtain ⟨_, _, _, _, _, _, hi, _⟩ := initThread_ok h2
      exact hidle.trans hi
    rw [hid]
    intro heq
    rw [(hq1.queues.idle t heq.symm).1] at hv
    cases hv

theorem QueueInv.resumeCurrent (h : k.QueueInv) (hi : some k.current ≠ k.idleThread)
    (hr : k.resumeCurrent = .ok k') : k'.QueueInv := by
  have hb : (k.setResume k.current .toCaller).QueueInv := h.congr rfl rfl rfl rfl rfl rfl
  unfold Kernel.resumeCurrent at hr
  simp only at hr
  split at hr
  · cases hr
    exact h
  · exact hb.semaDown hi hr
  · exact hb.lockAcquireWait hi hr

end Pintos.Threads.Kernel
