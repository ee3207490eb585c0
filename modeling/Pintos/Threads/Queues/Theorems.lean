import Pintos.Threads.Locks.Frames

namespace Pintos.Threads.Kernel

open Lib

variable {k k' : Kernel} {op : Op} {mlfqs : Bool} {semaInit : SemaRef → Nat} {oldLevel : IntrLevel}
  {p : Int} {page : Option ThreadRef} {t : ThreadRef}

theorem callable_threadCreate (h : k.callable (.threadCreate oldLevel page p) = true) :
    ∀ t, page = some t → k.live t = false := by
  rintro t rfl
  simpa [callable] using h

theorem callable_threadUnblock (h : k.callable (.threadUnblock oldLevel t) = true) :
    (k.threads t).threadPl = none ∧ t ∉ k.lists .sleeping ∧ some t ≠ k.idleThread := by
  simpa [callable, and_assoc] using h

theorem QueueInv.threadUnblock (h : k.QueueInv) (hc : k.callable (.threadUnblock oldLevel t) = true)
    (hu : k.threadUnblock oldLevel t = .ok k') : k'.QueueInv := by
  obtain ⟨hpl, hs, hi⟩ := callable_threadUnblock hc
  have hv : k.live t = true := by
    simp only [Kernel.threadUnblock, bind_ok_iff, assert_ok_iff, exists_const] at hu
    exact hu.1
  exact (h.queues.loose (h.queues.absent_of_threadPl hv hpl hs)).threadUnblock h.running
    h.allListed hi hu

theorem QueueInv.exec (h : k.QueueInv) (he : k.Enabled op) (hx : k.exec op = .ok k') :
    k'.QueueInv := by
  obtain ⟨_, hidle, hc⟩ := he
  have hi : idleOp op = false → some k.current ≠ k.idleThread := by
    intro hf heq
    rw [hidle heq] at hf
    cases hf
  cases op with
  | threadCreate oldLevel page p => exact h.threadCreate (callable_threadCreate hc) hx
  | threadBlock => exact h.threadBlock hx
  | threadUnblock oldLevel t => exact h.threadUnblock hc hx
  | threadYield => exact h.threadYield hx
  | threadExit => exact h.threadExit (hi rfl) hx
  | threadSetPriority p => exact h.threadSetPriority hx
  | threadSetNice n => exact h.threadSetNice hx
  | timerSleep ticks => exact h.timerSleep (hi rfl) hx
  | timerInterrupt => exact h.timerInterrupt hx
  | semaInit sema n =>
    cases hx
    exact h.setValue _ _
  | semaDown sema => exact h.semaDown (hi rfl) hx
  | semaTryDown sema =>
    cases hx
    exact h.semaTryDown
  | semaUp oldLevel sema => exact h.semaUp hx
  | lockAcquire lock => exact h.lockAcquire (hi rfl) hx
  | lockTryAcquire lock =>
    obtain ⟨⟨k1, flag⟩, h1, heq⟩ := bind_ok_iff.mp hx
    cases heq
    exact h.lockTryAcquire h1
  | lockRelease oldLevel lock => exact h.lockRelease hx
  | resume => exact h.resumeCurrent (hi rfl) hx

theorem blank_initThread_queueInv (hi : (blank mlfqs semaInit).initThread mainThread p = .ok k) :
    (k.setThread mainThread (.setStatus .running)).QueueInv := by
  simp only [Kernel.initThread, bind_ok_iff, assert_ok_iff, exists_const] at hi
  obtain ⟨_, heq⟩ := hi
  cases heq
  have hlive : ∀ t, Function.update (blank mlfqs semaInit).live mainThread true t = true →
      t = mainThread := by
    intro t ht
    by_contra hne
    simp [blank, hne] at ht
  refine ⟨⟨?_, ?_, ?_, ?_, ?_, ?_, ?_⟩, ⟨?_, ?_⟩, ?_, ?_⟩
  · intro list t hm
    simp [blank] at hm
  · intro t ht hs
    obtain rfl := hlive t ht
    simp at hs
  · intro list
    simp [blank]
  · intro list _
    simp [blank, PriorityQueue.Descending]
  · intro t ht list
    obtain rfl := hlive t ht
    simp [blank]
  · intro t hm
    simp [blank] at hm
  · intro t hidle
    simp [blank] at hidle
  · simp [blank]
  · intro t ht
    obtain rfl := hlive t ht
    simp [blank]
  · simp [blank]
  · intro t
    by_cases ht : t = mainThread
    · simp [blank, ht]
    · simp [blank, ht]

theorem threadInit_queueInv (hi : threadInit mlfqs semaInit = .ok k) : k.QueueInv := by
  obtain ⟨k1, h1, ha⟩ := bind_ok_iff.mp hi
  exact (blank_initThread_queueInv h1).allocateTid ha

theorem QueueInv.nameIdle (h : k.QueueInv) (hn : k.idleThread = none) :
    { k with idleThread := some k.current }.QueueInv := by
  refine ⟨⟨h.queues.member, ?_, h.queues.nodup, h.queues.sorted, h.queues.threadPl,
    h.queues.sleeping, ?_⟩, h.running, h.allListed⟩
  · intro t ht hs _
    exact h.queues.ready t ht hs (by simp [hn])
  · intro t ht
    obtain rfl : k.current = t := Option.some.inj ht
    exact ⟨h.running.1, by simp [h.running.status], h.absent⟩

theorem threadInit_ok (hi : threadInit mlfqs semaInit = .ok k) :
    k.idleThread = none ∧ k.live idlePage = false ∧ k.value .idleStarted = 0 := by
  obtain ⟨k1, h1, ha⟩ := bind_ok_iff.mp hi
  obtain ⟨_, hvalue, _, _, hlive, _, hidle, _⟩ := initThread_ok h1
  obtain ⟨_, _, x, _, rfl⟩ := withLock_ok ha
  refine ⟨hidle, ?_, ?_⟩
  · change k1.live idlePage = false
    rw [hlive]
    rfl
  · change k1.value .idleStarted = 0
    rw [hvalue]
    rfl

theorem threadCreate_value (hc : k.threadCreate .off page p = .ok k') : k'.value = k.value := by
  obtain ⟨k1, h1, hc⟩ := bind_ok_iff.mp hc
  obtain ⟨_, _, x, _, rfl⟩ := withLock_ok h1
  cases page with
  | none =>
    cases hc
    rfl
  | some t =>
    simp only [bind_ok_iff] at hc
    obtain ⟨k2, h2, k3, h3, hc⟩ := hc
    obtain ⟨_, hvalue, _⟩ := initThread_ok h2
    obtain ⟨_, _, y, _, rfl⟩ := withLock_ok h3
    simp only [Kernel.threadUnblock, bind_ok_iff, assert_ok_iff, exists_const, ne_eq,
      not_true_eq_false, and_false, if_false] at hc
    obtain ⟨_, _, _, _, heq⟩ := hc
    cases heq
    exact hvalue

theorem boot_ok (hb : boot mlfqs semaInit = .ok k) :
    ∃ k1 k2 : Kernel, k1.QueueInv ∧ k1.value .idleStarted = 0 ∧
      k1.semaDown .idleStarted = .ok k2 ∧ { k2 with idleThread := some k2.current }.QueueInv ∧
      { k2 with idleThread := some k2.current }.semaUp .on .idleStarted = .ok k := by
  simp only [boot, threadStart, bind_ok_iff] at hb
  obtain ⟨k0, h0, k1, h1, k2, h2, hb⟩ := hb
  obtain ⟨hnone, hfree, hvalue⟩ := threadInit_ok h0
  have hq1 : k1.QueueInv :=
    (threadInit_queueInv h0).threadCreate (by rintro t ht; cases ht; exact hfree) h1
  have hnone1 : k1.idleThread = none := (threadCreate_idleThread h1).trans hnone
  have hq2 := hq1.semaDown (by simp [hnone1]) h2
  have hnone2 : k2.idleThread = none := (semaDown_frame (by simp) h2).idleThread.trans hnone1
  exact ⟨k1, k2, hq1, threadCreate_value h1 ▸ hvalue, h2, hq2.nameIdle hnone2, hb⟩

theorem boot_queueInv (hb : boot mlfqs semaInit = .ok k) : k.QueueInv := by
  obtain ⟨_, _, _, _, _, hq, hu⟩ := boot_ok hb
  exact hq.semaUp hu

theorem queueInv_of_reachable (h : (system mlfqs).Reachable k) : k.QueueInv := by
  apply h.invariant
  · rintro k ⟨semaInit, hb⟩
    exact boot_queueInv hb
  · intro k op k' _ hq hs
    exact hq.exec hs.1 hs.2

-- What every operation of every run leaves behind, up to the first panic.
theorem scheduler_queues (h : (system mlfqs).Reachable k) :
    (∃! t, k.live t = true ∧ (k.threads t).status = .running) ∧
    ((∀ t, t ∈ k.lists .ready ↔
        k.live t = true ∧ (k.threads t).status = .ready ∧ some t ≠ k.idleThread) ∧
      (k.lists .ready).Nodup ∧
      (k.lists .ready).Pairwise fun a b => (k.threads b).priority ≤ (k.threads a).priority) ∧
    ((∀ sema, (∀ t ∈ k.lists (.waiters sema),
          k.live t = true ∧ (k.threads t).status = .blocked) ∧
        (k.lists (.waiters sema)).Nodup ∧
        (k.lists (.waiters sema)).Pairwise fun a b =>
          (k.threads b).priority ≤ (k.threads a).priority) ∧
      ∀ sema other t, t ∈ k.lists (.waiters sema) → t ∈ k.lists (.waiters other) →
        sema = other) ∧
    ∀ t, k.live t = true →
      (∀ list, (k.threads t).threadPl = some list ↔ list ≠ .sleeping ∧ t ∈ k.lists list) ∧
      ((k.threads t).status = .running ∨ t ∈ k.lists .sleeping → (k.threads t).threadPl = none) := by
  have hq := queueInv_of_reachable h
  refine ⟨⟨k.current, ⟨hq.running.1, hq.running.status⟩, ?_⟩, ⟨?_, ?_, ?_⟩, ⟨?_, ?_⟩, ?_⟩
  · rintro t ⟨hv, hs⟩
    exact (hq.running.2 t hv).mp hs
  · intro t
    constructor
    · intro hm
      obtain ⟨hv, hs⟩ := hq.queues.member _ t hm
      exact ⟨hv, hs, hq.queues.not_idle hm⟩
    · rintro ⟨hv, hs, hi⟩
      exact hq.queues.ready t hv hs hi
  · exact hq.queues.nodup _
  · exact hq.queues.sorted _ (by simp)
  · intro sema
    exact ⟨hq.queues.member _, hq.queues.nodup _, hq.queues.sorted _ (by simp)⟩
  · intro sema other t hm ho
    cases hq.queues.unique hm ho
    rfl
  · intro t hv
    refine ⟨hq.queues.threadPl t hv, ?_⟩
    rintro (hs | hs)
    · obtain rfl := (hq.running.2 t hv).mp hs
      exact hq.threadPl
    · exact hq.queues.sleeping t hs

-- A run that leaves a thread waiting for a lock, one asleep and one ready.
theorem scheduler_queues_contended :
    ∃ k, (system false).Reachable k ∧ k.lists (.waiters (.ofLock (.user 0))) = [2] ∧
      k.lists .sleeping = [3] ∧ k.lists .ready = [4] ∧
      (∀ t, t ∈ k.lists .ready ↔
        k.live t = true ∧ (k.threads t).status = .ready ∧ some t ≠ k.idleThread) ∧
      ∀ t, k.live t = true → ∀ list,
        (k.threads t).threadPl = some list ↔ list ≠ .sleeping ∧ t ∈ k.lists list := by
  obtain ⟨k, hk, hp⟩ := leadsTo_reachable false (fun _ _ => true)
    [.resume, .lockAcquire (.user 0), .threadCreate .on (some 2) 40,
      .lockAcquire (.user 0), .threadCreate .on (some 3) 50, .timerSleep 9,
      .threadCreate .on (some 4) 20]
    (fun k => decide (k.lists (.waiters (.ofLock (.user 0))) = [2] ∧
      k.lists .sleeping = [3] ∧ k.lists .ready = [4])) (by decide +kernel)
  obtain ⟨hw, hs, hr⟩ := of_decide_eq_true hp
  obtain ⟨_, hready, _, hpl⟩ := scheduler_queues hk.reachable
  exact ⟨k, hk.reachable, hw, hs, hr, hready.1, fun t ht => (hpl t ht).1⟩

end Pintos.Threads.Kernel
