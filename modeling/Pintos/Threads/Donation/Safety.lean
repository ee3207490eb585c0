import Pintos.Threads.Donation.Path

namespace Pintos.Threads.Kernel

open Option

variable {k k1 k' : Kernel} {t u holder : ThreadRef} {lock : LockRef} {op : Op} {p : Int}

def ReachesListed (k : Kernel) : Prop :=
  ∀ t, k.Exposed t → t ∈ k.allList ∧ some t ≠ k.idleThread ∧ k.Listed t

theorem LockFrame.exposed (hf : k.LockFrame k') (h : k'.Exposed t) : k.Exposed t := by
  rcases h with ⟨lock, hl⟩ | ⟨u, hu, hl⟩
  · exact .inl ⟨lock, hf.holder ▸ hl⟩
  · exact .inr ⟨u, hf.allList ▸ hu, hf.waitingForTlock u ▸ hl⟩

theorem exposed_setThread {f : Thread → Thread} (h : (k.setThread u f).Exposed t) :
    (f (k.threads u)).waitingForTlock = some t ∨ k.Exposed t := by
  rcases h with ⟨lock, hl⟩ | ⟨v, hv, hl⟩
  · exact .inr (.inl ⟨lock, hl⟩)
  · by_cases hu : v = u
    · subst hu
      rw [setThread_threads_self] at hl
      exact .inl hl
    · rw [setThread_threads_ne _ _ hu] at hl
      exact .inr (.inr ⟨v, hv, hl⟩)

theorem exposed_setHolder {h : Option ThreadRef} (he : (k.setHolder lock h).Exposed t) :
    h = some t ∨ k.Exposed t := by
  rcases he with ⟨other, hl⟩ | he
  · by_cases ho : other = lock
    · subst ho
      exact .inl (by simpa using hl)
    · exact .inr (.inl ⟨other, by simpa [ho] using hl⟩)
  · exact .inr (.inr he)

theorem exposed_giveLock (h : (k.giveLock lock u).Exposed t) : t = u ∨ k.Exposed t := by
  unfold giveLock at h
  rw [setThread_setThread] at h
  rcases exposed_setThread h with h | h
  · cases h
  · rcases exposed_setHolder h with h | h
    · exact .inl (some.inj h).symm
    · exact .inr h

theorem exposed_withLock {oldLevel : IntrLevel} (hl : k.withLock oldLevel lock = .ok k')
    (h : k'.Exposed t) : k.Exposed t := by
  obtain ⟨_, _, x, hx, rfl⟩ := withLock_ok hl
  rcases exposed_setHolder h with h | h
  · cases h
  · rcases exposed_setThread h with h | h
    · rw [hx.waitingForTlock] at h
      cases h
    · exact h

theorem exposed_initThread (hi : k.initThread u p = .ok k') (h : k'.Exposed t) : k.Exposed t := by
  obtain ⟨hh, _, hl, _, _, _, _, _, _, hother, hlink, _⟩ := initThread_ok hi
  rcases h with ⟨lock, h⟩ | ⟨v, hv, h⟩
  · exact .inl ⟨lock, hh ▸ h⟩
  · by_cases hvu : v = u
    · rw [hvu, hlink] at h
      cases h
    · rw [hother v hvu] at h
      rw [hl] at hv
      exact .inr ⟨v, (List.mem_append.mp hv).resolve_right (by simpa using hvu), h⟩

theorem LockStep.exposed (hq : k.QueueInv) (hs : k.LockStep op k') (h : k'.Exposed t) :
    k.Exposed t ∨ (t = k.current ∧ k.lockTaken op ≠ none) := by
  cases hs with
  | quiet hf | recompute _ hf | requeue _ _ _ hf => exact .inl (hf.exposed h)
  | setPriority _ hf => exact .inl ((setOwnPriority_frame k _).exposed (hf.exposed h))
  | take _ hop _ hf =>
    rcases exposed_giveLock h with h | h
    · exact .inr ⟨h, by simp [hop]⟩
    · exact .inl (hf.exposed h)
  | contend _ _ _ hd hf =>
    obtain ⟨holder, hh, _, hdon⟩ := lockAcquireDonate_frame hq hd
    rcases exposed_setThread (hdon.exposed (hf.exposed h)) with h | h
    · obtain rfl := some.inj h
      exact .inl (.inl ⟨_, hh⟩)
    · exact .inl h
  | release _ ho hf =>
    obtain ⟨_, x, hx, rfl⟩ := lockReleaseOwner_ok ho
    rcases exposed_setHolder (hf.exposed h) with h | h
    · cases h
    · rcases exposed_setThread h with h | h
      · rw [hx.waitingForTlock] at h
        exact .inl (.inr ⟨_, hq.current_mem_allList, h⟩)
      · exact .inl h
  | noMemory hw => exact .inl (exposed_withLock hw h)
  | create _ h1 h2 hn _ _ h3 hf =>
    have hnamed := hn.exposed (exposed_withLock h3 (hf.exposed h))
    exact .inl (exposed_withLock h1 (exposed_initThread h2 hnamed))
  | exit hf _ =>
    rcases hf.exposed h with ⟨lock, h⟩ | ⟨u, hu, h⟩
    · exact .inl (.inl ⟨lock, h⟩)
    · exact .inl (.inr ⟨u, List.mem_of_mem_erase hu, h⟩)

theorem LockStep.mem_allList (hq : k.QueueInv) (hs : k.LockStep op k') (ht : t ∈ k.allList)
    (he : op = .threadExit → t ≠ k.current) : t ∈ k'.allList := by
  cases hs with
  | quiet hf | recompute _ hf | requeue _ _ _ hf => exact hf.allList ▸ ht
  | setPriority _ hf => exact hf.allList ▸ (setOwnPriority_frame k _).allList ▸ ht
  | take _ _ _ hf => exact hf.allList.symm ▸ ht
  | contend _ _ _ hd hf =>
    obtain ⟨holder, hh, _, hdon⟩ := lockAcquireDonate_frame hq hd
    rw [hf.allList]
    exact hdon.allList ▸ ht
  | release _ ho hf =>
    obtain ⟨_, x, hx, rfl⟩ := lockReleaseOwner_ok ho
    exact hf.allList ▸ ht
  | noMemory hw => exact (withLock_frame hw).2.2.2.1 ▸ ht
  | create _ h1 h2 hn _ _ h3 hf =>
    obtain ⟨_, _, hl, _⟩ := initThread_ok h2
    rw [hf.allList, (withLock_frame h3).2.2.2.1, hn.allList, hl, (withLock_frame h1).2.2.2.1]
    exact List.mem_append_left _ ht
  | exit hf _ =>
    rw [hf.allList]
    exact (hq.allListed.1.mem_erase_iff).mpr ⟨he rfl, ht⟩

theorem lockTaken_op (h : k.lockTaken op ≠ none) : parks op = false ∧ idleOp op = false := by
  cases op with
  | lockAcquire _ | lockTryAcquire _ | resume => exact ⟨rfl, rfl⟩
  | _ => exact absurd rfl h

theorem not_exposed_of_parks (hl : k.LockInv) (hg : k.parksUnexposed op = true)
    (hp : parks op = true) : ¬ k.Exposed k.current := by
  simp only [parksUnexposed, hp, Bool.not_true, Bool.false_or, Bool.and_eq_true,
    decide_eq_true_eq, List.all_eq_true] at hg
  rintro (⟨lock, hh⟩ | ⟨u, hu, hlink⟩)
  · have hm := (hl.ownership.owner lock _ hh).2
    rw [hg.1] at hm
    cases hm
  · exact hg.2 u hu hlink

theorem exitsClean_of_parksUnexposed (hg : k.parksUnexposed op = true) :
    k.exitsClean op = true := by
  by_cases he : op = .threadExit
  · subst he
    simp only [parksUnexposed, parks, Bool.not_true, Bool.false_or, Bool.and_eq_true,
      decide_eq_true_eq] at hg
    simp [exitsClean, hg.1]
  · simp [exitsClean, he]

theorem ReachesListed.step (h : k.ReachesListed) (hq : k.QueueInv) (hl : k.LockInv)
    (hm : k.mlfqs = false) (hg : k.parksUnexposed op = true) (he : k.Enabled op)
    (hx : k.exec op = .ok k') : k'.ReachesListed := by
  have hs := exec_lockStep hq he hx (hl.resume _)
  intro t ht
  rw [(hs.config hq).2.1]
  rcases hs.exposed hq ht with hold | ⟨rfl, htaken⟩
  · obtain ⟨hall, hidle, hlisted⟩ := h t hold
    have hne : parks op = true → t ≠ k.current := by
      rintro hp rfl
      exact not_exposed_of_parks hl hg hp hold
    refine ⟨hs.mem_allList hq hall ?_, hidle, hlisted.exec hq hm hidle hne hx⟩
    rintro rfl
    exact hne rfl
  · obtain ⟨hp, hio⟩ := lockTaken_op htaken
    have hidle : some k.current ≠ k.idleThread := by
      intro hi
      rw [he.2.1 hi] at hio
      cases hio
    refine ⟨hs.mem_allList hq hq.current_mem_allList ?_, hidle,
      Listed.exec (.inl rfl) hq hm hidle ?_ hx⟩
    · rintro rfl
      cases hp
    · rw [hp]
      exact nofun

theorem Quiescent.not_exposed (h : k.Quiescent) : ¬ k.Exposed t := by
  rintro (⟨lock, hh⟩ | ⟨u, _, hlink⟩)
  · rw [h.holder] at hh
    cases hh
  · rw [h.waitingForTlock] at hlink
    cases hlink

theorem reachesListed_of_reachable
    (h : (system false).ReachableVia (fun k op => k.parksUnexposed op = true) k) :
    k.ReachesListed := by
  apply h.invariant
  · rintro k ⟨semaInit, hb⟩ t ht
    exact absurd ht (boot_quiescent hb).not_exposed
  · intro k op k' hr hk hg hs
    exact hk.step (queueInv_of_reachable hr.reachable)
      (lockInv_of_reachable (fun _ _ => exitsClean_of_parksUnexposed) hr)
      (config_of_reachable hr.reachable).1 hg hs.1 hs.2

theorem Listed.threadPl (h : k.Listed t) (hq : k.QueueInv) (hv : k.live t = true)
    (hne : t ≠ k.current) :
    ∃ list, (k.threads t).threadPl = some list ∧ t ∈ k.lists list := by
  obtain ⟨list, hs, hm⟩ := h.resolve_left hne
  exact ⟨list, (hq.queues.threadPl t hv list).mpr ⟨hs, hm⟩, hm⟩

theorem exposed_link (h : k.ReachesListed) (hh : k.holder lock = some holder)
    (ht : k.Exposed t) (hl : ((k.setThread k.current
      (.setWaitingForTlock (some holder))).threads t).waitingForTlock = some u) : k.Exposed u := by
  by_cases hc : t = k.current
  · subst hc
    rw [setThread_threads_self] at hl
    obtain rfl := some.inj hl
    exact .inl ⟨lock, hh⟩
  · rw [setThread_threads_ne _ _ hc] at hl
    exact .inr ⟨t, (h t ht).1, hl⟩

theorem ReachesListed.lockAcquireDonate (h : k.ReachesListed)
    (hq : k.QueueInv) (hh : k.holder lock = some holder) :
    ∃ k', k.lockAcquireDonate lock k.current = .ok k' := by
  have hlive : ∀ t, k.Exposed t → k.live t = true := fun t ht =>
    ((hq.allListed.2 t).mp (h t ht).1).1
  have hexp : k.Exposed holder := .inl ⟨lock, hh⟩
  unfold Kernel.lockAcquireDonate
  simp only [setThread_holder, hh, setThread_live, setThread_mlfqs]
  rw [if_neg (by simp [hlive holder hexp])]
  split_ifs
  · refine lockDonate_ok (P := k.Exposed) ?_ (fun t u => exposed_link h hh) ?_
    · intro t ht
      refine ⟨hlive t ht, ?_⟩
      by_cases hc : t = k.current
      · subst hc
        exact .inl (by simp)
      · obtain ⟨list, hpl, _⟩ := (h t ht).2.2.threadPl hq (hlive t ht) hc
        exact .inr (by simp [hc, hpl])
    · intro t ht
      obtain rfl := some.inj ht
      exact hexp
  · exact ⟨_, rfl⟩

theorem ReachesListed.donationVisits (h : k.ReachesListed) (hq : k.QueueInv)
    (hh : k.holder lock = some holder) (ht : t ∈ k.donationVisits lock) :
    ∃ list, (k.threads t).threadPl = some list ∧ t ∈ k.lists list := by
  unfold Kernel.donationVisits at ht
  rw [hh] at ht
  obtain ⟨hexp, hlt⟩ := donationPath_mem (P := k.Exposed) (fun t u => exposed_link h hh)
    (fun u hu => by obtain rfl := some.inj hu; exact .inl ⟨lock, hh⟩) ht
  obtain ⟨hall, _, hlisted⟩ := h t hexp
  refine hlisted.threadPl hq ((hq.allListed.2 t).mp hall).1 ?_
  -- the caller has the donated priority itself and is never raised
  rintro rfl
  simp at hlt

-- In a run in which threads park themselves only while unexposed, a contended
-- lock_acquire finds every thread it raises in the list that thread_pl names,
-- whatever the runs did before.
theorem donation_never_panics {holder : ThreadRef}
    (h : (system false).ReachableVia (fun k op => k.parksUnexposed op = true) k)
    (hh : k.holder lock = some holder) :
    (∀ t ∈ k.donationVisits lock,
      ∃ list, (k.threads t).threadPl = some list ∧ t ∈ k.lists list) ∧
    ∃ k', k.lockAcquireDonate lock k.current = .ok k' := by
  have hq := queueInv_of_reachable h.reachable
  have hlisted := reachesListed_of_reachable h
  exact ⟨fun t ht => hlisted.donationVisits hq hh ht, hlisted.lockAcquireDonate hq hh⟩

-- A chain of two: thread 2 waits for main's lock and holds the one asked for,
-- while thread 4, which owns nothing, is asleep.
theorem donation_never_panics_nested :
    ∃ k, (system false).ReachableVia (fun k op => k.parksUnexposed op = true) k ∧
      k.donationVisits (.user 1) = [2, mainThread] ∧ k.lists .sleeping = [4] ∧
      (∀ t ∈ k.donationVisits (.user 1),
        ∃ list, (k.threads t).threadPl = some list ∧ t ∈ k.lists list) ∧
      ∃ k', k.lockAcquireDonate (.user 1) k.current = .ok k' := by
  obtain ⟨k, hk, hp⟩ := leadsTo_reachable false parksUnexposed
    [.resume, .lockAcquire (.user 0), .threadCreate .on (some 2) 40, .lockAcquire (.user 1),
      .lockAcquire (.user 0), .threadCreate .on (some 4) 60, .timerSleep 9,
      .threadCreate .on (some 3) 50]
    (fun k => decide (k.donationVisits (.user 1) = [2, mainThread] ∧ k.lists .sleeping = [4] ∧
      k.holder (.user 1) = some 2)) (by decide +kernel)
  obtain ⟨hv, hs, hh⟩ := of_decide_eq_true hp
  exact ⟨k, hk, hv, hs, donation_never_panics hk hh⟩

-- Main takes a lock and goes to sleep; a thread of higher priority asks for it.
theorem donation_to_sleeper_panics :
    ∃ k, (system false).Reachable k ∧ k.Enabled (.lockAcquire (.user 0)) ∧
      k.holder (.user 0) = some mainThread ∧ mainThread ≠ k.current ∧
      mainThread ∈ k.donationVisits (.user 0) ∧ (k.threads mainThread).threadPl = none ∧
      mainThread ∈ k.lists .sleeping ∧
      k.exec (.lockAcquire (.user 0)) = .error .assertion := by
  obtain ⟨k, hk, hp⟩ := leadsTo_reachable false (fun _ _ => true)
    [.resume, .lockAcquire (.user 0), .threadCreate .on (some 2) 20, .timerSleep 10,
      .threadSetPriority 40]
    (fun k => decide (k.Enabled (.lockAcquire (.user 0)) ∧
      k.holder (.user 0) = some mainThread ∧ mainThread ≠ k.current ∧
      mainThread ∈ k.donationVisits (.user 0) ∧ (k.threads mainThread).threadPl = none ∧
      mainThread ∈ k.lists .sleeping ∧
      faultOf (k.exec (.lockAcquire (.user 0))) = some .assertion)) (by decide +kernel)
  obtain ⟨he, hh, hne, hv, hpl, hs, hf⟩ := of_decide_eq_true hp
  exact ⟨k, hk.reachable, he, hh, hne, hv, hpl, hs, eq_error_of_faultOf hf⟩

end Pintos.Threads.Kernel
