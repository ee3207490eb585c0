import Pintos.Threads.Donation.Entitlement

namespace Pintos.Threads.Kernel

open Thread

variable {k k1 k' : Kernel} {t v w : ThreadRef} {lock : LockRef}

theorem mem_donors_joinWaiters : w ∈ (k.joinWaiters lock t).donors v ↔
      (lock ∈ (k.threads v).acquiredLocks ∧ w = t) ∨ w ∈ k.donors v := by
  rw [mem_donors, mem_donors]
  constructor
  · rintro ⟨other, hm, hw⟩
    rcases mem_joinWaiters.mp hw with ⟨rfl, rfl⟩ | hw
    · exact .inl ⟨hm, rfl⟩
    · exact .inr ⟨other, hm, hw⟩
  · rintro (⟨hm, rfl⟩ | ⟨other, hm, hw⟩)
    · exact ⟨lock, hm, mem_joinWaiters.mpr (.inl ⟨rfl, rfl⟩)⟩
    · exact ⟨other, hm, mem_joinWaiters.mpr (.inr hw)⟩

theorem DonationInv.joinWaiters (h : k.DonationInv)
    (hle : ∀ v ∈ k.allList, lock ∈ (k.threads v).acquiredLocks → k.pri t ≤ k.pri v) :
    (k.joinWaiters lock t).DonationInv := by
  refine ⟨?_, ?_, h.priMin_le⟩
  · intro v hv
    have hent := h.entitled v hv
    refine ⟨hent.original, ?_, ?_⟩
    · intro w hw
      rcases mem_donors_joinWaiters.mp hw with ⟨hm, rfl⟩ | hw
      · exact hle v hv hm
      · exact hent.donors w hw
    · rcases hent.attained with heq | ⟨w, hw, heq⟩
      · exact .inl heq
      · exact .inr ⟨w, mem_donors_joinWaiters.mpr (.inr hw), heq⟩
  · intro v hv hd
    obtain ⟨w, hw, heq⟩ := h.supported v hv hd
    exact ⟨w, mem_donors_joinWaiters.mpr (.inr hw), heq⟩

theorem lockAcquireDonate_path (hm : k.mlfqs = false)
    (hd : k.lockAcquireDonate lock k.current = .ok k') :
    (∀ t, k'.pri t = if t ∈ k.donationVisits lock then k.pri k.current else k.pri t) ∧
    (∀ t, (k'.threads t).donated =
      if t ∈ k.donationVisits lock then true else (k.threads t).donated) ∧
    (∀ t, (k'.threads t).originalPriority = (k.threads t).originalPriority) ∧
    ∀ t ∈ k.donationVisits lock, k.live t = true := by
  obtain ⟨holder, hh, _, hcase⟩ := lockAcquireDonate_ok hd
  unfold donationVisits
  rw [hh]
  have hp : ∀ t, ((k.setThread k.current (.setWaitingForTlock (some holder))).threads t).priority =
      k.pri t := setThread_field priority _ rfl
  have hdon : ∀ t, ((k.setThread k.current (.setWaitingForTlock (some holder))).threads t).donated =
      (k.threads t).donated := setThread_field donated _ rfl
  have ho : ∀ t, ((k.setThread k.current
      (.setWaitingForTlock (some holder))).threads t).originalPriority =
      (k.threads t).originalPriority := setThread_field originalPriority _ rfl
  rcases hcase with ⟨hle | hmode, rfl⟩ | ⟨_, _, hl⟩
  · have hnil : donationPath maxDonations (some holder) (k.threads k.current).priority
        (k.setThread k.current (.setWaitingForTlock (some holder))) = [] := by
      unfold maxDonations donationPath
      rw [if_pos hle]
    rw [hnil]
    refine ⟨?_, ?_, ho, fun t ht => absurd ht List.not_mem_nil⟩
    · intro t
      rw [if_neg List.not_mem_nil]
      exact hp t
    · intro t
      rw [if_neg List.not_mem_nil]
      exact hdon t
  · rw [hm] at hmode
    cases hmode
  · obtain ⟨h1, h2, h3, h4⟩ := lockDonate_path hl
    refine ⟨?_, ?_, ?_, h4⟩
    · intro t
      rw [← hp t]
      exact h1 t
    · intro t
      rw [← hdon t]
      exact h2 t
    · intro t
      rw [← ho t]
      exact h3 t

theorem donationVisits_spec {holder : ThreadRef} (hh : k.holder lock = some holder)
    (hlen : (k.donationVisits lock).length < maxDonations) :
    (∀ r ∈ k.donationVisits lock, k.pri r < k.pri k.current) ∧
    (holder ∈ k.donationVisits lock ∨ k.pri k.current ≤ k.pri holder) ∧
    (∀ r ∈ k.donationVisits lock, ∀ u, (k.threads r).waitingForTlock = some u →
      u ∈ k.donationVisits lock ∨ k.pri k.current ≤ k.pri u) ∧
    ∀ r ∈ k.donationVisits lock,
      r = holder ∨ ∃ s ∈ k.donationVisits lock, (k.threads s).waitingForTlock = some r := by
  unfold donationVisits at hlen ⊢
  rw [hh] at hlen ⊢
  have hp : ∀ t, ((k.setThread k.current (.setWaitingForTlock (some holder))).threads t).priority =
      k.pri t := setThread_field priority _ rfl
  have hlow : ∀ r ∈ donationPath maxDonations (some holder) (k.threads k.current).priority
      (k.setThread k.current (.setWaitingForTlock (some holder))), k.pri r < k.pri k.current := by
    intro r hr
    have := (donationPath_mem (P := fun _ => True) (fun _ _ _ _ => trivial) (fun _ _ => trivial) hr).2
    rwa [hp] at this
  -- the caller is not on the path, so the links there are those of `k`
  have hlink : ∀ r ∈ donationPath maxDonations (some holder) (k.threads k.current).priority
      (k.setThread k.current (.setWaitingForTlock (some holder))),
      ((k.setThread k.current (.setWaitingForTlock (some holder))).threads r).waitingForTlock =
        (k.threads r).waitingForTlock := by
    intro r hr
    have hne : r ≠ k.current := by
      rintro rfl
      exact lt_irrefl _ (hlow _ hr)
    rw [setThread_threads_ne _ _ hne]
  obtain ⟨hfirst, hclosed⟩ := donationPath_closed hlen
  refine ⟨hlow, ?_, ?_, ?_⟩
  · have := hfirst holder rfl
    rwa [hp] at this
  · intro r hr u hu
    have := hclosed r hr u ((hlink r hr).trans hu)
    rwa [hp] at this
  · intro r hr
    rcases donationPath_support hr with heq | ⟨s, hs, hsl⟩
    · exact .inl (Option.some.inj heq).symm
    · exact .inr ⟨s, hs, (hlink s hs).symm.trans hsl⟩

structure Contended (k k' : Kernel) (lock : LockRef) : Prop where
  allList : k'.allList = k.allList
  priority : ∀ v, k'.pri v = if v ∈ k.donationVisits lock then k.pri k.current else k.pri v
  donated : ∀ v, (k'.threads v).donated =
    if v ∈ k.donationVisits lock then true else (k.threads v).donated
  original : ∀ v, (k'.threads v).originalPriority = (k.threads v).originalPriority
  donors : ∀ v w, w ∈ k'.donors v ↔
    (lock ∈ (k.threads v).acquiredLocks ∧ w = k.current) ∨ w ∈ k.donors v
  below : ∀ v ∈ k.donationVisits lock, k.pri v < k.pri k.current
  owner : ∀ v ∈ k.allList, lock ∈ (k.threads v).acquiredLocks →
    v ∈ k.donationVisits lock ∨ k.pri k.current ≤ k.pri v
  closed : ∀ v ∈ k.allList, ∀ w ∈ k.donors v, w ∈ k.donationVisits lock →
    v ∈ k.donationVisits lock ∨ k.pri k.current ≤ k.pri v
  -- one of its waiters gave a raised thread its priority
  raised : ∀ v ∈ k.donationVisits lock, ∃ w, (w = k.current ∨ w ∈ k.donationVisits lock) ∧
    w ∈ k'.donors v

theorem contended_of_donate (hq : k.QueueInv) (hl : k.LockInv) (hm : k.mlfqs = false)
    (hd : k.lockAcquireDonate lock k.current = .ok k1)
    (hlen : (k.donationVisits lock).length < maxDonations)
    (hacc : ∀ r ∈ k.donationVisits lock, (k.threads r).waitingForTlock = k.holderAhead r) :
    k.Contended (k1.joinWaiters lock k.current) lock := by
  obtain ⟨holder, hh, _, hf⟩ := lockAcquireDonate_frame hq hd
  obtain ⟨hpri, hdon, horig, hlive⟩ := lockAcquireDonate_path hm hd
  obtain ⟨hlow, hfirst, hclosed, hsupport⟩ := donationVisits_spec hh hlen
  have hdonors : ∀ v w, w ∈ (k1.joinWaiters lock k.current).donors v ↔
      (lock ∈ (k.threads v).acquiredLocks ∧ w = k.current) ∨ w ∈ k.donors v := by
    have hacq : ∀ v, (k1.threads v).acquiredLocks = (k.threads v).acquiredLocks := fun v =>
      (hf.acquiredLocks v).trans (setThread_field acquiredLocks _ rfl v)
    intro v w
    rw [mem_donors_joinWaiters, hacq, mem_donors, mem_donors, hacq]
    simp only [hf.waiters]
    rfl
  refine ⟨hf.allList, hpri, hdon, horig, hdonors, hlow, ?_, ?_, ?_⟩
  · intro v hv hmem
    have hown := hl.ownership.acquired v hv lock hmem
    rw [hh] at hown
    obtain rfl := Option.some.inj hown
    exact hfirst
  -- a raised thread waits for a lock whose owner the walk went on to
  · intro v hv w hw hr
    obtain ⟨other, hmem, hwait⟩ := mem_donors.mp hw
    refine hclosed w hr v ?_
    have hb := (blockedOn_iff hq (hlive w hr)).mpr hwait
    rw [hacc w hr, holderAhead, hb]
    exact hl.ownership.acquired v hv other hmem
  · intro v hr
    rcases hsupport v hr with rfl | ⟨w, hw, hlink⟩
    · exact ⟨k.current, .inl rfl, (hdonors _ _).mpr (.inl ⟨(hl.ownership.owner lock v hh).2, rfl⟩)⟩
    · rw [hacc w hw, holderAhead, Option.bind_eq_some_iff] at hlink
      obtain ⟨other, hb, hho⟩ := hlink
      refine ⟨w, .inr hw, (hdonors v w).mpr (.inr (mem_donors.mpr ⟨other, ?_, ?_⟩))⟩
      · exact (hl.ownership.owner other v hho).2
      · exact (blockedOn_iff hq (hlive w hw)).mp hb

namespace Contended

variable (c : k.Contended k' lock)
include c

theorem priority_current : k'.pri k.current = k.pri k.current := by
  rw [c.priority, if_neg fun hc => lt_irrefl _ (c.below _ hc)]

theorem priority_raised (hr : v ∈ k.donationVisits lock) : k'.pri v = k.pri k.current := by
  rw [c.priority, if_pos hr]

theorem priority_kept (hr : v ∉ k.donationVisits lock) : k'.pri v = k.pri v := by
  rw [c.priority, if_neg hr]

theorem raised_support (hr : v ∈ k.donationVisits lock) :
    ∃ w ∈ k'.donors v, k'.pri w = k'.pri v := by
  obtain ⟨w, hw, hmem⟩ := c.raised v hr
  refine ⟨w, hmem, ?_⟩
  rw [c.priority_raised hr]
  rcases hw with rfl | hw
  · exact c.priority_current
  · exact c.priority_raised hw

theorem kept_support (hv : v ∈ k.allList) (hr : v ∉ k.donationVisits lock) (hw : w ∈ k.donors v)
    (heq : k.pri w = k.pri v) : ∃ w ∈ k'.donors v, k'.pri w = k'.pri v := by
  have hwr : w ∉ k.donationVisits lock := by
    intro hwr
    have hlt := c.below w hwr
    have hle := (c.closed v hv w hw hwr).resolve_left hr
    omega
  refine ⟨w, (c.donors v w).mpr (.inr hw), ?_⟩
  rw [c.priority_kept hwr, c.priority_kept hr, heq]

theorem raised_entitled (hent : k.Entitled v (k.pri v)) (hr : v ∈ k.donationVisits lock) :
    k'.Entitled v (k'.pri v) := by
  have hlt := c.below v hr
  refine ⟨?_, ?_, .inr (c.raised_support hr)⟩
  · rw [c.original, c.priority_raised hr]
    exact hent.original.trans hlt.le
  · intro w hw
    rw [c.priority_raised hr]
    rcases (c.donors v w).mp hw with ⟨_, rfl⟩ | hw
    · exact c.priority_current.le
    · rw [c.priority]
      split_ifs
      · exact le_rfl
      · exact (hent.donors w hw).trans hlt.le

theorem kept_entitled (hent : k.Entitled v (k.pri v)) (hv : v ∈ k.allList)
    (hr : v ∉ k.donationVisits lock) : k'.Entitled v (k'.pri v) := by
  refine ⟨?_, ?_, ?_⟩
  · rw [c.original, c.priority_kept hr]
    exact hent.original
  · intro w hw
    rw [c.priority_kept hr]
    rcases (c.donors v w).mp hw with ⟨hmem, rfl⟩ | hw
    · rw [c.priority_current]
      exact (c.owner v hv hmem).resolve_left hr
    · rw [c.priority]
      split_ifs with hwr
      · exact (c.closed v hv w hw hwr).resolve_left hr
      · exact hent.donors w hw
  · rcases hent.attained with heq | ⟨w, hw, heq⟩
    · left
      rw [c.priority_kept hr, c.original, heq]
    · exact .inr (c.kept_support hv hr hw heq)

end Contended

theorem DonationInv.contend (h : k.DonationInv) (c : k.Contended k' lock) : k'.DonationInv := by
  have hall : ∀ {v}, v ∈ k'.allList → v ∈ k.allList := fun hv => c.allList ▸ hv
  constructor
  · intro v hv
    have hent := h.entitled v (hall hv)
    by_cases hr : v ∈ k.donationVisits lock
    · exact c.raised_entitled hent hr
    · exact c.kept_entitled hent (hall hv) hr
  · intro v hv hd
    by_cases hr : v ∈ k.donationVisits lock
    · exact c.raised_support hr
    · rw [c.donated, if_neg hr] at hd
      obtain ⟨w, hw, heq⟩ := h.supported v (hall hv) hd
      exact c.kept_support (hall hv) hr hw heq
  · intro v hv
    rw [c.original]
    exact h.priMin_le v (hall hv)

end Pintos.Threads.Kernel
