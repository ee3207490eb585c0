import Pintos.Threads.Interleaved.Lists

namespace Pintos.Threads

open Kernel Option Function List

open Kernel (SameLocks)

variable {k k1 k' : Kernel} {s s' : Interleaved} {t u : ThreadRef} {lock : LockRef} {act : Act}
  {op : Op} {pc : Pc} {pending : LockRef → Bool} {mlfqs : Bool}

theorem Kernel.SameLocks.refl (k : Kernel) : k.SameLocks k := ⟨rfl, rfl, fun _ => rfl, fun _ => rfl⟩

theorem Kernel.SameLocks.trans (h : k.SameLocks k1) (h' : k1.SameLocks k') : k.SameLocks k' :=
  ⟨h'.allList.trans h.allList, h'.holder.trans h.holder,
    fun lock => (h'.value lock).trans (h.value lock),
    fun t => (h'.acquiredLocks t).trans (h.acquiredLocks t)⟩

theorem Kernel.LockFrame.sameLocks (h : k.LockFrame k') : k.SameLocks k' :=
  ⟨h.allList, h.holder, h.value, h.acquiredLocks⟩

namespace Interleaved

def LooseSteps : Interleaved → Interleaved → Prop :=
  Relation.ReflTransGen fun s s' => ∃ t, s.LooseStep t s'

theorem LooseStep.single (h : s.LooseStep t s') : s.LooseSteps s' := .single ⟨t, h⟩

theorem looseSteps_quiet (pc : ThreadRef → Pc) (hk : s.kernel.SameLocks k)
    (hpc : ∀ u lock, pc u = .released lock ↔ s.pc u = .released lock) :
    s.LooseSteps { s with kernel := k, pc := pc } :=
  (LooseStep.quiet (t := s.kernel.current) hk hpc).single

theorem looseSteps_same (hk : s.kernel.SameLocks k) : s.LooseSteps (s.setKernel k) :=
  looseSteps_quiet s.pc hk fun _ _ => Iff.rfl

end Interleaved

namespace Kernel

theorem exec_lockTaken (hx : k.exec op = .ok k') (hr : (k.resume k.current).isClient = true)
    (ht : k.lockTaken op = some lock) :
    0 < k.value (.ofLock lock) ∧ ∃ k1, k.DonationFrame k1 ∧
      k' = (k1.setValue (.ofLock lock) (k1.value (.ofLock lock) - 1)).giveLock lock k.current := by
  cases op with
  | lockAcquire other =>
    simp only [lockTaken, ite_none_left_eq_some, some.injEq] at ht
    obtain ⟨hz, rfl⟩ := ht
    simp only [exec, lockAcquire, bind_ok_iff] at hx
    obtain ⟨_, _, ⟨k1, success⟩, h1, hx⟩ := hx
    obtain ⟨_, ⟨rfl, hpos, rfl⟩ | ⟨_, hzero, _⟩⟩ := lockTryAcquire_ok h1
    · cases hx
      exact ⟨hpos, k, .refl k, rfl⟩
    · exact absurd hzero hz
  | lockTryAcquire other =>
    simp only [lockTaken, ite_none_left_eq_some, some.injEq] at ht
    obtain ⟨hz, rfl⟩ := ht
    obtain ⟨⟨k1, success⟩, h1, hx⟩ := bind_ok_iff.mp hx
    cases hx
    obtain ⟨_, ⟨_, hpos, rfl⟩ | ⟨_, hzero, _⟩⟩ := lockTryAcquire_ok h1
    · exact ⟨hpos, k, .refl k, rfl⟩
    · exact absurd hzero hz
  | resume =>
    simp only [lockTaken] at ht
    split at ht
    · rename_i other hres
      simp only [ite_none_left_eq_some, some.injEq] at ht
      obtain ⟨hz, rfl⟩ := ht
      have hc : other.isClient = true := by
        rw [hres] at hr
        exact hr
      simp only [exec, resumeCurrent, hres] at hx
      obtain ⟨hzero, _⟩ | ⟨hpos, rfl⟩ := lockAcquireWait_ok hc hx
      · exact absurd hzero hz
      · exact ⟨hpos, _, .setResume k.current rfl, rfl⟩
    · cases ht
  | _ => cases ht

theorem joinWaiters_sameLocks (k : Kernel) (lock : LockRef) (t : ThreadRef) :
    k.SameLocks (k.joinWaiters lock t) :=
  ⟨rfl, rfl, fun _ => rfl, fun _ => rfl⟩

theorem lockAcquireDonate_sameLocks (hq : k.QueueInv)
    (hd : k.lockAcquireDonate lock k.current = .ok k') : k.SameLocks k' := by
  obtain ⟨holder, _, _, hf⟩ := lockAcquireDonate_frame hq hd
  have hset : k.SameLocks (k.setThread k.current (.setWaitingForTlock (some holder))) :=
    ⟨rfl, rfl, fun _ => rfl, setThread_field Thread.acquiredLocks _ rfl⟩
  exact hset.trans hf.sameLocks

theorem exec_sameLocks (hq : k.QueueInv) (he : k.Enabled op) (hx : k.exec op = .ok k')
    (hr : (k.resume k.current).isClient = true) (ht : k.lockTaken op = none)
    (hrel : ∀ level lock, op ≠ .lockRelease level lock)
    (hcreate : ∀ level page p, op ≠ .threadCreate level page p) (hexit : op ≠ .threadExit) :
    k.SameLocks k' := by
  cases exec_lockStep hq he hx hr with
  | quiet hf => exact hf.toLockFrame.sameLocks
  | recompute _ hf => exact hf.sameLocks
  | setPriority _ hf => exact ((setOwnPriority_frame k _).trans hf.toLockFrame).sameLocks
  | take _ hop =>
    rw [ht] at hop
    cases hop
  | contend _ _ _ hd hf =>
    exact ((lockAcquireDonate_sameLocks hq hd).trans (joinWaiters_sameLocks _ _ _)).trans
      hf.toLockFrame.sameLocks
  | requeue _ _ _ hf => exact (joinWaiters_sameLocks _ _ _).trans hf.toLockFrame.sameLocks
  | release => exact absurd rfl (hrel _ _)
  | noMemory | create => exact absurd rfl (hcreate _ _ _)
  | exit => exact absurd rfl hexit

end Kernel

namespace Interleaved

theorem track_of_none (ht : s.kernel.lockTaken op = none)
    (hrel : ∀ level lock, op ≠ .lockRelease level lock) : s.track op = s := by
  unfold track
  rw [ht]
  split
  · rename_i heq
    cases heq
  · exact absurd rfl (hrel _ _)
  · rfl

theorem looseSteps_lockRelease {oldLevel : IntrLevel} (hq : s.kernel.QueueInv)
    (hpc : s.currentPc = .client) (hl : s.kernel.lockRelease oldLevel lock = .ok k') :
    s.LooseSteps ((s.leave lock s.kernel.current).setKernel k') := by
  obtain ⟨k1, h1, hu⟩ := bind_ok_iff.mp hl
  have hrelease := LooseStep.release (.refl _) hq.current_mem_allList hpc rfl h1
  have hreleased : (((s.leave lock s.kernel.current).setPc s.kernel.current
      (.released lock)).setKernel k1).pc s.kernel.current = .released lock := by simp
  have hraise := LooseStep.raise (.refl _) hreleased (.inl rfl)
  refine hrelease.single.trans (hraise.single.trans ?_)
  have hk : (k1.setValue (.ofLock lock) (k1.value (.ofLock lock) + 1)).SameLocks k' := by
    have hf := (semaUp_lock_ok hu).toLockFrame
    exact ⟨hf.allList, hf.holder, hf.value, hf.acquiredLocks⟩
  -- the thread is where it was before the call
  refine looseSteps_quiet s.pc hk ?_
  intro u other
  by_cases hu : u = s.kernel.current
  · rw [hu, show s.pc s.kernel.current = .client from hpc]
    simp
  · simp [hu]

theorem looseSteps_threadExit (hpc : s.currentPc = .client)
    (ha : (s.kernel.threads s.kernel.current).acquiredLocks = [])
    (hx : s.kernel.threadExit = .ok k') : s.LooseSteps (s.setKernel k') := by
  have hexit := LooseStep.exit (.refl s.kernel) hpc ha
  cases threadExit_lockStep hx with
  | quiet hf => exact looseSteps_same hf.toLockFrame.sameLocks
  | recompute _ hf => exact looseSteps_same hf.sameLocks
  | take _ hop => cases hop
  | exit hf _ =>
    have hk : (s.kernel.setAllList (s.kernel.allList.erase s.kernel.current)).SameLocks k' :=
      ⟨hf.allList, hf.holder, hf.value, hf.acquiredLocks⟩
    exact hexit.single.trans (looseSteps_same hk)

-- A call is what the code does to the records of lock owners and no more. With
-- interrupts off lock_release gives the lock back in one piece.
theorem Whole.call_loose (h : s.Whole) (he : s.enabled (.call op) = true)
    (hx : s.exec (.call op) = .ok s') : s.LooseSteps s' := by
  simp only [enabled, decide_eq_true_eq] at he
  obtain ⟨hpc, hcall, hop, hclean⟩ := he
  obtain ⟨k', hk, heq⟩ := bind_ok_iff.mp hx
  cases heq
  have hq := h.consistent.queueInv (by rw [hpc]; rfl)
  have hr := h.resume s.kernel.current
  cases htaken : s.kernel.lockTaken op with
  | some lock =>
    obtain ⟨hv, k1, hf, rfl⟩ := exec_lockTaken hk hr htaken
    have htrack : s.track op = s.enter lock s.kernel.current := by
      unfold track
      rw [htaken]
    rw [htrack]
    exact (LooseStep.take hf.toLockFrame.sameLocks hq.current_mem_allList hpc hv).single
  | none =>
    by_cases hrel : ∃ level lock, op = .lockRelease level lock
    · obtain ⟨level, lock, rfl⟩ := hrel
      exact looseSteps_lockRelease hq hpc hk
    · have hrel : ∀ level lock, op ≠ .lockRelease level lock :=
        fun level lock heq => hrel ⟨level, lock, heq⟩
      rw [track_of_none htaken hrel]
      by_cases hexit : op = .threadExit
      · subst hexit
        exact looseSteps_threadExit hpc (by simpa [exitsClean] using hclean) hk
      · refine looseSteps_same (exec_sameLocks hq hop hk hr htaken hrel ?_ hexit)
        rintro level page p rfl
        cases hcall

theorem Whole.interrupt_sameLocks (h : s.Whole) (hpc : s.currentPc.unlinks = false)
    (he : s.enabled (.interrupt op) = true) (hx : s.kernel.exec op = .ok k') :
    s.kernel.SameLocks k' := by
  simp only [enabled, decide_eq_true_eq] at he
  have hq := h.consistent.queueInv hpc
  have hr := h.resume s.kernel.current
  cases op with
  | timerInterrupt | semaUp level sema | threadUnblock level t =>
    exact exec_sameLocks hq he.2 hx hr rfl (by simp) (by simp) (by simp)
  | _ => simp [Op.isInterrupt] at he

theorem looseSteps_setPc (pc : Pc) (hk : s.kernel.SameLocks k)
    (hold : ∀ lock, s.currentPc ≠ .released lock) (hnew : ∀ lock, pc ≠ .released lock) :
    s.LooseSteps ((s.setPc s.kernel.current pc).setKernel k) := by
  refine looseSteps_quiet _ hk ?_
  intro u lock
  rw [setPc_pc]
  by_cases hu : u = s.kernel.current
  · rw [hu, Function.update_self]
    exact iff_of_false (hnew lock) (hold lock)
  · rw [Function.update_of_ne hu]

theorem up_loose {sema : SemaRef} (he : s.enabled (.up sema) = true)
    (hx : s.exec (.up sema) = .ok s') : s.LooseSteps s' := by
  cases hx
  cases sema with
  | ofLock lock =>
    have hpc : s.currentPc = .released lock := by simpa [enabled] using he
    refine (LooseStep.raise (.refl _) hpc ?_).single
    split_ifs
    · exact .inl rfl
    · exact .inr rfl
  | _ =>
    have hpc : s.currentPc = .client := by
      simp only [enabled, decide_eq_true_eq] at he
      exact he.1
    refine looseSteps_setPc _ ⟨rfl, rfl, fun lock => ?_, fun _ => rfl⟩ (by simp [hpc]) ?_
    · simp
    · intro lock
      split_ifs <;> simp

theorem Whole.exec_loose (h : s.Whole) (he : s.enabled act = true) (hx : s.exec act = .ok s') :
    ∃ s1 torn, s.LooseSteps s1 ∧ s' = { s1 with torn := torn } := by
  cases act with
  | call op => exact ⟨s', s'.torn, h.call_loose he hx, rfl⟩
  | initThread t p =>
    simp only [enabled, decide_eq_true_eq] at he
    obtain ⟨k', hk, heq⟩ := bind_ok_iff.mp hx
    cases heq
    have hq := h.consistent.queueInv (by rw [he.1]; rfl)
    have hnew : t ∉ s.kernel.allList := by
      rw [hq.allListed.2, callable_threadCreate he.2.2.2 t rfl]
      simp
    exact ⟨_, s.torn, (LooseStep.init (t := s.kernel.current) (.refl _) hnew hk).single, rfl⟩
  | release lock =>
    simp only [enabled, decide_eq_true_eq] at he
    obtain ⟨k', hk, heq⟩ := bind_ok_iff.mp hx
    cases heq
    have hq := h.consistent.queueInv (by rw [he.1]; rfl)
    exact ⟨_, s.torn, (LooseStep.release (.refl _) hq.current_mem_allList he.1 rfl hk).single, rfl⟩
  | up sema => exact ⟨s', s'.torn, up_loose he hx, rfl⟩
  | front =>
    simp only [exec] at hx
    split at hx
    · rename_i sema hpc
      split at hx
      · cases hx
      · cases hx
        exact ⟨_, s.torn, looseSteps_setPc _ (.refl s.kernel) (by simp [hpc]) (by simp), rfl⟩
    · cases hx
      exact ⟨s, s.torn, .refl, rfl⟩
  | unlink =>
    simp only [exec] at hx
    split at hx
    · rename_i sema t hpc
      cases hx
      have hk : s.kernel.SameLocks (s.kernel.listRemove t) := ⟨rfl, rfl, fun _ => rfl, fun _ => rfl⟩
      exact ⟨_, s.torn, looseSteps_setPc _ hk (by simp [hpc]) (by simp), rfl⟩
    · cases hx
      exact ⟨s, s.torn, .refl, rfl⟩
  | unblock =>
    simp only [exec] at hx
    split at hx
    · rename_i sema t hpc
      obtain ⟨k', hk, heq⟩ := bind_ok_iff.mp hx
      cases heq
      exact ⟨_, s.torn, looseSteps_setPc _ (threadUnblock_frame hk).toLockFrame.sameLocks
        (by simp [hpc]) (by simp), rfl⟩
    · cases hx
      exact ⟨s, s.torn, .refl, rfl⟩
  | interrupt op =>
    simp only [exec] at hx
    split_ifs at hx with hpc
    · cases hx
      exact ⟨s, true, .refl, rfl⟩
    · obtain ⟨k', hk, heq⟩ := bind_ok_iff.mp hx
      cases heq
      exact ⟨_, s.torn, looseSteps_same (h.interrupt_sameLocks (by simpa using hpc) he hk), rfl⟩
  | loose t => cases he

end Interleaved

theorem Kernel.Ownership.same (h : k.Ownership pending) (hk : k.SameLocks k') :
    k'.Ownership pending :=
  h.congr hk.allList hk.holder hk.acquiredLocks hk.value

namespace Interleaved

structure Exclusive (s : Interleaved) : Prop where
  ownership : ∃ pending, s.kernel.Ownership pending ∧
    ∀ lock, pending lock = true ↔ ∃ t, s.pc t = .released lock
  unique : ∀ t u lock, s.pc t = .released lock → s.pc u = .released lock → t = u
  listed : ∀ t lock, s.pc t = .released lock → t ∈ s.kernel.allList
  nodup : s.kernel.allList.Nodup
  inside : ∀ lock, s.inside lock = (s.kernel.holder lock).toList

section

variable (h : s.Exclusive)
include h

theorem Exclusive.quiet {pc : ThreadRef → Pc} (hk : s.kernel.SameLocks k)
    (hpc : ∀ u lock, pc u = .released lock ↔ s.pc u = .released lock) :
    Exclusive { s with kernel := k, pc := pc } := by
  obtain ⟨pending, ho, hp⟩ := h.ownership
  refine ⟨⟨pending, ho.same hk, fun lock => ?_⟩, ?_, ?_, ?_, ?_⟩
  · rw [hp]
    exact exists_congr fun u => (hpc u lock).symm
  · intro t u lock ht hu
    exact h.unique t u lock ((hpc t lock).mp ht) ((hpc u lock).mp hu)
  · intro t lock ht
    change t ∈ k.allList
    rw [hk.allList]
    exact h.listed t lock ((hpc t lock).mp ht)
  · change k.allList.Nodup
    rw [hk.allList]
    exact h.nodup
  · intro lock
    change s.inside lock = (k.holder lock).toList
    rw [hk.holder]
    exact h.inside lock

theorem Exclusive.same (hk : s.kernel.SameLocks k) : (s.setKernel k).Exclusive :=
  h.quiet hk fun _ _ => Iff.rfl

theorem Exclusive.take (ht : t ∈ s.kernel.allList) (hv : 0 < s.kernel.value (.ofLock lock)) :
    ((s.enter lock t).setKernel ((s.kernel.setValue (.ofLock lock)
      (s.kernel.value (.ofLock lock) - 1)).giveLock lock t)).Exclusive := by
  obtain ⟨pending, ho, hp⟩ := h.ownership
  refine ⟨⟨pending, ho.giveLock ht hv, hp⟩, h.unique, h.listed, h.nodup, ?_⟩
  intro other
  have hfree := (ho.free hv).1
  by_cases hother : other = lock
  · subst hother
    simp [giveLock, h.inside, hfree]
  · simpa [giveLock, hother] using h.inside other

theorem Exclusive.release (hc : s.kernel.current = t) (ht : t ∈ s.kernel.allList)
    (hpc : s.pc t = .client) (hl : s.kernel.lockReleaseOwner lock = .ok k') :
    (((s.leave lock t).setPc t (.released lock)).setKernel k').Exclusive := by
  subst hc
  obtain ⟨pending, ho, hp⟩ := h.ownership
  obtain ⟨_, _, _, hall, _, _, _, hholder⟩ := lockReleaseOwner_frame hl
  have hheld := (lockReleaseOwner_ok hl).1
  -- the lock was held, so no other thread is releasing it
  have hnone : ∀ u, s.pc u ≠ .released lock := by
    intro u hu
    have := ho.released lock ((hp lock).mpr ⟨u, hu⟩)
    rw [hheld] at this
    cases this
  have hpcs : ∀ u other, (((s.leave lock s.kernel.current).setPc s.kernel.current
      (.released lock)).setKernel k').pc u = .released other ↔
        (u = s.kernel.current ∧ other = lock) ∨ s.pc u = .released other := by
    intro u other
    change update s.pc s.kernel.current (.released lock) u = _ ↔ _
    by_cases hu : u = s.kernel.current
    · rw [hu, update_self, hpc]
      simp [eq_comm]
    · simp [hu]
  refine ⟨⟨_, ho.lockReleaseOwner ht hl, ?_⟩, ?_, ?_, ?_, ?_⟩
  · intro other
    simp only [hpcs]
    by_cases hother : other = lock
    · subst hother
      simp
    · simp [hother, hp]
  · intro u v other hu hv
    rw [hpcs] at hu hv
    rcases hu with ⟨rfl, rfl⟩ | hu
    · exact (hv.resolve_right (hnone v)).1.symm
    · rcases hv with ⟨rfl, rfl⟩ | hv
      · exact absurd hu (hnone u)
      · exact h.unique u v other hu hv
  · intro u other hu
    rw [hpcs] at hu
    change u ∈ k'.allList
    rw [hall]
    rcases hu with ⟨rfl, _⟩ | hu
    · exact ht
    · exact h.listed u other hu
  · change k'.allList.Nodup
    rw [hall]
    exact h.nodup
  · intro other
    change update s.inside lock _ other = (k'.holder other).toList
    rw [hholder]
    by_cases hother : other = lock
    · subst hother
      simp [h.inside, hheld]
    · simpa [hother] using h.inside other

theorem Exclusive.raise (ht : s.pc t = .released lock) (hpc : ∀ other, pc ≠ .released other) :
    ((s.setPc t pc).setKernel (s.kernel.setValue (.ofLock lock)
      (s.kernel.value (.ofLock lock) + 1))).Exclusive := by
  obtain ⟨pending, ho, hp⟩ := h.ownership
  have hpend : pending lock = true := (hp lock).mpr ⟨t, ht⟩
  have hpcs : ∀ u other, update s.pc t pc u = .released other ↔
      u ≠ t ∧ s.pc u = .released other := by
    intro u other
    by_cases hu : u = t
    · subst hu
      simp [hpc]
    · simp [hu]
  have hback : update (update pending lock false) lock true = pending := by
    rw [update_idem, ← hpend, update_eq_self]
  refine ⟨⟨update pending lock false, ?_, ?_⟩, ?_, ?_, h.nodup, h.inside⟩
  · exact Kernel.Ownership.raise (hback.symm ▸ ho) (update_self ..)
  · intro other
    simp only [setKernel_pc, setPc_pc, hpcs]
    by_cases hother : other = lock
    · subst hother
      simp only [update_self, Bool.false_eq_true, false_iff, not_exists]
      rintro u ⟨hne, hu⟩
      exact hne (h.unique u t other hu ht)
    · rw [update_of_ne hother, hp]
      refine exists_congr fun u => ⟨fun hu => ⟨?_, hu⟩, fun hu => hu.2⟩
      rintro rfl
      rw [ht] at hu
      exact hother (Pc.released.inj hu).symm
  · intro u v other hu hv
    simp only [setKernel_pc, setPc_pc, hpcs] at hu hv
    exact h.unique u v other hu.2 hv.2
  · intro u other hu
    simp only [setKernel_pc, setPc_pc, hpcs] at hu
    exact h.listed u other hu.2

theorem Exclusive.init {p : Int} (hu : u ∉ s.kernel.allList)
    (hi : s.kernel.initThread u p = .ok k') : ((s.setPc u .client).setKernel k').Exclusive := by
  obtain ⟨pending, ho, hp⟩ := h.ownership
  obtain ⟨hholder, _, hall, _⟩ := initThread_ok hi
  have hpcs : ∀ v lock, update s.pc u .client v = .released lock ↔ s.pc v = .released lock := by
    intro v lock
    by_cases hv : v = u
    · subst hv
      simp only [update_self, reduceCtorEq, false_iff]
      exact fun hr => hu (h.listed v lock hr)
    · rw [update_of_ne hv]
  refine ⟨⟨pending, ho.initThread hu hi, ?_⟩, ?_, ?_, ?_, ?_⟩
  · intro lock
    rw [hp]
    exact exists_congr fun v => (hpcs v lock).symm
  · intro v w lock hv hw
    exact h.unique v w lock ((hpcs v lock).mp hv) ((hpcs w lock).mp hw)
  · intro v lock hv
    change v ∈ k'.allList
    rw [hall]
    exact mem_append_left _ (h.listed v lock ((hpcs v lock).mp hv))
  · change k'.allList.Nodup
    rw [hall]
    exact nodup_append'.mpr ⟨h.nodup, nodup_singleton u, by simpa using hu⟩
  · intro lock
    change s.inside lock = (k'.holder lock).toList
    rw [hholder]
    exact h.inside lock

theorem Exclusive.exit (hpc : s.pc t = .client) (ha : (s.kernel.threads t).acquiredLocks = []) :
    (s.setKernel (s.kernel.setAllList (s.kernel.allList.erase t))).Exclusive := by
  obtain ⟨pending, ho, hp⟩ := h.ownership
  refine ⟨⟨pending, ho.leave ha h.nodup, hp⟩, h.unique, ?_, h.nodup.erase t, h.inside⟩
  intro u lock hu
  refine (mem_erase_of_ne ?_).mpr (h.listed u lock hu)
  rintro rfl
  rw [setKernel_pc, hpc] at hu
  cases hu

theorem Exclusive.loose (hs : s.LooseStep t s') : s'.Exclusive := by
  cases hs with
  | quiet hk hpc => exact h.quiet hk hpc
  | take hk ht _ hv => exact (h.same hk).take (hk.allList ▸ ht) (hk.value _ ▸ hv)
  | release hk ht hpc hc hl => exact (h.same hk).release hc (hk.allList ▸ ht) hpc hl
  | raise hk ht hpc =>
    refine (h.same hk).raise ht ?_
    rcases hpc with rfl | rfl <;> simp
  | init hk hu hi => exact (h.same hk).init (hk.allList ▸ hu) hi
  | exit hk hpc ha => exact (h.same hk).exit hpc (hk.acquiredLocks t ▸ ha)

theorem Exclusive.looseSteps (hs : s.LooseSteps s') : s'.Exclusive := by
  induction hs with
  | refl => exact h
  | tail _ hstep ih =>
    obtain ⟨_, hstep⟩ := hstep
    exact ih.loose hstep

theorem Exclusive.step (hw : s.torn = false → s.Whole) (hs : s.Step act s') : s'.Exclusive := by
  rcases hs with ⟨htorn, he, hx⟩ | ⟨_, t, _, hloose⟩
  · obtain ⟨s1, torn, hsteps, rfl⟩ := (hw htorn).exec_loose he hx
    have h1 := h.looseSteps hsteps
    exact ⟨h1.ownership, h1.unique, h1.listed, h1.nodup, h1.inside⟩
  · exact h.loose hloose

end

theorem boot_exclusive {semaInit : SemaRef → Nat} (hb : Kernel.boot mlfqs semaInit = .ok k) :
    (boot k).Exclusive := by
  have hquiet := boot_quiescent hb
  refine ⟨⟨fun _ => false, hquiet.lockInv.ownership, fun lock => ?_⟩, nofun, nofun,
    (boot_queueInv hb).allListed.1, fun lock => ?_⟩
  · simp [boot]
  · change [] = (k.holder lock).toList
    rw [hquiet.holder]
    rfl

theorem exclusive_of_reachable (h : (system mlfqs).Reachable s) : s.Exclusive := by
  apply h.invariant
  · rintro s ⟨k, semaInit, hb, rfl⟩
    exact boot_exclusive hb
  · intro s act s' hr he hs
    exact he.step (whole_of_reachable hr) hs

theorem lock_mutual_exclusion (h : (system mlfqs).Reachable s) (lock : LockRef) :
    s.kernel.value (.ofLock lock) ≤ 1 ∧ (s.inside lock).length ≤ 1 ∧
    (∀ t ∈ s.inside lock, s.kernel.holder lock = some t ∨ s.kernel.holder lock = none) ∧
    (∀ t, s.kernel.holder lock = some t → t ∈ s.inside lock) ∧
    ∀ t ∈ s.kernel.allList,
      lock ∈ (s.kernel.threads t).acquiredLocks ↔ s.kernel.holder lock = some t := by
  have he := exclusive_of_reachable h
  obtain ⟨pending, ho, _⟩ := he.ownership
  have hinside (t : ThreadRef) : t ∈ s.inside lock ↔ s.kernel.holder lock = some t := by
    rw [he.inside, Option.mem_toList]
  refine ⟨?_, ?_, fun t ht => .inl ((hinside t).mp ht), fun t => (hinside t).mpr, ?_⟩
  · rw [ho.value lock]
    split_ifs <;> omega
  · rw [he.inside]
    cases s.kernel.holder lock <;> simp
  · intro t ht
    exact ⟨ho.acquired t ht lock, fun hh => (ho.owner lock t hh).2⟩

-- Main is inside the lock that thread 2 waits for.
theorem lock_mutual_exclusion_contended :
    ∃ s, (system false).Reachable s ∧ s.inside (.user 0) = [Kernel.mainThread] ∧
      s.kernel.waitersOf (.user 0) = [2] ∧ s.kernel.value (.ofLock (.user 0)) ≤ 1 ∧
      ((.user 0) ∈ (s.kernel.threads 2).acquiredLocks ↔
        s.kernel.holder (.user 0) = some 2) := by
  obtain ⟨s, hs, hp⟩ := leadsTo_reachable false (fun _ _ => true)
    [.call .resume, .call (.lockAcquire (.user 0)), .initThread 2 40,
      .call (.threadUnblock .on 2), .call (.lockAcquire (.user 0))]
    (fun s => decide (s.inside (.user 0) = [mainThread] ∧
      s.kernel.waitersOf (.user 0) = [2] ∧ 2 ∈ s.kernel.allList)) (by decide +kernel)
  obtain ⟨hin, hw, h2⟩ := of_decide_eq_true hp
  obtain ⟨hv, _, _, _, hacq⟩ := lock_mutual_exclusion hs.reachable (.user 0)
  exact ⟨s, hs.reachable, hin, hw, hv, hacq 2 h2⟩

def settled (s : Interleaved) (lock : LockRef) : Bool :=
  s.kernel.allList.all fun t => s.pc t ≠ .released lock

def acquiresSettled (s : Interleaved) : Act → Bool
  | .call (.lockAcquire lock) => s.settled lock
  | _ => true

theorem Exclusive.holder_of_settled (h : s.Exclusive) (hs : s.settled lock = true)
    (hv : s.kernel.value (.ofLock lock) = 0) :
    ∃ t ∈ s.kernel.allList, s.kernel.holder lock = some t := by
  obtain ⟨pending, ho, hp⟩ := h.ownership
  have hnot : pending lock = false := by
    by_contra hpend
    obtain ⟨t, ht⟩ := (hp lock).mp (by simpa using hpend)
    simp only [settled, List.all_eq_true, decide_eq_true_eq] at hs
    exact hs t (h.listed t lock ht) ht
  have hval := ho.value lock
  cases hh : s.kernel.holder lock with
  | none =>
    rw [if_pos ⟨hh, hnot⟩, hv] at hval
    cases hval
  | some t => exact ⟨t, (ho.owner lock t hh).1, rfl⟩

theorem contended_acquire_sees_holder
    (h : (system mlfqs).ReachableVia (fun s act => s.acquiresSettled act = true) s)
    (hg : s.acquiresSettled (.call (.lockAcquire lock)) = true)
    (hf : s.kernel.lockTryAcquire lock = .ok (k, false)) :
    ∃ t ∈ k.allList, k.holder lock = some t := by
  obtain ⟨_, ⟨hflag, _⟩ | ⟨_, hv, rfl⟩⟩ := lockTryAcquire_ok hf
  · cases hflag
  · exact (exclusive_of_reachable h.reachable).holder_of_settled hg hv

-- Thread 2 finds main's lock taken, and main as its holder.
theorem contended_acquire_sees_main :
    ∃ s k, (system false).ReachableVia (fun s act => s.acquiresSettled act = true) s ∧
      s.acquiresSettled (.call (.lockAcquire (.user 0))) = true ∧
      s.kernel.lockTryAcquire (.user 0) = .ok (k, false) ∧
      ∃ t ∈ k.allList, k.holder (.user 0) = some t := by
  obtain ⟨s, hs, hp⟩ := leadsTo_reachable false acquiresSettled
    [.call .resume, .call (.lockAcquire (.user 0)), .initThread 2 40, .call (.threadUnblock .on 2)]
    (fun s => decide (s.kernel.current = 2 ∧ s.kernel.holder (.user 0) = some mainThread ∧
      s.kernel.value (.ofLock (.user 0)) = 0 ∧ s.kernel.live 2 = true ∧
      (s.kernel.threads 2).status = .running ∧ s.settled (.user 0) = true)) (by decide +kernel)
  obtain ⟨hc, hh, hv, hlive, hst, hset⟩ := of_decide_eq_true hp
  have hf : s.kernel.lockTryAcquire (.user 0) = .ok (s.kernel, false) := by
    have hcur : s.kernel.threadCurrent = .ok 2 :=
      threadCurrent_ok_iff.mpr ⟨hc ▸ hlive, hc ▸ hst, hc⟩
    simp [lockTryAcquire, hcur, hh, assert, semaTryDown, hv, bind, Except.bind,
      pure, Except.pure, mainThread]
  exact ⟨s, s.kernel, hs, hset, hf, contended_acquire_sees_holder hs hset hf⟩

-- The slice of main ends after it has cleared the holder of its lock and before
-- it raises the semaphore; thread 3 asks for the lock.
theorem contended_acquire_reads_null :
    ∃ s, (system false).Reachable s ∧ s.enabled (.call (.lockAcquire (.user 0))) = true ∧
      s.kernel.value (.ofLock (.user 0)) = 0 ∧ s.kernel.holder (.user 0) = none ∧
      s.exec (.call (.lockAcquire (.user 0))) = .error .nullPointer := by
  obtain ⟨s, hs, hp⟩ := leadsTo_reachable false (fun _ _ => true)
    [.call .resume, .call (.lockAcquire (.user 0)), .initThread 3 31,
      .call (.threadUnblock .on 3), .release (.user 0), .interrupt .timerInterrupt,
      .interrupt .timerInterrupt, .interrupt .timerInterrupt, .interrupt .timerInterrupt]
    (fun s => decide (s.enabled (.call (.lockAcquire (.user 0))) = true ∧
      s.kernel.value (.ofLock (.user 0)) = 0 ∧ s.kernel.holder (.user 0) = none ∧
      faultOf (s.exec (.call (.lockAcquire (.user 0)))) = some .nullPointer))
    (by decide +kernel)
  obtain ⟨he, hv, hh, hf⟩ := of_decide_eq_true hp
  exact ⟨s, hs.reachable, he, hv, hh, eq_error_of_faultOf hf⟩

end Interleaved

end Pintos.Threads
