import Pintos.Threads.Interleaved

namespace Pintos.Threads

open Function Kernel Interleaved

variable {k k' : Kernel} {s s' : Interleaved} {t : ThreadRef} {act : Act} {op : Op} {pc : Pc}
  {mlfqs : Bool} {sema : SemaRef}

-- `t` has been taken off the list it waited in and is not yet in another.
structure Kernel.Unlinked (k : Kernel) (t : ThreadRef) : Prop where
  loose : k.Loose t
  running : k.OneRunning
  allListed : k.AllListed
  notIdle : some t ≠ k.idleThread

def Kernel.Consistent (k : Kernel) : Pc → Prop
  | .front sema t => k.QueueInv ∧ t ∈ k.lists (.waiters sema)
  | .popped _ t => k.Unlinked t
  | _ => k.QueueInv

theorem Kernel.QueueInv.consistent (h : k.QueueInv) (hpc : pc.unlinks = false) :
    k.Consistent pc := by
  cases pc with
  | front sema t => cases hpc
  | popped sema t => cases hpc
  | _ => exact h

theorem Kernel.Consistent.queueInv (h : k.Consistent pc) (hpc : pc.unlinks = false) :
    k.QueueInv := by
  cases pc with
  | front sema t => cases hpc
  | popped sema t => cases hpc
  | _ => exact h

theorem Kernel.QueueInv.unlink (h : k.QueueInv)
    (hm : t ∈ k.lists (.waiters sema)) : (k.listRemove t).Unlinked t where
  loose := h.queues.listRemove t
  running := h.running.congr (fun _ => rfl) rfl rfl
  allListed := h.allListed.congr (fun _ => rfl) rfl rfl
  notIdle := h.queues.not_idle hm

namespace Interleaved

structure Whole (s : Interleaved) : Prop where
  consistent : s.kernel.Consistent s.currentPc
  others : ∀ t, t ≠ s.kernel.current → (s.pc t).unlinks = false
  resume : ∀ t, (s.kernel.resume t).isClient = true

theorem Whole.unlinks (h : s.Whole) (hpc : s.currentPc.unlinks = false) (t : ThreadRef) :
    (s.pc t).unlinks = false := by
  by_cases ht : t = s.kernel.current
  · rw [ht]
    exact hpc
  · exact h.others t ht

theorem whole_of_queueInv (hq : s.kernel.QueueInv) (hpc : ∀ t, (s.pc t).unlinks = false)
    (hr : ∀ t, (s.kernel.resume t).isClient = true) : s.Whole :=
  ⟨hq.consistent (hpc _), fun t _ => hpc t, hr⟩

theorem track_frame (s : Interleaved) (op : Op) :
    (s.track op).pc = s.pc ∧ (s.track op).torn = s.torn ∧ (s.track op).kernel = s.kernel := by
  unfold track
  split <;> exact ⟨rfl, rfl, rfl⟩

theorem Whole.exec_kernel (h : s.Whole) (hpc : s.currentPc.unlinks = false)
    (he : s.kernel.Enabled op) (hx : s.kernel.exec op = .ok k') :
    k'.QueueInv ∧ ∀ t, (k'.resume t).isClient = true := by
  have hq := h.consistent.queueInv hpc
  exact ⟨hq.exec he hx, ((exec_lockStep hq he hx (h.resume _)).config hq).2.2 h.resume⟩

theorem update_unlinks (h : ∀ t, (s.pc t).unlinks = false) (hpc : pc.unlinks = false)
    (t u : ThreadRef) : (update s.pc t pc u).unlinks = false := by
  by_cases hu : u = t
  · subst hu
    simpa using hpc
  · simpa [hu] using h u

theorem Whole.call (h : s.Whole) (he : s.enabled (.call op) = true)
    (hx : s.exec (.call op) = .ok s') : s'.Whole ∧ s'.torn = s.torn := by
  simp only [enabled, decide_eq_true_eq] at he
  obtain ⟨hpc, _, hop, _⟩ := he
  obtain ⟨k', hk, heq⟩ := bind_ok_iff.mp hx
  cases heq
  have hpc : s.currentPc.unlinks = false := by rw [hpc]; rfl
  obtain ⟨hq, hr⟩ := h.exec_kernel hpc hop hk
  obtain ⟨hsame, htorn, _⟩ := track_frame s op
  refine ⟨whole_of_queueInv hq ?_ hr, htorn⟩
  intro t
  rw [setKernel_pc, hsame]
  exact h.unlinks hpc t

theorem Whole.initThread {p : Int} (h : s.Whole) (he : s.enabled (.initThread t p) = true)
    (hx : s.exec (.initThread t p) = .ok s') : s'.Whole ∧ s'.torn = s.torn := by
  simp only [enabled, decide_eq_true_eq] at he
  obtain ⟨hpc, hop⟩ := he
  obtain ⟨k', hk, heq⟩ := bind_ok_iff.mp hx
  cases heq
  have hpc : s.currentPc.unlinks = false := by rw [hpc]; rfl
  have hfree := callable_threadCreate hop.2.2 t rfl
  obtain ⟨_, _, _, _, _, _, _, _, hresume, _⟩ := initThread_ok hk
  refine ⟨whole_of_queueInv ((h.consistent.queueInv hpc).initThread hfree hk).1
    (update_unlinks (h.unlinks hpc) rfl t) ?_, rfl⟩
  intro u
  change (k'.resume u).isClient = true
  rw [hresume]
  by_cases hu : u = t
  · subst hu
    simp [Resume.isClient]
  · simpa [hu] using h.resume u

theorem Whole.release {lock : LockRef} (h : s.Whole) (he : s.enabled (.release lock) = true)
    (hx : s.exec (.release lock) = .ok s') : s'.Whole ∧ s'.torn = s.torn := by
  simp only [enabled, decide_eq_true_eq] at he
  obtain ⟨hpc, _⟩ := he
  obtain ⟨k', hk, heq⟩ := bind_ok_iff.mp hx
  cases heq
  have hpc : s.currentPc.unlinks = false := by rw [hpc]; rfl
  refine ⟨whole_of_queueInv ((h.consistent.queueInv hpc).lockReleaseOwner hk)
    (update_unlinks (h.unlinks hpc) rfl _) ?_, rfl⟩
  obtain ⟨_, hresume, _⟩ := lockReleaseOwner_frame hk
  intro u
  change (k'.resume u).isClient = true
  rw [hresume]
  exact h.resume u

theorem enabled_up (he : s.enabled (.up sema) = true) : s.currentPc.unlinks = false := by
  unfold enabled at he
  split at he <;> simp_all [Pc.unlinks]

theorem Whole.up (h : s.Whole) (he : s.enabled (.up sema) = true)
    (hx : s.exec (.up sema) = .ok s') : s'.Whole ∧ s'.torn = s.torn := by
  have hpc := enabled_up he
  cases hx
  refine ⟨whole_of_queueInv ((h.consistent.queueInv hpc).setValue _ _)
    (update_unlinks (h.unlinks hpc) ?_ _) h.resume, rfl⟩
  split_ifs <;> rfl

theorem Whole.front (h : s.Whole) (hx : s.exec .front = .ok s') : s'.Whole ∧ s'.torn = s.torn := by
  simp only [exec] at hx
  split at hx
  · rename_i sema hpc
    split at hx
    · cases hx
    · rename_i t rest hl
      cases hx
      have hq : s.kernel.QueueInv := h.consistent.queueInv (by rw [hpc]; rfl)
      refine ⟨⟨?_, ?_, h.resume⟩, rfl⟩
      · have : (s.setPc s.kernel.current (.front sema t)).currentPc = .front sema t := by
          simp [currentPc]
        rw [this]
        exact ⟨hq, by simp [hl]⟩
      · intro u hu
        have hu : u ≠ s.kernel.current := hu
        rw [setPc_pc, update_of_ne hu]
        exact h.others u hu
  · cases hx
    exact ⟨h, rfl⟩

theorem Whole.unlink (h : s.Whole) (hx : s.exec .unlink = .ok s') :
    s'.Whole ∧ s'.torn = s.torn := by
  simp only [exec] at hx
  split at hx
  · rename_i sema t hpc
    cases hx
    have hc := h.consistent
    rw [hpc] at hc
    refine ⟨⟨?_, ?_, h.resume⟩, rfl⟩
    · have : ((s.setPc s.kernel.current (.popped sema t)).setKernel
          (s.kernel.listRemove t)).currentPc = .popped sema t := by simp [currentPc]
      rw [this]
      exact hc.1.unlink hc.2
    · intro u hu
      have hu : u ≠ s.kernel.current := hu
      rw [setKernel_pc, setPc_pc, update_of_ne hu]
      exact h.others u hu
  · cases hx
    exact ⟨h, rfl⟩

theorem Whole.unblock (h : s.Whole) (hx : s.exec .unblock = .ok s') :
    s'.Whole ∧ s'.torn = s.torn := by
  simp only [exec] at hx
  split at hx
  · rename_i sema t hpc
    obtain ⟨k', hk, heq⟩ := bind_ok_iff.mp hx
    cases heq
    have hc := h.consistent
    rw [hpc] at hc
    refine ⟨whole_of_queueInv (hc.loose.threadUnblock hc.running hc.allListed hc.notIdle hk) ?_ ?_,
      rfl⟩
    · intro u
      change (update s.pc s.kernel.current .client u).unlinks = false
      by_cases hu : u = s.kernel.current
      · rw [hu]
        simp [Pc.unlinks]
      · rw [update_of_ne hu]
        exact h.others u hu
    · intro u
      exact (threadUnblock_frame hk).resume u (h.resume u)
  · cases hx
    exact ⟨h, rfl⟩

theorem Whole.interrupt (h : s.Whole) (he : s.enabled (.interrupt op) = true)
    (hx : s.exec (.interrupt op) = .ok s') : s'.torn = false → s'.Whole := by
  simp only [enabled, decide_eq_true_eq] at he
  simp only [exec] at hx
  intro htorn
  split_ifs at hx with hpc
  · cases hx
    cases htorn
  · obtain ⟨k', hk, heq⟩ := bind_ok_iff.mp hx
    cases heq
    have hpc : s.currentPc.unlinks = false := by simpa using hpc
    obtain ⟨hq, hr⟩ := h.exec_kernel hpc he.2 hk
    exact whole_of_queueInv hq (h.unlinks hpc) hr

theorem LooseStep.torn (h : s.LooseStep t s') : s'.torn = s.torn := by
  cases h <;> rfl

theorem Whole.step (h : s.torn = false → s.Whole) (hs : s.Step act s') :
    s'.torn = false → s'.Whole := by
  intro htorn
  rcases hs with ⟨hno, he, hx⟩ | ⟨hyes, t, _, hl⟩
  · have h := h hno
    cases act with
    | call op => exact (h.call he hx).1
    | initThread t p => exact (h.initThread he hx).1
    | release lock => exact (h.release he hx).1
    | up sema => exact (h.up he hx).1
    | front => exact (h.front hx).1
    | unlink => exact (h.unlink hx).1
    | unblock => exact (h.unblock hx).1
    | interrupt op => exact h.interrupt he hx htorn
    | loose t => cases he
  · rw [hl.torn, hyes] at htorn
    cases htorn

theorem boot_whole {semaInit : SemaRef → Nat} (hb : Kernel.boot mlfqs semaInit = .ok k) :
    (boot k).Whole :=
  whole_of_queueInv (boot_queueInv hb) (fun _ => rfl) (boot_quiescent hb).resume

theorem whole_of_reachable (h : (system mlfqs).Reachable s) : s.torn = false → s.Whole := by
  apply h.invariant
  · rintro s ⟨k, semaInit, hb, rfl⟩ _
    exact boot_whole hb
  · intro s act s' _ hw hs
    exact Whole.step hw hs

end Interleaved

def Pc.wakes : Pc → Bool
  | .tested _ | .front _ _ | .popped _ _ => true
  | _ => false

namespace Interleaved

variable {k k' : Kernel} {s s' : Interleaved} {t : ThreadRef} {act : Act} {op : Op} {pc : Pc}
  {mlfqs : Bool}

def uninterrupted (s : Interleaved) : Act → Bool
  | .interrupt _ => !s.currentPc.wakes
  | _ => true

structure Undisturbed (s : Interleaved) : Prop where
  torn : s.torn = false
  others : ∀ t, t ≠ s.kernel.current → (s.pc t).wakes = false
  tested : ∀ sema, s.currentPc = .tested sema → s.kernel.lists (.waiters sema) ≠ []

theorem undisturbed_of_wakes (ht : s.torn = false) (h : ∀ t, (s.pc t).wakes = false) :
    s.Undisturbed := by
  refine ⟨ht, fun t _ => h t, ?_⟩
  intro sema hpc
  have := h s.kernel.current
  rw [show s.pc s.kernel.current = .tested sema from hpc] at this
  cases this

theorem Undisturbed.wakes (h : s.Undisturbed) (hpc : s.currentPc.wakes = false) (t : ThreadRef) :
    (s.pc t).wakes = false := by
  by_cases ht : t = s.kernel.current
  · rw [ht]
    exact hpc
  · exact h.others t ht

theorem Undisturbed.update_wakes (h : s.Undisturbed) (hpc : pc.wakes = false) (t : ThreadRef) :
    (update s.pc s.kernel.current pc t).wakes = false := by
  by_cases ht : t = s.kernel.current
  · rw [ht]
    simpa using hpc
  · rw [update_of_ne ht]
    exact h.others t ht

theorem Undisturbed.setCurrent (h : s.Undisturbed) (hc : k.current = s.kernel.current)
    (ht : ∀ sema, pc = .tested sema → k.lists (.waiters sema) ≠ []) :
    ((s.setPc s.kernel.current pc).setKernel k).Undisturbed := by
  refine ⟨h.torn, ?_, ?_⟩
  · intro t hne
    have hne : t ≠ s.kernel.current := fun heq => hne (heq.trans hc.symm)
    rw [setKernel_pc, setPc_pc, update_of_ne hne]
    exact h.others t hne
  · intro sema hpc
    have : update s.pc s.kernel.current pc k.current = .tested sema := hpc
    rw [hc, update_self] at this
    exact ht sema this

theorem Undisturbed.exec (h : s.Undisturbed) (hg : s.uninterrupted act = true)
    (he : s.enabled act = true) (hx : s.exec act = .ok s') : s'.Undisturbed := by
  cases act with
  | call op =>
    simp only [enabled, decide_eq_true_eq] at he
    obtain ⟨k', _, heq⟩ := bind_ok_iff.mp hx
    cases heq
    obtain ⟨hsame, htorn, _⟩ := track_frame s op
    refine undisturbed_of_wakes (htorn.trans h.torn) ?_
    intro t
    rw [setKernel_pc, hsame]
    exact h.wakes (by rw [he.1]; rfl) t
  | initThread t p =>
    simp only [enabled, decide_eq_true_eq] at he
    obtain ⟨k', _, heq⟩ := bind_ok_iff.mp hx
    cases heq
    refine undisturbed_of_wakes h.torn ?_
    intro u
    rw [setKernel_pc, setPc_pc]
    by_cases hu : u = t
    · subst hu
      simp [Pc.wakes]
    · rw [update_of_ne hu]
      exact h.wakes (by rw [he.1]; rfl) u
  | release lock =>
    obtain ⟨k', _, heq⟩ := bind_ok_iff.mp hx
    cases heq
    exact undisturbed_of_wakes h.torn (h.update_wakes rfl)
  | up sema =>
    cases hx
    refine h.setCurrent rfl ?_
    intro other hpc
    split_ifs at hpc with hl
    cases hpc
    exact hl
  | front =>
    simp only [exec] at hx
    split at hx
    · split at hx
      · cases hx
      · cases hx
        exact h.setCurrent (k := s.kernel) rfl (fun _ hpc => by cases hpc)
    · cases hx
      exact h
  | unlink =>
    simp only [exec] at hx
    split at hx
    · cases hx
      exact h.setCurrent rfl (fun _ hpc => by cases hpc)
    · cases hx
      exact h
  | unblock =>
    simp only [exec] at hx
    split at hx
    · obtain ⟨k', _, heq⟩ := bind_ok_iff.mp hx
      cases heq
      exact undisturbed_of_wakes h.torn (h.update_wakes rfl)
    · cases hx
      exact h
  | interrupt op =>
    simp only [uninterrupted, Bool.not_eq_true'] at hg
    have hpc : s.currentPc.unlinks = false := by
      revert hg
      cases s.currentPc <;> simp [Pc.wakes, Pc.unlinks]
    simp only [exec, hpc, Bool.false_eq_true, if_false, bind_ok_iff] at hx
    obtain ⟨k', _, heq⟩ := hx
    cases heq
    exact undisturbed_of_wakes h.torn (h.wakes hg)
  | loose t => cases he

theorem undisturbed_of_reachable
    (h : (system mlfqs).ReachableVia (fun s act => s.uninterrupted act = true) s) :
    s.Undisturbed := by
  apply h.invariant
  · rintro s ⟨k, semaInit, hb, rfl⟩
    exact undisturbed_of_wakes rfl fun _ => rfl
  · intro s act s' _ hu hg hs
    rcases hs with ⟨_, he, hx⟩ | ⟨htorn, _⟩
    · exact hu.exec hg he hx
    · rw [hu.torn] at htorn
      cases htorn

theorem Undisturbed.current_of_wakes (h : s.Undisturbed) (hpc : (s.pc t).wakes = true) :
    t = s.kernel.current := by
  by_contra hne
  rw [h.others t hne] at hpc
  cases hpc

theorem sema_up_pops_waiter
    (h : (system mlfqs).ReachableVia (fun s act => s.uninterrupted act = true) s) :
    (∀ t sema, s.pc t = .tested sema → s.kernel.lists (.waiters sema) ≠ []) ∧
    (∀ fault, s.exec .front ≠ .error fault) ∧
    (∀ t sema u, s.pc t = .front sema u → u ∈ s.kernel.lists (.waiters sema)) ∧
    ∀ t sema u, s.pc t = .popped sema u → ∀ list, u ∉ s.kernel.lists list := by
  have hu := undisturbed_of_reachable h
  have hw := whole_of_reachable h.reachable hu.torn
  refine ⟨?_, ?_, ?_, ?_⟩
  · intro t sema hpc
    obtain rfl := hu.current_of_wakes (by rw [hpc]; rfl)
    exact hu.tested sema hpc
  · intro fault hx
    simp only [exec] at hx
    split at hx
    · rename_i sema hpc
      split at hx
      · rename_i hl
        exact hu.tested sema hpc hl
      · cases hx
    · cases hx
  · intro t sema u hpc
    obtain rfl := hu.current_of_wakes (by rw [hpc]; rfl)
    have hc := hw.consistent
    rw [show s.currentPc = .front sema u from hpc] at hc
    exact hc.2
  · intro t sema u hpc
    obtain rfl := hu.current_of_wakes (by rw [hpc]; rfl)
    have hc := hw.consistent
    rw [show s.currentPc = .popped sema u from hpc] at hc
    exact hc.loose.absent

-- Main has popped thread 2, which waited for the semaphore that main raises.
theorem sema_up_pops_waiter_once :
    ∃ s, (system false).ReachableVia (fun s act => s.uninterrupted act = true) s ∧
      s.pc Kernel.mainThread = .popped (.user 0) 2 ∧ ∀ list, 2 ∉ s.kernel.lists list := by
  obtain ⟨s, hs, hp⟩ := leadsTo_reachable false uninterrupted
    [.call .resume, .initThread 2 40, .call (.threadUnblock .on 2), .call (.semaDown (.user 0)),
      .up (.user 0), .front, .unlink]
    (fun s => decide (s.pc Kernel.mainThread = .popped (.user 0) 2)) (by decide +kernel)
  have hpc := of_decide_eq_true hp
  exact ⟨s, hs, hpc, (sema_up_pops_waiter hs).2.2.2 _ _ _ hpc⟩

-- Main finds thread 2 waiting and its slice ends before it pops it; thread 3, of
-- the same priority, raises the semaphore and pops thread 2; main pops next.
theorem sema_up_pops_empty_list :
    ∃ s, (system false).Reachable s ∧ s.kernel.current = Kernel.mainThread ∧
      s.currentPc = .tested (.user 0) ∧ s.kernel.lists (.waiters (.user 0)) = [] ∧
      s.exec .front = .error .assertion := by
  obtain ⟨s, hs, hp⟩ := leadsTo_reachable false (fun _ _ => true)
    [.call .resume, .initThread 2 40, .call (.threadUnblock .on 2), .call (.semaDown (.user 0)),
      .initThread 3 31, .call (.threadUnblock .on 3), .up (.user 0),
      .interrupt .timerInterrupt, .interrupt .timerInterrupt, .interrupt .timerInterrupt,
      .interrupt .timerInterrupt, .up (.user 0), .front, .unlink, .unblock,
      .call .resume, .call (.semaDown (.user 1))]
    (fun s => decide (s.kernel.current = Kernel.mainThread ∧ s.currentPc = .tested (.user 0) ∧
      s.kernel.lists (.waiters (.user 0)) = [])) (by decide +kernel)
  obtain ⟨hc, hpc, hl⟩ := of_decide_eq_true hp
  refine ⟨s, hs.reachable, hc, hpc, hl, ?_⟩
  simp only [exec, hpc, hl]

end Interleaved

end Pintos.Threads
