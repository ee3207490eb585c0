import Pintos.Threads.Condition.Comparisons

namespace Pintos.Threads

open Function CondPc List

namespace CondPc

def owes : CondPc → Option ThreadRef
  | .raising w _ => some w
  | _ => none

def wakes : CondPc → Option ThreadRef
  | .waking w _ => some w
  | _ => none

theorem inside_of_owes {pc : CondPc} {w : ThreadRef} (h : pc.owes = some w) :
    pc.phase = .inside := by
  cases pc <;> first | rfl | cases h

theorem inside_of_wakes {pc : CondPc} {w : ThreadRef} (h : pc.wakes = some w) :
    pc.phase = .inside := by
  cases pc <;> first | rfl | cases h

end CondPc

namespace Condition

open Lib (Mutex)

variable {s s' : Condition} {t u v w : ThreadRef} {act : CondAct} {pc : CondPc} {loop : Bool}

def Guarded (s : Condition) : Prop := s.lock.Guards CondPc.phase s.pc

theorem Guarded.move (h : s.Guarded) (hs : s.Move t s') : s'.Guarded := by
  cases hs with
  | lock hpc hm | relock hpc hm => exact h.moved (hm ▸ (Mutex.update_free t).symm)
  | clear hpc hm => exact h.moved (hm ▸ (Mutex.update_held t).symm)
  | @raise wait hpc hm =>
    apply h.moved
    cases wait <;> exact hm ▸ (Mutex.update_passing t).symm
  | @idle loop hpc _ | @up _ loop hpc _ =>
    exact h.stays (by rw [hpc]; cases loop <;> rfl)
  | @wake w loop hpc hw =>
    have hwoken : (s.goto w .testing).Guarded := h.stays (by rw [hw]; rfl)
    have hne : t ≠ w := by
      rintro rfl
      cases hpc.symm.trans hw
    apply hwoken.stays
    rw [goto_pc, update_of_ne hne, hpc]
    cases loop <;> rfl
  | unlock hpc | wait hpc | signal hpc | broadcast hpc | done hpc _ | more hpc _ | queue hpc _
  | pop hpc _ | upAsleep hpc _ | sleep hpc _ | down hpc _ =>
    exact h.stays (by rw [hpc]; rfl)

theorem guarded_of_reachable (h : system.Reachable s) : s.Guarded := by
  apply h.invariant
  · rintro s rfl t
    rfl
  · intro s act s' _ hg hx
    exact hg.move (exec_move hx)

def Owed (s : Condition) (w : ThreadRef) : Prop := ∃ t, (s.pc t).owes = some w

def Roused (s : Condition) (w : ThreadRef) : Prop := ∃ t, (s.pc t).wakes = some w

-- What can have happened to the semaphore of the latest cond_wait of `w`. It is in
-- the list, then in the hands of a thread in cond_signal, then raised, each once,
-- and only then does `w` pass its sema_down.
inductive Record (s : Condition) (w : ThreadRef) : Prop
  | filed (hpc : (s.pc w).waits = true) (hmem : w ∈ s.waiters) (howed : ¬ s.Owed w)
      (hroused : ¬ s.Roused w) (hremoved : s.removed w = 0) (hraised : s.raised w = 0)
      (hvalue : s.value w = 0)
  | taken (hpc : (s.pc w).waits = true) (hmem : w ∉ s.waiters) (howed : s.Owed w)
      (hroused : ¬ s.Roused w) (hremoved : s.removed w = 1) (hraised : s.raised w = 0)
      (hvalue : s.value w = 0)
  | raised (hpc : (s.pc w).waits = true) (hmem : w ∉ s.waiters) (howed : ¬ s.Owed w)
      (hroused : s.Roused w ↔ s.pc w = .asleep) (hremoved : s.removed w = 1)
      (hraised : s.raised w = 1) (hvalue : s.value w = 1)
  | closed (hpc : (s.pc w).waits = false) (hmem : w ∉ s.waiters) (howed : ¬ s.Owed w)
      (hroused : ¬ s.Roused w) (hremoved : s.removed w = s.raised w) (hraised : s.raised w ≤ 1)
      (hpassed : s.pc w = .relocking → s.raised w = 1)

theorem Record.congr (h : s.Record w) (hpc : s'.pc w = s.pc w)
    (hmem : w ∈ s'.waiters ↔ w ∈ s.waiters) (howed : s'.Owed w ↔ s.Owed w)
    (hroused : s'.Roused w ↔ s.Roused w) (hremoved : s'.removed w = s.removed w)
    (hraised : s'.raised w = s.raised w) (hvalue : s'.value w = s.value w) : s'.Record w := by
  cases h with
  | filed => apply Record.filed <;> simp_all
  | taken => apply Record.taken <;> simp_all
  | raised => apply Record.raised <;> simp_all
  | closed => apply Record.closed <;> simp_all

theorem Guarded.owed_iff (hg : s.Guarded) (ht : (s.pc t).phase = .inside) :
    s.Owed w ↔ (s.pc t).owes = some w := by
  refine ⟨fun ⟨u, hu⟩ => ?_, fun h => ⟨t, h⟩⟩
  rwa [hg.eq_of_inside ht (inside_of_owes hu)]

theorem Guarded.roused_iff (hg : s.Guarded) (ht : (s.pc t).phase = .inside) :
    s.Roused w ↔ (s.pc t).wakes = some w := by
  refine ⟨fun ⟨u, hu⟩ => ?_, fun h => ⟨t, h⟩⟩
  rwa [hg.eq_of_inside ht (inside_of_wakes hu)]

theorem owed_moved (hpc : s'.pc = update s.pc t pc) (ht : pc.owes = (s.pc t).owes) :
    s'.Owed w ↔ s.Owed w := by
  have hsame : ∀ u, (s'.pc u).owes = (s.pc u).owes := by
    intro u
    rw [hpc]
    by_cases hu : u = t
    · subst hu
      simpa using ht
    · simp [hu]
  simp only [Owed, hsame]

theorem roused_moved (hpc : s'.pc = update s.pc t pc)
    (ht : pc.wakes = (s.pc t).wakes) : s'.Roused w ↔ s.Roused w := by
  have hsame : ∀ u, (s'.pc u).wakes = (s.pc u).wakes := by
    intro u
    rw [hpc]
    by_cases hu : u = t
    · subst hu
      simpa using ht
    · simp [hu]
  simp only [Roused, hsame]

structure Kept (s : Condition) : Prop where
  nodup : s.waiters.Nodup
  record : ∀ w, s.Record w

section

variable (h : s.Kept)
include h

theorem Kept.not_mem (ht : (s.pc t).waits = false) : t ∉ s.waiters := by
  intro hmem
  cases h.record t with
  | filed hpc => simp [hpc] at ht
  | taken _ hnot | raised _ hnot | closed _ hnot => exact hnot hmem

theorem Kept.quiet (hpc : s'.pc = update s.pc t pc) (hwaiters : s'.waiters = s.waiters)
    (hremoved : s'.removed = s.removed) (hraised : s'.raised = s.raised)
    (hvalue : s'.value = s.value) (hwaits : pc.waits = (s.pc t).waits)
    (howes : pc.owes = (s.pc t).owes) (hwakes : pc.wakes = (s.pc t).wakes)
    (hasleep : pc = .asleep ↔ s.pc t = .asleep) (hpast : pc ≠ .relocking) : s'.Kept := by
  refine ⟨hwaiters ▸ h.nodup, fun w => ?_⟩
  have howed : s'.Owed w ↔ s.Owed w := owed_moved hpc howes
  have hroused : s'.Roused w ↔ s.Roused w := roused_moved hpc hwakes
  by_cases hw : w = t
  · subst hw
    have hpcw : s'.pc w = pc := by rw [hpc, update_self]
    cases h.record w with
    | filed => apply Record.filed <;> simp_all
    | taken => apply Record.taken <;> simp_all
    | raised => apply Record.raised <;> simp_all
    | closed => apply Record.closed <;> simp_all
  · exact (h.record w).congr (by rw [hpc, update_of_ne hw]) (by rw [hwaiters]) howed
      hroused (by rw [hremoved]) (by rw [hraised]) (by rw [hvalue])

theorem Kept.sleep (ht : s.pc t = .testing) (hv : s.value t = 0) : (s.goto t .asleep).Kept := by
  have howed : ∀ w, (s.goto t .asleep).Owed w ↔ s.Owed w := fun w =>
    owed_moved rfl (by rw [ht]; rfl)
  have hroused : ∀ w, (s.goto t .asleep).Roused w ↔ s.Roused w := fun w =>
    roused_moved rfl (by rw [ht]; rfl)
  refine ⟨h.nodup, fun w => ?_⟩
  by_cases hw : w = t
  · subst hw
    have hpcw : (s.goto w .asleep).pc w = .asleep := by simp
    cases h.record w with
    | filed => apply Record.filed <;> simp_all [waits]
    | taken => apply Record.taken <;> simp_all [waits]
    | raised _ _ _ _ _ _ hvalue => simp [hv] at hvalue
    | closed hpc => simp [ht, waits] at hpc
  · exact (h.record w).congr (by simp [hw]) .rfl (howed w) (hroused w) rfl rfl rfl

theorem Kept.queue {order : List ThreadRef} (ht : s.pc t = .queueing)
    (ho : order.Perm (t :: s.waiters)) : ((s.file t order).goto t (.unlocking true)).Kept := by
  have hnew : t ∉ s.waiters := h.not_mem (by rw [ht]; rfl)
  have howed : ∀ w, ((s.file t order).goto t (.unlocking true)).Owed w ↔ s.Owed w := fun w =>
    owed_moved rfl (by rw [ht]; rfl)
  have hroused : ∀ w, ((s.file t order).goto t (.unlocking true)).Roused w ↔ s.Roused w :=
    fun w => roused_moved rfl (by rw [ht]; rfl)
  refine ⟨ho.nodup_iff.mpr (nodup_cons.mpr ⟨hnew, h.nodup⟩), fun w => ?_⟩
  by_cases hw : w = t
  · subst hw
    have hmem : w ∈ order := ho.mem_iff.mpr mem_cons_self
    cases h.record w with
    | closed _ _ hno hnr =>
      exact .filed (by simp [waits]) hmem (by rwa [howed]) (by rwa [hroused]) (by simp)
        (by simp) (by simp)
    | filed hpc | taken hpc | raised hpc => simp [ht, waits] at hpc
  · have hmem : w ∈ order ↔ w ∈ s.waiters := by simp [ho.mem_iff, hw]
    exact (h.record w).congr (by simp [hw]) hmem (howed w) (hroused w) (by simp [hw])
      (by simp [hw]) (by simp [hw])

theorem Kept.pop {rest : List ThreadRef} (hg : s.Guarded)
    (ht : s.pc t = .signalling loop) (ho : (w :: rest).Perm s.waiters) :
    ((s.take t w rest).goto t (.raising w loop)).Kept := by
  have hg' := hg.move (.pop ht ho)
  have howed : ∀ v, ((s.take t w rest).goto t (.raising w loop)).Owed v ↔ v = w := by
    intro v
    rw [hg'.owed_iff (t := t) (by simp [phase])]
    simp [owes, eq_comm]
  have hnone : ∀ v, ¬ s.Owed v := by
    intro v
    rw [hg.owed_iff (t := t) (by rw [ht]; rfl), ht]
    simp [owes]
  have hroused : ∀ v, ((s.take t w rest).goto t (.raising w loop)).Roused v ↔ s.Roused v :=
    fun v => roused_moved rfl (by rw [ht]; rfl)
  have hnodup := nodup_cons.mp (ho.nodup_iff.mpr h.nodup)
  have hw : w ∈ s.waiters := ho.mem_iff.mp mem_cons_self
  have hwt : w ≠ t := by
    rintro rfl
    exact h.not_mem (by rw [ht]; rfl) hw
  refine ⟨hnodup.2, fun v => ?_⟩
  by_cases hv : v = w
  · subst hv
    cases h.record v with
    | filed hpc _ _ hnr hremoved hraised hvalue =>
      exact .taken (by simpa [hwt] using hpc) hnodup.1 ((howed v).mpr rfl) (by rwa [hroused])
        (by simp [hremoved]) hraised hvalue
    | taken _ hnot | raised _ hnot | closed _ hnot => exact absurd hw hnot
  · have hmem : v ∈ rest ↔ v ∈ s.waiters := by simp [← ho.mem_iff, hv]
    have hkeep : ((s.take t w rest).goto t (.raising w loop)).Owed v ↔ s.Owed v := by
      simp [howed, hv, hnone]
    by_cases hvt : v = t
    · subst hvt
      cases h.record v with
      | closed _ hnot _ hnr hremoved hraised _ =>
        exact .closed (by simp [waits]) (by rwa [goto_waiters, take_waiters, hmem])
          (by rw [hkeep]; exact hnone v) (by rwa [hroused]) (by simpa [hv] using hremoved)
          hraised (by simp)
      | filed hpc | taken hpc | raised hpc => simp [ht, waits] at hpc
    · exact (h.record v).congr (by simp [hvt]) hmem hkeep (hroused v) (by simp [hv]) rfl rfl

theorem Kept.up (hg : s.Guarded) (ht : s.pc t = .raising w loop)
    (hg' : ((s.raise w).goto t pc).Guarded) (hphase : pc.phase = .inside)
    (hwaits : pc.waits = false) (howes : pc.owes = none)
    (hwakes : ∀ v, pc.wakes = some v ↔ v = w ∧ s.pc w = .asleep) (hpast : pc ≠ .relocking) :
    ((s.raise w).goto t pc).Kept := by
  have howed : ∀ v, s.Owed v ↔ v = w := by
    intro v
    rw [hg.owed_iff (t := t) (by rw [ht]; rfl), ht]
    simp [owes, eq_comm]
  have hunroused : ∀ v, ¬ s.Roused v := by
    intro v
    rw [hg.roused_iff (t := t) (by rw [ht]; rfl), ht]
    simp [wakes]
  have hpaid : ∀ v, ¬ ((s.raise w).goto t pc).Owed v := by
    intro v
    rw [hg'.owed_iff (t := t) (by simpa using hphase)]
    simp [howes]
  have hroused : ∀ v, ((s.raise w).goto t pc).Roused v ↔ v = w ∧ s.pc w = .asleep := by
    intro v
    rw [hg'.roused_iff (t := t) (by simpa using hphase)]
    simpa using hwakes v
  refine ⟨h.nodup, fun v => ?_⟩
  by_cases hv : v = w
  · subst hv
    cases h.record v with
    | taken hpc hmem _ _ hremoved hraised hvalue =>
      have hvt : v ≠ t := by
        rintro rfl
        simp [ht, waits] at hpc
      exact .raised (by simpa [hvt] using hpc) hmem (hpaid v) (by simp [hroused, hvt]) hremoved
        (by simp [hraised]) (by simp [hvalue])
    | filed _ _ hno | raised _ _ hno | closed _ _ hno => exact absurd ((howed v).mpr rfl) hno
  · have hnot : ¬ ((s.raise w).goto t pc).Roused v := by simp [hroused, hv]
    by_cases hvt : v = t
    · subst hvt
      cases h.record v with
      | closed _ hmem _ _ hremoved hraised _ =>
        exact .closed (by simpa using hwaits) hmem (hpaid v) hnot (by simpa [hv] using hremoved)
          (by simpa [hv] using hraised) (by simpa using fun hp => absurd hp hpast)
      | filed hpc | taken hpc | raised hpc => simp [ht, waits] at hpc
    · exact (h.record v).congr (by simp [hvt]) .rfl (by simp [hpaid, howed, hv])
        (by simp [hnot, hunroused]) rfl (by simp [hv]) (by simp [hv])

theorem Kept.wake (hg : s.Guarded) (ht : s.pc t = .waking w loop)
    (hw : s.pc w = .asleep) : ((s.goto w .testing).goto t (.afterSignal loop)).Kept := by
  have hg' := hg.move (.wake ht hw)
  have htw : w ≠ t := by
    rintro rfl
    cases ht.symm.trans hw
  have hinside : (((s.goto w .testing).goto t (.afterSignal loop)).pc t).phase = .inside := by
    cases loop <;> simp [afterSignal, phase]
  have hroused : ∀ v, s.Roused v ↔ v = w := by
    intro v
    rw [hg.roused_iff (t := t) (by rw [ht]; rfl), ht]
    simp [wakes, eq_comm]
  have hunroused : ∀ v, ¬ ((s.goto w .testing).goto t (.afterSignal loop)).Roused v := by
    intro v
    rw [hg'.roused_iff hinside]
    cases loop <;> simp [afterSignal, wakes]
  have hnone : ∀ v, ¬ s.Owed v := by
    intro v
    rw [hg.owed_iff (t := t) (by rw [ht]; rfl), ht]
    simp [owes]
  have hnone' : ∀ v, ¬ ((s.goto w .testing).goto t (.afterSignal loop)).Owed v := by
    intro v
    rw [hg'.owed_iff hinside]
    cases loop <;> simp [afterSignal, owes]
  refine ⟨h.nodup, fun v => ?_⟩
  by_cases hv : v = w
  · subst hv
    cases h.record v with
    | raised _ hmem _ _ hremoved hraised hvalue =>
      exact .raised (by simp [htw, waits]) hmem (hnone' v) (by simp [hunroused, htw])
        hremoved hraised hvalue
    | filed _ _ _ hno | taken _ _ _ hno | closed _ _ _ hno =>
      exact absurd ((hroused v).mpr rfl) hno
  · by_cases hvt : v = t
    · subst hvt
      cases h.record v with
      | closed _ hmem _ _ hremoved hraised _ =>
        exact .closed (by cases loop <;> simp [afterSignal, waits]) hmem (hnone' v)
          (hunroused v) hremoved hraised (by cases loop <;> simp [afterSignal])
      | filed hpc | taken hpc | raised hpc => simp [ht, waits] at hpc
    · exact (h.record v).congr (by simp [hvt, hv]) .rfl (by simp [hnone, hnone'])
        (by simp [hunroused, hroused, hv]) rfl rfl rfl

theorem Kept.down (ht : s.pc t = .testing) (hv : s.value t ≠ 0) :
    ((s.lower t).goto t .relocking).Kept := by
  have howed : ∀ w, ((s.lower t).goto t .relocking).Owed w ↔ s.Owed w := fun w =>
    owed_moved rfl (by rw [ht]; rfl)
  have hroused : ∀ w, ((s.lower t).goto t .relocking).Roused w ↔ s.Roused w := fun w =>
    roused_moved rfl (by rw [ht]; rfl)
  refine ⟨h.nodup, fun w => ?_⟩
  by_cases hw : w = t
  · subst hw
    cases h.record w with
    | raised _ hmem hno hnr hremoved hraised _ =>
      exact .closed (by simp [waits]) hmem (by rwa [howed])
        (by rw [hroused, hnr, ht]; simp) (hremoved.trans hraised.symm) hraised.le
        (fun _ => hraised)
    | filed _ _ _ _ _ _ hzero | taken _ _ _ _ _ _ hzero => exact absurd hzero hv
    | closed hpc => simp [ht, waits] at hpc
  · exact (h.record w).congr (by simp [hw]) .rfl (howed w) (hroused w) rfl rfl (by simp [hw])

theorem Kept.move (hg : s.Guarded) (hs : s.Move t s') : s'.Kept := by
  have hg' := hg.move hs
  cases hs with
  | queue hpc ho => exact h.queue hpc ho
  | pop hpc ho => exact h.pop hg hpc ho
  | @up w loop hpc hw =>
    cases loop <;> exact h.up hg hpc hg' rfl rfl rfl (by simp [hw, afterSignal,
      wakes]) (by simp [afterSignal])
  | upAsleep hpc hw =>
    exact h.up hg hpc hg' rfl rfl rfl (by simp [hw, wakes, eq_comm]) (by simp)
  | wake hpc hw => exact h.wake hg hpc hw
  | sleep hpc hv => exact h.sleep hpc hv
  | down hpc hv => exact h.down hpc hv
  | @raise wait hpc hm =>
    cases wait <;> exact h.quiet rfl rfl rfl rfl rfl (by rw [hpc]; rfl) (by rw [hpc]; rfl)
      (by rw [hpc]; rfl) (by simp [hpc, afterUnlock]) (by simp [afterUnlock])
  | @idle loop hpc _ =>
    cases loop <;> exact h.quiet rfl rfl rfl rfl rfl (by rw [hpc]; rfl) (by rw [hpc]; rfl)
      (by rw [hpc]; rfl) (by simp [hpc, afterSignal]) (by simp [afterSignal])
  | lock hpc _ | relock hpc _ | clear hpc _ | unlock hpc | wait hpc | signal hpc | broadcast hpc
  | done hpc _ | more hpc _ =>
    exact h.quiet rfl rfl rfl rfl rfl (by rw [hpc]; rfl) (by rw [hpc]; rfl) (by rw [hpc]; rfl)
      (by simp [hpc]) (by simp)

end

theorem kept_of_reachable (h : system.Reachable s) : s.Kept := by
  apply h.invariant
  · rintro s rfl
    refine ⟨nodup_nil, fun w => ?_⟩
    exact .closed rfl (by simp [condInit]) (by simp [Owed, condInit, owes])
      (by simp [Roused, condInit, wakes]) rfl (by simp [condInit]) (by simp [condInit])
  · intro s act s' hr hk hx
    exact hk.move (guarded_of_reachable hr) (exec_move hx)

end Condition

namespace CondPc

def broadcasts : CondPc → Bool
  | .signalling loop | .raising _ loop | .waking _ loop => loop
  | .broadcasting => true
  | _ => false

theorem inside_of_broadcasts {pc : CondPc} (h : pc.broadcasts = true) : pc.phase = .inside := by
  cases pc <;> first | rfl | cases h

end CondPc

namespace Condition

variable {s s' : Condition} {t u w : ThreadRef} {act : CondAct} {pc : CondPc}

theorem Move.pc_of_ne (hs : s.Move u s') (hut : t ≠ u) : s'.pc t = s.pc t ∨ s'.pc t = .testing := by
  cases hs with
  | @wake w =>
    by_cases htw : t = w
    · subst htw
      right
      simp [hut]
    · left
      simp [hut, htw]
  | _ =>
    left
    simp [hut]

theorem Move.of_outside (hs : s.Move u s') (hu : (s.pc u).phase ≠ .inside) (hut : t ≠ u) :
    s'.waiters = s.waiters ∧ s'.raised = s.raised ∧ s'.batch t = s.batch t ∧
      s'.released t = s.released t ∧ s'.pc t = s.pc t := by
  cases hs with
  | lock | relock | clear | raise | sleep | down => exact ⟨rfl, rfl, rfl, rfl, by simp [hut]⟩
  | unlock hpc | wait hpc | signal hpc | broadcast hpc | done hpc | more hpc | queue hpc
  | idle hpc | pop hpc | up hpc | upAsleep hpc | wake hpc => simp [hpc, phase] at hu

structure Batched (s : Condition) (t : ThreadRef) : Prop where
  nodup : (s.batch t).Nodup
  perm : (s.released t ++ s.waiters).Perm (s.batch t)
  raised : ∀ w ∈ s.released t, (s.pc t).owes = some w ∨ s.raised w = 1
  more : s.pc t = .signalling true → s.waiters ≠ []

section

variable (h : s.Batched t)
include h

theorem Batched.congr (hpc : s'.pc t = s.pc t) (hwaiters : s'.waiters = s.waiters)
    (hraised : s'.raised = s.raised) (hbatch : s'.batch t = s.batch t)
    (hreleased : s'.released t = s.released t) :
    s'.Batched t := by
  refine ⟨?_, ?_, ?_, ?_⟩
  · exact hbatch ▸ h.nodup
  · rw [hreleased, hwaiters, hbatch]
    exact h.perm
  · rw [hreleased, hpc, hraised]
    exact h.raised
  · rw [hpc, hwaiters]
    exact h.more

theorem Batched.pop {loop : Bool} {rest : List ThreadRef} (ht : s.pc t = .signalling loop)
    (ho : (w :: rest).Perm s.waiters) :
    ((s.take t w rest).goto t (.raising w loop)).Batched t := by
  refine ⟨h.nodup, ?_, ?_, by simp⟩
  · have hmove : (w :: s.released t ++ rest).Perm (s.released t ++ s.waiters) :=
      List.perm_middle.symm.trans (ho.append_left _)
    simpa using hmove.trans h.perm
  · intro v hv
    have hmem : v = w ∨ v ∈ s.released t := by simpa using hv
    rcases hmem with rfl | hmem
    · exact .inl (by simp [owes])
    · have hold := h.raised v hmem
      rw [ht] at hold
      exact .inr (hold.resolve_left (by simp [owes]))

theorem Batched.up {loop : Bool} (hk : s.Kept) (ht : s.pc t = .raising w loop)
    (hpc : pc ≠ .signalling true) :
    ((s.raise w).goto t pc).Batched t := by
  refine ⟨h.nodup, h.perm, ?_, by simpa using fun hp => absurd hp hpc⟩
  intro v hv
  right
  by_cases hvw : v = w
  · subst hvw
    cases hk.record v with
    | taken _ _ _ _ _ hraised => simp [hraised]
    | filed _ _ hno | raised _ _ hno | closed _ _ hno =>
      exact absurd ⟨t, by rw [ht]; rfl⟩ hno
  · have hold := h.raised v hv
    rw [ht] at hold
    simpa [hvw] using hold.resolve_left (by simp [owes, Ne.symm hvw])

theorem Batched.goto (ht : (s.pc t).owes = none)
    (hmore : s'.pc t = .signalling true → s.waiters ≠ []) (hwaiters : s'.waiters = s.waiters)
    (hraised : s'.raised = s.raised) (hbatch : s'.batch = s.batch)
    (hreleased : s'.released = s.released) : s'.Batched t := by
  refine ⟨hbatch ▸ h.nodup, ?_, ?_, ?_⟩
  · rw [hreleased, hwaiters, hbatch]
    exact h.perm
  · intro w hw
    have hold := h.raised w (hreleased ▸ hw)
    rw [ht] at hold
    exact .inr (hraised ▸ hold.resolve_left (by simp))
  · rw [hwaiters]
    exact hmore

theorem Batched.own_move (hk : s.Kept) (ht : (s.pc t).broadcasts = true) (hs : s.Move t s') :
    s'.Batched t := by
  cases hs with
  | done hpc _ => exact h.goto (by rw [hpc]; rfl) (by simp) rfl rfl rfl rfl
  | more hpc hw => exact h.goto (by rw [hpc]; rfl) (fun _ => hw) rfl rfl rfl rfl
  | @idle loop hpc _ | @wake _ loop hpc _ =>
    refine h.goto (by rw [hpc]; rfl) ?_ rfl rfl rfl rfl
    cases loop <;> simp [afterSignal]
  | pop hpc ho => exact h.pop hpc ho
  | @up _ loop hpc _ => exact h.up hk hpc (by cases loop <;> simp [afterSignal])
  | upAsleep hpc _ => exact h.up hk hpc (by simp)
  | clear hpc | queue hpc | lock hpc | relock hpc | raise hpc | unlock hpc | wait hpc | signal hpc
  | broadcast hpc | sleep hpc | down hpc => simp [hpc, broadcasts] at ht

end

theorem Move.opens (hs : s.Move t s') (ht : (s.pc t).broadcasts = false)
    (ht' : (s'.pc t).broadcasts = true) : s' = (s.openBatch t).goto t .broadcasting := by
  cases hs with
  | broadcast => rfl
  | @raise wait => cases wait <;> simp [afterUnlock, broadcasts] at ht'
  | @idle loop hpc | @up _ loop hpc | @wake _ loop hpc =>
    cases loop with
    | false => simp [afterSignal, broadcasts] at ht'
    | true => simp [hpc, broadcasts] at ht
  | pop hpc | upAsleep hpc | done hpc | more hpc =>
    simp_all [broadcasts]
  | _ => simp [broadcasts] at ht'

theorem batched_of_reachable (h : system.Reachable s) :
    ∀ t, (s.pc t).broadcasts = true → s.Batched t := by
  apply h.invariant
  · rintro s rfl t ht
    cases ht
  · intro s act s' hr hb hx t ht'
    have hg := guarded_of_reachable hr
    have hk := kept_of_reachable hr
    have hs := exec_move hx
    by_cases hown : t = act.thread
    · rw [← hown] at hs
      cases ht : (s.pc t).broadcasts with
      | true => exact (hb t ht).own_move hk ht hs
      | false =>
        rw [hs.opens ht ht']
        exact ⟨by simpa using hk.nodup, by simp, by simp, by simp⟩
    · have hsame : s'.pc t = s.pc t := by
        refine (hs.pc_of_ne hown).resolve_right fun htest => ?_
        simp [htest, broadcasts] at ht'
      have ht : (s.pc t).broadcasts = true := hsame ▸ ht'
      have hout : (s.pc act.thread).phase ≠ .inside := fun hin =>
        hown (hg.eq_of_inside (inside_of_broadcasts ht) hin)
      obtain ⟨hwaiters, hraised, hbatch, hreleased, hpc⟩ := hs.of_outside hout hown
      exact (hb t ht).congr hpc hwaiters hraised hbatch hreleased

def left (s : Condition) (t : ThreadRef) : Nat :=
  match s.pc t with
  | .broadcasting => 4 * s.waiters.length + 1
  | .signalling true => 4 * s.waiters.length
  | .raising _ true => 4 * s.waiters.length + 3
  | .waking _ true => 4 * s.waiters.length + 2
  | _ => 0

theorem left_congr (hpc : s'.pc t = s.pc t) (hwaiters : s'.waiters = s.waiters) :
    s'.left t = s.left t := by
  unfold left
  rw [hpc, hwaiters]

theorem Move.left_lt (hs : s.Move t s') (hb : s.Batched t) (ht : (s.pc t).broadcasts = true) :
    s'.pc t = .holding ∨ (s'.pc t).broadcasts = true ∧ s'.left t < s.left t := by
  cases hs with
  | done => exact .inl (by simp)
  | more hpc hw => exact .inr ⟨by simp [broadcasts], by simp [left, hpc]⟩
  | @idle loop hpc hw =>
    obtain rfl : loop = true := by simpa [hpc, broadcasts] using ht
    exact absurd hw (hb.more hpc)
  | @pop loop w rest hpc ho =>
    obtain rfl : loop = true := by simpa [hpc, broadcasts] using ht
    have hlen : rest.length + 1 = s.waiters.length := by simpa using ho.length_eq
    refine .inr ⟨by simp [broadcasts], ?_⟩
    simp only [left, hpc, goto_pc, Function.update_self, goto_waiters, take_waiters]
    omega
  | @up w loop hpc _ | @upAsleep w loop hpc _ | @wake w loop hpc _ =>
    obtain rfl : loop = true := by simpa [hpc, broadcasts] using ht
    exact .inr ⟨by simp [afterSignal, broadcasts],
      by simp [left, hpc, afterSignal]⟩
  | clear hpc | queue hpc | lock hpc | relock hpc | raise hpc | unlock hpc | wait hpc | signal hpc
  | broadcast hpc | sleep hpc | down hpc => simp [hpc, broadcasts] at ht

theorem left_step (hr : system.Reachable s) (ht : (s.pc t).broadcasts = true)
    (hx : s.exec act = some s') :
    s'.pc t = .holding ∨ (s'.pc t).broadcasts = true ∧ s'.left t ≤ s.left t ∧
      (act.thread = t → s'.left t < s.left t) := by
  have hg := guarded_of_reachable hr
  have hs := exec_move hx
  by_cases hown : t = act.thread
  · rw [← hown] at hs
    refine (hs.left_lt (batched_of_reachable hr t ht) ht).imp_right ?_
    rintro ⟨hstill, hlt⟩
    exact ⟨hstill, hlt.le, fun _ => hlt⟩
  · have hout : (s.pc act.thread).phase ≠ .inside := fun hin =>
      hown (hg.eq_of_inside (inside_of_broadcasts ht) hin)
    obtain ⟨hwaiters, _, _, _, hpc⟩ := hs.of_outside hout hown
    exact .inr ⟨hpc ▸ ht, (left_congr hpc hwaiters).le, fun heq => absurd heq.symm hown⟩

theorem exec_of_broadcasts (hk : s.Kept) (ht : (s.pc t).broadcasts = true) :
    ∃ act s', act.thread = t ∧ s.exec act = some s' := by
  cases hpc : s.pc t with
  | broadcasting | raising w loop => exact ⟨.go t, _, rfl, by simp only [exec, goStep, hpc]; rfl⟩
  | signalling loop =>
    cases hw : s.waiters with
    | nil => exact ⟨.order t [], _, rfl, by simp only [exec, orderStep, hpc, hw]; rfl⟩
    | cons w rest =>
      refine ⟨.order t (w :: rest), (s.take t w rest).goto t (.raising w loop), rfl, ?_⟩
      simp [exec, orderStep, hpc, hw]
  | waking w loop =>
    have hasleep : s.pc w = .asleep := by
      have hroused : s.Roused w := ⟨t, by rw [hpc]; rfl⟩
      cases hk.record w with
      | raised _ _ _ hiff => exact hiff.mp hroused
      | filed _ _ _ hno | taken _ _ _ hno | closed _ _ _ hno => exact absurd hroused hno
    exact ⟨.go t, _, rfl, by simp only [exec, goStep, hpc, hasleep]; rfl⟩
  | _ => simp [hpc, broadcasts] at ht

end Condition

end Pintos.Threads
