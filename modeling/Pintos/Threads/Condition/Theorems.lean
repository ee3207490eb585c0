import Pintos.Threads.Condition.Signals

namespace Pintos.Threads.Condition

variable {s s' : Condition} {t w : ThreadRef}

section

variable (hk : s.Kept)
include hk

theorem Kept.removed_of_mem (hw : w ∈ s.waiters) : s.removed w = 0 := by
  cases hk.record w with
  | filed _ _ _ _ hremoved => exact hremoved
  | taken _ hnot | raised _ hnot | closed _ hnot => exact absurd hw hnot

theorem Kept.raised_of_owed (hw : s.Owed w) : s.raised w = 0 ∧ s.value w = 0 := by
  cases hk.record w with
  | taken _ _ _ _ _ hraised hvalue => exact ⟨hraised, hvalue⟩
  | filed _ _ hno | raised _ _ hno | closed _ _ hno => exact absurd hw hno

theorem Kept.counts (w : ThreadRef) :
    s.raised w ≤ s.removed w ∧ s.removed w ≤ 1 ∧ (s.raised w < s.removed w → s.Owed w) := by
  cases hk.record w with
  | filed _ _ _ _ hremoved hraised | raised _ _ _ _ hremoved hraised
  | closed _ _ _ _ hremoved hraised => simp [hremoved, hraised]
  | taken _ _ howed _ hremoved hraised => simp [hremoved, hraised, howed]

theorem Kept.roused_of_raised (hw : s.raised w = 1) (hpc : s.pc w = .asleep) : s.Roused w := by
  cases hk.record w with
  | raised _ _ _ hiff => exact hiff.mpr hpc
  | filed _ _ _ _ _ hzero | taken _ _ _ _ _ hzero => cases hw.symm.trans hzero
  | closed hout => simp [hpc, CondPc.waits] at hout

theorem pops_of_signalling {loop : Bool} (ht : s.pc t = .signalling loop) (hw : s.waiters ≠ [])
    (hs : s.Move t s') :
    ∃ w, (w :: s'.waiters).Perm s.waiters ∧ s.removed w = 0 ∧ s'.removed w = 1 ∧
      s'.pc t = .raising w loop := by
  cases hs with
  | @pop _ w rest hpc ho =>
    cases ht.symm.trans hpc
    have hremoved := hk.removed_of_mem (ho.mem_iff.mp List.mem_cons_self)
    exact ⟨w, ho, hremoved, by simp [hremoved], by simp⟩
  | idle _ hnil => exact absurd hnil hw
  | lock hpc | relock hpc | clear hpc | raise hpc | unlock hpc | wait hpc | signal hpc
  | broadcast hpc | done hpc | more hpc | queue hpc | up hpc | upAsleep hpc | wake hpc | sleep hpc
  | down hpc => cases ht.symm.trans hpc

theorem raises_of_raising {loop : Bool} (ht : s.pc t = .raising w loop) :
    s.raised w = 0 ∧ ∃ s', s.exec (.go t) = some s' ∧ s'.raised w = 1 ∧ s'.value w = 1 := by
  obtain ⟨hraised, hvalue⟩ := hk.raised_of_owed ⟨t, by rw [ht]; rfl⟩
  refine ⟨hraised, _, by simp only [exec, goStep, ht]; rfl, ?_, ?_⟩
  · simp [hraised]
  · simp [hvalue]

theorem removed_of_down (ht : s.pc t = .testing) (hs : s.Move t s') (ht' : s'.pc t = .relocking) :
    s.removed t = 1 ∧ s.raised t = 1 := by
  have hvalue : s.value t ≠ 0 := by
    cases hs with
    | down _ hv => exact hv
    | sleep => simp at ht'
    | lock hpc | relock hpc | clear hpc | raise hpc | unlock hpc | wait hpc | signal hpc
    | broadcast hpc | done hpc | more hpc | queue hpc | idle hpc | pop hpc | up hpc | upAsleep hpc
    | wake hpc => cases ht.symm.trans hpc
  cases hk.record t with
  | raised _ _ _ _ hremoved hraised => exact ⟨hremoved, hraised⟩
  | filed _ _ _ _ _ _ hzero | taken _ _ _ _ _ _ hzero => exact absurd hzero hvalue
  | closed hpc => simp [ht, CondPc.waits] at hpc

end

theorem releases_of_broadcasting (hb : s.Batched t) (ht : s.pc t = .broadcasting)
    (hw : s.waiters = []) :
    (s.batch t).Nodup ∧ (s.released t).Perm (s.batch t) ∧ ∀ w ∈ s.batch t, s.raised w = 1 := by
  have hperm : (s.released t).Perm (s.batch t) := by simpa [hw] using hb.perm
  refine ⟨hb.nodup, hperm, fun w hmem => ?_⟩
  have hraised := hb.raised w (hperm.mem_iff.mpr hmem)
  rw [ht] at hraised
  exact hraised.resolve_left (by simp [CondPc.owes])

theorem returns_of_broadcasts {acts : List CondAct} (hr : system.Reachable s)
    (ht : (s.pc t).broadcasts = true) (htrace : system.Trace s acts s')
    (hturns : s.left t < acts.countP fun act => act.thread = t) :
    ∃ before after m, acts = before ++ after ∧ system.Trace s before m ∧ m.pc t = .holding := by
  refine Lib.System.Trace.reaches (fun s => system.Reachable s ∧ (s.pc t).broadcasts = true)
    (fun s => s.pc t = .holding) (fun act => act.thread = t) (fun s => s.left t) ?_ htrace
    ⟨hr, ht⟩ hturns
  rintro s act s' ⟨hr, ht⟩ hx
  refine (left_step hr ht hx).imp_right ?_
  rintro ⟨hstill, hle, hlt⟩
  exact ⟨⟨hr.next hx, hstill⟩, hle, fun hown => hlt (by simpa using hown)⟩

end Pintos.Threads.Condition
