import Pintos.Threads.SharedLock.Exclusion

namespace Pintos.Threads

open Function List SharedPc

namespace SharedPc

def attends : SharedPc → Bool
  | .testing _ | .granting _ | .signalling _ | .broadcasting | .raising _ _ => true
  | _ => false

def broadcasts : SharedPc → Bool
  | .signalling loop | .raising _ loop => loop
  | .broadcasting => true
  | _ => false

theorem inside_of_attends {pc : SharedPc} (h : pc.attends = true) : pc.phase = .inside := by
  cases pc <;> first | rfl | cases h

theorem inside_of_broadcasts {pc : SharedPc} (h : pc.broadcasts = true) : pc.phase = .inside := by
  cases pc <;> first | rfl | cases h

end SharedPc

theorem Mode.ne_zero_of_mustWait {i : Int} (mode : Mode) (h : mode.mustWait i = true) : i ≠ 0 := by
  cases mode with
  | exclusive => simpa [mustWait] using h
  | shared =>
    have hneg : i < 0 := by simpa [mustWait] using h
    omega

namespace SharedLock

variable {s s' : SharedLock} {t u w : ThreadRef} {act : SharedAct} {pc : SharedPc} {loop : Bool}
  {mode : Mode} {order : List ThreadRef}

structure Queued (s : SharedLock) : Prop where
  nodup : s.waiters.Nodup
  linked : ∀ t ∈ s.waiters, (s.pc t).waits ≠ none ∧ s.value t = 0
  popped : ∀ u w loop, s.pc u = .raising w loop →
    w ∉ s.waiters ∧ (s.pc w).waits ≠ none ∧ s.value w = 0

theorem Queued.not_mem (h : s.Queued) (ht : (s.pc t).waits = none) : t ∉ s.waiters :=
  fun hmem => (h.linked t hmem).1 ht

theorem Queued.moved (h : s.Queued) (hpc : s'.pc = update s.pc t pc)
    (hwaiters : s'.waiters = s.waiters) (hvalue : s'.value = s.value)
    (hwaits : pc.waits = (s.pc t).waits) (hraise : ∀ w loop, pc ≠ .raising w loop) :
    s'.Queued := by
  have hsame : ∀ u, (s'.pc u).waits = (s.pc u).waits := by
    intro u
    rw [hpc]
    by_cases hu : u = t
    · subst hu
      rw [update_self, hwaits]
    · rw [update_of_ne hu]
  refine ⟨hwaiters ▸ h.nodup, ?_, ?_⟩
  · intro u hu
    rw [hsame, hvalue]
    exact h.linked u (hwaiters ▸ hu)
  · intro u w loop hu
    rw [hsame, hvalue, hwaiters]
    by_cases hut : u = t
    · subst hut
      rw [hpc, update_self] at hu
      exact absurd hu (hraise w loop)
    · rw [hpc, update_of_ne hut] at hu
      exact h.popped u w loop hu

theorem Guarded.not_raising (hg : s.Guarded) (ht : (s.pc t).phase = .inside)
    (hu : u ≠ t) : s.pc u ≠ .raising w loop := by
  intro hpc
  exact hu (hg.eq_of_inside (by rw [hpc]; rfl) ht)

section

variable (h : s.Queued) (hg : s.Guarded)
include h hg

theorem Queued.queue (ht : s.pc t = .queueing mode) (ho : order.Perm (t :: s.waiters)) :
    (((s.setValue t 0).setWaiters order).goto t (.unlocking (some mode))).Queued := by
  have hnew : t ∉ s.waiters := h.not_mem (by rw [ht]; rfl)
  refine ⟨ho.nodup_iff.mpr (nodup_cons.mpr ⟨hnew, h.nodup⟩), ?_, ?_⟩
  · intro u hu
    by_cases hut : u = t
    · subst hut
      simp [waits]
    · have hmem : u ∈ s.waiters := (mem_cons.mp (ho.mem_iff.mp hu)).resolve_left hut
      simpa [hut] using h.linked u hmem
  · intro u w loop hu
    by_cases hut : u = t
    · subst hut
      simp at hu
    · rw [goto_pc, update_of_ne hut] at hu
      exact absurd hu (hg.not_raising (by rw [ht]; rfl) hut)

theorem Queued.pop {rest : List ThreadRef} (ht : s.pc t = .signalling loop)
    (ho : (w :: rest).Perm s.waiters) :
    ((s.setWaiters rest).goto t (.raising w loop)).Queued := by
  have hnodup := nodup_cons.mp (ho.nodup_iff.mpr h.nodup)
  have hold : ∀ u ∈ s.waiters, u ≠ t := by
    rintro u hu rfl
    exact h.not_mem (by rw [ht]; rfl) hu
  have hw : w ∈ s.waiters := ho.mem_iff.mp mem_cons_self
  refine ⟨hnodup.2, ?_, ?_⟩
  · intro u hu
    have hmem : u ∈ s.waiters := ho.mem_iff.mp (mem_cons_of_mem w hu)
    simpa [hold u hmem] using h.linked u hmem
  · intro u v other hu
    by_cases hut : u = t
    · subst hut
      simp only [goto_pc, update_self, raising.injEq] at hu
      obtain ⟨rfl, _⟩ := hu
      exact ⟨hnodup.1, by simpa [hold w hw] using h.linked w hw⟩
    · rw [goto_pc, update_of_ne hut] at hu
      exact absurd hu (hg.not_raising (by rw [ht]; rfl) hut)

theorem Queued.up (ht : s.pc t = .raising w loop) :
    ((s.setValue w (s.value w + 1)).goto t (.afterSignal loop)).Queued := by
  obtain ⟨hw, _, _⟩ := h.popped t w loop ht
  refine ⟨h.nodup, ?_, ?_⟩
  · intro u hu
    change u ∈ s.waiters at hu
    have hut : u ≠ t := by
      rintro rfl
      exact h.not_mem (by rw [ht]; rfl) hu
    have huw : u ≠ w := fun heq => hw (heq ▸ hu)
    simpa [hut, huw] using h.linked u hu
  · intro u v other hu
    by_cases hut : u = t
    · subst hut
      cases loop <;> simp [afterSignal] at hu
    · rw [goto_pc, update_of_ne hut] at hu
      exact absurd hu (hg.not_raising (by rw [ht]; rfl) hut)

end

theorem Queued.down (h : s.Queued) (ht : s.pc t = .waiting mode) (hv : 0 < s.value t) :
    ((s.setValue t (s.value t - 1)).goto t (.relocking mode)).Queued := by
  refine ⟨h.nodup, ?_, ?_⟩
  · intro u hu
    have hlinked := h.linked u hu
    have hut : u ≠ t := by
      rintro rfl
      omega
    simpa [hut] using hlinked
  · intro u w loop hu
    by_cases hut : u = t
    · subst hut
      simp at hu
    · rw [goto_pc, update_of_ne hut] at hu
      have hpopped := h.popped u w loop hu
      have hwt : w ≠ t := by
        rintro rfl
        omega
      simpa [hwt] using hpopped

theorem Queued.move (h : s.Queued) (hg : s.Guarded) (hs : s.Move t s') : s'.Queued := by
  cases hs with
  | @lock c hpc _ =>
    refine h.moved rfl rfl rfl ?_ ?_
    · rw [hpc]
      cases c <;> rfl
    · cases c <;> simp [SharedCall.body]
  | @raise wait hpc _ =>
    refine h.moved rfl rfl rfl ?_ ?_
    · rw [hpc]
      cases wait <;> rfl
    · cases wait <;> simp [afterUnlock]
  | unshare hpc | broadcast hpc =>
    refine h.moved rfl rfl rfl ?_ ?_
    · rw [hpc]
      split_ifs <;> rfl
    · intro w loop
      split_ifs <;> simp
  | @idle loop hpc _ =>
    refine h.moved rfl rfl rfl ?_ ?_
    · rw [hpc]
      cases loop <;> rfl
    · cases loop <;> simp [afterSignal]
  | queue hpc ho => exact h.queue hg hpc ho
  | pop hpc ho => exact h.pop hg hpc ho
  | up hpc => exact h.up hg hpc
  | down hpc hv => exact h.down hpc hv
  | call hpc | relock hpc | clear hpc | wait hpc | pass hpc | own hpc | share hpc | disown hpc =>
    exact h.moved rfl rfl rfl (by rw [hpc]; rfl) (by simp)

theorem queued_of_reachable (h : system.Reachable s) : s.Queued := by
  apply h.invariant
  · rintro s rfl
    exact ⟨nodup_nil, by simp [slockInit], by simp [slockInit]⟩
  · intro s act s' hr hq hx
    obtain ⟨t, hs⟩ := exec_move hx
    exact hq.move (guarded_of_reachable hr) hs

def signalled (s : SharedLock) (t : ThreadRef) : Prop :=
  (∃ mode, s.pc t = .relocking mode) ∨ ((s.pc t).waits ≠ none ∧ 0 < s.value t)

def Attended (s : SharedLock) : Prop :=
  s.i = 0 → s.waiters ≠ [] → (∃ t, s.signalled t) ∨ ∃ t, (s.pc t).attends = true

def Drained (s : SharedLock) : Prop :=
  ∀ t ∈ s.waiters, (s.pc t).waits = some .shared → s.i < 0 ∨ ∃ u, (s.pc u).broadcasts = true

theorem signalled.congr (h : s.signalled t) (hpc : s'.pc t = s.pc t)
    (hvalue : s'.value t = s.value t) : s'.signalled t := by
  unfold signalled
  rw [hpc, hvalue]
  exact h

theorem Attended.of_ne (hi : s.i ≠ 0) : s.Attended := fun hz => absurd hz hi

theorem Attended.of_nil (hw : s.waiters = []) : s.Attended := fun _ hne => absurd hw hne

theorem Attended.of_attends (hpc : s'.pc = update s.pc t pc) (ha : pc.attends = true) :
    s'.Attended := by
  intro _ _
  refine .inr ⟨t, ?_⟩
  rw [hpc, update_self]
  exact ha

theorem Attended.moved (h : s.Attended) (hpc : s'.pc = update s.pc t pc) (hi : s'.i = s.i)
    (hwaiters : s'.waiters = s.waiters) (hvalue : ∀ u ≠ t, s'.value u = s.value u)
    (hsignalled : s.signalled t → s'.signalled t ∨ pc.attends = true)
    (hattends : (s.pc t).attends = true → pc.attends = true) : s'.Attended := by
  intro hz hne
  rcases h (hi ▸ hz) (hwaiters ▸ hne) with ⟨u, hu⟩ | ⟨u, hu⟩
  · by_cases hut : u = t
    · subst hut
      rcases hsignalled hu with hs | ha
      · exact .inl ⟨u, hs⟩
      · exact Attended.of_attends hpc ha hz hne
    · exact .inl ⟨u, hu.congr (by rw [hpc, update_of_ne hut]) (hvalue u hut)⟩
  · by_cases hut : u = t
    · subst hut
      exact Attended.of_attends hpc (hattends hu) hz hne
    · refine .inr ⟨u, ?_⟩
      rw [hpc, update_of_ne hut]
      exact hu

theorem Attended.up (hq : s.Queued) (ht : s.pc t = .raising w loop) :
    ((s.setValue w (s.value w + 1)).goto t (.afterSignal loop)).Attended := by
  obtain ⟨_, hwaits, _⟩ := hq.popped t w loop ht
  have hwt : w ≠ t := by
    rintro rfl
    rw [ht] at hwaits
    exact hwaits rfl
  intro _ _
  exact .inl ⟨w, .inr (by simpa [hwt] using hwaits)⟩

theorem Counted.ne_zero_of_queueing (h : s.Counted) (ht : s.pc t = .queueing mode) : s.i ≠ 0 := by
  have he := h.entitled t
  rw [ht] at he
  exact mode.ne_zero_of_mustWait he

theorem Attended.move (h : s.Attended) (hc : s.Counted) (hq : s.Queued) (hs : s.Move t s') :
    s'.Attended := by
  cases hs with
  | call hpc | lock hpc =>
    refine h.moved rfl rfl rfl (fun _ _ => rfl) ?_ ?_
    · simp [signalled, hpc, waits]
    · simp [hpc, attends]
  | relock | pass | disown | pop => exact .of_attends rfl rfl
  | clear hpc =>
    refine h.moved rfl rfl rfl (fun _ _ => rfl) (fun hsig => .inl ?_) ?_
    · simpa [signalled, hpc, waits] using hsig
    · simp [hpc, attends]
  | @raise wait hpc =>
    refine h.moved rfl rfl rfl (fun _ _ => rfl) (fun hsig => .inl ?_) ?_
    · cases wait with
      | none => simp [signalled, hpc, waits] at hsig
      | some mode => simpa [signalled, hpc, waits, afterUnlock] using hsig
    · simp [hpc, attends]
  | @wait mode _ hi => exact .of_ne (mode.ne_zero_of_mustWait hi)
  | own => exact .of_ne (by simp)
  | share hpc =>
    have hi := hc.zero_le_i hpc
    exact .of_ne (by simp only [goto_i, setShared_i]; omega)
  | unshare =>
    by_cases hz : s.i - 1 = 0
    · exact .of_attends rfl (by rw [if_pos hz]; rfl)
    · exact .of_ne hz
  | queue hpc => exact .of_ne (hc.ne_zero_of_queueing hpc)
  | broadcast =>
    by_cases hw : s.waiters = []
    · exact .of_nil hw
    · exact .of_attends rfl (by rw [if_neg hw]; rfl)
  | idle _ hw => exact .of_nil hw
  | up hpc => exact .up hq hpc
  | @down mode hpc _ =>
    refine h.moved rfl rfl rfl (fun u hu => update_of_ne hu _ _) (fun _ => .inl ?_) ?_
    · exact .inl ⟨mode, update_self ..⟩
    · simp [hpc, attends]

theorem Drained.of_neg (hi : s.i < 0) : s.Drained := fun _ _ _ => .inl hi

theorem Drained.of_broadcasts (hpc : s'.pc = update s.pc t pc)
    (hb : pc.broadcasts = true) : s'.Drained := by
  intro _ _ _
  refine .inr ⟨t, ?_⟩
  rw [hpc, update_self]
  exact hb

theorem Drained.moved (h : s.Drained) (hpc : s'.pc = update s.pc t pc)
    (hi : s'.i = s.i) (hwaiters : ∀ u ∈ s'.waiters, u ∈ s.waiters)
    (hwaits : pc.waits = some .shared → (s.pc t).waits = some .shared)
    (hbroadcasts : (s.pc t).broadcasts = true → pc.broadcasts = true) : s'.Drained := by
  intro u hu hshared
  have hold : (s.pc u).waits = some .shared := by
    rw [hpc] at hshared
    by_cases hut : u = t
    · subst hut
      exact hwaits (by simpa using hshared)
    · simpa [hut] using hshared
  rcases h u (hwaiters u hu) hold with hneg | ⟨v, hv⟩
  · exact .inl (hi ▸ hneg)
  · by_cases hvt : v = t
    · subst hvt
      exact Drained.of_broadcasts hpc (hbroadcasts hv) u hu hshared
    · refine .inr ⟨v, ?_⟩
      rw [hpc, update_of_ne hvt]
      exact hv

section

variable (h : s.Drained) (hg : s.Guarded)
include h hg

theorem Drained.neg_of_inside (ht : (s.pc t).phase = .inside) (hb : (s.pc t).broadcasts = false)
    (hu : u ∈ s.waiters) (hshared : (s.pc u).waits = some .shared) : s.i < 0 := by
  rcases h u hu hshared with hneg | ⟨v, hv⟩
  · exact hneg
  · rw [hg.eq_of_inside (inside_of_broadcasts hv) ht, hb] at hv
    cases hv

theorem Drained.counted (ht : (s.pc t).phase = .inside) (hb : (s.pc t).broadcasts = false)
    (hi : 0 ≤ s.i) (hpc : s'.pc = update s.pc t pc) (hwaiters : s'.waiters = s.waiters)
    (hwaits : pc.waits = none) : s'.Drained := by
  intro u hu hshared
  rw [hpc] at hshared
  have hut : u ≠ t := by
    rintro rfl
    rw [update_self, hwaits] at hshared
    cases hshared
  rw [update_of_ne hut] at hshared
  have hneg := h.neg_of_inside hg ht hb (hwaiters ▸ hu) hshared
  omega

theorem Drained.queue (hc : s.Counted)
    (ht : s.pc t = .queueing mode) (ho : order.Perm (t :: s.waiters)) :
    (((s.setValue t 0).setWaiters order).goto t (.unlocking (some mode))).Drained := by
  intro u hu hshared
  refine .inl ?_
  by_cases hut : u = t
  · subst hut
    have he := hc.entitled u
    simp only [goto_pc, update_self, waits, Option.some.injEq] at hshared
    rw [ht, hshared] at he
    simpa [Entitled, Mode.mustWait] using he
  · have hmem : u ∈ s.waiters := (mem_cons.mp (ho.mem_iff.mp hu)).resolve_left hut
    rw [goto_pc, update_of_ne hut] at hshared
    exact h.neg_of_inside hg (by rw [ht]; rfl) (by rw [ht]; rfl) hmem hshared

theorem Drained.move (hc : s.Counted) (hs : s.Move t s') : s'.Drained := by
  cases hs with
  | @lock c hpc _ =>
    refine h.moved rfl rfl (fun _ hu => hu) ?_ ?_
    · cases c <;> simp [SharedCall.body, waits]
    · simp [hpc, broadcasts]
  | clear hpc =>
    refine h.moved rfl rfl (fun _ hu => hu) ?_ ?_
    · simp [hpc, waits]
    · simp [hpc, broadcasts]
  | @raise wait hpc _ =>
    refine h.moved rfl rfl (fun _ hu => hu) ?_ ?_
    · cases wait <;> simp [hpc, waits, afterUnlock]
    · simp [hpc, broadcasts]
  | own => exact .of_neg (by simp)
  | share hpc =>
    exact h.counted hg (by rw [hpc]; rfl) (by rw [hpc]; rfl) (hc.zero_le_i hpc) rfl rfl rfl
  | disown => exact .of_broadcasts rfl rfl
  | unshare hpc =>
    obtain ⟨_, _, hi⟩ := hc.mem_sharers hpc
    refine h.counted hg (by rw [hpc]; rfl) (by rw [hpc]; rfl) (by omega) rfl rfl ?_
    split_ifs <;> rfl
  | queue hpc ho => exact h.queue hg hc hpc ho
  | broadcast =>
    by_cases hw : s.waiters = []
    · intro u hu
      rw [goto_waiters, hw] at hu
      cases hu
    · exact .of_broadcasts rfl (by rw [if_neg hw]; rfl)
  | @idle loop hpc _ | @up w loop hpc =>
    refine h.moved rfl rfl (fun _ hu => hu) ?_ ?_
    · cases loop <;> simp [waits, afterSignal]
    · cases loop <;> simp [hpc, broadcasts, afterSignal]
  | @pop loop w rest hpc ho =>
    refine h.moved rfl rfl (fun u hu => ho.mem_iff.mp (mem_cons_of_mem w hu)) ?_ ?_
    · simp [waits]
    · simp [hpc, broadcasts]
  | call hpc | relock hpc | wait hpc | pass hpc | down hpc =>
    refine h.moved rfl rfl (fun _ hu => hu) ?_ ?_
    · simp [waits]
    · simp [hpc, broadcasts]

end

theorem attended_of_reachable (h : system.Reachable s) : s.Attended := by
  apply h.invariant
  · rintro s rfl
    exact .of_nil rfl
  · intro s act s' hr ha hx
    obtain ⟨t, hs⟩ := exec_move hx
    exact ha.move (counted_of_reachable hr) (queued_of_reachable hr) hs

theorem drained_of_reachable (h : system.Reachable s) : s.Drained := by
  apply h.invariant
  · rintro s rfl t ht
    cases ht
  · intro s act s' hr hd hx
    obtain ⟨t, hs⟩ := exec_move hx
    exact hd.move (guarded_of_reachable hr) (counted_of_reachable hr) hs

theorem no_lost_wakeup (h : system.Reachable s) (hfree : ∀ t, s.slock ≠ .held t) :
    (s.i = 0 → s.waiters ≠ [] → ∃ t, s.signalled t) ∧
    (0 ≤ s.i → ∀ t ∈ s.waiters, (s.pc t).waits ≠ some .shared) := by
  have hout : ∀ t, (s.pc t).phase ≠ .inside :=
    fun t hin => hfree t ((guarded_of_reachable h).held hin)
  refine ⟨fun hz hne => ?_, fun hi t ht hshared => ?_⟩
  · rcases attended_of_reachable h hz hne with hsig | ⟨t, ht⟩
    · exact hsig
    · exact absurd (inside_of_attends ht) (hout t)
  · rcases drained_of_reachable h t ht hshared with hneg | ⟨u, hu⟩
    · omega
    · exact absurd (inside_of_broadcasts hu) (hout u)

-- Threads 2 and 3 wait for exclusive access; the only reader leaves and has woken
-- thread 2, which has not run yet.
theorem no_lost_wakeup_two_writers :
    ∃ s, system.Reachable s ∧ s.slock = .free ∧ s.i = 0 ∧ s.waiters = [3] ∧
      (∃ t, s.signalled t) ∧ ∀ t ∈ s.waiters, (s.pc t).waits ≠ some .shared := by
  obtain ⟨s, hs, hp⟩ := Lib.System.exists_of_leadsTo slockInit exec
    [.call 1 (.acquire .shared), .go 1, .go 1, .go 1, .go 1, .go 1,
      .call 2 (.acquire .exclusive), .go 2, .go 2, .order 2 [2], .go 2, .go 2,
      .call 3 (.acquire .exclusive), .go 3, .go 3, .order 3 [3, 2], .go 3, .go 3,
      .call 1 (.release .shared), .go 1, .go 1, .order 1 [2, 3], .go 1, .go 1, .go 1]
    (fun s => decide (s.slock = .free ∧ s.i = 0 ∧ s.waiters = [3])) (by decide +kernel)
  obtain ⟨hm, hi, hw⟩ := of_decide_eq_true hp
  obtain ⟨hsig, hshared⟩ := no_lost_wakeup hs (by simp [hm])
  exact ⟨s, hs, hm, hi, hw, hsig hi (by simp [hw]), hshared (by omega)⟩

end SharedLock

end Pintos.Threads
