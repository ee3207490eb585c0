import Pintos.Devices.Intq

namespace Pintos.Devices

open Function Lib Except List
open Threads (ThreadRef)

def IntqPc.queues : IntqPc → Bool
  | .locking _ | .relocking _ => true
  | _ => false

namespace Intq

variable {q q' : Intq} {t u w : ThreadRef} {call : IntqCall} {side : IntqSide} {act : IntqAct}
  {pick : Nat}

structure Inv (q : Intq) : Prop where
  head : q.head < intqBufsize
  tail : q.tail < intqBufsize
  held : ∀ t, q.lock = some t ↔ (q.pc t).holds = true
  registered : ∀ side t, q.waiter side = some t ↔
    ∃ call : IntqCall, call.side = side ∧ q.pc t = .waiting call
  queued : ∀ t ∈ q.lockWaiters, ∃ call, q.pc t = .locking call
  nodup : q.lockWaiters.Nodup

def Quiet (q q' : Intq) : Prop := ∀ t, (q'.pc t).queues = true → (q.pc t).queues = true

theorem Quiet.trans {r : Intq} (h : q.Quiet q') (h' : q'.Quiet r) : q.Quiet r :=
  fun t ht => h t (h' t ht)

theorem quiet_goto {pc : IntqPc} (h : pc.queues = true → (q.pc t).queues = true) :
    q.Quiet (q.goto t pc) := by
  intro u hu
  rw [goto_pc] at hu
  by_cases hut : u = t
  · subst hut
    rw [update_self] at hu
    exact h hu
  · rwa [update_of_ne hut] at hu

theorem Inv.not_waiting (h : q.Inv) (hl : q.lock = none) (side : IntqSide) :
    q.waiter side = none := by
  by_contra hne
  obtain ⟨w, hw⟩ := Option.ne_none_iff_exists'.mp hne
  obtain ⟨call, -, hpc⟩ := (h.registered side w).mp hw
  have hheld := (h.held w).mpr (by rw [hpc]; rfl)
  rw [hl] at hheld
  cases hheld

theorem Inv.ring {q' : Intq} (h : q.Inv) (hhead : q'.head < intqBufsize)
    (htail : q'.tail < intqBufsize) (hl : q'.lock = q.lock) (hw : q'.waiter = q.waiter)
    (hq : q'.lockWaiters = q.lockWaiters) (hpc : q'.pc = q.pc) : q'.Inv where
  head := hhead
  tail := htail
  held := by rw [hl, hpc]; exact h.held
  registered := by rw [hw, hpc]; exact h.registered
  queued := by rw [hq, hpc]; exact h.queued
  nodup := by rw [hq]; exact h.nodup

theorem assert_true : assert true = .ok () := rfl

theorem Inv.waiting_side (h : q.Inv) (hw : q.waiter side = some t) (hpc : q.pc t = .waiting call) :
    call.side = side := by
  obtain ⟨other, hside, hother⟩ := (h.registered side t).mp hw
  rw [hpc] at hother
  cases hother
  exact hside

-- A change that concerns no thread but t.
theorem Inv.change (h : q.Inv) (t : ThreadRef) (hring : q'.head = q.head ∧ q'.tail = q.tail)
    (hother : ∀ u ≠ t, q'.pc u = q.pc u ∧ (q'.lock = some u ↔ q.lock = some u) ∧
      (∀ side, q'.waiter side = some u ↔ q.waiter side = some u) ∧
      (u ∈ q'.lockWaiters → u ∈ q.lockWaiters))
    (hheld : q'.lock = some t ↔ (q'.pc t).holds = true)
    (hreg : ∀ side, q'.waiter side = some t ↔
      ∃ call : IntqCall, call.side = side ∧ q'.pc t = .waiting call)
    (hqueued : t ∈ q'.lockWaiters → ∃ call, q'.pc t = .locking call)
    (hnodup : q'.lockWaiters.Nodup) : q'.Inv where
  head := hring.1 ▸ h.head
  tail := hring.2 ▸ h.tail
  held u := by
    by_cases hu : u = t
    · exact hu ▸ hheld
    · rw [(hother u hu).1, (hother u hu).2.1, h.held]
  registered side u := by
    by_cases hu : u = t
    · exact hu ▸ hreg side
    · rw [(hother u hu).1, (hother u hu).2.2.1, h.registered]
  queued u hm := by
    by_cases hu : u = t
    · subst hu
      exact hqueued hm
    · rw [(hother u hu).1]
      exact h.queued u ((hother u hu).2.2.2 hm)
  nodup := hnodup

theorem Inv.not_mem_lockWaiters (h : q.Inv) (hpc : ∀ call, q.pc t ≠ .locking call) :
    t ∉ q.lockWaiters := by
  intro ht
  obtain ⟨call, hcall⟩ := h.queued t ht
  exact hpc call hcall

theorem signal_ok (h : q.Inv) (ha : q.awaits side = false) :
    ∃ q', q.signal side = .ok q' ∧ q'.Inv ∧ q.Quiet q' := by
  unfold signal
  rw [ha]
  match hw : q.waiter side with
  | none => exact ⟨q, rfl, h, fun _ => id⟩
  | some w =>
    obtain ⟨call, hside, hpc⟩ := (h.registered side w).mp hw
    refine ⟨(q.goto w (.woken call)).setWaiter side none, ?_, ?_, quiet_goto nofun⟩
    · simp only [hpc, Bool.not_false, assert_true, bind]
      rfl
    · have hlock : q.lock = some w := (h.held w).mpr (by rw [hpc]; rfl)
      refine h.change w ⟨rfl, rfl⟩ (fun u hu => ⟨by simp [hu], Iff.rfl, fun other => ?_, id⟩)
        (by simp [hlock, IntqPc.holds]) (fun other => ?_)
        (fun hm => absurd hm (h.not_mem_lockWaiters (by simp [hpc]))) h.nodup
      · by_cases ho : other = side
        · subst ho
          simp [hw, Ne.symm hu]
        · simp [ho]
      · have hnone : update q.waiter side none other ≠ some w := by
          by_cases ho : other = side
          · simp [ho]
          · rw [update_of_ne ho]
            exact fun hother => ho ((h.waiting_side hother hpc).symm.trans hside)
        exact iff_of_false hnone (by simp)

theorem next_lt (pos : Nat) : next pos < intqBufsize := Nat.mod_lt _ (by decide)

theorem transfer_ok (h : q.Inv) (ha : q.awaits call.side = false) :
    ∃ q' byte, q.transfer call = .ok (q', byte) ∧ q'.Inv ∧ q.Quiet q' := by
  have hhead := h.head
  have htail := h.tail
  cases call with
  | getc =>
    have hne : q.head ≠ q.tail := by simpa [awaits, IntqCall.side, intqEmpty] using ha
    have hinv : Inv { q with tail := next q.tail } := h.ring h.head (next_lt _) rfl rfl rfl rfl
    have hfull : ({ q with tail := next q.tail } : Intq).awaits .notFull = false := by
      refine decide_eq_false ?_
      simp only [next, intqBufsize] at hhead htail ⊢
      omega
    obtain ⟨q', hs, hinv', hquiet⟩ := signal_ok hinv hfull
    refine ⟨q', some (q.buf q.tail), ?_, hinv', hquiet⟩
    simp only [transfer, hs, bind]
    rfl
  | putc byte =>
    have hne : next q.head ≠ q.tail := by simpa [awaits, IntqCall.side, intqFull] using ha
    have hinv : Inv { q with buf := update q.buf q.head byte, head := next q.head } :=
      h.ring (next_lt _) h.tail rfl rfl rfl rfl
    have hempty : ({ q with buf := update q.buf q.head byte
                            head := next q.head } : Intq).awaits .notEmpty = false := by
      simpa [awaits, intqEmpty] using hne
    obtain ⟨q', hs, hinv', hquiet⟩ := signal_ok hinv hempty
    refine ⟨q', none, ?_, hinv', hquiet⟩
    simp only [transfer, hs, bind]
    rfl

theorem Inv.park {pc : IntqPc} {waiters : List ThreadRef} (h : q.Inv)
    (hold : (q.pc t).holds = false) (hnew : pc.holds = false)
    (hsub : ∀ u ≠ t, u ∈ waiters → u ∈ q.lockWaiters)
    (hq : t ∈ waiters → ∃ call, pc = .locking call) (hn : waiters.Nodup) :
    Inv { q with lockWaiters := waiters, pc := update q.pc t pc } := by
  refine h.change t ⟨rfl, rfl⟩
    (fun u hu => ⟨update_of_ne hu .., Iff.rfl, fun _ => Iff.rfl, hsub u hu⟩) ?_ (fun side => ?_)
    (by simpa using hq) hn
  · simp [h.held, hold, hnew]
  · simp only [update_self, h.registered side t]
    constructor
    · rintro ⟨other, -, hother⟩
      rw [hother] at hold
      cases hold
    · rintro ⟨other, -, rfl⟩
      cases hnew

theorem Inv.unlock (h : q.Inv) (hpc : q.pc t = .woken call) :
    ((q.goto t .outside).setLock none).Inv := by
  have hlock : q.lock = some t := (h.held t).mpr (by rw [hpc]; rfl)
  refine h.change t ⟨rfl, rfl⟩
    (fun u hu => ⟨update_of_ne hu .., by simp [hlock, Ne.symm hu], fun _ => Iff.rfl, id⟩)
    (by simp [IntqPc.holds]) (fun side => ?_)
    (fun hm => absurd hm (h.not_mem_lockWaiters (by simp [hpc]))) h.nodup
  simp [h.registered side t, hpc]

theorem lockDown_ok (h : q.Inv) (hpc : q.pc t = .outside)
    (ha : q.lock = none → q.awaits call.side = true) :
    ∃ q', q.lockDown t call = .ok q' ∧ q'.Inv ∧ (q.lock = none → q.Quiet q') := by
  unfold lockDown
  split_ifs with hl
  · refine ⟨((q.setLock (some t)).setWaiter call.side (some t)).goto t (.waiting call), ?_, ?_,
      fun _ => quiet_goto nofun⟩
    · unfold wait
      rw [show (q.setLock (some t)).awaits call.side = true from ha hl]
      rfl
    · refine h.change t ⟨rfl, rfl⟩ (fun u hu => ⟨update_of_ne hu .., ?_, fun side => ?_, id⟩)
        (by simp [IntqPc.holds]) (fun side => ?_)
        (fun hm => absurd hm (h.not_mem_lockWaiters (by simp [hpc]))) h.nodup
      · simp [hl, Ne.symm hu]
      · by_cases hs : side = call.side
        · simp [hs, h.not_waiting hl, Ne.symm hu]
        · simp [hs]
      · by_cases hs : side = call.side
        · simp [hs]
        · simp [hs, h.not_waiting hl, Ne.symm hs]
  · refine ⟨q.enqueue t call, rfl, ?_, fun hn => absurd hn hl⟩
    have hnot : t ∉ q.lockWaiters := h.not_mem_lockWaiters (by simp [hpc])
    exact h.park (by rw [hpc]; rfl) rfl (fun u hu hm => (mem_cons.mp hm).resolve_left hu)
      (fun _ => ⟨call, rfl⟩) (nodup_cons.mpr ⟨hnot, h.nodup⟩)

theorem lockRelease_ok (h : q.Inv) (hpc : q.pc t = .woken call) (pick : Nat) :
    ∃ q', (q.goto t .outside).lockRelease t pick = .ok q' ∧ q'.Inv ∧ q.Quiet q' ∧
      q'.pc t = .outside ∧ q'.lock = none := by
  have hlock : q.lock = some t := (h.held t).mpr (by rw [hpc]; rfl)
  have hunlocked := h.unlock hpc
  have hquiet : q.Quiet ((q.goto t .outside).setLock none) := quiet_goto nofun
  unfold lockRelease
  rw [show decide ((q.goto t .outside).lock = some t) = true from decide_eq_true hlock]
  simp only [assert_true, bind]
  match hpick : ((q.goto t .outside).setLock none).lockWaiters[pick]? with
  | none => exact ⟨_, rfl, hunlocked, hquiet, update_self .., rfl⟩
  | some w =>
    have hw : w ∈ q.lockWaiters := mem_of_getElem? hpick
    obtain ⟨other, hother⟩ := hunlocked.queued w hw
    have hwt : t ≠ w := by
      rintro rfl
      simp at hother
    simp only [hother]
    refine ⟨_, rfl, ?_, ?_, ?_, rfl⟩
    · obtain ⟨hi, hget⟩ := List.getElem?_eq_some_iff.mp hpick
      have herase := hunlocked.nodup.erase_getElem pick hi
      rw [hget] at herase
      exact hunlocked.park (by rw [hother]; rfl) rfl
        (fun u _ hu => mem_of_mem_eraseIdx hu)
        (fun hw => absurd (herase ▸ hw) h.nodup.not_mem_erase)
        (h.nodup.sublist (eraseIdx_sublist ..))
    · refine hquiet.trans (quiet_goto (q := (q.goto t .outside).setLock none) fun _ => ?_)
      rw [hother]
      rfl
    · simp [hwt]

theorem loop_ok (h : q.Inv) (hpc : q.pc t = .outside) (call : IntqCall) :
    ∃ q' byte, q.loop t call = .ok (q', byte) ∧ q'.Inv ∧
      ((q.awaits call.side = true → q.lock = none) → q.Quiet q') := by
  unfold loop
  split_ifs with ha
  · obtain ⟨q', hdown, hinv, hquiet⟩ := lockDown_ok h hpc fun _ => ha
    have hnot : q.lock ≠ some t := by
      rw [ne_eq, h.held t, hpc]
      nofun
    refine ⟨q', none, ?_, hinv, fun hfree => hquiet (hfree ha)⟩
    simp only [lockAcquire, hnot, ne_eq, not_false_eq_true, decide_true, assert_true, hdown, bind,
      bind]
    rfl
  · obtain ⟨q', byte, htransfer, hinv, hquiet⟩ := transfer_ok h (Bool.not_eq_true _ ▸ ha)
    exact ⟨q', byte, htransfer, hinv, fun _ => hquiet⟩

def Late (q : Intq) (act : IntqAct) : Prop :=
  ∃ t pick call, act = .resume t pick ∧ q.pc t = .relocking call ∧ q.lock = none ∧
    q.awaits call.side = false

def LockFree (q : Intq) : IntqAct → Prop
  | .call _ call => q.awaits call.side = true → q.lock = none
  | .resume _ _ | .interrupt _ => True

instance (q : Intq) : DecidablePred q.LockFree
  | .call _ _ => inferInstanceAs (Decidable (_ → _))
  | .resume _ _ | .interrupt _ => inferInstanceAs (Decidable True)

theorem step_eq_some (h : q.step act = some q') :
    q.Enabled act ∧ ∃ byte, q.exec act = .ok (q', byte) := by
  unfold step at h
  split_ifs at h with he
  match hx : q.exec act with
  | .error _ =>
    rw [hx] at h
    cases h
  | .ok (r, byte) =>
    rw [hx] at h
    cases h
    exact ⟨he, byte, rfl⟩

theorem exec_ok (h : q.Inv) (he : q.Enabled act) (hl : ¬ q.Late act) :
    ∃ q' byte, q.exec act = .ok (q', byte) ∧ q'.Inv ∧
      (q.LockFree act → (∀ t, (q.pc t).queues = false) → q.Quiet q') := by
  match act with
  | .call t call =>
    obtain ⟨q', byte, hloop, hinv, hquiet⟩ := loop_ok h he call
    exact ⟨q', byte, hloop, hinv, fun hfree _ => hquiet hfree⟩
  | .interrupt call =>
    obtain ⟨q', byte, htransfer, hinv, hquiet⟩ := transfer_ok h he
    refine ⟨q', byte, ?_, hinv, fun _ _ => hquiet⟩
    simp only [exec, show q.awaits call.side = false from he, Bool.not_false, assert_true, bind,
      bind]
    exact htransfer
  | .resume t pick =>
    match hpc : q.pc t with
    | .outside | .locking _ | .waiting _ =>
      have hblocked := he.1
      rw [hpc] at hblocked
      cases hblocked
    | .woken call =>
      obtain ⟨q1, hrelease, hinv1, hquiet1, hpc1, hlock1⟩ := lockRelease_ok h hpc pick
      obtain ⟨q', byte, hloop, hinv, hquiet⟩ := loop_ok hinv1 hpc1 call
      refine ⟨q', byte, ?_, hinv, fun _ _ => hquiet1.trans (hquiet fun _ => hlock1)⟩
      simp only [exec, hpc, hrelease, bind]
      exact hloop
    | .relocking call =>
      have hout : (q.goto t .outside).Inv :=
        h.park (by rw [hpc]; rfl) rfl (fun _ _ hm => hm)
          (fun hm => absurd hm (h.not_mem_lockWaiters (by simp [hpc]))) h.nodup
      have hstill : q.lock = none → q.awaits call.side = true := by
        intro hlock
        by_contra ha
        exact hl ⟨t, pick, call, rfl, hpc, hlock, Bool.not_eq_true _ ▸ ha⟩
      obtain ⟨q', hdown, hinv, -⟩ := lockDown_ok hout (update_self ..) hstill
      refine ⟨q', none, ?_, hinv, fun _ hnone => ?_⟩
      · simp only [exec, hpc, hdown, bind]
        rfl
      · have hqueues := hnone t
        rw [hpc] at hqueues
        cases hqueues

theorem exec_late (hl : q.Late act) : q.exec act = .error .assertion := by
  obtain ⟨t, pick, call, rfl, hpc, hlock, ha⟩ := hl
  have hfree : (q.goto t .outside).lock = none := hlock
  have hnot : ((q.goto t .outside).setLock (some t)).awaits call.side = false := ha
  simp only [exec, hpc, lockDown, if_pos hfree, wait, hnot, bind]
  rfl

theorem inv_init : intqInit.Inv := by
  refine ⟨by decide, by decide, fun t => ?_, fun side t => ?_, nofun, nodup_nil⟩
  · simp [intqInit, IntqPc.holds]
  · simp [intqInit]

theorem step_ok (h : q.Inv) (hs : q.step act = some q') :
    q'.Inv ∧ (q.LockFree act → (∀ t, (q.pc t).queues = false) → q.Quiet q') := by
  obtain ⟨he, byte, hx⟩ := step_eq_some hs
  have hl : ¬ q.Late act := by
    intro hl
    rw [exec_late hl] at hx
    cases hx
  obtain ⟨q1, byte1, hx1, hinv, hquiet⟩ := exec_ok h he hl
  rw [hx] at hx1
  obtain ⟨rfl, -⟩ := Prod.mk.inj (ok.inj hx1)
  exact ⟨hinv, hquiet⟩

theorem inv_of_reachable (h : system.Reachable q) : q.Inv := by
  apply h.invariant
  · rintro q rfl
    exact inv_init
  · intro q act q' _ hinv hs
    exact (step_ok hinv hs).1

theorem none_queued (h : system.ReachableVia LockFree q) : ∀ t, (q.pc t).queues = false := by
  refine h.invariant (P := fun q => ∀ t, (q.pc t).queues = false) ?_ ?_
  · rintro q rfl t
    rfl
  · intro q act q' hr hnone hfree hs t
    have hquiet := (step_ok (inv_of_reachable hr.reachable) hs).2
    rw [← Bool.not_eq_true]
    intro ht
    have hbefore := hquiet hfree hnone t ht
    rw [hnone t] at hbefore
    cases hbefore

-- No call of wait finds its condition false while each thread that has to wait finds the lock
-- free; in any case the thread that wait blocked is the one that its pointer names.
theorem intq_waiting_safe (q : Intq) (act : IntqAct) (h : system.ReachableVia LockFree q)
    (he : q.Enabled act) :
    (∃ q' byte, q.exec act = .ok (q', byte)) ∧
      ∀ r, system.Reachable r → ∀ side t, r.waiter side = some t ↔
        ∃ call : IntqCall, call.side = side ∧ r.pc t = .waiting call := by
  refine ⟨?_, fun r hr => (inv_of_reachable hr).registered⟩
  have hl : ¬ q.Late act := by
    rintro ⟨t, pick, call, -, hpc, -⟩
    have hqueues := none_queued h t
    rw [hpc] at hqueues
    cases hqueues
  obtain ⟨q', byte, hx, -⟩ := exec_ok (inv_of_reachable h.reachable) he hl
  exact ⟨q', byte, hx⟩

-- Thread 1 waits for a byte, which an interrupt handler then adds.
theorem intq_waiting_safe_one_reader :
    ∃ q, system.ReachableVia LockFree q ∧ q.Enabled (.resume 1 0) ∧ q.pc 1 = .woken .getc ∧
      ∃ q' byte, q.exec (.resume 1 0) = .ok (q', byte) := by
  obtain ⟨q, hr, hq⟩ := Lib.System.reachableVia_of_leadsTo (S := system) intqInit
    (fun q act => if q.LockFree act then q.step act else none)
    [.call 1 .getc, .interrupt (.putc 7)]
    (fun q => decide (q.Enabled (.resume 1 0) ∧ q.pc 1 = .woken .getc)) rfl
    (fun q act q' hx => Option.ite_none_right_eq_some.mp hx) (by decide +kernel)
  obtain ⟨he, hpc⟩ := of_decide_eq_true hq
  exact ⟨q, hr, he, hpc, (intq_waiting_safe q (.resume 1 0) hr he).1⟩

-- Thread 1 waits, thread 2 sleeps on the lock and two bytes arrive. Thread 1 takes one of
-- them, and thread 2 then calls wait with the other one in the queue.
theorem intq_wait_assertion_fails :
    ∃ q, system.Reachable q ∧ q.Enabled (.resume 2 0) ∧ q.pc 2 = .relocking .getc ∧
      q.awaits .notEmpty = false ∧ q.exec (.resume 2 0) = .error .assertion := by
  obtain ⟨q, hr, hq⟩ := Lib.System.exists_of_leadsTo intqInit step
    [.call 1 .getc, .call 2 .getc, .interrupt (.putc 7), .interrupt (.putc 8), .resume 1 0]
    (fun q => decide (q.Enabled (.resume 2 0) ∧ q.pc 2 = .relocking .getc ∧ q.lock = none ∧
      q.awaits .notEmpty = false)) (by decide +kernel)
  obtain ⟨he, hpc, hlock, ha⟩ := of_decide_eq_true hq
  exact ⟨q, hr, he, hpc, ha, exec_late ⟨2, 0, .getc, rfl, hpc, hlock, ha⟩⟩

end Intq

end Pintos.Devices
