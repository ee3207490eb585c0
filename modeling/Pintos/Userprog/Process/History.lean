import Pintos.Userprog.Process.Refinement

namespace Pintos.Userprog

open Lib ProcTable

def Pc.pending : Pc → List Event
  | .leaving _ (.done (.returning event)) | .leaving _ (.free _ (.returning event))
  | .freeing _ (.returning event) | .returning event => [event]
  | _ => []

theorem Pc.pending_next (lock : ProcRef) (next : Next) :
    next.pc.pending = (Pc.leaving lock next).pending := by
  cases next with
  | done after | free _ after => cases after <;> rfl
  | _ => rfl

namespace ProcTable

variable {s s' : ProcTable} {p q c : ProcRef} {r : RelRef} {choice : Choice} {pc pc' : Pc}
  {event : Event}

def history (s : ProcTable) (p : ProcRef) : List Event := s.log p ++ (s.procs p).pc.pending

inductive Reports (s : ProcTable) (p : ProcRef) : Event → Prop
  | noPage (hpc : (s.procs p).pc = .user) : Reports s p (.executed none tidError)
  | notFound (tid : Int) (hpc : (s.procs p).pc = .searching tid []) :
      Reports s p (.waited tid (-1))
  | failed (lock : ProcRef) (r : RelRef) (tid : Int)
      (hpc : (s.procs p).pc = .inside lock (.poll r tid)) (hx : (s.rels r).cStatus = .exited) :
      Reports s p (.executed (some r) (s.rels r).cId)
  | started (lock : ProcRef) (r : RelRef) (tid : Int)
      (hpc : (s.procs p).pc = .inside lock (.poll r tid)) (hl : (s.rels r).cStatus ≠ .loading)
      (hx : (s.rels r).cStatus ≠ .exited) : Reports s p (.executed (some r) tid)
  | reaped (lock : ProcRef) (r : RelRef) (tid : Int)
      (hpc : (s.procs p).pc = .inside lock (.watch r tid)) (hx : (s.rels r).cStatus ≠ .running) :
      Reports s p (.waited tid (s.rels r).wStatus)

def Extends (s : ProcTable) (p : ProcRef) (s' : ProcTable) : Prop :=
  s'.history p = s.history p ∨ ∃ event, s.Reports p event ∧ s'.history p = s.history p ++ [event]

section

variable (hlog : s'.log p = s.log p)
include hlog

theorem history_eq (h : (s'.procs p).pc.pending = (s.procs p).pc.pending) :
    s'.history p = s.history p := by
  rw [history, history, hlog, h]

theorem history_append (hnone : (s.procs p).pc.pending = [])
    (h : (s'.procs p).pc.pending = [event]) : s'.history p = s.history p ++ [event] := by
  rw [history, history, hlog, hnone, h, List.append_nil]

theorem goto_extends (hpc : (s'.procs p).pc = pc') (h : pc'.pending = (s.procs p).pc.pending) :
    s.Extends p s' :=
  .inl (history_eq hlog (hpc ▸ h))

theorem report_extends (hpc : (s'.procs p).pc = pc') (hnone : (s.procs p).pc.pending = [])
    (h : pc'.pending = [event]) (hr : s.Reports p event) :
    s.Extends p s' :=
  .inr ⟨event, hr, history_append hlog hnone (hpc ▸ h)⟩

end

theorem return_history (hpc : (s.procs p).pc = .returning event) :
    ((s.record p event).goto p .user).history p = s.history p := by
  have hlog : ((s.record p event).goto p .user).log p = s.log p ++ [event] :=
    Function.update_self ..
  rw [history, history, hlog, goto_procs_self, hpc]
  exact List.append_nil _

theorem Jump.extends (hj : Jump s p choice (s.procs p).pc pc') : s.Extends p (s.goto p pc') := by
  have hself : ((s.goto p pc').procs p).pc = pc' := by rw [goto_procs_self]
  generalize hpc : (s.procs p).pc = pc at hj
  cases hj with
  | noPage => exact report_extends rfl hself (by rw [hpc]; rfl) rfl (.noPage hpc)
  | notFound tid => exact report_extends rfl hself (by rw [hpc]; rfl) rfl (.notFound tid hpc)
  | _ => exact goto_extends rfl hself (by rw [hpc]; rfl)

theorem critical_extends {lock : ProcRef} {sec : Section} {m : Mutex ProcRef}
    (hpc : (s.procs p).pc = .inside lock sec) (hr : relOf (s.procs p) sec = some r) :
    s.Extends p (s.crossed p q r sec m) := by
  have hself := s.crossed_pc p q r sec m
  have hlog : (s.critical p r (s.rels r) sec).1.log p = s.log p := by rw [critical_rest]
  have hnone : (s.procs p).pc.pending = [] := by rw [hpc]; rfl
  cases sec with
  | announce success =>
    refine goto_extends hlog hself ?_
    cases success <;> exact hnone.symm
  | cutTies | orphan _ =>
    refine goto_extends hlog hself ?_
    simp only [critical]
    split_ifs <;> exact hnone.symm
  | poll _ tid =>
    cases hr
    by_cases hx : (s.rels r).cStatus = .loading
    · refine goto_extends hlog hself ?_
      simp only [critical, if_pos hx]
      exact hnone.symm
    · by_cases hexit : (s.rels r).cStatus = .exited
      · refine report_extends hlog hself hnone ?_ (.failed lock r tid hpc hexit)
        simp only [critical, if_neg hx, if_pos hexit]
        rfl
      · refine report_extends hlog hself hnone ?_ (.started lock r tid hpc hx hexit)
        simp only [critical, if_neg hx, if_neg hexit]
        rfl
  | watch _ tid =>
    cases hr
    by_cases hx : (s.rels r).cStatus = .running
    · refine goto_extends hlog hself ?_
      simp only [critical, if_pos hx]
      exact hnone.symm
    · refine report_extends hlog hself hnone ?_ (.reaped lock r tid hpc hx)
      simp only [critical, if_neg hx]
      rfl

section

variable (hk : s.Links) (hm : Move s p choice s')
include hk hm

theorem Move.extends : s.Extends p s' := by
  cases hm with
  | jump hj => exact hj.extends
  | allocate junk hpc =>
    exact goto_extends rfl (by rw [(s.allocate_writes p junk).procs_self]) (by rw [hpc]; rfl)
  | create r hpc =>
    exact goto_extends rfl (by rw [threadCreate_procs_self hk hpc]) (by rw [hpc]; rfl)
  | exit _ _ hpc | die _ hpc | assign _ _ hpc | load _ _ hpc | acquire _ _ hpc =>
    exact goto_extends rfl (by rw [goto_procs_self]) (by rw [hpc]; rfl)
  | critical lock sec r hpc hr => exact critical_extends hpc hr
  | raise lock next hpc =>
    exact goto_extends rfl (by rw [goto_procs_self]) (by rw [hpc, Pc.pending_next lock])
  | free r after hpc =>
    refine goto_extends rfl (by rw [goto_procs_self]) ?_
    rw [hpc]
    cases after <;> rfl
  | «return» event hpc =>
    exact .inl (return_history hpc)

theorem Move.history_ne (hq : q ≠ p) : s'.history q = s.history q := by
  have hlog : s'.log q = s.log q := by
    cases hm with
    | critical lock sec r =>
      change (s.critical p r (s.rels r) sec).1.log q = s.log q
      rw [critical_rest]
    | «return» event => exact Function.update_of_ne hq ..
    | _ => rfl
  rcases hm.elsewhere hk hq with hsame | ⟨hnew, r, hproc⟩
  · rw [history, history, hlog, hsame]
  · rw [history, history, hlog, hproc, hnew, (hk.absent s.nextProc le_rfl).1]
    rfl

-- A fact about the calls of a run that steps keep and that is true of each call when it
-- is settled.
theorem Move.events {Q : ProcTable → ProcRef → Event → Prop}
    (h : ∀ q, ∀ event ∈ s.history q, Q s q event) (hkeep : ∀ q event, Q s q event → Q s' q event)
    (hnew : ∀ event, s.Reports p event → Q s p event) :
    ∀ q, ∀ event ∈ s'.history q, Q s' q event := by
  intro q event hmem
  by_cases hq : q = p
  · subst hq
    rcases hm.extends hk with hsame | ⟨new, hrep, hext⟩
    · exact hkeep q event (h q event (hsame ▸ hmem))
    · rw [hext, List.mem_append, List.mem_singleton] at hmem
      rcases hmem with hmem | rfl
      · exact hkeep q event (h q event hmem)
      · exact hkeep q event (hnew event hrep)
  · exact hkeep q event (h q event (hm.history_ne hk hq ▸ hmem))

end

end ProcTable

end Pintos.Userprog
