import Pintos.Userprog.Process.Account

namespace Pintos.Userprog

open Lib List Pc

def Pc.awaits : Pc → Option Int
  | .searching tid _ => some tid
  | .entering (.watch _ tid) | .inside _ (.watch _ tid) | .leaving _ (.watch _ tid) => some tid
  | _ => none

def Pc.waitRank : Pc → Nat
  | .searching _ rest => rest.length + 3
  | .leaving _ _ => 2
  | .entering _ => 1
  | _ => 0

theorem Pc.idle_of_awaits {pc : Pc} {tid : Int} (h : pc.awaits = some tid) (r : RelRef) :
    pc.stance r = .idle := by
  unfold awaits at h
  split at h <;> cases h <;> rfl

namespace ProcTable

variable {s s' : ProcTable} {p q c : ProcRef} {r : RelRef} {tid status : Int} {choice : Choice}
  {event : Event}

structure Answer (s : ProcTable) (before : List Event) (tid status : Int) : Prop where
  child : ∀ r, unwaited before r tid = true → s.loaded r = some true →
    (s.rels r).cStatus = .exited ∧
      ∃ c, s.child r = some c ∧ (s.procs c).tid = tid ∧ s.ended c = some status
  other : (∀ r, unwaited before r tid = true → s.loaded r ≠ some true) → status = -1

theorem Move.exited (hlink : s.Linked) (hsound : s.Sound) (hm : Move s p choice s')
    (hr : r < s.nextRel) (hx : (s.rels r).cStatus = .exited) : (s'.rels r).cStatus = .exited := by
  rcases hm.follows hlink hr with hsame | ⟨label, hb, _⟩
  · have hrel : (s'.bond r).rel = (s.bond r).rel := by rw [hsame]
    exact (congrArg Relation.cStatus hrel).trans hx
  · exact (hsound r hr).exited_step hb hx

theorem Move.ended (hlink : s.Linked) (hsound : s.Sound)
    (hm : Move s p choice s') (hc : s.child r = some c) (he : s.ended c = some status) :
    s'.ended c = some status := by
  have hr := (hlink.links.parent r c hc).1
  have hold : (s.bond r).ended = some status := by simp [bond, hc, he]
  have hnew : (s'.bond r).ended = some status := by
    rcases hm.follows hlink hr with hsame | ⟨label, hb, _⟩
    · rw [hsame, hold]
    · exact (hsound r hr).ended_step hb hold
  simpa [bond, hm.child hlink.links hc] using hnew

theorem Answer.step {before : List Event} (h : s.Answer before tid status)
    (hlink : s.Linked) (hsound : s.Sound) (hm : Move s p choice s')
    (htrue : ∀ event ∈ before, Truthful false s event) : s'.Answer before tid status := by
  -- a record that was returned has been loaded or not for good
  have hloaded : ∀ r, unwaited before r tid = true →
      r < s.nextRel ∧ (s'.loaded r = some true ↔ s.loaded r = some true) := by
    intro r hun
    obtain ⟨hr, c, hc, hres⟩ := htrue _ (executed_of_unwaited hun)
    refine ⟨hr, fun hl => ?_, hm.loaded hlink hsound hr⟩
    rcases hres with ⟨hold, _⟩ | ⟨hold, _⟩
    · exact hold
    · rw [hm.loaded hlink hsound hr hold] at hl
      cases hl
  constructor
  · intro r hun hl
    obtain ⟨hr, hiff⟩ := hloaded r hun
    obtain ⟨hx, c, hc, htid, hend⟩ := h.child r hun (hiff.mp hl)
    refine ⟨hm.exited hlink hsound hr hx, c, hm.child hlink.links hc, ?_,
      hm.ended hlink hsound hc hend⟩
    rw [hm.tid hlink.links (hlink.links.child_lt hc), htid]
  · intro hnone
    exact h.other fun r hun hl => hnone r hun ((hloaded r hun).2.mpr hl)

theorem idle_of_mem {pc : Pc} (hlink : s.Linked) (hpc : (s.procs p).pc = pc)
    (hidle : pc.stance r = .idle) (hmem : r ∈ (s.procs p).childrenInR) :
    r < s.nextRel ∧ (s.bond r).stance = .idle := by
  obtain ⟨hr, howner⟩ := hlink.links.children p r hmem
  exact ⟨hr, (s.bond_stance howner hpc).trans hidle⟩

theorem notFound_answer (hbal : s.Balanced p) (hseeks : s.Seeks p)
    (htrue : ∀ event ∈ s.history p, Truthful false s event)
    (hpc : (s.procs p).pc = .searching tid []) : s.Answer (s.history p) tid (-1) := by
  obtain ⟨before, hlist, hne⟩ := hseeks.passed tid [] hpc
  rw [append_nil] at hlist
  refine ⟨fun r hun hl => ?_, fun _ => rfl⟩
  have hcounts := (hbal (by simp [hpc, phase]) r (unwaited_lt htrue hun) tid (by simp [hl])).mp hun
  exact absurd hcounts.2.2 (hne r (hlist ▸ hcounts.1))

theorem reaped_answer {lock : ProcRef} (hbal : s.Balanced p) (hseeks : s.Seeks p) (hlink : s.Linked)
    (hsound : s.Sound) (htids : s.Tids) (htrue : ∀ event ∈ s.history p, Truthful false s event)
    (hpc : (s.procs p).pc = .inside lock (.watch r tid)) (hx : (s.rels r).cStatus ≠ .running) :
    s.Answer (s.history p) tid (s.rels r).wStatus := by
  have hid := hseeks.found r tid (by rw [hpc]; rfl)
  have hmem := (hlink.links.owner_of_uses hpc (mem_singleton_self r)).2
  obtain ⟨hr, hst⟩ := idle_of_mem hlink hpc rfl hmem
  obtain ⟨hchild, hexit, hres⟩ := (hsound r hr).of_exited hst hx
  obtain ⟨c, hc⟩ := child_of_bond hchild
  have hbalance := hbal (by simp [hpc, phase])
  constructor
  · intro r' hun hl
    have hr' := unwaited_lt htrue hun
    have hcounts := (hbalance r' hr' tid (by simp [hl])).mp hun
    obtain ⟨_, hst'⟩ := idle_of_mem hlink hpc rfl hcounts.1
    have hsame := eq_of_cId hlink hsound htids hr' hr hst' hst (by simp [hl])
      (hcounts.2.2.trans hid.symm)
    subst hsame
    rcases hres with ⟨_, htid, hend⟩ | ⟨hfalse, _⟩
    · rw [s.bond_tid hc] at htid
      have hended : s.ended c = some (s.rels r').wStatus := by simpa [bond, hc] using hend
      exact ⟨hexit, c, hc, htid.symm.trans hid, hended⟩
    · exact absurd (hl.symm.trans hfalse) (by simp)
  · intro hnone
    rcases hres with ⟨hl, _⟩ | ⟨_, _, hw⟩
    · have hcounts : s.Counts p r tid := ⟨hmem, by rw [hpc]; rfl, hid⟩
      have hloaded : s.loaded r = some true := hl
      exact absurd hloaded (hnone r ((hbalance r hr tid (by simp [hloaded])).mpr hcounts))
    · exact hw

theorem Reports.answer (hr : system.Reachable s)
    (h : s.Reports p (.waited tid status)) : s.Answer (s.history p) tid status := by
  have hbal := balanced_of_reachable hr p
  have hseeks := seeks_of_reachable hr p
  have htrue := known_of_reachable hr p
  cases h with
  | notFound _ hpc => exact notFound_answer hbal hseeks htrue hpc
  | reaped lock r _ hpc hx =>
    exact reaped_answer hbal hseeks (linked_of_reachable hr) (sound_of_reachable hr)
      (tids_of_reachable hr) htrue hpc hx

def Answered (s : ProcTable) (p : ProcRef) : Prop :=
  ∀ before tid status after, s.history p = before ++ .waited tid status :: after →
    s.Answer before tid status

theorem answered_of_reachable (h : system.Reachable s) : ∀ p, s.Answered p := by
  apply h.invariant
  · rintro s rfl p before tid status after hist
    rw [boot_history] at hist
    simp at hist
  · intro s a s' hr ih hs q before tid status after hist
    have hlink := linked_of_reachable hr
    have hsound := sound_of_reachable hr
    have htrue := known_of_reachable hr q
    have hm := exec_move hs
    have hkeep : ∀ rest, s.history q = before ++ .waited tid status :: rest →
        s'.Answer before tid status := by
      intro rest hold
      refine (ih q before tid status rest hold).step hlink hsound hm fun event hmem => ?_
      exact htrue event (hold ▸ mem_append_left _ hmem)
    by_cases hq : q = a.1
    · subst hq
      rcases hm.extends hlink.links with hsame | ⟨event, hrep, hext⟩
      · exact hkeep after (hsame ▸ hist)
      · rw [hext] at hist
        rcases eq_nil_or_concat after with rfl | ⟨rest, last, rfl⟩
        · obtain ⟨hbefore, hlast⟩ := append_inj' hist rfl
          cases hlast
          subst hbefore
          exact (hrep.answer hr).step hlink hsound hm htrue
        · rw [concat_eq_append, ← cons_append, ← append_assoc] at hist
          exact hkeep rest (append_inj' hist rfl).1
    · exact hkeep after (hm.history_ne hlink.links hq ▸ hist)

theorem jump_wait_step {pc' : Pc} (hj : Jump s p choice (s.procs p).pc pc')
    (hw : (s.procs p).pc.awaits = some tid) :
    (∃ status, (s.goto p pc').history p = s.history p ++ [.waited tid status]) ∨
      (s.goto p pc').history p = s.history p ∧ pc'.awaits = some tid ∧
        pc'.waitRank < (s.procs p).pc.waitRank := by
  have hproc := goto_procs_self s p pc'
  generalize hpc : (s.procs p).pc = pc at hj hw
  cases hj with
  | notFound _ =>
    cases hw
    exact .inl ⟨-1, history_append rfl (by rw [hpc]; rfl) (by rw [hproc]; rfl)⟩
  | found r rest | pass r rest =>
    cases hw
    exact .inr ⟨history_eq rfl (by rw [hproc, hpc]; rfl), rfl, by simp [waitRank]⟩
  | _ => cases hw

theorem wait_step (hlink : s.Linked) (hseeks : s.Seeks p) (hm : Move s p choice s')
    (hw : (s.procs p).pc.awaits = some tid)
    (hdone : ∀ r ∈ (s.procs p).childrenInR, (s.rels r).cId = tid → (s.rels r).cStatus = .exited) :
    (∃ status, s'.history p = s.history p ++ [.waited tid status]) ∨
      s'.history p = s.history p ∧ (s'.procs p).pc.awaits = some tid ∧
        (s'.procs p).pc.waitRank < (s.procs p).pc.waitRank ∧
        (s'.procs p).childrenInR = (s.procs p).childrenInR ∧ s'.rels = s.rels := by
  cases hm with
  | jump hj =>
    refine (jump_wait_step hj hw).imp_right fun hnext => ?_
    rw [goto_procs_self]
    exact ⟨hnext.1, hnext.2.1, hnext.2.2, rfl, rfl⟩
  | acquire sec r hpc =>
    rw [hpc] at hw
    cases sec with
    | watch r' tid' =>
      cases hw
      refine .inr ⟨history_eq rfl (by rw [goto_procs_self, hpc]; rfl), ?_⟩
      rw [goto_procs_self, hpc]
      exact ⟨rfl, Nat.zero_lt_one, rfl, rfl⟩
    | _ => cases hw
  | critical lock sec r hpc hr =>
    have hplace := hpc
    rw [hpc] at hw
    cases sec with
    | watch r' tid' =>
      cases hw
      cases hr
      have hmem := (hlink.links.owner_of_uses hplace (mem_singleton_self r)).2
      have hid := hseeks.found r tid (by rw [hplace]; rfl)
      have hx : (s.rels r).cStatus ≠ .running := by rw [hdone r hmem hid]; decide
      have hcrit : s.critical p r (s.rels r) (.watch r tid) =
          (s.unlink p r, .free r (.returning (.waited tid (s.rels r).wStatus))) := if_neg hx
      rw [hcrit]
      exact .inl ⟨_, history_append rfl (by rw [hpc]; rfl) (by rw [goto_procs_self]; rfl)⟩
    | _ => cases hw
  | raise lock next hpc =>
    rw [hpc] at hw
    cases next with
    | watch r' tid' =>
      cases hw
      refine .inr ⟨history_eq rfl (by rw [goto_procs_self, hpc]; rfl), ?_⟩
      rw [goto_procs_self, hpc]
      exact ⟨rfl, Nat.lt_succ_self 1, rfl, rfl⟩
    | _ => cases hw
  | allocate _ hpc | exit _ _ hpc | die _ hpc | create _ hpc | assign _ _ hpc | load _ _ hpc
  | free _ _ hpc | «return» _ hpc =>
    rw [hpc] at hw
    cases hw

theorem wait_progress (hs : system.Reachable s) (hw : (s.procs p).pc.awaits = some tid)
    (hdone : ∀ r ∈ (s.procs p).childrenInR, (s.rels r).cId = tid → (s.rels r).cStatus = .exited)
    {labels : List (ProcRef × Choice)} (h : system.Trace s labels s')
    (hcount : (s.procs p).pc.waitRank < labels.countP fun a => a.1 = p) :
    ∃ before after m, labels = before ++ after ∧ system.Trace s before m ∧
      ∃ status, m.history p = s.history p ++ [.waited tid status] := by
  refine h.reaches
    (fun m => system.Reachable m ∧ m.history p = s.history p ∧
      (m.procs p).pc.awaits = some tid ∧ ∀ r ∈ (m.procs p).childrenInR,
        (m.rels r).cId = tid → (m.rels r).cStatus = .exited)
    (fun m => ∃ status, m.history p = s.history p ++ [.waited tid status]) (fun a => a.1 = p)
    (fun m => (m.procs p).pc.waitRank) ?_ ⟨hs, rfl, hw, hdone⟩ hcount
  rintro m a m' ⟨hr, hist, hw, hdone⟩ hstep
  have hlink := linked_of_reachable hr
  have hsound := sound_of_reachable hr
  have hm := exec_move hstep
  have hr' := hr.next hstep
  by_cases ha : p = a.1
  · subst ha
    rcases wait_step hlink (seeks_of_reachable hr a.1) hm hw hdone with
      ⟨status, hend⟩ | ⟨hsame, hw', hrank, hlist, hrels⟩
    · exact .inl ⟨status, hist ▸ hend⟩
    · refine .inr ⟨⟨hr', hsame.trans hist, hw', ?_⟩, hrank.le, fun _ => hrank⟩
      rw [hlist, hrels]
      exact hdone
  · have hproc : m'.procs p = m.procs p := by
      rcases hm.elsewhere hlink.links ha with hsame | ⟨hnew, _⟩
      · exact hsame
      · rw [hnew, (hlink.links.absent m.nextProc le_rfl).1] at hw
        cases hw
    have hnot : (decide (a.1 = p)) = false := decide_eq_false (Ne.symm ha)
    refine .inr ⟨⟨hr', (hm.history_ne hlink.links ha).trans hist, hproc ▸ hw, ?_⟩,
      by rw [hproc], fun hown => by rw [hnot] at hown; cases hown⟩
    rw [hproc]
    intro r hmem hid
    have hcId := hm.cId hlink hsound hmem (by rw [idle_of_awaits hw]; rfl)
    exact hm.exited hlink hsound (hlink.links.children p r hmem).1
      (hdone r hmem (hcId.symm.trans hid))

theorem Seeks.waitRank_le (h : s.Seeks p) :
    (s.procs p).pc.waitRank ≤ (s.procs p).childrenInR.length + 3 := by
  cases hpc : (s.procs p).pc with
  | searching tid rest =>
    obtain ⟨before, hlist, _⟩ := h.passed tid rest hpc
    rw [hlist, length_append]
    simp only [waitRank]
    omega
  | _ =>
    simp only [waitRank]
    omega

theorem exited_of_found (hr : system.Reachable s) (hw : (s.procs p).pc.awaits = some tid)
    (hdone : ∀ r, unwaited (s.history p) r tid = true → s.loaded r = some true →
      (s.rels r).cStatus ≠ .running)
    (hmem : r ∈ (s.procs p).childrenInR) (hid : (s.rels r).cId = tid) :
    (s.rels r).cStatus = .exited := by
  have hsound := sound_of_reachable hr
  have hidle := idle_of_awaits hw
  obtain ⟨hlt, hst⟩ := idle_of_mem (linked_of_reachable hr) rfl (hidle r) hmem
  have hphase : (s.procs p).pc.phase ≠ .cut := by
    unfold awaits at hw
    split at hw <;> rename_i hpc <;> simp [hpc, phase] at hw ⊢
  have hnot : (s.rels r).cStatus ≠ .running := by
    intro hrun
    have hl : s.loaded r = some true := (hsound r hlt).loaded_of_running hrun
    have hcounts : s.Counts p r tid := ⟨hmem, by rw [hidle]; rfl, hid⟩
    have hun := (balanced_of_reachable hr p hphase r hlt tid (by simp [hl])).mpr hcounts
    exact hdone r hun hl hrun
  exact ((hsound r hlt).of_exited hst hnot).2.1

theorem search_enabled {rest : List RelRef} (hlink : s.Linked) (hsound : s.Sound)
    (hpc : (s.procs p).pc = .searching tid rest) : ∃ s', s.exec p .go = .ok s' := by
  cases rest with
  | nil => exact ⟨_, by simp only [exec, hpc]; rfl⟩
  | cons r rest =>
    have huses : r ∈ (s.procs p).pc.uses := by simp [hpc, uses]
    obtain ⟨howner, hmem⟩ := hlink.links.owner_of_uses rfl huses
    have hlt := (hlink.links.children p r hmem).1
    have hfreed : s.freed r = 0 :=
      ((hsound r hlt).member ((s.bond_member howner).trans (decide_eq_true hmem))).1
    by_cases hid : (s.rels r).cId = tid
    · exact ⟨s.goto p (.entering (.watch r tid)), by simp [exec, hpc, read, hfreed, hid, bind,
        Except.bind, pure, Except.pure]⟩
    · exact ⟨s.goto p (.searching tid rest), by simp [exec, hpc, read, hfreed, hid, bind,
        Except.bind, pure, Except.pure]⟩

-- The first process_wait for a child that loaded returns what the child exited with, after
-- it has; any other returns -1. It goes round its loop only for a child that has not been
-- waited for, and returns in a bounded number of its own steps once that child has exited
-- and at once if there is none.
theorem wait_returns_each_status_once (h : system.Reachable s) (p : ProcRef) :
    (∀ before tid status after, s.history p = before ++ .waited tid status :: after →
      (∀ r, unwaited before r tid = true → s.loaded r = some true →
        (s.rels r).cStatus = .exited ∧
          ∃ c, s.child r = some c ∧ (s.procs c).tid = tid ∧ s.ended c = some status) ∧
      ((∀ r, unwaited before r tid = true → s.loaded r ≠ some true) → status = -1)) ∧
    (∀ r r' tid, .executed (some r) tid ∈ s.history p → .executed (some r') tid ∈ s.history p →
      s.loaded r = some true → s.loaded r' = some true → r = r') ∧
    (∀ lock r tid, (s.procs p).pc = .leaving lock (.watch r tid) →
      unwaited (s.history p) r tid = true ∧ s.loaded r = some true) ∧
    (∀ tid rest, (s.procs p).pc = .searching tid rest → ∃ s', s.exec p .go = .ok s') ∧
    ∀ tid, (s.procs p).pc.awaits = some tid →
      (∀ r, unwaited (s.history p) r tid = true → s.loaded r = some true →
        (s.rels r).cStatus ≠ .running) →
      ∀ labels s', system.Trace s labels s' →
        (s.procs p).childrenInR.length + 3 < labels.countP (fun a => a.1 = p) →
        ∃ before after m, labels = before ++ after ∧ system.Trace s before m ∧
          ∃ status, m.history p = s.history p ++ [.waited tid status] := by
  have hlink := linked_of_reachable h
  have hsound := sound_of_reachable h
  have hseeks := seeks_of_reachable h p
  have htids := tids_of_reachable h
  have hknown := known_of_reachable h p
  refine ⟨fun before tid status after hist => ?_, fun r r' tid he he' hl hl' => ?_,
    fun lock r tid hpc => ?_, fun tid rest hpc => search_enabled hlink hsound hpc,
    fun tid hw hdone labels s' htrace hcount => ?_⟩
  · have hanswer := answered_of_reachable h p before tid status after hist
    exact ⟨hanswer.child, hanswer.other⟩
  · have hchild : ∀ r, .executed (some r) tid ∈ s.history p → s.loaded r = some true →
        ∃ c, s.child r = some c ∧ (s.procs c).tid = tid := by
      intro r he hl
      obtain ⟨_, c, hc, ⟨_, ht⟩ | ⟨hfalse, _⟩⟩ := hknown _ he
      · exact ⟨c, hc, ht.symm⟩
      · exact absurd (hl.symm.trans hfalse) (by simp)
    obtain ⟨c, hc, ht⟩ := hchild r he hl
    obtain ⟨c', hc', ht'⟩ := hchild r' he' hl'
    have hsame := htids.inj c (hlink.links.child_lt hc) c' (hlink.links.child_lt hc')
      (ht.trans ht'.symm)
    exact hlink.links.child_inj hc (hsame ▸ (hlink.links.child c' r').mpr hc')
  · have hl := hseeks.loops lock r tid hpc
    have hmem := (hlink.links.owner_of_uses hpc (mem_singleton_self r)).2
    have hcounts : s.Counts p r tid :=
      ⟨hmem, by rw [hpc]; rfl, hseeks.found r tid (by rw [hpc]; rfl)⟩
    have hbal := balanced_of_reachable h p (by simp [hpc, phase]) r
      (hlink.links.children p r hmem).1 tid (by simp [hl])
    exact ⟨hbal.mpr hcounts, hl⟩
  · exact wait_progress h hw (fun r hmem hid => exited_of_found h hw hdone hmem hid) htrace
      (lt_of_le_of_lt hseeks.waitRank_le hcount)

-- The main thread starts two children; the second exits with 7 and is waited for twice,
-- the first runs on.
theorem wait_returns_each_status_once_twice :
    ∃ s, system.Reachable s ∧
      s.history 0 = [.executed (some 0) 3, .executed (some 1) 4, .waited 4 7, .waited 4 (-1)] ∧
      (s.procs 1).pc = .user ∧ ∃ c, s.child 1 = some c ∧ (s.procs c).tid = 4 ∧
        s.ended c = some 7 := by
  obtain ⟨s, hr, hs⟩ := exists_run (fun _ _ => true)
    (starts 0 1 true ++ starts 0 2 true ++ (2, .exit 7) :: List.replicate 4 (2, .go) ++
      (0, .wait 4) :: List.replicate 7 (0, .go) ++ (0, .wait 4) :: List.replicate 3 (0, .go))
    (fun s => s.history 0 =
        [.executed (some 0) 3, .executed (some 1) 4, .waited 4 7, .waited 4 (-1)] ∧
      (s.procs 1).pc = .user ∧ s.loaded 1 = some true) (by decide +kernel)
  obtain ⟨hist, hrun, hl⟩ := of_decide_eq_true hs
  obtain ⟨hanswers, _⟩ := wait_returns_each_status_once hr.reachable 0
  obtain ⟨_, hchild⟩ := (hanswers [.executed (some 0) 3, .executed (some 1) 4] 4 7
    [.waited 4 (-1)] hist).1 1 (by decide) hl
  exact ⟨s, hr.reachable, hist, hrun, hchild⟩

end ProcTable

end Pintos.Userprog
