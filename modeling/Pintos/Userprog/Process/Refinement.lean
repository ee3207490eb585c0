import Pintos.Userprog.Process.Locks

namespace Pintos.Userprog

open Function Lib Pc List

namespace ProcTable

variable {s s' : ProcTable} {p q c lock : ProcRef} {r r0 : RelRef} {choice : Choice} {pc' pc : Pc}
  {x : Process} {m : Mutex ProcRef} {sec : Section} {tid : Int} {n : Nat} {y : Relation}

-- One record, the parent that its status_lock belongs to and the child it was made for.
def bond (s : ProcTable) (r : RelRef) : Bond where
  stance := (s.procs (s.rels r).statusLock).pc.stance r
  member := r ∈ (s.procs (s.rels r).statusLock).childrenInR
  freed := s.freed r
  rel := s.rels r
  child := (s.child r).map fun c => (s.procs c).pc.phase
  tid := match s.child r with
    | some c => (s.procs c).tid
    | none => 0
  loaded := s.loaded r
  ended := (s.child r).bind s.ended

def Cause (s : ProcTable) (p : ProcRef) (choice : Choice) (r : RelRef) : BondLabel → Prop
  | .noThread => choice = .noThread ∧ (s.procs p).pc = .creating r
  | .assign => ∃ tid, (s.procs p).pc = .created r tid
  | .reap => ∃ lock tid, (s.procs p).pc = .inside lock (.watch r tid)
  | .orphan => ∃ lock, (s.procs p).pc = .inside lock (.orphan r)
  | _ => True

theorem bond_stance (s : ProcTable) (hp : (s.rels r).statusLock = p)
    (hpc : (s.procs p).pc = pc) : (s.bond r).stance = pc.stance r := by
  simp [bond, hp, hpc]

theorem bond_phase (s : ProcTable) (hc : s.child r = some p)
    (hpc : (s.procs p).pc = pc) : (s.bond r).child = some pc.phase := by
  simp [bond, hc, hpc]

theorem bond_member (s : ProcTable) (hp : (s.rels r).statusLock = p) :
    (s.bond r).member = decide (r ∈ (s.procs p).childrenInR) := by
  simp [bond, hp]

theorem Rewrites.bond_owner {a : Stance} {m : Bool}
    (h : s.Rewrites p x s') (hk : s.Links) (hp : (s.rels r).statusLock = p)
    (ha : x.pc.stance r = a) (hm : decide (r ∈ x.childrenInR) = m) (hn : s'.freed r = n)
    (hy : s'.rels r = y) (hl : s'.loaded r = s.loaded r) (he : s'.ended = s.ended) :
    s'.bond r = { s.bond r with stance := a, member := m, freed := n, rel := y } := by
  subst ha hm hn hy
  cases hc : s.child r with
  | none => simp [bond, h.statusLock, h.child, hp, h.procs_self, hc, hl]
  | some c =>
    have hne : c ≠ p := fun heq => (hk.parent r c hc).2 (hp.trans heq.symm)
    simp [bond, h.statusLock, h.child, hp, h.procs_self, hc, h.procs_ne hne, hl, he]

theorem Rewrites.bond_child {f : ChildPhase} {l : Option Bool} {e : Option Int}
    (h : s.Rewrites p x s') (hk : s.Links) (hc : s.child r = some p) (hf : x.pc.phase = f)
    (hn : s'.freed r = n) (hy : s'.rels r = y) (hl : s'.loaded r = l) (he : s'.ended p = e) :
    s'.bond r = { s.bond r with child := some f, freed := n, rel := y, loaded := l, ended := e } := by
  subst hf hn hy hl he
  have hne : (s.rels r).statusLock ≠ p := (hk.parent r p hc).2
  simp [bond, h.statusLock, h.child, h.procs_self, hc, h.procs_ne hne, h.tid]

theorem bond_congr (hy : s'.rels r = s.rels r) (hn : s'.freed r = s.freed r)
    (hl : s'.loaded r = s.loaded r) (hchild : s'.child r = s.child r)
    (ha : ∀ p, (s.rels r).statusLock = p → (s'.procs p).pc.stance r = (s.procs p).pc.stance r ∧
        (r ∈ (s'.procs p).childrenInR ↔ r ∈ (s.procs p).childrenInR))
    (hc : ∀ c, s.child r = some c → (s'.procs c).pc.phase = (s.procs c).pc.phase ∧
      (s'.procs c).tid = (s.procs c).tid ∧ s'.ended c = s.ended c) : s'.bond r = s.bond r := by
  obtain ⟨hstance, hmem⟩ := ha _ rfl
  cases hcase : s.child r with
  | none => simp [bond, hchild, hcase, hn, hl, hy, hstance, hmem]
  | some c =>
    obtain ⟨hphase, htid, hended⟩ := hc c hcase
    simp [bond, hchild, hcase, hn, hl, hy, hstance, hmem, hphase, htid, hended]

theorem Writes.bond_eq (h : s.Writes p x s')
    (ha : (s.rels r).statusLock = p → x.pc.stance r = (s.procs p).pc.stance r)
    (hm : (s.rels r).statusLock = p → (r ∈ x.childrenInR ↔ r ∈ (s.procs p).childrenInR))
    (hf : s.child r = some p → x.pc.phase = (s.procs p).pc.phase)
    (hn : s'.freed r = s.freed r) (hy : s'.rels r = s.rels r) (hl : s'.loaded r = s.loaded r)
    (he : ∀ c, s.child r = some c → s'.ended c = s.ended c) : s'.bond r = s.bond r := by
  refine bond_congr hy hn hl (congrFun h.child r) (fun u hu => ?_) (fun c hc => ?_)
  · by_cases hup : u = p
    · subst hup
      rw [h.procs_self]
      exact ⟨ha hu, hm hu⟩
    · rw [h.procs_ne hup]
      exact ⟨rfl, .rfl⟩
  · by_cases hcp : c = p
    · subst hcp
      rw [h.procs_self]
      exact ⟨hf hc, h.tid, he c hc⟩
    · rw [h.procs_ne hcp]
      exact ⟨rfl, rfl, he c hc⟩

def Follows (s : ProcTable) (p : ProcRef) (choice : Choice) (r : RelRef) (s' : ProcTable) :
    Prop :=
  s'.bond r = s.bond r ∨ ∃ label, BondStep (s.bond r) label (s'.bond r) ∧ s.Cause p choice r label

theorem Jump.phase (h : Jump s p choice pc pc') : pc'.phase = pc.phase := by
  cases h <;> rfl

theorem Jump.stance (h : Jump s p choice pc pc') (r : RelRef) : pc'.stance r = pc.stance r ∨
      choice = .noThread ∧ pc = .creating r ∧ pc' = .created r tidError := by
  cases h with
  | noThread r' =>
    by_cases hr : r' = r
    · exact .inr ⟨rfl, by rw [hr], by rw [hr]⟩
    · exact .inl (by simp [stance, hr])
  | _ => exact .inl rfl

section

variable (h : s.Links)
include h

theorem Jump.follows (hj : Jump s p choice (s.procs p).pc pc') (r : RelRef) :
    s.Follows p choice r (s.goto p pc') := by
  have hw : s.Rewrites p { s.procs p with pc := pc' } (s.goto p pc') :=
    ⟨⟨rfl, rfl, rfl, rfl, rfl, rfl⟩, fun _ => rfl, rfl⟩
  rcases hj.stance r with hsame | ⟨rfl, hpc, rfl⟩
  · exact .inl (hw.bond_eq (fun _ => hsame) (fun _ => .rfl) (fun _ => hj.phase) rfl rfl rfl
      fun _ _ => rfl)
  · obtain ⟨howner, _⟩ := h.owner_of_uses hpc (mem_singleton_self r)
    refine .inr ⟨.noThread, ?_, rfl, hpc⟩
    rw [hw.bond_owner h howner (if_pos rfl) (s.bond_member howner).symm rfl rfl rfl rfl]
    exact .noThread ((s.bond_stance howner hpc).trans (if_pos rfl))

theorem exit_follows (status : Int) (hpc : (s.procs p).pc = .user)
    (hp : (s.procs p).parentInR = some r0) (r : RelRef) :
    s.Follows p choice r
      (((s.setRel r0 ((s.rels r0).setWStatus status)).finish p status).goto p .exiting) := by
  have hw : s.Rewrites p { s.procs p with pc := .exiting }
      (((s.setRel r0 ((s.rels r0).setWStatus status)).finish p status).goto p .exiting) :=
    ⟨⟨rfl, rfl, rfl, rfl, rfl, rfl⟩, setRel_statusLock rfl, rfl⟩
  have hc := (h.child p r0).mp hp
  by_cases hr : r = r0
  · subst hr
    refine .inr ⟨.exit, ?_, trivial⟩
    rw [hw.bond_child (y := (s.rels r).setWStatus status) (e := some status) h hc rfl rfl
      (by simp) rfl (by simp [goto])]
    exact .exit status (s.bond_phase hc hpc)
  · refine .inl (hw.bond_eq (fun _ => by rw [hpc]; rfl) (fun _ => .rfl)
      (fun hmine => absurd (h.child_inj hmine hp) hr) rfl (by simp [hr]) rfl fun c hmine => ?_)
    have hne : c ≠ p := by
      rintro rfl
      exact hr (h.child_inj hmine hp)
    simp [goto, hne]

theorem die_follows (hpc : (s.procs p).pc = .user) (hp : (s.procs p).parentInR = some r0)
    (r : RelRef) :
    s.Follows p choice r ((s.finish p (-1)).goto p .exiting) := by
  have hw : s.Rewrites p { s.procs p with pc := .exiting } ((s.finish p (-1)).goto p .exiting) :=
    ⟨⟨rfl, rfl, rfl, rfl, rfl, rfl⟩, fun _ => rfl, rfl⟩
  have hc := (h.child p r0).mp hp
  by_cases hr : r = r0
  · subst hr
    refine .inr ⟨.exit, ?_, trivial⟩
    rw [hw.bond_child (e := some (-1)) h hc rfl rfl rfl rfl (by simp [goto])]
    exact .die (s.bond_phase hc hpc)
  · refine .inl (hw.bond_eq (fun _ => by rw [hpc]; rfl) (fun _ => .rfl)
      (fun hmine => absurd (h.child_inj hmine hp) hr) rfl rfl rfl fun c hmine => ?_)
    have hne : c ≠ p := by
      rintro rfl
      exact hr (h.child_inj hmine hp)
    simp [goto, hne]

theorem assign_follows (hpc : (s.procs p).pc = .created r0 tid) (r : RelRef) : s.Follows p choice r
      ((s.setRel r0 ((s.rels r0).setCId tid)).goto p (.entering (.poll r0 tid))) := by
  have hw : s.Rewrites p { s.procs p with pc := .entering (.poll r0 tid) }
      ((s.setRel r0 ((s.rels r0).setCId tid)).goto p (.entering (.poll r0 tid))) :=
    ⟨⟨rfl, rfl, rfl, rfl, rfl, rfl⟩, setRel_statusLock rfl, rfl⟩
  obtain ⟨howner, _⟩ := h.owner_of_uses hpc (mem_singleton_self r0)
  by_cases hr : r = r0
  · subst hr
    refine .inr ⟨.assign, ?_, tid, hpc⟩
    rw [hw.bond_owner (y := (s.rels r).setCId tid) h howner (if_pos rfl)
      (s.bond_member howner).symm rfl (by simp) rfl rfl]
    exact .assign tid ((s.bond_stance howner hpc).trans (if_pos rfl))
  · refine .inl (hw.bond_eq (fun _ => ?_) (fun _ => .rfl) (fun _ => by rw [hpc]; rfl) rfl
      (by simp [hr]) rfl fun _ _ => rfl)
    rw [hpc]
    exact (if_neg (Ne.symm hr)).trans (if_neg (Ne.symm hr)).symm

theorem load_follows (success : Bool) (hpc : (s.procs p).pc = .loading)
    (hp : (s.procs p).parentInR = some r0) (r : RelRef) :
    s.Follows p choice r ((s.setLoaded r0 success).goto p (.entering (.announce success))) := by
  have hw : s.Rewrites p { s.procs p with pc := .entering (.announce success) }
      ((s.setLoaded r0 success).goto p (.entering (.announce success))) :=
    ⟨⟨rfl, rfl, rfl, rfl, rfl, rfl⟩, fun _ => rfl, rfl⟩
  have hc := (h.child p r0).mp hp
  by_cases hr : r = r0
  · subst hr
    refine .inr ⟨.load, ?_, trivial⟩
    rw [hw.bond_child (e := s.ended p) (l := some success) h hc rfl rfl rfl (by simp [goto]) rfl]
    have hended : (s.bond r).ended = s.ended p := by simp [bond, hc]
    rw [← hended]
    exact .load success (s.bond_phase hc hpc)
  · refine .inl (hw.bond_eq (fun _ => by rw [hpc]; rfl) (fun _ => .rfl)
      (fun hmine => absurd (h.child_inj hmine hp) hr) rfl rfl (by simp [goto, hr]) fun _ _ => rfl)

theorem create_follows (hpc : (s.procs p).pc = .creating r0) (hlt : r < s.nextRel) :
    s.Follows p choice r (s.threadCreate p r0) := by
  obtain ⟨howner, hmem⟩ := h.owner_of_uses hpc (mem_singleton_self r0)
  have hself := threadCreate_procs_self h hpc
  have hnew := threadCreate_procs_new h hpc
  by_cases hr : r = r0
  · subst hr
    have hnone := h.creating p r hpc
    refine .inr ⟨.create, ?_, trivial⟩
    have hbond : (s.threadCreate p r).bond r =
        { s.bond r with stance := .assigning s.nextTid, child := some .loading, tid := s.nextTid } := by
      have hrels : (s.threadCreate p r).rels = s.rels := rfl
      have hchild : (s.threadCreate p r).child r = some s.nextProc := update_self ..
      have hended : (s.threadCreate p r).ended s.nextProc = none := update_self ..
      simp [bond, hrels, hchild, howner, hself, hnew, hended, hnone, stance, phase]
      exact ⟨rfl, rfl⟩
    rw [hbond]
    exact .create s.nextTid ((s.bond_stance howner hpc).trans (if_pos rfl)) (by simp [bond, hnone])
  · have hsame : ∀ u, u ≠ s.nextProc →
        ((s.threadCreate p r0).procs u).pc.stance r = (s.procs u).pc.stance r ∧
          ((s.threadCreate p r0).procs u).pc.phase = (s.procs u).pc.phase ∧
          ((s.threadCreate p r0).procs u).childrenInR = (s.procs u).childrenInR ∧
          ((s.threadCreate p r0).procs u).tid = (s.procs u).tid := by
      intro u hu
      by_cases hup : u = p
      · subst hup
        rw [hself, hpc]
        exact ⟨(if_neg (Ne.symm hr)).trans (if_neg (Ne.symm hr)).symm, rfl, rfl, rfl⟩
      · rw [threadCreate_procs_ne s r0 hup hu]
        exact ⟨rfl, rfl, rfl, rfl⟩
    refine .inl (bond_congr rfl rfl rfl (update_of_ne hr ..) (fun u hu => ?_)
      (fun c hc => ?_))
    · obtain ⟨hstance, _, hchildren, _⟩ := hsame u (hu ▸ h.owner r hlt).ne
      exact ⟨hstance, hchildren ▸ .rfl⟩
    · have hne : c ≠ s.nextProc := by
        rintro rfl
        have hparent := (h.child s.nextProc r).mpr hc
        rw [(h.absent s.nextProc le_rfl).2.1] at hparent
        cases hparent
      obtain ⟨_, hphase, _, htid⟩ := hsame c hne
      exact ⟨hphase, htid, update_of_ne hne ..⟩

end

theorem acquire_follows (hpc : (s.procs p).pc = .entering sec) (r : RelRef) :
    s.Follows p choice r ((s.setLock q m).goto p (.inside q sec)) := by
  have hw : s.Rewrites p { s.procs p with pc := .inside q sec }
      ((s.setLock q m).goto p (.inside q sec)) :=
    ⟨⟨rfl, rfl, rfl, rfl, rfl, rfl⟩, fun _ => rfl, rfl⟩
  obtain ⟨hstance, hphase⟩ := acquire_eq q sec r
  exact .inl (hw.bond_eq (fun _ => hpc ▸ hstance) (fun _ => .rfl) (fun _ => hpc ▸ hphase)
    rfl rfl rfl fun _ _ => rfl)

theorem critical_stance_ne (hr : relOf (s.procs p) sec = some r0) (hne : r ≠ r0) :
    (leaving q (s.critical p r0 (s.rels r0) sec).2).stance r = (inside lock sec).stance r := by
  cases sec with
  | announce success => cases success <;> rfl
  | poll _ _ | watch _ _ | orphan _ =>
    cases hr
    simp only [critical]
    split_ifs <;> simp [stance, Ne.symm hne]
  | cutTies =>
    simp only [critical]
    split_ifs <;> rfl

theorem critical_phase (lock : ProcRef) (hown : (inside lock sec).owns = some lock) :
    (leaving q (s.critical p r0 (s.rels r0) sec).2).phase = (inside lock sec).phase := by
  cases sec with
  | announce _ | cutTies => cases hown
  | poll _ _ | watch _ _ | orphan _ =>
    simp only [critical]
    split_ifs <;> rfl

theorem critical_elsewhere (h : s.Links) (hpc : (s.procs p).pc = .inside lock sec)
    (hr : relOf (s.procs p) sec = some r0) (hne : r ≠ r0) :
    (s.crossed p q r0 sec m).bond r = s.bond r := by
  have hw := s.crossed_rewrites p q r0 sec m
  have hrest := s.critical_rest p r0 (s.rels r0) sec
  have hfreed : (s.critical p r0 (s.rels r0) sec).1.freed = s.freed := by rw [hrest]
  have hloaded : (s.critical p r0 (s.rels r0) sec).1.loaded = s.loaded := by rw [hrest]
  have hended : (s.critical p r0 (s.rels r0) sec).1.ended = s.ended := by rw [hrest]
  refine hw.bond_eq (fun _ => ?_) (fun _ => s.mem_leftover_iff p _ sec hne) (fun hc => ?_)
    (congrFun hfreed r) (s.critical_rels_ne p _ sec hne) (congrFun hloaded r)
    fun c _ => congrFun hended c
  · rw [hpc]
    exact critical_stance_ne hr hne
  · rw [hpc]
    cases sec with
    | announce _ | cutTies => exact absurd (h.child_inj hc hr) hne
    | poll _ _ | watch _ _ | orphan _ => exact critical_phase lock rfl

theorem announce_follows (h : s.Links) {success : Bool}
    (hpc : (s.procs p).pc = .inside lock (.announce success))
    (hp : (s.procs p).parentInR = some r) :
    s.Follows p choice r (s.crossed p q r (.announce success) m) := by
  have hw := s.crossed_rewrites p q r (.announce success) m
  have hc := (h.child p r).mp hp
  have hended : (s.bond r).ended = s.ended p := by simp [bond, hc]
  refine .inr ⟨.announce, ?_, trivial⟩
  cases success with
  | true =>
    rw [hw.bond_child h hc rfl rfl (update_self ..) rfl rfl]
    exact hended ▸ .announceRunning (s.bond_phase hc hpc)
  | false =>
    rw [hw.bond_child h hc rfl rfl (update_self ..) rfl rfl]
    exact hended ▸ .announceFailed (s.bond_phase hc hpc)

theorem cutTies_follows (h : s.Links)
    (hpc : (s.procs p).pc = .inside lock .cutTies) (hp : (s.procs p).parentInR = some r) :
    s.Follows p choice r (s.crossed p q r .cutTies m) := by
  have hw := s.crossed_rewrites p q r .cutTies m
  have hc := (h.child p r).mp hp
  have hended : (s.bond r).ended = s.ended p := by simp [bond, hc]
  have hphase : (leaving q (s.critical p r (s.rels r) .cutTies).2).phase =
      .tied ((s.bond r).rel.pStatus = .exited) := by
    simp only [critical, bond]
    split_ifs with hx <;> simp [phase, hx]
  refine .inr ⟨.tie, ?_, trivial⟩
  rw [hw.bond_child h hc hphase rfl (update_self ..) rfl rfl]
  exact hended ▸ .tie (s.bond_phase hc hpc)

theorem poll_follows (h : s.Links) (hpc : (s.procs p).pc = .inside lock (.poll r tid)) :
    s.Follows p choice r (s.crossed p q r (.poll r tid) m) := by
  obtain ⟨howner, _⟩ := h.owner_of_uses hpc (mem_singleton_self r)
  have hstance := (s.bond_stance howner hpc).trans (if_pos rfl)
  have hw : ∀ next, s.Rewrites p { s.procs p with pc := .leaving q next }
      ((s.setLock q m).goto p (.leaving q next)) :=
    fun next => ⟨⟨rfl, rfl, rfl, rfl, rfl, rfl⟩, fun _ => rfl, rfl⟩
  have hdone : ∀ event, (s.rels r).cStatus ≠ .loading → s.Follows p choice r
      ((s.setLock q m).goto p (.leaving q (.done (.returning event)))) := by
    intro event hx
    refine .inr ⟨.settle, ?_, trivial⟩
    rw [(hw _).bond_owner h howner rfl (s.bond_member howner).symm rfl rfl rfl rfl]
    exact .settle tid hstance hx
  simp only [crossed, critical]
  split_ifs with hx hexit
  · exact .inl ((hw _).bond_eq (fun _ => by rw [hpc]; rfl) (fun _ => .rfl)
      (fun _ => by rw [hpc]; rfl) rfl rfl rfl fun _ _ => rfl)
  · exact hdone _ hx
  · exact hdone _ hx

theorem Linked.bond_not_tied (h : s.Linked)
    (hpc : (s.procs p).pc = .inside lock sec) (hown : (inside lock sec).owns = some lock)
    (hr : (s.rels r).statusLock = p) : (s.bond r).child ≠ some (.tied false) := by
  intro htied
  obtain ⟨c, hc, hphase⟩ := Option.map_eq_some_iff.mp htied
  exact h.not_leaving hpc hown hr hc hphase

theorem watch_follows (h : s.Linked) (hpc : (s.procs p).pc = .inside lock (.watch r tid)) :
    s.Follows p choice r (s.crossed p q r (.watch r tid) m) := by
  obtain ⟨howner, hmem⟩ := h.links.owner_of_uses hpc (mem_singleton_self r)
  have hw := s.crossed_rewrites p q r (.watch r tid) m
  unfold crossed at hw ⊢
  by_cases hx : (s.rels r).cStatus = .running
  · have hcrit : s.critical p r (s.rels r) (.watch r tid) = (s, .watch r tid) := if_pos hx
    rw [hcrit] at hw ⊢
    have hleft : s.leftover p r (s.rels r) (.watch r tid) = (s.procs p).childrenInR := if_pos hx
    exact .inl (hw.bond_eq (fun _ => by rw [hpc]; rfl) (fun _ => hleft ▸ .rfl)
      (fun _ => by rw [hpc]; rfl) rfl rfl rfl fun _ _ => rfl)
  · have hcrit : s.critical p r (s.rels r) (.watch r tid) =
        (s.unlink p r, .free r (.returning (.waited tid (s.rels r).wStatus))) := if_neg hx
    have hleft : s.leftover p r (s.rels r) (.watch r tid) = (s.procs p).childrenInR.erase r :=
      if_neg hx
    have hgone : decide (r ∈ (s.procs p).childrenInR.erase r) = false :=
      decide_eq_false (h.links.nodup p).not_mem_erase
    have htied := h.bond_not_tied hpc rfl howner
    rw [hcrit] at hw ⊢
    rw [hleft] at hw
    refine .inr ⟨.reap, ?_, lock, tid, hpc⟩
    rw [hw.bond_owner h.links howner (if_pos rfl) hgone rfl rfl rfl rfl]
    exact .reap (s.bond_stance howner hpc) ((s.bond_member howner).trans (decide_eq_true hmem)) hx
      htied

theorem orphan_follows (h : s.Linked) (hpc : (s.procs p).pc = .inside lock (.orphan r)) :
    s.Follows p choice r (s.crossed p q r (.orphan r) m) := by
  obtain ⟨howner, hmem⟩ := h.links.owner_of_uses hpc (mem_singleton_self r)
  have hw := s.crossed_rewrites p q r (.orphan r) m
  have hstance := s.bond_stance howner hpc
  have hmember := (s.bond_member howner).trans (decide_eq_true hmem)
  have hgone : decide (r ∈ (s.procs p).childrenInR.erase r) = false :=
    decide_eq_false (h.links.nodup p).not_mem_erase
  refine .inr ⟨.orphan, ?_, lock, hpc⟩
  by_cases hx : (s.rels r).cStatus = .exited
  · have hnext : (leaving q (s.critical p r (s.rels r) (.orphan r)).2).stance r = .freeing := by
      simp [critical, hx, stance]
    rw [hw.bond_owner h.links howner hnext hgone rfl (update_self ..) rfl rfl]
    exact .orphanFree hstance hmember hx (h.bond_not_tied hpc rfl howner)
  · have hnext : (leaving q (s.critical p r (s.rels r) (.orphan r)).2).stance r =
        (s.bond r).stance := by
      rw [hstance]
      simp [critical, hx, stance]
    rw [hw.bond_owner h.links howner hnext hgone rfl (update_self ..) rfl rfl]
    exact .orphanLeave hstance hmember hx

theorem critical_follows (h : s.Linked)
    (hpc : (s.procs p).pc = .inside lock sec) (hr : relOf (s.procs p) sec = some r0) (r : RelRef) :
    s.Follows p choice r (s.crossed p q r0 sec m) := by
  by_cases hne : r = r0
  · subst hne
    cases sec with
    | announce success => exact announce_follows h.links hpc hr
    | cutTies => exact cutTies_follows h.links hpc hr
    | poll _ tid =>
      cases hr
      exact poll_follows h.links hpc
    | watch _ tid =>
      cases hr
      exact watch_follows h hpc
    | orphan _ =>
      cases hr
      exact orphan_follows h hpc
  · exact .inl (critical_elsewhere h.links hpc hr hne)

theorem raise_follows (h : s.Links) {next : Next}
    (hpc : (s.procs p).pc = .leaving lock next) (r : RelRef) :
    s.Follows p choice r ((s.setLock lock .free).goto p next.pc) := by
  have hw : s.Rewrites p { s.procs p with pc := next.pc } ((s.setLock lock .free).goto p next.pc) :=
    ⟨⟨rfl, rfl, rfl, rfl, rfl, rfl⟩, fun _ => rfl, rfl⟩
  have hstance : next.pc.stance r = (s.procs p).pc.stance r := hpc ▸ stance_next lock next r
  by_cases hnext : next = .done .untied ∧ s.child r = some p
  · obtain ⟨rfl, hc⟩ := hnext
    refine .inr ⟨.untie, ?_, trivial⟩
    rw [hw.bond_child h hc rfl rfl rfl rfl rfl]
    have hended : (s.bond r).ended = s.ended p := by simp [bond, hc]
    exact hended ▸ .untie (s.bond_phase hc hpc)
  · refine .inl (hw.bond_eq (fun _ => hstance) (fun _ => .rfl) (fun hc => ?_) rfl rfl rfl
      fun _ _ => rfl)
    rw [hpc]
    exact phase_next lock next fun heq => hnext ⟨heq, hc⟩

theorem free_follows (h : s.Links) {after : After} (hpc : (s.procs p).pc = .freeing r0 after)
    (r : RelRef) : s.Follows p choice r ((s.countFree r0).goto p after.pc) := by
  have hw : s.Rewrites p { s.procs p with pc := after.pc } ((s.countFree r0).goto p after.pc) :=
    ⟨⟨rfl, rfl, rfl, rfl, rfl, rfl⟩, fun _ => rfl, rfl⟩
  have hcount : ((s.countFree r0).goto p after.pc).freed r0 = s.freed r0 + 1 := update_self ..
  have helse : r ≠ r0 → ((s.countFree r0).goto p after.pc).freed r = s.freed r :=
    fun hr => update_of_ne hr ..
  cases after with
  | untied =>
    have hp : (s.procs p).parentInR = some r0 := h.owes p r0 (by rw [hpc]; rfl)
    have hc := (h.child p r0).mp hp
    by_cases hr : r = r0
    · subst hr
      refine .inr ⟨.untie, ?_, trivial⟩
      rw [hw.bond_child h hc rfl hcount rfl rfl rfl]
      have hended : (s.bond r).ended = s.ended p := by simp [bond, hc]
      exact hended ▸ .childFree (s.bond_phase hc hpc)
    · exact .inl (hw.bond_eq (fun _ => by rw [hpc]; rfl) (fun _ => .rfl)
        (fun hmine => absurd (h.child_inj hmine hp) hr) (helse hr) rfl rfl fun _ _ => rfl)
  | orphaning | returning _ =>
    have hmine := (h.frees p r0 (by rw [hpc]; exact if_pos rfl)).2
    by_cases hr : r = r0
    · subst hr
      refine .inr ⟨.free, ?_, trivial⟩
      rw [hw.bond_owner h hmine rfl (s.bond_member hmine).symm hcount rfl rfl rfl]
      exact .free ((s.bond_stance hmine hpc).trans (if_pos rfl))
    · refine .inl (hw.bond_eq (fun _ => ?_) (fun _ => .rfl) (fun _ => by rw [hpc]; rfl)
        (helse hr) rfl rfl fun _ _ => rfl)
      rw [hpc]
      exact (if_neg (Ne.symm hr)).symm

theorem return_follows {event : Event} (hpc : (s.procs p).pc = .returning event)
    (r : RelRef) : s.Follows p choice r ((s.record p event).goto p .user) := by
  have hw : s.Rewrites p { s.procs p with pc := .user } ((s.record p event).goto p .user) :=
    ⟨⟨rfl, rfl, rfl, rfl, rfl, rfl⟩, fun _ => rfl, rfl⟩
  exact .inl (hw.bond_eq (fun _ => by rw [hpc]; rfl) (fun _ => .rfl) (fun _ => by rw [hpc]; rfl)
    rfl rfl rfl fun _ _ => rfl)

theorem allocate_bond (hpc : (s.procs p).pc = .user) (junk : Int)
    (hr : r < s.nextRel) : (s.allocate p junk).bond r = s.bond r := by
  have hw := s.allocate_writes p junk
  have hne : r ≠ s.nextRel := hr.ne
  refine hw.bond_eq (fun _ => ?_) (fun _ => ?_) (fun _ => by rw [hpc]; rfl)
    (update_of_ne hne ..) (update_of_ne hne ..) (update_of_ne hne ..)
    fun _ _ => rfl
  · rw [hpc]
    exact if_neg hne.symm
  · simp [hne]

theorem allocate_bond_fresh (h : s.Links) (junk : Int) :
    (s.allocate p junk).bond s.nextRel = .fresh p junk := by
  have hself := (s.allocate_writes p junk).procs_self
  have hchild : (s.allocate p junk).child s.nextRel = none := h.child_fresh
  have hrel : (s.allocate p junk).rels s.nextRel = ⟨junk, .running, .loading, -1, p⟩ :=
    update_self ..
  have hfreed : (s.allocate p junk).freed s.nextRel = 0 := update_self ..
  have hloaded : (s.allocate p junk).loaded s.nextRel = none := update_self ..
  simp [bond, Bond.fresh, hrel, hself, hchild, hfreed, hloaded, stance]

theorem Move.follows (h : s.Linked) (hm : Move s p choice s') (hr : r < s.nextRel) :
    s.Follows p choice r s' := by
  cases hm with
  | jump hj => exact hj.follows h.links r
  | allocate junk hpc => exact .inl (allocate_bond hpc junk hr)
  | exit status r0 hpc hp hf => exact exit_follows h.links status hpc hp r
  | die r0 hpc hp => exact die_follows h.links hpc hp r
  | create r0 hpc => exact create_follows h.links hpc hr
  | assign r0 tid hpc hf => exact assign_follows h.links hpc r
  | load success r0 hpc hp => exact load_follows h.links success hpc hp r
  | acquire sec r0 hpc => exact acquire_follows hpc r
  | critical lock sec r0 hpc hr0 => exact critical_follows h hpc hr0 r
  | raise lock next hpc => exact raise_follows h.links hpc r
  | free r0 after hpc => exact free_follows h.links hpc r
  | «return» event hpc => exact return_follows hpc r

theorem Move.bonds {P : Bond → Prop} (h : s.Linked) (hm : Move s p choice s')
    (hfresh : ∀ p junk, P (.fresh p junk)) (hP : ∀ r < s.nextRel, P (s.bond r))
    (hstep : ∀ r < s.nextRel, ∀ label, s.Cause p choice r label →
      BondStep (s.bond r) label (s'.bond r) → P (s.bond r) → P (s'.bond r)) :
    ∀ r < s'.nextRel, P (s'.bond r) := by
  have hold : ∀ r < s.nextRel, P (s'.bond r) := by
    intro r hr
    rcases hm.follows h hr with hsame | ⟨label, hb, hcause⟩
    · rw [hsame]
      exact hP r hr
    · exact hstep r hr label hcause hb (hP r hr)
  rcases hm.cases with ⟨junk, hpc, rfl⟩ | ⟨r, hpc, rfl⟩ | hw
  · intro r hr
    rcases Nat.lt_succ_iff_lt_or_eq.mp hr with hr | rfl
    · exact hold r hr
    · rw [allocate_bond_fresh h.links]
      exact hfresh p junk
  · exact hold
  · rw [hw.nextRel]
    exact hold

def Sound (s : ProcTable) : Prop := ∀ r < s.nextRel, (s.bond r).Sound

theorem sound_of_reachable (h : system.Reachable s) : s.Sound := by
  apply h.invariant
  · rintro s rfl r hr
    exact absurd hr (Nat.not_lt_zero r)
  · intro s a s' hreach ih hs
    exact (exec_move hs).bonds (linked_of_reachable hreach) Bond.fresh_sound ih
      fun r _ label _ hb hsound => hsound.step hb

end ProcTable

end Pintos.Userprog
