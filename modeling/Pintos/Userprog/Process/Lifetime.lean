import Pintos.Userprog.Process.Refinement

namespace Pintos.Userprog.ProcTable

open Lib Except Option List Pc

variable {s s' : ProcTable} {p q c : ProcRef} {r : RelRef} {choice : Choice} {fault : ProcFault}
  {f : Mutex ProcRef → Option (Mutex ProcRef)} {sec : Section}

-- The record that the next step of a process looks at, and the process whose lock it uses.
def reads (x : Process) : Option RelRef :=
  match x.pc with
  | .user | .exiting => x.parentInR
  | .created r _ | .freeing r _ | .searching _ (r :: _) => some r
  | .entering sec | .inside _ sec => relOf x sec
  | _ => none

def usesLock (s : ProcTable) (p : ProcRef) : Option ProcRef :=
  match (s.procs p).pc with
  | .entering sec | .inside _ sec => (relOf (s.procs p) sec).map fun r => (s.rels r).statusLock
  | .leaving q _ => some q
  | _ => none

theorem enabled_error_iff {α : Type} {x : Option α} :
    enabled x = .error fault ↔ x = none ∧ fault = .disabled := by
  cases x <;> simp [enabled, eq_comm]

theorem read_error_iff : s.read r = .error fault ↔ s.freed r ≠ 0 ∧ fault = .useAfterFree := by
  unfold read
  split_ifs with h <;> simp [h, eq_comm]

theorem useLock_error (h : s.useLock q f = .error fault) :
    fault = .disabled ∨ fault = .destroyedLock ∧ (s.procs q).pc = .dead := by
  unfold useLock at h
  split_ifs at h with hd
  · cases h
    exact .inr ⟨rfl, hd⟩
  · simp only [bind_error_iff, enabled_error_iff] at h
    rcases h with ⟨_, h⟩ | ⟨_, _, h⟩
    · exact .inl h
    · cases h

def Blames (s : ProcTable) (p : ProcRef) : ProcFault → Prop
  | .disabled => True
  | .useAfterFree => ∃ r, reads (s.procs p) = some r ∧ s.freed r ≠ 0
  | .destroyedLock => ∃ q, s.usesLock p = some q ∧ (s.procs q).pc = .dead

theorem blames_read (hread : reads (s.procs p) = some r) (h : s.read r = .error fault) :
    s.Blames p fault := by
  obtain ⟨hf, rfl⟩ := read_error_iff.mp h
  exact ⟨r, hread, hf⟩

theorem blames_useLock {s1 : ProcTable}
    (hlock : s.usesLock p = some q) (hpc : ∀ u, (s1.procs u).pc = (s.procs u).pc)
    (h : s1.useLock q f = .error fault) : s.Blames p fault := by
  rcases useLock_error h with rfl | ⟨rfl, hd⟩
  · trivial
  · exact ⟨q, hlock, hpc q ▸ hd⟩

theorem entering_blames (hpc : (s.procs p).pc = .entering sec)
    (h : s.exec p .go = .error fault) : s.Blames p fault := by
  simp only [exec, hpc, bind_error_iff, enabled_ok_iff, enabled_error_iff, read_ok_iff] at h
  rcases h with ⟨_, rfl⟩ | ⟨r, hr, h | ⟨x, ⟨hf, rfl⟩, h | ⟨s1, hs1, h⟩⟩⟩
  · trivial
  · exact blames_read (by simp [reads, hpc, hr]) h
  · exact blames_useLock (by simp [usesLock, hpc, hr]) (fun _ => rfl) h
  · cases h

theorem inside_blames {lock : ProcRef} (hpc : (s.procs p).pc = .inside lock sec)
    (h : s.exec p .go = .error fault) : s.Blames p fault := by
  simp only [exec, hpc, bind_error_iff, enabled_ok_iff, enabled_error_iff, read_ok_iff] at h
  rcases h with ⟨_, rfl⟩ | ⟨r, hr, h | ⟨x, ⟨hf, rfl⟩, h | ⟨s1, hs1, h⟩⟩⟩
  · trivial
  · exact blames_read (by simp [reads, hpc, hr]) h
  · exact blames_useLock (by simp [usesLock, hpc, hr]) (fun u => critical_pc s p u r _ sec) h
  · cases h

theorem parent_blames {f : RelRef → Relation → ProcTable}
    (hread : reads (s.procs p) = (s.procs p).parentInR)
    (h : (do let r ← enabled (s.procs p).parentInR
             let x ← s.read r
             return f r x) = (.error fault : Except ProcFault ProcTable)) : s.Blames p fault := by
  simp only [bind_error_iff, enabled_ok_iff, enabled_error_iff, read_ok_iff] at h
  rcases h with ⟨_, rfl⟩ | ⟨r, hr, h | ⟨x, _, h⟩⟩
  · trivial
  · exact blames_read (hread.trans hr) h
  · cases h

theorem user_blames (hpc : (s.procs p).pc = .user) (h : s.exec p choice = .error fault) :
    s.Blames p fault := by
  have hread : reads (s.procs p) = (s.procs p).parentInR := by simp [reads, hpc]
  cases choice with
  | execute junk | noPage | wait tid => simp [exec, hpc] at h
  | exit status | kill =>
    simp only [exec, hpc] at h
    exact parent_blames hread h
  | die =>
    simp only [exec, hpc, bind_error_iff, enabled_error_iff] at h
    rcases h with ⟨_, rfl⟩ | ⟨_, _, h⟩
    · trivial
    · cases h
  | go | create | noThread | load _ =>
    simp only [exec, hpc, error.injEq] at h
    exact h ▸ trivial

theorem go_blames (h : s.exec p .go = .error fault) : s.Blames p fault := by
  cases hpc : (s.procs p).pc with
  | user => exact user_blames hpc h
  | entering sec => exact entering_blames hpc h
  | inside lock sec => exact inside_blames hpc h
  | created r tid | freeing r after =>
    simp only [exec, hpc, bind_error_iff, read_ok_iff] at h
    rcases h with h | ⟨x, _, h⟩
    · exact blames_read (by simp [reads, hpc]) h
    · cases h
  | searching tid rest =>
    cases rest with
    | nil => simp [exec, hpc] at h
    | cons r rest =>
      simp only [exec, hpc, bind_error_iff, read_ok_iff] at h
      rcases h with h | ⟨x, _, h⟩
      · exact blames_read (by simp [reads, hpc]) h
      · split_ifs at h <;> cases h
  | leaving lock next =>
    simp only [exec, hpc, bind_error_iff] at h
    rcases h with h | ⟨s1, _, h⟩
    · exact blames_useLock (by simp [usesLock, hpc]) (fun _ => rfl) h
    · cases h
  | exiting =>
    simp only [exec, hpc] at h
    exact parent_blames (by simp [reads, hpc]) h
  | orphaning =>
    simp only [exec, hpc] at h
    split at h <;> cases h
  | returning _ | untied | closing => simp [exec, hpc] at h
  | absent | creating _ | loading | dead =>
    simp only [exec, hpc, error.injEq] at h
    exact h ▸ trivial

theorem exec_blames (h : s.exec p choice = .error fault) : s.Blames p fault := by
  cases hpc : (s.procs p).pc with
  | user => exact user_blames hpc h
  | creating r =>
    cases choice with
    | create | noThread => simp [exec, hpc] at h
    | _ =>
      simp only [exec, hpc, error.injEq] at h
      exact h ▸ trivial
  | loading =>
    cases choice with
    | load success =>
      simp only [exec, hpc, bind_error_iff, enabled_error_iff] at h
      rcases h with ⟨_, rfl⟩ | ⟨_, _, h⟩
      · trivial
      · cases h
    | _ =>
      simp only [exec, hpc, error.injEq] at h
      exact h ▸ trivial
  | _ =>
    cases choice with
    | go => exact go_blames h
    | _ =>
      simp only [exec, hpc, error.injEq] at h
      exact h ▸ trivial

def cutOff (s : ProcTable) (r : RelRef) : Bool :=
  match s.child r with
  | some c => (s.procs c).pc.phase = .cut
  | none => true

-- The page of a parent is given back after its children have cut their ties, and the
-- record of a child that failed to load is unlinked after that child has.
def patient (s : ProcTable) (a : ProcRef × Choice) : Bool :=
  match (s.procs a.1).pc with
  | .closing => (List.range s.nextRel).all fun r => (s.rels r).statusLock ≠ a.1 || s.cutOff r
  | .inside _ (.watch r _) | .inside _ (.orphan r) => s.loaded r ≠ some false || s.cutOff r
  | _ => true

theorem bond_cut_of_cutOff (h : s.cutOff r = true) (hc : (s.bond r).child ≠ none) :
    (s.bond r).child = some .cut := by
  cases hcase : s.child r with
  | none => exact absurd (by simp [bond, hcase]) hc
  | some c =>
    simp only [cutOff, hcase, decide_eq_true_eq] at h
    simp [bond, hcase, h]

theorem cutOff_of_bond_cut (h : (s.bond r).child = some .cut) : s.cutOff r = true := by
  cases hcase : s.child r with
  | none => simp [bond, hcase] at h
  | some c =>
    simp only [bond, hcase, map_some, some.injEq] at h
    simp [cutOff, hcase, h]

def Emptied (s : ProcTable) : Prop :=
  ∀ p, (s.procs p).pc.finished = true → (s.procs p).childrenInR = []

theorem Jump.emptied (h : s.Emptied) {pc' : Pc} (hj : Jump s p choice (s.procs p).pc pc')
    (hover : pc'.finished = true) : (s.procs p).childrenInR = [] := by
  generalize hpc : (s.procs p).pc = pc at hj
  cases hj with
  | childless hl => exact hl
  | destroyed => exact h p (by rw [hpc]; rfl)
  | _ => cases hover

theorem Emptied.step (h : s.Emptied) (hk : s.Links) (hm : Move s p choice s') : s'.Emptied := by
  intro q hover
  by_cases hq : q = p
  · subst hq
    cases hm with
    | jump hj =>
      rw [goto_procs_self] at hover ⊢
      exact hj.emptied h hover
    | allocate junk => rw [(s.allocate_writes q junk).procs_self] at hover; cases hover
    | create r hpc => rw [threadCreate_procs_self hk hpc] at hover; cases hover
    | raise lock next =>
      rw [goto_procs_self] at hover
      exact absurd ((finished_next next).symm.trans hover) (by decide)
    | free r after =>
      rw [goto_procs_self] at hover
      cases after <;> cases hover
    | exit | die | assign | load | acquire | critical | «return» =>
      rw [goto_procs_self] at hover
      cases hover
  · rcases hm.elsewhere hk hq with hsame | ⟨_, r, hnew⟩
    · rw [hsame] at hover ⊢
      exact h q hover
    · rw [hnew]

theorem emptied_of_reachable (h : system.Reachable s) : s.Emptied := by
  apply h.invariant
  · rintro s rfl p hover
    rfl
  · exact fun s a s' hr ih hs => ih.step (linked_of_reachable hr).links (exec_move hs)

def Kept (s : ProcTable) : Prop := ∀ r < s.nextRel, (s.bond r).Kept

theorem patient_bond {label : BondLabel} (hsound : (s.bond r).Sound)
    (hg : s.patient (p, choice) = true) (hcause : s.Cause p choice r label) :
    (s.bond r).Patient label := by
  intro hlabel hload
  have hchild : (s.bond r).child ≠ none := by
    intro hnone
    rw [(hsound.childless hnone).2.1] at hload
    cases hload
  have hloaded : s.loaded r = some false := hload
  refine bond_cut_of_cutOff ?_ hchild
  rcases hlabel with rfl | rfl
  · obtain ⟨lock, tid, hpc⟩ := hcause
    simpa [patient, hpc, hloaded] using hg
  · obtain ⟨lock, hpc⟩ := hcause
    simpa [patient, hpc, hloaded] using hg

theorem kept_of_reachable (h : system.ReachableVia (fun s a => s.patient a = true) s) : s.Kept := by
  apply h.invariant
  · rintro s rfl r hr
    exact absurd hr (Nat.not_lt_zero r)
  · intro s a s' hr ih hg hs
    have hsound := sound_of_reachable hr.reachable
    exact (exec_move hs).bonds (linked_of_reachable hr.reachable) Bond.fresh_kept ih
      fun r hlt label hcause hb hkept =>
        hkept.step (hsound r hlt) (patient_bond (hsound r hlt) hg hcause) hb

theorem Follows.cut (h : s.Follows p choice r s') (hc : (s.bond r).child = some .cut) :
    (s'.bond r).child = some .cut := by
  rcases h with hsame | ⟨label, hb, _⟩
  · rw [hsame, hc]
  · exact Bond.cut_step hb hc

theorem Move.dead_of_dead (hk : s.Links) (hm : Move s p choice s') (hd : (s'.procs q).pc = .dead) :
    (s.procs q).pc = .dead ∨ q = p ∧ (s.procs p).pc = .closing := by
  by_cases hq : q = p
  · subst hq
    refine .inr ⟨rfl, ?_⟩
    cases hm with
    | jump hj =>
      rw [goto_procs_self] at hd
      generalize (s.procs q).pc = pc at hj
      cases hj <;> cases hd
      rfl
    | allocate junk => rw [(s.allocate_writes q junk).procs_self] at hd; cases hd
    | create r hpc => rw [threadCreate_procs_self hk hpc] at hd; cases hd
    | raise lock next =>
      rw [goto_procs_self] at hd
      have hover := finished_next next
      rw [show next.pc = .dead from hd] at hover
      cases hover
    | free r after =>
      rw [goto_procs_self] at hd
      cases after <;> cases hd
    | exit | die | assign | load | acquire | critical | «return» =>
      rw [goto_procs_self] at hd
      cases hd
  · rcases hm.elsewhere hk hq with hsame | ⟨_, r, hnew⟩
    · exact .inl (hsame ▸ hd)
    · rw [hnew] at hd
      cases hd

def Buried (s : ProcTable) : Prop :=
  ∀ r < s.nextRel, (s.procs (s.rels r).statusLock).pc = .dead → (s.bond r).child = some .cut

theorem Kept.cut_of_closing (h : s.Kept) (hempty : s.Emptied)
    (hg : s.patient (p, choice) = true) (hpc : (s.procs p).pc = .closing) (hr : r < s.nextRel)
    (howner : (s.rels r).statusLock = p) : (s.bond r).child = some .cut := by
  have hgone : (s.bond r).member = false := by
    rw [s.bond_member howner, hempty p (by rw [hpc]; rfl)]
    rfl
  have hchild : (s.bond r).child ≠ none := by
    intro hnone
    rw [(h r hr).childless hnone] at hgone
    cases hgone
  refine bond_cut_of_cutOff ?_ hchild
  simp only [patient, hpc, List.all_eq_true, List.mem_range] at hg
  simpa [howner] using hg r hr

theorem Buried.step (h : s.Buried) (hlink : s.Linked) (hkept : s.Kept) (hempty : s.Emptied)
    (hg : s.patient (p, choice) = true) (hm : Move s p choice s') : s'.Buried := by
  have hold : ∀ r < s.nextRel, (s'.procs (s'.rels r).statusLock).pc = .dead →
      (s'.bond r).child = some .cut := by
    intro r hr hd
    rw [hm.statusLock hr] at hd
    apply (hm.follows hlink hr).cut
    rcases hm.dead_of_dead hlink.links hd with hd | ⟨howner, hpc⟩
    · exact h r hr hd
    · exact hkept.cut_of_closing hempty hg hpc hr howner
  rcases hm.cases with ⟨junk, hpc, rfl⟩ | ⟨r, hpc, rfl⟩ | hw
  · intro r hr hd
    rcases Nat.lt_succ_iff_lt_or_eq.mp hr with hr | rfl
    · exact hold r hr hd
    · have howner : ((s.allocate p junk).rels s.nextRel).statusLock = p := by
        simp [ProcTable.allocate]
      rw [howner, (s.allocate_writes p junk).procs_self] at hd
      cases hd
  · exact hold
  · intro r hr
    exact hold r (hw.nextRel ▸ hr)

theorem buried_of_reachable (h : system.ReachableVia (fun s a => s.patient a = true) s) :
    s.Buried := by
  apply h.invariant
  · rintro s rfl r hr
    exact absurd hr (Nat.not_lt_zero r)
  · exact fun s a s' hr ih hg hs => ih.step (linked_of_reachable hr.reachable)
      (kept_of_reachable hr) (emptied_of_reachable hr.reachable) hg (exec_move hs)

theorem unfreed_of_uses (hlink : s.Linked) (hsound : s.Sound) (hr : r ∈ (s.procs p).pc.uses) :
    s.freed r = 0 := by
  obtain ⟨howner, hmem⟩ := hlink.links.owner_of_uses rfl hr
  have hlt := (hlink.links.children p r hmem).1
  exact ((hsound r hlt).member ((s.bond_member howner).trans (decide_eq_true hmem))).1

theorem unfreed_of_parent (hlink : s.Linked) (hkept : s.Kept)
    (hp : (s.procs p).parentInR = some r) (hphase : (s.procs p).pc.phase ≠ .cut) :
    s.freed r = 0 := by
  have hc := (hlink.links.child p r).mp hp
  have hlt := (hlink.links.parent r p hc).1
  exact ((hkept r hlt).live _ (s.bond_phase hc rfl) hphase).1

theorem unfreed_of_freeing (hlink : s.Linked) (hsound : s.Sound) (hkept : s.Kept)
    (hp : (s.procs p).pc.stance r = .freeing) : s.freed r = 0 := by
  obtain ⟨hlt, howner⟩ := hlink.links.frees p r hp
  have hstance : (s.bond r).stance = .freeing := (s.bond_stance howner rfl).trans hp
  have hgone := (hsound r hlt).freeing hstance
  have hcut : (s.bond r).child = some .cut := by
    cases hc : (s.bond r).child with
    | none =>
      rw [(hkept r hlt).childless hc] at hgone
      cases hgone
    | some phase =>
      by_contra hne
      exact ((hkept r hlt).live phase hc fun heq => hne (heq ▸ rfl)).2.1 hstance
  rcases (hkept r hlt).finished hgone hcut with ⟨_, hfreed⟩ | ⟨hidle, _⟩
  · exact hfreed
  · rw [hstance] at hidle
    cases hidle

theorem section_cases {sec : Section} (hpc : (s.procs p).pc = .entering sec ∨
      ∃ lock, (s.procs p).pc = .inside lock sec) (hr : relOf (s.procs p) sec = some r) :
    r ∈ (s.procs p).pc.uses ∨ (s.procs p).parentInR = some r ∧ (s.procs p).pc.phase ≠ .cut := by
  cases sec with
  | announce _ | cutTies =>
    refine .inr ⟨hr, ?_⟩
    rcases hpc with hpc | ⟨lock, hpc⟩ <;> rw [hpc] <;> simp [phase]
  | poll _ _ | watch _ _ | orphan _ =>
    cases hr
    refine .inl ?_
    rcases hpc with hpc | ⟨lock, hpc⟩ <;> rw [hpc] <;> exact mem_singleton_self r

theorem unfreed_of_reads (hlink : s.Linked) (hsound : s.Sound) (hkept : s.Kept)
    (hr : reads (s.procs p) = some r) : s.freed r = 0 := by
  have hsection : ∀ sec, ((s.procs p).pc = .entering sec ∨
      ∃ lock, (s.procs p).pc = .inside lock sec) → relOf (s.procs p) sec = some r →
      s.freed r = 0 := by
    intro sec hpc hrel
    rcases section_cases hpc hrel with huses | ⟨hp, hphase⟩
    · exact unfreed_of_uses hlink hsound huses
    · exact unfreed_of_parent hlink hkept hp hphase
  cases hpc : (s.procs p).pc with
  | user | exiting =>
    simp only [reads, hpc] at hr
    exact unfreed_of_parent hlink hkept hr (by rw [hpc]; decide)
  | created r' tid =>
    simp only [reads, hpc, some.injEq] at hr
    exact unfreed_of_uses hlink hsound (p := p) (by simp [hpc, uses, hr])
  | searching tid rest =>
    cases rest with
    | nil => simp [reads, hpc] at hr
    | cons r' rest =>
      simp only [reads, hpc, some.injEq] at hr
      exact unfreed_of_uses hlink hsound (p := p) (by simp [hpc, uses, hr])
  | freeing r' after =>
    simp only [reads, hpc, some.injEq] at hr
    subst hr
    cases after with
    | untied =>
      have hp := hlink.links.owes p r' (by rw [hpc]; rfl)
      exact unfreed_of_parent hlink hkept hp (by simp [hpc, phase])
    | orphaning | returning _ =>
      exact unfreed_of_freeing hlink hsound hkept (p := p) (by rw [hpc]; exact if_pos rfl)
  | entering sec =>
    simp only [reads, hpc] at hr
    exact hsection sec (.inl hpc) hr
  | inside lock sec =>
    simp only [reads, hpc] at hr
    exact hsection sec (.inr ⟨lock, hpc⟩) hr
  | _ => simp [reads, hpc] at hr

theorem Buried.owner_alive (h : s.Buried) (hlink : s.Links)
    (hp : (s.procs p).parentInR = some r) (hphase : (s.procs p).pc.phase ≠ .cut) :
    (s.procs (s.rels r).statusLock).pc ≠ .dead := by
  intro hd
  have hc := (hlink.child p r).mp hp
  have hcut := h r (hlink.parent r p hc).1 hd
  rw [s.bond_phase hc rfl, some.injEq] at hcut
  exact hphase hcut

theorem owner_of_usesLock (hlink : s.Linked) (hburied : s.Buried)
    (hq : s.usesLock p = some q) : (s.procs q).pc ≠ .dead := by
  have hsection : ∀ sec, ((s.procs p).pc = .entering sec ∨
      ∃ lock, (s.procs p).pc = .inside lock sec) →
      (relOf (s.procs p) sec).map (fun r => (s.rels r).statusLock) = some q →
      (s.procs q).pc ≠ .dead := by
    intro sec hpc hrel
    obtain ⟨r, hr, rfl⟩ := map_eq_some_iff.mp hrel
    rcases section_cases hpc hr with huses | ⟨hp, hphase⟩
    · rw [(hlink.links.owner_of_uses rfl huses).1]
      rcases hpc with hpc | ⟨lock, hpc⟩ <;> simp [hpc]
    · exact hburied.owner_alive hlink.links hp hphase
  cases hpc : (s.procs p).pc with
  | entering sec =>
    simp only [usesLock, hpc] at hq
    exact hsection sec (.inl hpc) hq
  | inside lock sec =>
    simp only [usesLock, hpc] at hq
    exact hsection sec (.inr ⟨lock, hpc⟩) hq
  | leaving lock next =>
    simp only [usesLock, hpc, some.injEq] at hq
    subst hq
    rcases borrows_or_owns lock next with ⟨hb, hphase⟩ | ho
    · obtain ⟨r, hp, rfl⟩ := hlink.housed.borrows p lock (hpc ▸ hb)
      exact hburied.owner_alive hlink.links hp (hpc ▸ hphase)
    · rw [hlink.housed.owns p lock (hpc ▸ ho), hpc]
      simp
  | _ => simp [usesLock, hpc] at hq

-- Both parties are through with the record: the parent has unlinked it and is not about
-- to free it, the child has cut its ties.
def finished (s : ProcTable) (r : RelRef) : Bool :=
  r ∉ (s.procs (s.rels r).statusLock).childrenInR &&
    (s.procs (s.rels r).statusLock).pc.stance r ≠ .freeing && s.cutOff r

theorem finished_iff (hchild : (s.bond r).child ≠ none) :
    s.finished r = true ↔ (s.bond r).member = false ∧ (s.bond r).stance ≠ .freeing ∧
      (s.bond r).child = some .cut := by
  have hcut : s.cutOff r = true ↔ (s.bond r).child = some .cut :=
    ⟨fun h => bond_cut_of_cutOff h hchild, cutOff_of_bond_cut⟩
  rw [← hcut]
  simp [finished, bond, and_assoc]

theorem freed_eq (hsound : (s.bond r).Sound) (hkept : (s.bond r).Kept) :
    s.freed r = if s.finished r then 1 else 0 := by
  by_cases hm : (s.bond r).member = true
  · have hfin : ¬ s.finished r = true := by
      intro hfin
      simp only [finished, Bool.and_eq_true, decide_eq_true_eq] at hfin
      rw [s.bond_member rfl, decide_eq_true_eq] at hm
      exact hfin.1.1 hm
    rw [if_neg hfin]
    exact (hsound.member hm).1
  · have hgone : (s.bond r).member = false := Bool.eq_false_iff.mpr hm
    have hchild : (s.bond r).child ≠ none := fun hnone => hm (hkept.childless hnone)
    have hiff := finished_iff hchild
    obtain ⟨phase, hc⟩ := ne_none_iff_exists'.mp hchild
    by_cases hphase : phase = .cut
    · subst hphase
      rcases hkept.finished hgone hc with ⟨hst, hfreed⟩ | ⟨hst, hfreed⟩
      · rw [if_neg fun hfin => (hiff.mp hfin).2.1 hst]
        exact hfreed
      · rw [if_pos (hiff.mpr ⟨hgone, by simp [hst], hc⟩)]
        exact hfreed
    · rw [if_neg fun hfin => hphase (some.inj (hc.symm.trans (hiff.mp hfin).2.2))]
      exact (hkept.live phase hc hphase).1

theorem finished_of_dead (hburied : s.Buried) (hempty : s.Emptied) (hr : r < s.nextRel)
    (hd : (s.procs (s.rels r).statusLock).pc = .dead) : s.finished r = true := by
  have hcut := hburied r hr hd
  rw [finished_iff (by simp [hcut])]
  refine ⟨?_, ?_, hcut⟩
  · rw [s.bond_member rfl, hempty _ (by rw [hd]; rfl)]
    rfl
  · rw [s.bond_stance rfl hd]
    simp [stance]

-- While parents are patient no step uses a record that was freed or a lock that is gone,
-- and a record is freed once: when both parties are through with it, which they are by
-- the time the parent's page is given back.
theorem relation_freed_once_of_patient
    (h : system.ReachableVia (fun s a => s.patient a = true) s) :
    (∀ p choice, s.exec p choice ≠ .error .useAfterFree ∧
      s.exec p choice ≠ .error .destroyedLock) ∧
    (∀ r < s.nextRel, s.freed r = if s.finished r then 1 else 0) ∧
    ∀ r < s.nextRel, (s.procs (s.rels r).statusLock).pc = .dead → s.freed r = 1 := by
  have hlink := linked_of_reachable h.reachable
  have hsound := sound_of_reachable h.reachable
  have hkept := kept_of_reachable h
  have hburied := buried_of_reachable h
  refine ⟨fun p choice => ⟨fun herr => ?_, fun herr => ?_⟩, fun r hr => ?_, fun r hr hd => ?_⟩
  · obtain ⟨r, hr, hf⟩ := exec_blames herr
    exact hf (unfreed_of_reads hlink hsound hkept hr)
  · obtain ⟨q, hq, hd⟩ := exec_blames herr
    exact owner_of_usesLock hlink hburied hq hd
  · exact freed_eq (hsound r hr) (hkept r hr)
  · have hfin := finished_of_dead hburied (emptied_of_reachable h.reachable) hr hd
    rw [freed_eq (hsound r hr) (hkept r hr), if_pos hfin]

-- Process 1 starts process 2, exits without a wait, and is gone when process 2 exits.
-- In the second run the main thread waits for the child that failed to load, with the
-- c_id that process_execute returned, before the child has printed its exit message.
theorem relation_lifetime_broken :
    (∃ s, system.Reachable s ∧ s.exec 2 .go = .error .destroyedLock) ∧
      ∃ s, system.Reachable s ∧ s.exec 1 .go = .error .useAfterFree := by
  constructor
  · obtain ⟨s, hr, hs⟩ := exists_run (fun _ _ => true)
      (starts 0 1 true ++ starts 1 2 true ++ (1, .exit 0) :: replicate 11 (1, .go) ++
        [(2, .exit 0), (2, .go)])
      (fun s => faultOf (s.exec 2 .go) = some .destroyedLock) (by decide +kernel)
    exact ⟨s, hr.reachable, eq_error_of_faultOf (of_decide_eq_true hs)⟩
  · obtain ⟨s, hr, hs⟩ := exists_run (fun _ _ => true)
      (starts 0 1 false ++ (0, .wait tidError) :: replicate 5 (0, .go))
      (fun s => faultOf (s.exec 1 .go) = some .useAfterFree) (by decide +kernel)
    exact ⟨s, hr.reachable, eq_error_of_faultOf (of_decide_eq_true hs)⟩

-- Process 1 starts process 2 and exits; process 2 finds it gone from the record, frees it
-- and cuts its ties before the page of process 1 is given back.
theorem relation_freed_once_of_patient_handoff :
    ∃ s, system.ReachableVia (fun s a => s.patient a = true) s ∧
      (s.procs 1).pc = .dead ∧ s.finished 1 = true ∧ s.freed 1 = 1 ∧
      ∀ p choice, s.exec p choice ≠ .error .useAfterFree := by
  obtain ⟨s, hr, hs⟩ := exists_run patient
    (starts 0 1 true ++ starts 1 2 true ++ (1, .exit 0) :: replicate 10 (1, .go) ++
      (2, .exit 0) :: replicate 5 (2, .go) ++ [(1, .go)])
    (fun s => (s.procs 1).pc = .dead ∧ 1 < s.nextRel ∧ s.finished 1 = true) (by decide +kernel)
  obtain ⟨hdead, hlt, hfin⟩ := of_decide_eq_true hs
  obtain ⟨hsafe, hfreed, _⟩ := relation_freed_once_of_patient hr
  refine ⟨s, hr, hdead, hfin, ?_, fun p choice => (hsafe p choice).1⟩
  rw [hfreed 1 hlt, if_pos hfin]

end Pintos.Userprog.ProcTable
