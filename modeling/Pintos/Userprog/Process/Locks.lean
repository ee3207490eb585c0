import Pintos.Userprog.Process.Links

namespace Pintos.Userprog.ProcTable

open Function Lib Pc Mutex

variable {s s' : ProcTable} {p q c : ProcRef} {r : RelRef} {choice : Choice} {pc pc' : Pc}
  {sec : Section}

def Guarded (s : ProcTable) : Prop :=
  ∀ q, (s.locks q).Guards (Pc.lockPhase q) fun p => (s.procs p).pc

theorem goto_pc (s : ProcTable) (p : ProcRef) (pc : Pc) :
    (fun u => ((s.goto p pc).procs u).pc) = update (fun u => (s.procs u).pc) p pc := by
  funext u
  by_cases hu : u = p
  · subst hu
    simp
  · simp [goto_procs_ne, hu]

theorem Guarded.congr (h : s.Guarded) (hl : s'.locks = s.locks)
    (hpc : ∀ u, (s'.procs u).pc = (s.procs u).pc) : s'.Guarded := by
  intro q u
  change lockPhase q (s'.procs u).pc = (s'.locks q).phaseOf u
  rw [hl, hpc]
  exact h q u

theorem Guarded.goto (h : s.Guarded)
    (hpc : ∀ q, pc'.lockPhase q = (s.procs p).pc.lockPhase q) : (s.goto p pc').Guarded := by
  intro q
  rw [goto_pc]
  exact (h q).stays (hpc q)

theorem Guarded.lock (h : s.Guarded) {m : Mutex ProcRef}
    (hm : m.phaseOf = update (s.locks q).phaseOf p (pc'.lockPhase q))
    (hpc : ∀ q', q' ≠ q → pc'.lockPhase q' = (s.procs p).pc.lockPhase q') :
    ((s.setLock q m).goto p pc').Guarded := by
  intro q'
  rw [goto_pc, goto_locks, setLock_locks]
  by_cases hq : q' = q
  · subst hq
    rw [update_self]
    exact (h q').moved hm
  · rw [update_of_ne hq]
    exact (h q').stays (hpc q' hq)

theorem Jump.lockPhase (h : Jump s p choice pc pc') (q : ProcRef) :
    pc'.lockPhase q = pc.lockPhase q := by
  cases h <;> rfl

theorem Guarded.inside_eq (h : s.Guarded) {lock : ProcRef}
    (hpc : (s.procs p).pc = .inside lock sec) (hl : s.locks q = .held p) : lock = q := by
  have hphase : lockPhase q (s.procs p).pc = (s.locks q).phaseOf p := h q p
  rw [hl, phaseOf_eq_inside.mpr rfl, hpc] at hphase
  by_contra hne
  simp [lockPhase, hne] at hphase

theorem Guarded.step (h : s.Guarded) (hk : s.Links) (hm : Move s p choice s') : s'.Guarded := by
  cases hm with
  | jump hj => exact h.goto hj.lockPhase
  | allocate junk hpc =>
    have hgoto : (s.goto p (.creating s.nextRel)).Guarded := h.goto fun q => by rw [hpc]; rfl
    refine hgoto.congr rfl fun u => ?_
    by_cases hu : u = p
    · subst hu
      simp [allocate]
    · simp [allocate, goto_procs_ne, hu]
  | exit status r hpc | die r hpc | assign r tid hpc | load success r hpc | «return» event hpc =>
    exact (h.congr rfl fun _ => rfl).goto fun q => by simp [hpc, lockPhase]
  | create r hpc =>
    intro q u
    change lockPhase q ((s.threadCreate p r).procs u).pc = (s.locks q).phaseOf u
    rw [← h q u]
    by_cases hu : u = s.nextProc
    · rw [hu, threadCreate_procs_new hk hpc]
      change Phase.outside = lockPhase q (s.procs s.nextProc).pc
      rw [(hk.absent s.nextProc le_rfl).1]
      rfl
    · by_cases hup : u = p
      · subst hup
        rw [threadCreate_procs_self hk hpc]
        change Phase.outside = lockPhase q (s.procs u).pc
        rw [hpc]
        rfl
      · rw [threadCreate_procs_ne s r hup hu]
  | acquire sec r hpc hr hf hd hl =>
    apply h.lock
    · have hinside : lockPhase (s.rels r).statusLock
          (.inside (s.rels r).statusLock sec) = .inside := if_pos rfl
      rw [hl, hinside, update_free]
    · intro q' hq
      rw [hpc]
      exact if_neg hq.symm
  | critical lock sec r hpc hr hf hl =>
    have hlock := h.inside_eq hpc hl
    have hsame : (s.critical p r (s.rels r) sec).1.Guarded :=
      h.congr (critical_locks s p r _ sec) fun u => critical_pc s p u r _ sec
    apply hsame.lock
    · have hleaving : lockPhase (s.rels r).statusLock
          (.leaving (s.rels r).statusLock (s.critical p r (s.rels r) sec).2) = .leaving :=
        if_pos rfl
      rw [critical_locks, hl, hleaving, update_held]
    · intro q' hq
      rw [critical_pc, hpc, hlock]
      exact (if_neg hq.symm).trans (if_neg hq.symm).symm
  | raise lock next hpc hl =>
    apply h.lock
    · rw [hl, lockPhase_next, update_passing]
    · intro q' hq
      rw [hpc, lockPhase_next]
      exact (if_neg hq.symm).symm
  | free r after hpc =>
    exact (h.congr rfl fun _ => rfl).goto fun q => by
      rw [lockPhase_after]
      simp [hpc, lockPhase]

structure Housed (s : ProcTable) : Prop where
  borrows : ∀ p lock, (s.procs p).pc.borrows = some lock →
    ∃ r, (s.procs p).parentInR = some r ∧ (s.rels r).statusLock = lock
  owns : ∀ p lock, (s.procs p).pc.owns = some lock → lock = p

theorem Housed.moved {x : Process} (h : s.Housed) (hw : s.Rewrites p x s')
    (hborrows : ∀ lock, x.pc.borrows = some lock →
      ∃ r, (s.procs p).parentInR = some r ∧ (s.rels r).statusLock = lock)
    (howns : ∀ lock, x.pc.owns = some lock → lock = p) : s'.Housed := by
  constructor
  · intro u lock hu
    by_cases hup : u = p
    · subst hup
      rw [hw.procs_self] at hu
      obtain ⟨r, hr, hlock⟩ := hborrows lock hu
      exact ⟨r, by rw [hw.procs_self, hw.parentInR, hr], (hw.statusLock r).trans hlock⟩
    · rw [hw.procs_ne hup] at hu ⊢
      obtain ⟨r, hr, hlock⟩ := h.borrows u lock hu
      exact ⟨r, hr, (hw.statusLock r).trans hlock⟩
  · intro u lock hu
    by_cases hup : u = p
    · subst hup
      rw [hw.procs_self] at hu
      exact howns lock hu
    · rw [hw.procs_ne hup] at hu
      exact h.owns u lock hu

theorem Housed.goto (h : s.Housed) (hw : s.Rewrites p { s.procs p with pc := pc' } s')
    (hb : pc'.borrows = none) (ho : pc'.owns = none) : s'.Housed := by
  refine h.moved hw (fun lock hlock => ?_) (fun lock hlock => ?_)
  · rw [hb] at hlock
    cases hlock
  · rw [ho] at hlock
    cases hlock

theorem Jump.borrows {pc : Pc} (h : Jump s p choice pc pc') :
    pc'.borrows = none ∧ pc'.owns = none := by
  cases h <;> exact ⟨rfl, rfl⟩

section

variable (h : s.Housed) (hk : s.Links)
include h hk

theorem Housed.allocate (junk : Int) : (s.allocate p junk).Housed := by
  have hself := (s.allocate_writes p junk).procs_self
  have hother : ∀ u, u ≠ p → (s.allocate p junk).procs u = s.procs u :=
    fun u => (s.allocate_writes p junk).procs_ne
  constructor
  · intro u lock hu
    by_cases hup : u = p
    · rw [hup, hself] at hu
      cases hu
    · rw [hother u hup] at hu ⊢
      obtain ⟨r, hr, hlock⟩ := h.borrows u lock hu
      have hlt := (hk.parent r u ((hk.child u r).mp hr)).1
      exact ⟨r, hr, by simpa [ProcTable.allocate, hlt.ne] using hlock⟩
  · intro u lock hu
    by_cases hup : u = p
    · rw [hup, hself] at hu
      cases hu
    · rw [hother u hup] at hu
      exact h.owns u lock hu

theorem Housed.create (hpc : (s.procs p).pc = .creating r) : (s.threadCreate p r).Housed := by
  have hself := threadCreate_procs_self hk hpc
  have hnew := threadCreate_procs_new hk hpc
  constructor
  · intro u lock hu
    by_cases hn : u = s.nextProc
    · rw [hn, hnew] at hu
      cases hu
    · by_cases hup : u = p
      · rw [hup, hself] at hu
        cases hu
      · rw [threadCreate_procs_ne s r hup hn] at hu ⊢
        exact h.borrows u lock hu
  · intro u lock hu
    by_cases hn : u = s.nextProc
    · rw [hn, hnew] at hu
      cases hu
    · by_cases hup : u = p
      · rw [hup, hself] at hu
        cases hu
      · rw [threadCreate_procs_ne s r hup hn] at hu
        exact h.owns u lock hu

theorem acquire_housed (hpc : (s.procs p).pc = .entering sec) (hr : relOf (s.procs p) sec = some r)
    (hw : s.Rewrites p { s.procs p with pc := .inside (s.rels r).statusLock sec } s') :
    s'.Housed := by
  refine h.moved hw ?_ ?_
  · intro lock hlock
    cases sec with
    | announce _ | cutTies =>
      cases hlock
      exact ⟨r, hr, rfl⟩
    | _ => cases hlock
  · intro lock hlock
    cases sec with
    | announce _ | cutTies => cases hlock
    | poll _ _ | watch _ _ | orphan _ =>
      cases hlock
      cases hr
      exact (hk.owner_of_uses hpc (List.mem_singleton_self r)).1

theorem critical_housed {lock : ProcRef} {x : Process}
    (hpc : (s.procs p).pc = .inside lock sec) (hr : relOf (s.procs p) sec = some r)
    (hx : x.pc = .leaving (s.rels r).statusLock (s.critical p r (s.rels r) sec).2)
    (hw : s.Rewrites p x s') : s'.Housed := by
  refine h.moved hw ?_ ?_
  · intro lock hlock
    rw [hx] at hlock
    cases sec with
    | announce success =>
      cases success <;> cases hlock <;> exact ⟨r, hr, rfl⟩
    | cutTies =>
      simp only [critical] at hlock
      split_ifs at hlock <;> cases hlock <;> exact ⟨r, hr, rfl⟩
    | poll _ _ | watch _ _ | orphan _ =>
      simp only [critical] at hlock
      split_ifs at hlock <;> cases hlock
  · intro lock hlock
    rw [hx] at hlock
    cases sec with
    | announce success => cases success <;> cases hlock
    | cutTies =>
      simp only [critical] at hlock
      split_ifs at hlock <;> cases hlock
    | poll _ _ | watch _ _ | orphan _ =>
      cases hr
      have hmine := (hk.owner_of_uses hpc (List.mem_singleton_self r)).1
      simp only [critical] at hlock
      split_ifs at hlock <;> cases hlock <;> exact hmine

theorem Housed.step (hm : Move s p choice s') : s'.Housed := by
  cases hm with
  | jump hj => exact h.goto (s.goto_rewrites p _) hj.borrows.1 hj.borrows.2
  | allocate junk hpc => exact h.allocate hk junk
  | create r hpc => exact h.create hk hpc
  | exit status r | assign r tid =>
    exact h.goto ⟨⟨rfl, rfl, rfl, rfl, rfl, rfl⟩, setRel_statusLock rfl, rfl⟩ rfl rfl
  | die r | load success r | «return» event =>
    exact h.goto ⟨⟨rfl, rfl, rfl, rfl, rfl, rfl⟩, fun _ => rfl, rfl⟩ rfl rfl
  | acquire sec r hpc hr hf hd hl =>
    exact acquire_housed h hk hpc hr ⟨⟨rfl, rfl, rfl, rfl, rfl, rfl⟩, fun _ => rfl, rfl⟩
  | critical lock sec r hpc hr hf hl =>
    exact critical_housed h hk hpc hr rfl (s.crossed_rewrites p _ r sec _)
  | raise lock next hpc hl =>
    exact h.goto ⟨⟨rfl, rfl, rfl, rfl, rfl, rfl⟩, fun _ => rfl, rfl⟩ (borrows_next next).1
      (borrows_next next).2
  | free r after hpc =>
    refine h.goto ⟨⟨rfl, rfl, rfl, rfl, rfl, rfl⟩, fun _ => rfl, rfl⟩ ?_ ?_ <;>
      cases after <;> rfl

end

theorem boot_guarded : boot.Guarded := by
  intro q p
  change lockPhase q (if p = 0 then .user else .absent) = .outside
  split_ifs <;> rfl

theorem boot_housed : boot.Housed := by
  have hpc : ∀ p, (boot.procs p).pc = .user ∨ (boot.procs p).pc = .absent := fun p => by
    by_cases hp : p = 0
    · exact .inl (if_pos hp)
    · exact .inr (if_neg hp)
  constructor
  · intro p lock hlock
    rcases hpc p with h | h <;> rw [h] at hlock <;> cases hlock
  · intro p lock hlock
    rcases hpc p with h | h <;> rw [h] at hlock <;> cases hlock

structure Linked (s : ProcTable) : Prop where
  links : s.Links
  guarded : s.Guarded
  housed : s.Housed

theorem Linked.step (h : s.Linked) (hm : Move s p choice s') : s'.Linked :=
  ⟨h.links.step hm, h.guarded.step h.links hm, h.housed.step h.links hm⟩

theorem linked_of_reachable (h : system.Reachable s) : s.Linked := by
  apply h.invariant
  · rintro s rfl
    exact ⟨boot_links, boot_guarded, boot_housed⟩
  · exact fun s a s' _ ih hs => ih.step (exec_move hs)

theorem Linked.not_leaving (h : s.Linked) {lock : ProcRef}
    (hpc : (s.procs p).pc = .inside lock sec) (hown : (inside lock sec).owns = some lock)
    (hr : (s.rels r).statusLock = p) (hc : s.child r = some c) :
    (s.procs c).pc.phase ≠ .tied false := by
  intro hphase
  obtain ⟨lock', hleave⟩ := eq_of_tied_false hphase
  have hlock : lock = p := h.housed.owns p lock (hpc ▸ hown)
  obtain ⟨r', hr', hlock'⟩ := h.housed.borrows c lock' (by rw [hleave]; rfl)
  have hsame : lock' = p := by rw [← hlock', ← h.links.child_inj hc hr', hr]
  have hin : lockPhase p (s.procs p).pc = .inside := by
    rw [hpc, hlock]
    exact if_pos rfl
  have hout : lockPhase p (s.procs c).pc = .leaving := by
    rw [hleave, hsame]
    exact if_pos rfl
  have hheld := (h.guarded p).held hin
  have hpass := phaseOf_eq_leaving.mp ((h.guarded p c).symm.trans hout)
  rw [hheld] at hpass
  cases hpass

end Pintos.Userprog.ProcTable
