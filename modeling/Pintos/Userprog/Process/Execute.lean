import Pintos.Userprog.Process.History

namespace Pintos.Userprog.ProcTable

open Lib

variable {s s' : ProcTable} {p q c : ProcRef} {r : RelRef} {choice : Choice} {event : Event}
  {tid : Int} {labels : List (ProcRef × Choice)} {strict : Bool}

def prompt (s : ProcTable) (a : ProcRef × Choice) : Bool :=
  match (s.procs a.1).pc, a.2 with
  | .creating _, .noThread => false
  | .created r _, _ => ¬ (s.loaded r = some false ∧ (s.rels r).cStatus = .exited)
  | _, _ => true

theorem prompt_bond {label : BondLabel} (hg : s.prompt (p, choice) = true)
    (hcause : s.Cause p choice r label) : (s.bond r).Prompt label := by
  constructor
  · rintro rfl
    obtain ⟨rfl, hpc⟩ := hcause
    simp [prompt, hpc] at hg
  · rintro rfl
    obtain ⟨tid, hpc⟩ := hcause
    simp only [prompt, hpc, decide_eq_true_eq] at hg
    exact hg

def Attended (s : ProcTable) : Prop := ∀ r < s.nextRel, (s.bond r).Attended

theorem attended_of_reachable (h : system.ReachableVia (fun s a => s.prompt a = true) s) :
    s.Attended := by
  apply h.invariant
  · rintro s rfl r hr
    exact absurd hr (Nat.not_lt_zero r)
  · intro s a s' hr ih hg hs
    have hsound := sound_of_reachable hr.reachable
    exact (exec_move hs).bonds (linked_of_reachable hr.reachable) Bond.fresh_attended ih
      fun r hlt label hcause hb hatt => hatt.step (hsound r hlt) (prompt_bond hg hcause) hb

theorem Links.owner_of_polling (h : s.Links) (hp : (s.procs p).pc.stance r = .polling tid) :
    r < s.nextRel ∧ (s.rels r).statusLock = p ∧ (s.procs p).pc ≠ .dead := by
  have huses : r ∈ (s.procs p).pc.uses := by
    generalize (s.procs p).pc = pc at hp
    unfold Pc.stance at hp
    split at hp <;> grind [Pc.uses]
  obtain ⟨howner, hmem⟩ := h.owner_of_uses rfl huses
  refine ⟨(h.children p r hmem).1, howner, fun hd => ?_⟩
  rw [hd] at huses
  cases huses

def announceRank : Pc → Nat
  | .loading => 2
  | .entering (.announce _) => 1
  | _ => 0

theorem Sound.unannounced (h : s.Sound) (hr : r < s.nextRel) (hc : s.child r = some c)
    (hx : (s.rels r).cStatus = .loading) :
    (s.procs c).pc = .loading ∨ ∃ success, (s.procs c).pc = .entering (.announce success) ∨
      ∃ lock, (s.procs c).pc = .inside lock (.announce success) := by
  have hshows := (h r hr).shows _ (s.bond_phase hc rfl)
  have hstatus : (s.bond r).rel.cStatus = .loading := hx
  rw [hstatus] at hshows
  generalize (s.procs c).pc = pc at hshows
  unfold Pc.phase at hshows
  split at hshows <;> grind [Bond.Shows]

theorem announce_step (hlink : s.Linked) (hsound : s.Sound) (hr : r < s.nextRel)
    (hc : s.child r = some c) (hx : (s.rels r).cStatus = .loading) (hm : Move s c choice s')
    (hx' : (s'.rels r).cStatus = .loading) :
    announceRank (s'.procs c).pc < announceRank (s.procs c).pc := by
  have hp := (hlink.links.child c r).mpr hc
  have hplace := hsound.unannounced hr hc hx
  cases hm with
  | jump hj =>
    rcases hplace with hpc | ⟨success, hpc | ⟨lock, hpc⟩⟩ <;> rw [hpc] at hj <;> cases hj
  | load success r' hpc =>
    rw [goto_procs_self, hpc]
    exact Nat.lt_succ_self 1
  | acquire sec r' hpc =>
    obtain ⟨success, rfl⟩ : ∃ success, sec = .announce success := by grind
    rw [goto_procs_self, hpc]
    exact Nat.lt_succ_self 0
  | critical lock sec r' hpc hrel =>
    obtain ⟨success, rfl⟩ : ∃ success, sec = .announce success := by grind
    cases hrel.symm.trans hp
    cases success <;> simp [critical, goto] at hx'
  | allocate | exit | die | create | assign | raise | free | «return» => grind

theorem announce_progress (hs : system.Reachable s) (hr : r < s.nextRel) (hc : s.child r = some c)
    (hx : (s.rels r).cStatus = .loading) (h : system.Trace s labels s')
    (hcount : 2 < labels.countP fun a => a.1 = c) :
    ∃ before after m, labels = before ++ after ∧ system.Trace s before m ∧
      (m.rels r).cStatus ≠ .loading := by
  refine h.reaches
    (fun m => system.Reachable m ∧ r < m.nextRel ∧ m.child r = some c ∧
      (m.rels r).cStatus = .loading)
    (fun m => (m.rels r).cStatus ≠ .loading) (fun a => a.1 = c)
    (fun m => announceRank (m.procs c).pc) ?_ ⟨hs, hr, hc, hx⟩ (lt_of_le_of_lt ?_ hcount)
  · rintro m a m' ⟨hm, hr, hc, hx⟩ hstep
    have hlink := linked_of_reachable hm
    have hmove := exec_move hstep
    by_cases hx' : (m'.rels r).cStatus = .loading
    · have hr' := lt_of_lt_of_le hr hmove.nextRel_le
      have hown : a.1 = c → announceRank (m'.procs c).pc < announceRank (m.procs c).pc := by
        rintro rfl
        exact announce_step hlink (sound_of_reachable hm) hr hc hx hmove hx'
      have hother : a.1 ≠ c → m'.procs c = m.procs c := by
        intro hne
        rcases hmove.elsewhere hlink.links hne.symm with hsame | ⟨hnew, _⟩
        · exact hsame
        · exact absurd hnew (hlink.links.child_lt hc).ne
      refine .inr ⟨⟨hm.next hstep, hr', hmove.child hlink.links hc, hx'⟩, ?_, fun ha => ?_⟩
      · by_cases ha : a.1 = c
        · exact (hown ha).le
        · rw [hother ha]
      · exact hown (of_decide_eq_true ha)
    · exact .inl hx'
  · unfold announceRank
    split <;> decide

theorem announce_enabled (hlink : s.Linked) (hsound : s.Sound)
    (hp : (s.procs p).pc.stance r = .polling tid) (hc : s.child r = some c)
    (hx : (s.rels r).cStatus = .loading) (hfree : s.locks p = .free) :
    ∃ choice s', s.exec c choice = .ok s' := by
  obtain ⟨hr, howner, halive⟩ := hlink.links.owner_of_polling hp
  have hparent := (hlink.links.child c r).mpr hc
  have hstance : (s.bond r).stance = .polling tid := (s.bond_stance howner rfl).trans hp
  have hmember := ((hsound r hr).busy tid (by rw [hstance]; rfl)).1
  have hfreed : s.freed r = 0 := ((hsound r hr).member hmember).1
  rcases hsound.unannounced hr hc hx with hpc | ⟨success, hpc | ⟨lock, hpc⟩⟩
  · refine ⟨.load true, (s.setLoaded r true).goto c (.entering (.announce true)), ?_⟩
    simp only [exec, hpc, hparent, enabled]
    rfl
  · refine ⟨.go, (s.setLock p (.held c)).goto c (.inside p (.announce success)), ?_⟩
    simp only [exec, hpc, relOf, hparent, enabled, bind, Except.bind, read, hfreed, if_true,
      useLock, howner, halive, if_false, hfree, Mutex.acquire]
    rfl
  · obtain ⟨r', hr', hlock⟩ := hlink.housed.borrows c lock (by rw [hpc]; rfl)
    have hsame : lock = p := by rw [← hlock, ← hlink.links.child_inj hc hr', howner]
    have hheld := (hlink.guarded p).held (t := c) (by rw [hpc, hsame]; exact if_pos rfl)
    rw [hfree] at hheld
    cases hheld

def Truthful (strict : Bool) (s : ProcTable) : Event → Prop
  | .executed none tid => tid = tidError
  | .executed (some r) tid => r < s.nextRel ∧ ∃ c, s.child r = some c ∧
      (s.loaded r = some true ∧ tid = (s.procs c).tid ∨
        s.loaded r = some false ∧ (strict = true → tid = tidError))
  | .waited _ _ => True

theorem Move.loaded {success : Bool} (hlink : s.Linked) (hsound : s.Sound)
    (hm : Move s p choice s') (hr : r < s.nextRel) (hl : s.loaded r = some success) :
    s'.loaded r = some success := by
  rcases hm.follows hlink hr with hsame | ⟨label, hb, _⟩
  · have hloaded : (s'.bond r).loaded = (s.bond r).loaded := by rw [hsame]
    exact hloaded.trans hl
  · exact (hsound r hr).loaded_step hb hl

theorem Truthful.step (hlink : s.Linked) (hsound : s.Sound)
    (hm : Move s p choice s') (h : Truthful strict s event) : Truthful strict s' event := by
  cases event with
  | waited _ _ => trivial
  | executed rel tid =>
    cases rel with
    | none => exact h
    | some r =>
      obtain ⟨hr, c, hc, hres⟩ := h
      refine ⟨lt_of_lt_of_le hr hm.nextRel_le, c, hm.child hlink.links hc, ?_⟩
      rw [hm.tid hlink.links (hlink.links.child_lt hc)]
      rcases hres with ⟨hl, ht⟩ | ⟨hl, ht⟩
      · exact .inl ⟨hm.loaded hlink hsound hr hl, ht⟩
      · exact .inr ⟨hm.loaded hlink hsound hr hl, ht⟩

theorem bond_tid (s : ProcTable) (hc : s.child r = some c) : (s.bond r).tid = (s.procs c).tid := by
  simp [bond, hc]

theorem child_of_bond (h : (s.bond r).child ≠ none) : ∃ c, s.child r = some c := by
  cases hc : s.child r with
  | none => exact absurd (by simp [bond, hc]) h
  | some c => exact ⟨c, rfl⟩

theorem Reports.truthful (hlink : s.Linked) (hsound : s.Sound)
    (hatt : strict = true → s.Attended) (h : s.Reports p event) : Truthful strict s event := by
  cases h with
  | noPage => rfl
  | notFound | reaped => trivial
  | failed lock r tid hpc hx =>
    have hpoll : (s.procs p).pc.stance r = .polling tid := by rw [hpc]; exact if_pos rfl
    obtain ⟨hr, howner, _⟩ := hlink.links.owner_of_polling hpoll
    have hstance := (s.bond_stance howner rfl).trans hpoll
    obtain ⟨hchild, hres⟩ := (hsound r hr).of_polling hstance (hx ▸ by decide)
    obtain ⟨c, hc⟩ := child_of_bond hchild
    refine ⟨hr, c, hc, ?_⟩
    rw [s.bond_tid hc] at hres
    rcases hres with ⟨hl, _, hid⟩ | ⟨hl, _⟩
    · exact .inl ⟨hl, hid⟩
    · exact .inr ⟨hl, fun hstrict => (hatt hstrict r hr).failed (by rw [hstance]; rfl) hl hx⟩
  | started lock r tid hpc hl hx =>
    have hpoll : (s.procs p).pc.stance r = .polling tid := by rw [hpc]; exact if_pos rfl
    obtain ⟨hr, howner, _⟩ := hlink.links.owner_of_polling hpoll
    have hstance := (s.bond_stance howner rfl).trans hpoll
    obtain ⟨hchild, hres⟩ := (hsound r hr).of_polling hstance hl
    obtain ⟨c, hc⟩ := child_of_bond hchild
    refine ⟨hr, c, hc, ?_⟩
    rw [s.bond_tid hc] at hres
    rcases hres with ⟨hl, ht, _⟩ | ⟨_, hexit⟩
    · exact .inl ⟨hl, ht⟩
    · exact absurd hexit hx

theorem boot_history (p : ProcRef) : boot.history p = [] := by
  by_cases hp : p = 0 <;> simp [history, boot, hp, Pc.pending]

theorem truthful_of_reachable (strict : Bool) {guard : ProcTable → ProcRef × Choice → Prop}
    (hguard : strict = true → ∀ s, system.ReachableVia guard s → s.Attended)
    (h : system.ReachableVia guard s) : ∀ p, ∀ event ∈ s.history p, Truthful strict s event := by
  apply h.invariant
  · rintro s rfl p event hmem
    rw [boot_history] at hmem
    cases hmem
  · intro s a s' hr ih hg hs
    have hlink := linked_of_reachable hr.reachable
    have hsound := sound_of_reachable hr.reachable
    have hm := exec_move hs
    exact hm.events (Q := fun s _ event => Truthful strict s event) hlink.links ih
      (fun q event hq => hq.step hlink hsound hm)
      (fun event hrep => hrep.truthful hlink hsound fun hstrict => hguard hstrict s hr)

-- While thread_create succeeds and returns in time, a process_execute that waits has a
-- child that can end the wait, and what it returns is the outcome of the load.
theorem execute_reports_load_of_prompt
    (h : system.ReachableVia (fun s a => s.prompt a = true) s) :
    (∀ p r tid, (s.procs p).pc.stance r = .polling tid → (s.rels r).cStatus = .loading →
      ∃ c, s.child r = some c ∧ (s.locks p = .free → ∃ choice s', s.exec c choice = .ok s') ∧
        ∀ labels s', system.Trace s labels s' → 2 < labels.countP (fun a => a.1 = c) →
          ∃ before after m, labels = before ++ after ∧ system.Trace s before m ∧
            (m.rels r).cStatus ≠ .loading) ∧
    ∀ p rel tid, .executed rel tid ∈ s.history p →
      match rel with
      | none => tid = tidError
      | some r => ∃ c, s.child r = some c ∧
          (s.loaded r = some true ∧ tid = (s.procs c).tid ∨
            s.loaded r = some false ∧ tid = tidError) := by
  have hlink := linked_of_reachable h.reachable
  have hsound := sound_of_reachable h.reachable
  constructor
  · intro p r tid hp hx
    obtain ⟨hr, howner, _⟩ := hlink.links.owner_of_polling hp
    have hstance : (s.bond r).stance = .polling tid := (s.bond_stance howner rfl).trans hp
    have hchild := (attended_of_reachable h r hr).child (by rw [hstance]; simp)
    obtain ⟨c, hc⟩ := child_of_bond hchild
    exact ⟨c, hc, announce_enabled hlink hsound hp hc hx,
      fun labels s' htrace hcount => announce_progress h.reachable hr hc hx htrace hcount⟩
  · intro p rel tid hmem
    have htrue := truthful_of_reachable true (fun _ _ hr => attended_of_reachable hr) h p _ hmem
    cases rel with
    | none => exact htrue
    | some r =>
      obtain ⟨_, c, hc, hres⟩ := htrue
      exact ⟨c, hc, hres.imp_right fun hfail => ⟨hfail.1, hfail.2 rfl⟩⟩

theorem unattended_forever
    (hs : system.Reachable s) (hr : r < s.nextRel) (hp : (s.bond r).stance = .polling tid)
    (hc : (s.bond r).child = none) (hx : (s.bond r).rel.cStatus = .loading)
    (h : system.Trace s labels s') : s'.bond r = s.bond r := by
  induction h with
  | nil => rfl
  | @cons s m s' a labels hstep _ ih =>
    have hm := exec_move hstep
    have hsame : m.bond r = s.bond r := by
      rcases hm.follows (linked_of_reachable hs) hr with hsame | ⟨label, hb, _⟩
      · exact hsame
      · exact absurd hb (Bond.not_step_of_unattended hp hc hx)
    have hrest := ih (hs.next hstep) (lt_of_lt_of_le hr hm.nextRel_le)
    rw [hsame] at hrest
    exact hrest hp hc hx

-- When thread_create finds no page, its caller polls for good. When the child records its
-- failed load before the caller stores the tid, the tid is what process_execute returns.
theorem execute_misreports :
    (∃ s r tid, system.Reachable s ∧ (s.procs 0).pc.stance r = .polling tid ∧
      ∀ labels s', system.Trace s labels s' → (s'.rels r).cStatus = .loading) ∧
    ∃ s r tid, system.Reachable s ∧ .executed (some r) tid ∈ s.history 0 ∧
      s.loaded r = some false ∧ tid ≠ tidError := by
  constructor
  · obtain ⟨s, hr, hs⟩ := exists_run (fun _ _ => true)
      [(0, .execute 0), (0, .noThread), (0, .go)]
      (fun s => 0 < s.nextRel ∧ (s.procs 0).pc.stance 0 = .polling tidError ∧
        (s.bond 0).stance = .polling tidError ∧ (s.bond 0).child = none ∧
        (s.bond 0).rel.cStatus = .loading) (by decide +kernel)
    obtain ⟨hlt, hpoll, hstance, hchild, hloading⟩ := of_decide_eq_true hs
    refine ⟨s, 0, tidError, hr.reachable, hpoll, fun labels s' htrace => ?_⟩
    have hsame := unattended_forever hr.reachable hlt hstance hchild hloading htrace
    have hrel : (s'.bond 0).rel.cStatus = .loading := by rw [hsame, hloading]
    exact hrel
  · obtain ⟨s, hr, hs⟩ := exists_run (fun _ _ => true)
      [(0, .execute 0), (0, .create), (1, .load false), (1, .go), (1, .go), (1, .go), (0, .go),
        (0, .go), (0, .go)]
      (fun s => .executed (some 0) 3 ∈ s.history 0 ∧ s.loaded 0 = some false)
      (by decide +kernel)
    obtain ⟨hmem, hload⟩ := of_decide_eq_true hs
    exact ⟨s, 0, 3, hr.reachable, hmem, hload, by decide⟩

-- One child that fails to load, one that loads, and one that is still loading.
theorem execute_reports_load_of_prompt_three :
    ∃ s, system.ReachableVia (fun s a => s.prompt a = true) s ∧
      .executed (some 0) tidError ∈ s.history 0 ∧ s.loaded 0 = some false ∧
      .executed (some 1) 4 ∈ s.history 0 ∧ s.loaded 1 = some true ∧
      (∃ c, s.child 1 = some c ∧ (s.procs c).tid = 4) ∧
      (s.procs 0).pc.stance 2 = .polling 5 ∧ ∃ c, s.child 2 = some c := by
  obtain ⟨s, hr, hs⟩ := exists_run prompt
    (starts 0 1 false ++ starts 0 2 true ++ [(0, .execute 0), (0, .create), (0, .go)])
    (fun s => .executed (some 0) tidError ∈ s.history 0 ∧ s.loaded 0 = some false ∧
      .executed (some 1) 4 ∈ s.history 0 ∧ s.loaded 1 = some true ∧
      (s.procs 0).pc.stance 2 = .polling 5 ∧ (s.rels 2).cStatus = .loading) (by decide +kernel)
  obtain ⟨hfail, hload, hran, hloaded, hpoll, hloading⟩ := of_decide_eq_true hs
  obtain ⟨hwaits, hreports⟩ := execute_reports_load_of_prompt hr
  obtain ⟨c, hc, hres⟩ := hreports 0 (some 1) 4 hran
  obtain ⟨c', hc', _⟩ := hwaits 0 2 5 hpoll hloading
  refine ⟨s, hr, hfail, hload, hran, hloaded, ⟨c, hc, ?_⟩, hpoll, c', hc'⟩
  rcases hres with ⟨_, htid⟩ | ⟨hfalse, _⟩
  · exact htid.symm
  · rw [hloaded] at hfalse
    cases hfalse

end Pintos.Userprog.ProcTable
