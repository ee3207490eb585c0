import Mathlib.Tactic.SplitIfs
import Pintos.Lib.Except
import Pintos.Userprog.Process

namespace Pintos.Userprog.ProcTable

open Lib Function

variable {s s' : ProcTable} {p q c : ProcRef} {r r0 : RelRef} {choice : Choice} {pc pc' : Pc}
  {x : Process}

@[simp] theorem goto_procs_self (s : ProcTable) (p : ProcRef) (pc : Pc) :
    (s.goto p pc).procs p = { s.procs p with pc := pc } := by
  simp [goto]

theorem goto_procs_ne (s : ProcTable) (pc : Pc) (h : q ≠ p) :
    (s.goto p pc).procs q = s.procs q := by
  simp [goto, h]

@[simp] theorem goto_rels (s : ProcTable) (p : ProcRef) (pc : Pc) : (s.goto p pc).rels = s.rels := rfl
@[simp] theorem goto_freed (s : ProcTable) (p : ProcRef) (pc : Pc) :
    (s.goto p pc).freed = s.freed := rfl
@[simp] theorem goto_locks (s : ProcTable) (p : ProcRef) (pc : Pc) :
    (s.goto p pc).locks = s.locks := rfl

theorem enabled_ok_iff {α : Type} {x : Option α} {a : α} : enabled x = .ok a ↔ x = some a := by
  cases x <;> simp [enabled]

theorem read_ok_iff {x : Relation} : s.read r = .ok x ↔ s.freed r = 0 ∧ s.rels r = x := by
  unfold read
  split_ifs with h <;> simp [h]

theorem useLock_ok_iff {f : Mutex ProcRef → Option (Mutex ProcRef)} : s.useLock q f = .ok s' ↔
      (s.procs q).pc ≠ .dead ∧ ∃ m, f (s.locks q) = some m ∧ s' = s.setLock q m := by
  unfold useLock
  split_ifs with hd
  · simp [hd]
  · simp only [bind_ok_iff, enabled_ok_iff, pure, Except.pure, Except.ok.injEq, ne_eq, hd,
      not_false_eq_true, true_and]
    exact exists_congr fun m => and_congr_right fun _ => eq_comm

inductive Jump (s : ProcTable) (p : ProcRef) : Choice → Pc → Pc → Prop
  | noPage : Jump s p .noPage .user (.returning (.executed none tidError))
  | wait (tid : Int) : Jump s p (.wait tid) .user (.searching tid (s.procs p).childrenInR)
  | noThread (r : RelRef) : Jump s p .noThread (.creating r) (.created r tidError)
  | notFound (tid : Int) : Jump s p .go (.searching tid []) (.returning (.waited tid (-1)))
  | found (r : RelRef) (rest : List RelRef) (hf : s.freed r = 0) :
      Jump s p .go (.searching (s.rels r).cId (r :: rest)) (.entering (.watch r (s.rels r).cId))
  | pass {tid : Int} (r : RelRef) (rest : List RelRef) (hf : s.freed r = 0)
      (hid : (s.rels r).cId ≠ tid) :
      Jump s p .go (.searching tid (r :: rest)) (.searching tid rest)
  | message (r : RelRef) (hp : (s.procs p).parentInR = some r) (hf : s.freed r = 0) :
      Jump s p .go .exiting (.entering .cutTies)
  | untied : Jump s p .go .untied .orphaning
  | childless (hl : (s.procs p).childrenInR = []) : Jump s p .go .orphaning .closing
  | orphan (r : RelRef) (rest : List RelRef) (hl : (s.procs p).childrenInR = r :: rest) :
      Jump s p .go .orphaning (.entering (.orphan r))
  | destroyed : Jump s p .go .closing .dead

inductive Move (s : ProcTable) (p : ProcRef) : Choice → ProcTable → Prop
  | jump {choice : Choice} {pc' : Pc} (h : Jump s p choice (s.procs p).pc pc') :
      Move s p choice (s.goto p pc')
  | allocate (junk : Int) (hpc : (s.procs p).pc = .user) :
      Move s p (.execute junk) (s.allocate p junk)
  | exit {choice : Choice} (status : Int) (r : RelRef) (hpc : (s.procs p).pc = .user)
      (hp : (s.procs p).parentInR = some r) (hf : s.freed r = 0) :
      Move s p choice
        (((s.setRel r ((s.rels r).setWStatus status)).finish p status).goto p .exiting)
  | die (r : RelRef) (hpc : (s.procs p).pc = .user) (hp : (s.procs p).parentInR = some r) :
      Move s p .die ((s.finish p (-1)).goto p .exiting)
  | create (r : RelRef) (hpc : (s.procs p).pc = .creating r) :
      Move s p .create (s.threadCreate p r)
  | assign (r : RelRef) (tid : Int) (hpc : (s.procs p).pc = .created r tid) (hf : s.freed r = 0) :
      Move s p .go ((s.setRel r ((s.rels r).setCId tid)).goto p (.entering (.poll r tid)))
  | load (success : Bool) (r : RelRef) (hpc : (s.procs p).pc = .loading)
      (hp : (s.procs p).parentInR = some r) :
      Move s p (.load success) ((s.setLoaded r success).goto p (.entering (.announce success)))
  | acquire (sec : Section) (r : RelRef) (hpc : (s.procs p).pc = .entering sec)
      (hr : relOf (s.procs p) sec = some r) (hf : s.freed r = 0)
      (hd : (s.procs (s.rels r).statusLock).pc ≠ .dead)
      (hl : s.locks (s.rels r).statusLock = .free) :
      Move s p .go ((s.setLock (s.rels r).statusLock (.held p)).goto p
        (.inside (s.rels r).statusLock sec))
  | critical (lock : ProcRef) (sec : Section) (r : RelRef)
      (hpc : (s.procs p).pc = .inside lock sec) (hr : relOf (s.procs p) sec = some r)
      (hf : s.freed r = 0) (hl : s.locks (s.rels r).statusLock = .held p) :
      Move s p .go (((s.critical p r (s.rels r) sec).1.setLock (s.rels r).statusLock
        (.passing p)).goto p
          (.leaving (s.rels r).statusLock (s.critical p r (s.rels r) sec).2))
  | raise (lock : ProcRef) (next : Next) (hpc : (s.procs p).pc = .leaving lock next)
      (hl : s.locks lock = .passing p) :
      Move s p .go ((s.setLock lock .free).goto p next.pc)
  | free (r : RelRef) (after : After) (hpc : (s.procs p).pc = .freeing r after)
      (hf : s.freed r = 0) :
      Move s p .go ((s.countFree r).goto p after.pc)
  | return (event : Event) (hpc : (s.procs p).pc = .returning event) :
      Move s p .go ((s.record p event).goto p .user)

theorem critical_rest (s : ProcTable) (p : ProcRef) (r : RelRef) (x : Relation) (sec : Section) :
    (s.critical p r x sec).1 = { s with
      procs := (s.critical p r x sec).1.procs
      rels := (s.critical p r x sec).1.rels } := by
  cases sec with
  | announce success => cases success <;> rfl
  | poll _ tid | watch _ tid =>
    simp only [critical]
    split_ifs <;> rfl
  | cutTies => rfl
  | orphan _ => rfl

theorem critical_locks (s : ProcTable) (p : ProcRef) (r : RelRef) (x : Relation) (sec : Section) :
    (s.critical p r x sec).1.locks = s.locks := by
  rw [critical_rest]

section Moves

-- The equations of exec are made once, for all the proofs below.
attribute [local simp] exec

theorem entering_move {sec : Section} (hpc : (s.procs p).pc = .entering sec)
    (h : s.exec p .go = .ok s') : Move s p .go s' := by
  simp only [exec, hpc, bind_ok_iff, enabled_ok_iff, read_ok_iff, useLock_ok_iff,
    Mutex.acquire_eq_some] at h
  obtain ⟨r, hr, x, ⟨hf, rfl⟩, s1, ⟨hd, m, ⟨hl, rfl⟩, rfl⟩, heq⟩ := h
  cases heq
  exact .acquire sec r hpc hr hf hd hl

theorem inside_move {lock : ProcRef} {sec : Section} (hpc : (s.procs p).pc = .inside lock sec)
    (h : s.exec p .go = .ok s') : Move s p .go s' := by
  simp only [exec, hpc, bind_ok_iff, enabled_ok_iff, read_ok_iff, useLock_ok_iff,
    Mutex.clear_eq_some] at h
  obtain ⟨r, hr, x, ⟨hf, rfl⟩, s1, ⟨_, m, ⟨hl, rfl⟩, rfl⟩, heq⟩ := h
  cases heq
  rw [critical_locks] at hl
  exact .critical lock sec r hpc hr hf hl

theorem user_move (hpc : (s.procs p).pc = .user) (h : s.exec p choice = .ok s') :
    Move s p choice s' := by
  cases choice with
  | execute junk =>
    simp only [exec, hpc, Except.ok.injEq] at h
    exact h ▸ .allocate junk hpc
  | noPage =>
    simp only [exec, hpc, Except.ok.injEq] at h
    exact h ▸ .jump (hpc ▸ .noPage)
  | wait tid =>
    simp only [exec, hpc, Except.ok.injEq] at h
    exact h ▸ .jump (hpc ▸ .wait tid)
  | exit status =>
    simp only [exec, hpc, bind_ok_iff, enabled_ok_iff, read_ok_iff] at h
    obtain ⟨r, hp, x, ⟨hf, rfl⟩, heq⟩ := h
    cases heq
    exact .exit status r hpc hp hf
  | kill =>
    simp only [exec, hpc, bind_ok_iff, enabled_ok_iff, read_ok_iff] at h
    obtain ⟨r, hp, x, ⟨hf, rfl⟩, heq⟩ := h
    cases heq
    exact .exit (-1) r hpc hp hf
  | die =>
    simp only [exec, hpc, bind_ok_iff, enabled_ok_iff] at h
    obtain ⟨r, hp, heq⟩ := h
    cases heq
    exact .die r hpc hp
  | go | create | noThread | load _ => simp [exec, hpc] at h

theorem searching_move {tid : Int} {rest : List RelRef}
    (hpc : (s.procs p).pc = .searching tid rest) (h : s.exec p .go = .ok s') :
    Move s p .go s' := by
  cases rest with
  | nil =>
    simp only [exec, hpc, Except.ok.injEq] at h
    exact h ▸ .jump (hpc ▸ .notFound tid)
  | cons r rest =>
    simp only [exec, hpc, bind_ok_iff, read_ok_iff] at h
    obtain ⟨x, ⟨hf, rfl⟩, h⟩ := h
    split_ifs at h with hid
    · cases h
      subst hid
      exact .jump (hpc ▸ .found r rest hf)
    · cases h
      exact .jump (hpc ▸ .pass r rest hf hid)

theorem orphaning_move (hpc : (s.procs p).pc = .orphaning) (h : s.exec p .go = .ok s') :
    Move s p .go s' := by
  simp only [exec, hpc] at h
  split at h
  · rename_i hl
    cases h
    exact .jump (hpc ▸ .childless hl)
  · rename_i r rest hl
    cases h
    exact .jump (hpc ▸ .orphan r rest hl)

theorem go_move (h : s.exec p .go = .ok s') : Move s p .go s' := by
  cases hpc : (s.procs p).pc with
  | created r tid =>
    simp only [exec, hpc, bind_ok_iff, read_ok_iff] at h
    obtain ⟨x, ⟨hf, rfl⟩, heq⟩ := h
    cases heq
    exact .assign r tid hpc hf
  | searching tid rest => exact searching_move hpc h
  | entering sec => exact entering_move hpc h
  | inside lock sec => exact inside_move hpc h
  | leaving lock next =>
    simp only [exec, hpc, bind_ok_iff, useLock_ok_iff, Mutex.raise_eq_some] at h
    obtain ⟨s1, ⟨_, m, ⟨hl, rfl⟩, rfl⟩, heq⟩ := h
    cases heq
    exact .raise lock next hpc hl
  | freeing r next =>
    simp only [exec, hpc, bind_ok_iff, read_ok_iff] at h
    obtain ⟨x, ⟨hf, rfl⟩, heq⟩ := h
    cases heq
    exact .free r next hpc hf
  | returning event =>
    simp only [exec, hpc, Except.ok.injEq] at h
    exact h ▸ .return event hpc
  | exiting =>
    simp only [exec, hpc, bind_ok_iff, enabled_ok_iff, read_ok_iff] at h
    obtain ⟨r, hp, x, ⟨hf, rfl⟩, heq⟩ := h
    cases heq
    exact .jump (hpc ▸ .message r hp hf)
  | untied =>
    simp only [exec, hpc, Except.ok.injEq] at h
    exact h ▸ .jump (hpc ▸ .untied)
  | orphaning => exact orphaning_move hpc h
  | closing =>
    simp only [exec, hpc, Except.ok.injEq] at h
    exact h ▸ .jump (hpc ▸ .destroyed)
  | absent | user | creating _ | loading | dead => simp [exec, hpc] at h

theorem exec_move (h : s.exec p choice = .ok s') : Move s p choice s' := by
  cases hpc : (s.procs p).pc with
  | user => exact user_move hpc h
  | creating r =>
    cases choice with
    | create =>
      simp only [exec, hpc, Except.ok.injEq] at h
      exact h ▸ .create r hpc
    | noThread =>
      simp only [exec, hpc, Except.ok.injEq] at h
      exact h ▸ .jump (hpc ▸ .noThread r)
    | _ => simp [exec, hpc] at h
  | loading =>
    cases choice with
    | load success =>
      simp only [exec, hpc, bind_ok_iff, enabled_ok_iff] at h
      obtain ⟨r, hp, heq⟩ := h
      cases heq
      exact .load success r hpc hp
    | _ => simp [exec, hpc] at h
  | _ =>
    cases choice with
    | go => exact go_move h
    | _ => simp [exec, hpc] at h

end Moves

def attempt (guard : ProcTable → ProcRef × Choice → Bool) (s : ProcTable)
    (a : ProcRef × Choice) : Option ProcTable :=
  if guard s a then (s.exec a.1 a.2).toOption else none

theorem exists_run (guard : ProcTable → ProcRef × Choice → Bool) (labels : List (ProcRef × Choice))
    (p : ProcTable → Bool) (h : System.leadsTo boot (attempt guard) labels p = true) :
    ∃ s, system.ReachableVia (fun s a => guard s a = true) s ∧ p s = true :=
  System.reachableVia_of_leadsTo boot (System.tryExec guard fun s a => s.exec a.1 a.2) labels p rfl
    (fun _ _ _ => System.tryExec_eq_some) h

def starts (p c : ProcRef) (success : Bool) : List (ProcRef × Choice) :=
  [(p, .execute 0), (p, .create), (p, .go), (c, .load success), (c, .go), (c, .go), (c, .go),
    (p, .go), (p, .go), (p, .go), (p, .go)]

structure Writes (s : ProcTable) (p : ProcRef) (x : Process) (s' : ProcTable) : Prop where
  procs : s'.procs = update s.procs p x
  tid : x.tid = (s.procs p).tid
  parentInR : x.parentInR = (s.procs p).parentInR
  child : s'.child = s.child
  nextProc : s'.nextProc = s.nextProc
  nextTid : s'.nextTid = s.nextTid

structure Rewrites (s : ProcTable) (p : ProcRef) (x : Process) (s' : ProcTable) : Prop
    extends s.Writes p x s' where
  statusLock : ∀ r, (s'.rels r).statusLock = (s.rels r).statusLock
  nextRel : s'.nextRel = s.nextRel

theorem Writes.procs_self (h : s.Writes p x s') : s'.procs p = x := by
  rw [h.procs, update_self]

theorem Writes.procs_ne (h : s.Writes p x s') (hq : q ≠ p) : s'.procs q = s.procs q := by
  rw [h.procs, update_of_ne hq]

theorem allocate_writes (s : ProcTable) (p : ProcRef) (junk : Int) : s.Writes p { s.procs p with
      childrenInR := (s.procs p).childrenInR ++ [s.nextRel]
      pc := .creating s.nextRel } (s.allocate p junk) :=
  ⟨rfl, rfl, rfl, rfl, rfl, rfl⟩

theorem goto_rewrites (s : ProcTable) (p : ProcRef) (pc : Pc) :
    s.Rewrites p { s.procs p with pc := pc } (s.goto p pc) :=
  ⟨⟨rfl, rfl, rfl, rfl, rfl, rfl⟩, fun _ => rfl, rfl⟩

theorem setRel_statusLock {y : Relation} (hy : y.statusLock = (s.rels r0).statusLock) (r : RelRef) :
    ((s.setRel r0 y).rels r).statusLock = (s.rels r).statusLock := by
  by_cases hr : r = r0
  · subst hr
    simpa using hy
  · simp [hr]

def leftover (s : ProcTable) (p : ProcRef) (r : RelRef) (x : Relation) : Section → List RelRef
  | .watch _ _ =>
    if x.cStatus = .running then (s.procs p).childrenInR else (s.procs p).childrenInR.erase r
  | .orphan _ => (s.procs p).childrenInR.erase r
  | _ => (s.procs p).childrenInR

theorem leftover_sublist (s : ProcTable) (p : ProcRef) (r : RelRef) (x : Relation)
    (sec : Section) : (s.leftover p r x sec).Sublist (s.procs p).childrenInR := by
  cases sec with
  | watch _ _ =>
    unfold leftover
    split_ifs
    · exact .refl _
    · exact List.erase_sublist
  | orphan _ => exact List.erase_sublist
  | _ => exact .refl _

theorem critical_procs (s : ProcTable) (p : ProcRef) (r : RelRef) (x : Relation) (sec : Section) :
    (s.critical p r x sec).1.procs =
      update s.procs p { s.procs p with childrenInR := s.leftover p r x sec } := by
  have hsame : s.procs = update s.procs p
      { s.procs p with childrenInR := (s.procs p).childrenInR } :=
    (update_eq_self p s.procs).symm
  cases sec with
  | announce success => cases success <;> exact hsame
  | poll _ tid =>
    simp only [critical]
    split_ifs <;> exact hsame
  | watch _ tid =>
    simp only [critical, leftover]
    split_ifs
    · exact hsame
    · rfl
  | cutTies => exact hsame
  | orphan _ => rfl

theorem critical_pc (s : ProcTable) (p u : ProcRef) (r : RelRef) (x : Relation) (sec : Section) :
    ((s.critical p r x sec).1.procs u).pc = (s.procs u).pc := by
  rw [critical_procs]
  by_cases hu : u = p
  · subst hu
    simp
  · simp [hu]

theorem critical_statusLock (s : ProcTable) (p : ProcRef) (r u : RelRef) (sec : Section) :
    ((s.critical p r (s.rels r) sec).1.rels u).statusLock = (s.rels u).statusLock := by
  cases sec with
  | announce success => cases success <;> exact setRel_statusLock (by rfl) u
  | poll _ tid | watch _ tid =>
    simp only [critical]
    split_ifs <;> rfl
  | cutTies | orphan _ => exact setRel_statusLock (by rfl) u

theorem critical_rels_ne (s : ProcTable) (p : ProcRef) (x : Relation) (sec : Section)
    (h : r ≠ r0) : (s.critical p r0 x sec).1.rels r = s.rels r := by
  cases sec with
  | announce success => cases success <;> simp [critical, h]
  | poll _ tid | watch _ tid =>
    simp only [critical]
    split_ifs <;> rfl
  | cutTies => simp [critical, h]
  | orphan _ => simp [critical, unlink, h]

theorem mem_leftover_iff (s : ProcTable) (p : ProcRef) (x : Relation) (sec : Section)
    (h : r ≠ r0) : r ∈ s.leftover p r0 x sec ↔ r ∈ (s.procs p).childrenInR := by
  cases sec with
  | watch _ _ =>
    unfold leftover
    split_ifs
    · exact .rfl
    · exact List.mem_erase_of_ne h
  | orphan _ => exact List.mem_erase_of_ne h
  | _ => exact .rfl

-- What `p` goes on from when it is done inside.
def crossed (s : ProcTable) (p q : ProcRef) (r : RelRef) (sec : Section) (m : Mutex ProcRef) :
    ProcTable :=
  ((s.critical p r (s.rels r) sec).1.setLock q m).goto p
    (.leaving q (s.critical p r (s.rels r) sec).2)

theorem crossed_pc (s : ProcTable) (p q : ProcRef) (r : RelRef) (sec : Section) (m : Mutex ProcRef) :
    ((s.crossed p q r sec m).procs p).pc = .leaving q (s.critical p r (s.rels r) sec).2 := by
  rw [crossed, goto_procs_self]

theorem crossed_rewrites (s : ProcTable) (p q : ProcRef) (r : RelRef) (sec : Section)
    (m : Mutex ProcRef) : s.Rewrites p { s.procs p with
      pc := .leaving q (s.critical p r (s.rels r) sec).2
      childrenInR := s.leftover p r (s.rels r) sec } (s.crossed p q r sec m) := by
  have hrest := s.critical_rest p r (s.rels r) sec
  have hchild : (s.critical p r (s.rels r) sec).1.child = s.child := by rw [hrest]
  have hproc : (s.critical p r (s.rels r) sec).1.nextProc = s.nextProc := by rw [hrest]
  have hrel : (s.critical p r (s.rels r) sec).1.nextRel = s.nextRel := by rw [hrest]
  have htid : (s.critical p r (s.rels r) sec).1.nextTid = s.nextTid := by rw [hrest]
  refine ⟨⟨?_, rfl, rfl, hchild, hproc, htid⟩, (s.critical_statusLock p r · sec), hrel⟩
  change update (s.critical p r (s.rels r) sec).1.procs p _ = _
  rw [critical_procs, update_idem]
  simp [critical_procs]

theorem Move.cases (hm : Move s p choice s') :
    (∃ junk, (s.procs p).pc = .user ∧ s' = s.allocate p junk) ∨
      (∃ r, (s.procs p).pc = .creating r ∧ s' = s.threadCreate p r) ∨
      s.Rewrites p (s'.procs p) s' := by
  cases hm with
  | allocate junk hpc => exact .inl ⟨junk, hpc, rfl⟩
  | create r hpc => exact .inr (.inl ⟨r, hpc, rfl⟩)
  | critical lock sec r hpc hr hf hl =>
    have hw := s.crossed_rewrites p (s.rels r).statusLock r sec (.passing p)
    exact .inr (.inr (hw.procs_self ▸ hw))
  | exit status r | assign r tid =>
    rw [goto_procs_self]
    exact .inr (.inr ⟨⟨rfl, rfl, rfl, rfl, rfl, rfl⟩, setRel_statusLock rfl, rfl⟩)
  | jump | die | load | acquire | raise | free | «return» =>
    rw [goto_procs_self]
    exact .inr (.inr ⟨⟨rfl, rfl, rfl, rfl, rfl, rfl⟩, fun _ => rfl, rfl⟩)

theorem Move.statusLock (hm : Move s p choice s') (hr : r < s.nextRel) :
    (s'.rels r).statusLock = (s.rels r).statusLock := by
  rcases hm.cases with ⟨junk, _, rfl⟩ | ⟨r, _, rfl⟩ | hw
  · simp [ProcTable.allocate, Nat.ne_of_lt hr]
  · rfl
  · exact hw.statusLock r

theorem Move.nextRel_le (hm : Move s p choice s') : s.nextRel ≤ s'.nextRel := by
  rcases hm.cases with ⟨junk, _, rfl⟩ | ⟨r, _, rfl⟩ | hw
  · exact Nat.le_succ s.nextRel
  · exact Nat.le_refl _
  · exact Nat.le_of_eq hw.nextRel.symm

end Pintos.Userprog.ProcTable
