import Mathlib.Data.List.Nodup
import Mathlib.Data.Nat.Basic
import Mathlib.Order.Basic
import Pintos.Userprog.Process.Bond
import Pintos.Userprog.Process.Frames

namespace Pintos.Userprog

open Lib Pc Function List

namespace Pc

def stance (r : RelRef) : Pc → Stance
  | .creating r' => if r' = r then .creating else .idle
  | .created r' tid => if r' = r then .assigning tid else .idle
  | .entering (.poll r' tid) | .inside _ (.poll r' tid)
  | .leaving _ (.poll r' tid) => if r' = r then .polling tid else .idle
  | .freeing r' .orphaning | .freeing r' (.returning _) | .leaving _ (.free r' .orphaning)
  | .leaving _ (.free r' (.returning _)) => if r' = r then .freeing else .idle
  | _ => .idle

def phase : Pc → ChildPhase
  | .loading => .loading
  | .entering (.announce success) | .inside _ (.announce success) => .announcing success
  | .exiting | .entering .cutTies | .inside _ .cutTies | .leaving _ .exiting => .exiting
  | .leaving _ (.done .untied) => .tied false
  | .leaving _ (.free _ .untied) | .freeing _ .untied => .tied true
  | .untied | .orphaning | .entering (.orphan _) | .inside _ (.orphan _)
  | .leaving _ (.done .orphaning) | .leaving _ (.free _ .orphaning) | .freeing _ .orphaning
  | .closing | .dead => .cut
  | _ => .alive

def lockPhase (q : ProcRef) : Pc → Phase
  | .inside lock _ => if lock = q then .inside else .outside
  | .leaving lock _ => if lock = q then .leaving else .outside
  | _ => .outside

def uses : Pc → List RelRef
  | .creating r | .created r _ | .entering (.poll r _) | .entering (.watch r _)
  | .entering (.orphan r) | .inside _ (.poll r _) | .inside _ (.watch r _) | .inside _ (.orphan r)
  | .leaving _ (.poll r _) | .leaving _ (.watch r _) => [r]
  | .searching _ rest => rest
  | _ => []

def owes : Pc → Option RelRef
  | .leaving _ (.free r .untied) | .freeing r .untied => some r
  | _ => none

def borrows : Pc → Option ProcRef
  | .inside lock (.announce _) | .inside lock .cutTies | .leaving lock .user
  | .leaving lock .exiting | .leaving lock (.done .untied) | .leaving lock (.free _ .untied) =>
    some lock
  | _ => none

def owns : Pc → Option ProcRef
  | .inside lock (.poll _ _) | .inside lock (.watch _ _) | .inside lock (.orphan _)
  | .leaving lock (.poll _ _) | .leaving lock (.watch _ _) | .leaving lock (.done (.returning _))
  | .leaving lock (.done .orphaning) | .leaving lock (.free _ (.returning _))
  | .leaving lock (.free _ .orphaning) => some lock
  | _ => none

def finished : Pc → Bool
  | .closing | .dead => true
  | _ => false

theorem finished_next (next : Next) : next.pc.finished = false := by
  cases next with
  | done after => cases after <;> rfl
  | _ => rfl

theorem uses_next (lock : ProcRef) (next : Next) : next.pc.uses = (leaving lock next).uses := by
  cases next with
  | done after => cases after <;> rfl
  | _ => rfl

theorem stance_next (lock : ProcRef) (next : Next) (r : RelRef) :
    next.pc.stance r = (leaving lock next).stance r := by
  cases next with
  | done after | free _ after => cases after <;> rfl
  | _ => rfl

theorem owes_next (lock : ProcRef) (next : Next) : next.pc.owes = (leaving lock next).owes := by
  cases next with
  | done after | free _ after => cases after <;> rfl
  | _ => rfl

theorem next_ne_creating (next : Next) (r : RelRef) : next.pc ≠ .creating r := by
  cases next with
  | done after => cases after <;> simp [Next.pc, After.pc]
  | _ => simp [Next.pc]

theorem lockPhase_after (after : After) (q : ProcRef) : after.pc.lockPhase q = .outside := by
  cases after <;> rfl

theorem lockPhase_next (next : Next) (q : ProcRef) : next.pc.lockPhase q = .outside := by
  cases next with
  | done after => exact lockPhase_after after q
  | _ => rfl

theorem borrows_next (next : Next) : next.pc.borrows = none ∧ next.pc.owns = none := by
  cases next with
  | done after => cases after <;> exact ⟨rfl, rfl⟩
  | _ => exact ⟨rfl, rfl⟩

theorem borrows_or_owns (lock : ProcRef) (next : Next) :
    ((leaving lock next).borrows = some lock ∧ (leaving lock next).phase ≠ .cut) ∨
      (leaving lock next).owns = some lock := by
  rcases next with _ | _ | _ | _ | after | ⟨r, after⟩
  case user | exiting => exact .inl ⟨rfl, by simp [phase]⟩
  case poll | watch => exact .inr rfl
  all_goals
    cases after with
    | untied => exact .inl ⟨rfl, by simp [phase]⟩
    | _ => exact .inr rfl

theorem phase_next (lock : ProcRef) (next : Next) (h : next ≠ .done .untied) :
    next.pc.phase = (leaving lock next).phase := by
  rcases next with _ | _ | _ | _ | after | ⟨r, after⟩
  case done =>
    cases after with
    | untied => exact absurd rfl h
    | _ => rfl
  case free => cases after <;> rfl
  all_goals rfl

theorem eq_of_tied_false {pc : Pc} (h : pc.phase = .tied false) :
    ∃ lock, pc = .leaving lock (.done .untied) := by
  unfold phase at h
  split at h <;> cases h
  exact ⟨_, rfl⟩

theorem acquire_eq (lock : ProcRef) (sec : Section) (r : RelRef) :
    (inside lock sec).stance r = (entering sec).stance r ∧
      (inside lock sec).phase = (entering sec).phase := by
  cases sec <;> exact ⟨rfl, rfl⟩

end Pc

namespace ProcTable

variable {s s' : ProcTable} {p q c : ProcRef} {r r' : RelRef} {choice : Choice} {pc pc' : Pc}

structure Links (s : ProcTable) : Prop where
  absent : ∀ p, s.nextProc ≤ p → (s.procs p).pc = .absent ∧ (s.procs p).parentInR = none ∧
    (s.procs p).childrenInR = []
  nodup : ∀ p, (s.procs p).childrenInR.Nodup
  children : ∀ p, ∀ r ∈ (s.procs p).childrenInR, r < s.nextRel ∧ (s.rels r).statusLock = p
  owner : ∀ r, r < s.nextRel → (s.rels r).statusLock < s.nextProc
  child : ∀ c r, (s.procs c).parentInR = some r ↔ s.child r = some c
  parent : ∀ r c, s.child r = some c → r < s.nextRel ∧ (s.rels r).statusLock ≠ c
  uses : ∀ p, ∀ r ∈ (s.procs p).pc.uses, r ∈ (s.procs p).childrenInR
  creating : ∀ p r, (s.procs p).pc = .creating r → s.child r = none
  frees : ∀ p r, (s.procs p).pc.stance r = .freeing → r < s.nextRel ∧ (s.rels r).statusLock = p
  owes : ∀ p r, (s.procs p).pc.owes = some r → (s.procs p).parentInR = some r

theorem Links.owner_of_uses {pc : Pc} (h : s.Links) (hpc : (s.procs p).pc = pc)
    (hr : r ∈ pc.uses) : (s.rels r).statusLock = p ∧ r ∈ (s.procs p).childrenInR := by
  have hmem := h.uses p r (hpc ▸ hr)
  exact ⟨(h.children p r hmem).2, hmem⟩

theorem Links.child_inj (h : s.Links) (hc : s.child r = some p)
    (hp : (s.procs p).parentInR = some r') : r = r' :=
  Option.some.inj (((h.child p r).mpr hc).symm.trans hp)

structure Relinks (s : ProcTable) (p : ProcRef) (x : Process) : Prop where
  present : (s.procs p).pc ≠ .absent
  children : x.childrenInR.Sublist (s.procs p).childrenInR
  uses : ∀ r ∈ x.pc.uses, r ∈ x.childrenInR
  creating : ∀ r, x.pc ≠ .creating r
  frees : ∀ r, x.pc.stance r = .freeing → r < s.nextRel ∧ (s.rels r).statusLock = p
  owes : ∀ r, x.pc.owes = some r → (s.procs p).parentInR = some r

-- What Links says of one process, x being its record.
structure LinksAt (s : ProcTable) (p : ProcRef) (x : Process) : Prop where
  nodup : x.childrenInR.Nodup
  children : ∀ r ∈ x.childrenInR, r < s.nextRel ∧ (s.rels r).statusLock = p
  child : ∀ r, x.parentInR = some r ↔ s.child r = some p
  uses : ∀ r ∈ x.pc.uses, r ∈ x.childrenInR
  creating : ∀ r, x.pc = .creating r → s.child r = none
  frees : ∀ r, x.pc.stance r = .freeing → r < s.nextRel ∧ (s.rels r).statusLock = p
  owes : ∀ r, x.pc.owes = some r → x.parentInR = some r

theorem Links.linksAt (h : s.Links) (p : ProcRef) : s.LinksAt p (s.procs p) :=
  ⟨h.nodup p, h.children p, h.child p, h.uses p, h.creating p, h.frees p, h.owes p⟩

theorem Links.of_linksAt (habsent : ∀ p, s.nextProc ≤ p → (s.procs p).pc = .absent ∧
      (s.procs p).parentInR = none ∧ (s.procs p).childrenInR = [])
    (howner : ∀ r, r < s.nextRel → (s.rels r).statusLock < s.nextProc)
    (hparent : ∀ r c, s.child r = some c → r < s.nextRel ∧ (s.rels r).statusLock ≠ c)
    (h : ∀ p, s.LinksAt p (s.procs p)) : s.Links :=
  ⟨habsent, fun p => (h p).nodup, fun p => (h p).children, howner, fun p => (h p).child, hparent,
    fun p => (h p).uses, fun p => (h p).creating, fun p => (h p).frees, fun p => (h p).owes⟩

theorem LinksAt.mono {x : Process} (h : s.LinksAt p x)
    (hrel : ∀ r, r < s.nextRel → r < s'.nextRel ∧ (s'.rels r).statusLock = (s.rels r).statusLock)
    (hchild : ∀ r, s'.child r = some p ↔ s.child r = some p)
    (hcreating : ∀ r, x.pc = .creating r → s'.child r = none) : s'.LinksAt p x := by
  have hkeep : ∀ r, r < s.nextRel ∧ (s.rels r).statusLock = p →
      r < s'.nextRel ∧ (s'.rels r).statusLock = p :=
    fun r hr => ⟨(hrel r hr.1).1, (hrel r hr.1).2.trans hr.2⟩
  exact { h with
    children := fun r hr => hkeep r (h.children r hr)
    child := fun r => (h.child r).trans (hchild r).symm
    creating := hcreating
    frees := fun r hr => hkeep r (h.frees r hr) }

theorem Links.moved {x : Process} (h : s.Links) (hx : s.Relinks p x) (hw : s.Rewrites p x s') :
    s'.Links := by
  have hrel : ∀ r, r < s.nextRel →
      r < s'.nextRel ∧ (s'.rels r).statusLock = (s.rels r).statusLock :=
    fun r hr => ⟨hw.nextRel ▸ hr, hw.statusLock r⟩
  refine .of_linksAt (fun u hu => ?_) (fun r hr => ?_) (fun r u hu => ?_) fun u => ?_
  · rw [hw.nextProc] at hu
    have hup : u ≠ p := by
      rintro rfl
      exact hx.present (h.absent u hu).1
    rw [hw.procs_ne hup]
    exact h.absent u hu
  · rw [hw.statusLock, hw.nextProc]
    exact h.owner r (hw.nextRel ▸ hr)
  · rw [hw.nextRel, hw.statusLock]
    exact h.parent r u (hw.child ▸ hu)
  · have hchild : ∀ r, s'.child r = s.child r := fun r => by rw [hw.child]
    by_cases hup : u = p
    · subst hup
      rw [hw.procs_self]
      have hself : s.LinksAt u x :=
        { nodup := hx.children.nodup (h.nodup u)
          children := fun r hr => h.children u r (hx.children.subset hr)
          child := hw.parentInR ▸ h.child u
          uses := hx.uses
          creating := fun r hr => absurd hr (hx.creating r)
          frees := hx.frees
          owes := fun r hr => hw.parentInR.trans (hx.owes r hr) }
      exact hself.mono hrel (fun r => by rw [hchild]) fun r hr => absurd hr (hx.creating r)
    · rw [hw.procs_ne hup]
      exact (h.linksAt u).mono hrel (fun r => by rw [hchild])
        fun r hr => (hchild r).trans (h.creating u r hr)

theorem Relinks.goto (hpc : (s.procs p).pc ≠ .absent)
    (huses : ∀ r ∈ pc'.uses, r ∈ (s.procs p).childrenInR) (hcreating : ∀ r, pc' ≠ .creating r)
    (hfrees : ∀ r, pc'.stance r ≠ .freeing) (howes : pc'.owes = none) :
    s.Relinks p { s.procs p with pc := pc' } where
  present := hpc
  children := .refl _
  uses := huses
  creating := hcreating
  frees r hr := absurd hr (hfrees r)
  owes r hr := by
    rw [howes] at hr
    cases hr

section

variable (h : s.Links)
include h

theorem Jump.relinks (hj : Jump s p choice (s.procs p).pc pc') :
    s.Relinks p { s.procs p with pc := pc' } := by
  have huses := h.uses p
  generalize hpc : (s.procs p).pc = pc at hj huses
  have hpresent : pc ≠ .absent := by
    rintro rfl
    cases hj
  apply Relinks.goto (hpc ▸ hpresent)
  · cases hj with
    | wait tid => exact fun r hr => hr
    | noThread r | found r rest | pass r rest => grind [Pc.uses]
    | orphan r rest hl => simp [Pc.uses, hl]
    | _ => simp [Pc.uses]
  · cases hj <;> simp
  · cases hj with
    | noThread r =>
      intro r'
      by_cases hr : r = r' <;> simp [Pc.stance, hr]
    | _ => simp [Pc.stance]
  · cases hj <;> rfl

theorem critical_relinks {lock : ProcRef} {sec : Section} (hpc : (s.procs p).pc = .inside lock sec)
    (hr : relOf (s.procs p) sec = some r) :
    s.Relinks p { s.procs p with
      pc := .leaving (s.rels r).statusLock (s.critical p r (s.rels r) sec).2
      childrenInR := s.leftover p r (s.rels r) sec } := by
  have huses : ∀ r ∈ (inside lock sec).uses, r ∈ (s.procs p).childrenInR := hpc ▸ h.uses p
  have hpresent : (s.procs p).pc ≠ .absent := by simp [hpc]
  have hown : ∀ r, r ∈ (s.procs p).childrenInR → r < s.nextRel ∧ (s.rels r).statusLock = p :=
    h.children p
  refine ⟨hpresent, s.leftover_sublist p r _ sec, ?_, ?_, ?_, ?_⟩
  · cases sec with
    | announce success => cases success <;> simp [critical, Pc.uses]
    | poll r' tid =>
      cases hr
      simp only [critical]
      split_ifs
      · exact huses
      · simp [Pc.uses]
      · simp [Pc.uses]
    | watch r' tid =>
      cases hr
      simp only [critical, leftover]
      split_ifs
      · exact huses
      · simp [Pc.uses]
    | cutTies | orphan r' =>
      simp only [critical]
      split_ifs <;> simp [Pc.uses]
  · simp
  · cases sec with
    | announce success => cases success <;> simp [critical, Pc.stance]
    | poll r' tid =>
      intro u
      simp only [critical]
      split_ifs
      · simp only [Pc.stance]
        split_ifs <;> simp
      · simp [Pc.stance]
      · simp [Pc.stance]
    | watch r' tid =>
      cases hr
      have hmine := hown r (huses r (by simp [Pc.uses]))
      intro u
      simp only [critical]
      split_ifs
      · simp [Pc.stance]
      · simp only [Pc.stance]
        split_ifs with hu
        · exact fun _ => hu ▸ hmine
        · simp
    | cutTies =>
      simp only [critical]
      split_ifs <;> simp [Pc.stance]
    | orphan r' =>
      cases hr
      have hmine := hown r (huses r (by simp [Pc.uses]))
      intro u
      simp only [critical]
      split_ifs
      · simp only [Pc.stance]
        split_ifs with hu
        · exact fun _ => hu ▸ hmine
        · simp
      · simp [Pc.stance]
  · cases sec with
    | announce success => cases success <;> simp [critical, owes]
    | poll r' tid | watch r' tid | orphan r' =>
      simp only [critical]
      split_ifs <;> simp [owes]
    | cutTies =>
      simp only [critical]
      split_ifs
      · intro u hu
        cases hu
        exact hr
      · simp [owes]

theorem Links.lt_nextProc (hpc : (s.procs p).pc ≠ .absent) : p < s.nextProc :=
  lt_of_not_ge fun hle => hpc (h.absent p hle).1

theorem Links.child_fresh : s.child s.nextRel = none := by
  cases hc : s.child s.nextRel with
  | none => rfl
  | some c => exact absurd (h.parent _ c hc).1 (lt_irrefl _)

theorem Links.allocate (hpc : (s.procs p).pc = .user) (junk : Int) : (s.allocate p junk).Links := by
  have hp : p < s.nextProc := h.lt_nextProc (by simp [hpc])
  have hself := (s.allocate_writes p junk).procs_self
  have hother : ∀ u, u ≠ p → (s.allocate p junk).procs u = s.procs u :=
    fun u => (s.allocate_writes p junk).procs_ne
  have hnew : ((s.allocate p junk).rels s.nextRel).statusLock = p := by
    simp [ProcTable.allocate]
  have hold : ∀ r, r < s.nextRel → r < (s.allocate p junk).nextRel ∧
      ((s.allocate p junk).rels r).statusLock = (s.rels r).statusLock := fun r hr =>
    ⟨Nat.lt_succ_of_lt hr, by simp [ProcTable.allocate, hr.ne]⟩
  refine .of_linksAt (fun u hu => ?_) (fun r hr => ?_) (fun r u hu => ?_) fun u => ?_
  · rw [hother u (ne_of_gt (lt_of_lt_of_le hp hu))]
    exact h.absent u hu
  · rcases Nat.lt_succ_iff_lt_or_eq.mp hr with hr | hr
    · rw [(hold r hr).2]
      exact h.owner r hr
    · rw [hr, hnew]
      exact hp
  · obtain ⟨hlt, hne⟩ := h.parent r u hu
    exact ⟨Nat.lt_succ_of_lt hlt, by rw [(hold r hlt).2]; exact hne⟩
  · by_cases hup : u = p
    · subst hup
      rw [hself]
      refine ⟨?_, fun r hr => ?_, h.child u, fun r hr => mem_append_right _ hr,
        fun r hr => ?_, fun r hr => ?_, fun r hr => by cases hr⟩
      · refine List.Nodup.append (h.nodup u) (nodup_singleton _) ?_
        simpa using fun hmem => lt_irrefl _ (h.children u _ hmem).1
      · rcases mem_append.mp hr with hr | hr
        · obtain ⟨hlt, hlock⟩ := h.children u r hr
          exact ⟨(hold r hlt).1, (hold r hlt).2.trans hlock⟩
        · rw [mem_singleton.mp hr]
          exact ⟨Nat.lt_succ_self _, hnew⟩
      · cases hr
        exact h.child_fresh
      · simp only [Pc.stance] at hr
        split_ifs at hr
    · rw [hother u hup]
      exact (h.linksAt u).mono hold (fun _ => Iff.rfl) (h.creating u)

theorem threadCreate_procs_self (hpc : (s.procs p).pc = .creating r) :
    (s.threadCreate p r).procs p = { s.procs p with pc := .created r s.nextTid } := by
  have hne : p ≠ s.nextProc := (h.lt_nextProc (by simp [hpc])).ne
  simp [threadCreate, hne]

theorem threadCreate_procs_new (hpc : (s.procs p).pc = .creating r) :
    (s.threadCreate p r).procs s.nextProc = ⟨.loading, s.nextTid, some r, []⟩ := by
  have hne : s.nextProc ≠ p := (h.lt_nextProc (by simp [hpc])).ne'
  simp [threadCreate, goto, hne]

end

theorem threadCreate_procs_ne (s : ProcTable) (r : RelRef) (hp : q ≠ p) (hnew : q ≠ s.nextProc) :
    (s.threadCreate p r).procs q = s.procs q := by
  simp [threadCreate, goto, hp, hnew]

section

variable (h : s.Links)
include h

theorem Move.elsewhere (hm : Move s p choice s') (hq : q ≠ p) : s'.procs q = s.procs q ∨
      q = s.nextProc ∧ ∃ r, s'.procs q = ⟨.loading, s.nextTid, some r, []⟩ := by
  rcases hm.cases with ⟨junk, hpc, rfl⟩ | ⟨r, hpc, rfl⟩ | hw
  · exact .inl ((s.allocate_writes p junk).procs_ne hq)
  · by_cases hnew : q = s.nextProc
    · exact .inr ⟨hnew, r, hnew ▸ threadCreate_procs_new h hpc⟩
    · exact .inl (s.threadCreate_procs_ne r hq hnew)
  · exact .inl (hw.procs_ne hq)

theorem Links.child_lt (hc : s.child r = some c) : c < s.nextProc := by
  refine lt_of_not_ge fun hle => ?_
  have hparent := (h.child c r).mpr hc
  rw [(h.absent c hle).2.1] at hparent
  cases hparent

theorem Move.child (hm : Move s p choice s') (hc : s.child r = some c) : s'.child r = some c := by
  rcases hm.cases with ⟨junk, _, rfl⟩ | ⟨r', hpc, rfl⟩ | hw
  · exact hc
  · have hne : r ≠ r' := by
      rintro rfl
      rw [h.creating p r hpc] at hc
      cases hc
    exact (update_of_ne hne ..).trans hc
  · rw [hw.child, hc]

theorem Move.tid (hm : Move s p choice s') (hq : q < s.nextProc) :
    (s'.procs q).tid = (s.procs q).tid := by
  by_cases hqp : q = p
  · subst hqp
    rcases hm.cases with ⟨junk, _, rfl⟩ | ⟨r', hpc, rfl⟩ | hw
    · rw [(s.allocate_writes q junk).procs_self]
    · rw [threadCreate_procs_self h hpc]
    · exact hw.tid
  · rcases hm.elsewhere h hqp with hsame | ⟨hnew, _⟩
    · rw [hsame]
    · exact absurd hnew hq.ne

theorem Links.create (hpc : (s.procs p).pc = .creating r) : (s.threadCreate p r).Links := by
  have hother : ∀ u, u ≠ p → u ≠ s.nextProc → (s.threadCreate p r).procs u = s.procs u :=
    fun u => s.threadCreate_procs_ne r
  have hp : p < s.nextProc := h.lt_nextProc (by simp [hpc])
  have hmem : r ∈ (s.procs p).childrenInR := h.uses p r (by simp [hpc, Pc.uses])
  have hmine := h.children p r hmem
  have hnone := h.creating p r hpc
  have hchild : (s.threadCreate p r).child = update s.child r (some s.nextProc) := rfl
  have hsame : ∀ u, u ≠ s.nextProc → ∀ r',
      (s.threadCreate p r).child r' = some u ↔ s.child r' = some u := by
    intro u hu r'
    rw [hchild]
    by_cases hr : r' = r
    · simp [hr, hnone, Ne.symm hu]
    · simp [hr]
  refine .of_linksAt (fun u hu => ?_) (fun r' hr => Nat.lt_succ_of_lt (h.owner r' hr))
    (fun r' u hu => ?_) fun u => ?_
  · have hlt : s.nextProc < u := hu
    rw [hother u (hp.trans hlt).ne' hlt.ne']
    exact h.absent u hlt.le
  · rw [hchild] at hu
    by_cases hr : r' = r
    · subst hr
      rw [update_self, Option.some.injEq] at hu
      refine ⟨hmine.1, ?_⟩
      rw [← hu]
      exact fun heq => hp.ne (hmine.2.symm.trans heq)
    · rw [update_of_ne hr] at hu
      exact h.parent r' u hu
  · by_cases hu : u = s.nextProc
    · subst hu
      rw [threadCreate_procs_new h hpc]
      refine ⟨nodup_nil, nofun, fun r' => ?_, nofun, nofun, nofun, nofun⟩
      rw [hchild]
      by_cases hr : r' = r
      · simp [hr]
      · have hold := h.child s.nextProc r'
        rw [(h.absent s.nextProc le_rfl).2.1] at hold
        simpa [hr, Ne.symm hr] using hold
    · by_cases hup : u = p
      · subst hup
        rw [threadCreate_procs_self h hpc]
        refine ⟨h.nodup u, h.children u, fun r' => (h.child u r').trans (hsame u hu r').symm,
          fun r' hr => ?_, nofun, fun r' hr => ?_, nofun⟩
        · rw [mem_singleton.mp hr]
          exact hmem
        · simp only [Pc.stance] at hr
          split_ifs at hr
      · rw [hother u hup hu]
        refine (h.linksAt u).mono (fun _ hr => ⟨hr, rfl⟩) (hsame u hu) fun r' hr => ?_
        have hne : r' ≠ r := by
          rintro rfl
          have howner := h.children u r' (h.uses u r' (by simp [hr, Pc.uses]))
          exact hup (howner.2.symm.trans hmine.2)
        rw [hchild, update_of_ne hne]
        exact h.creating u r' hr

theorem Links.step (hm : Move s p choice s') : s'.Links := by
  cases hm with
  | jump hj => exact h.moved (hj.relinks h) (s.goto_rewrites p _)
  | allocate junk hpc => exact h.allocate hpc junk
  | exit status r hpc hp hf =>
    have hx : s.Relinks p { s.procs p with pc := .exiting } :=
      .goto (by simp [hpc]) (by simp [Pc.uses]) (by simp) (by simp [Pc.stance]) rfl
    exact h.moved hx ⟨⟨rfl, rfl, rfl, rfl, rfl, rfl⟩, setRel_statusLock rfl, rfl⟩
  | die r hpc hp =>
    have hx : s.Relinks p { s.procs p with pc := .exiting } :=
      .goto (by simp [hpc]) (by simp [Pc.uses]) (by simp) (by simp [Pc.stance]) rfl
    exact h.moved hx ⟨⟨rfl, rfl, rfl, rfl, rfl, rfl⟩, fun _ => rfl, rfl⟩
  | create r hpc => exact h.create hpc
  | assign r tid hpc hf =>
    have hmem := h.uses p r (by simp [hpc, Pc.uses])
    have hx : s.Relinks p { s.procs p with pc := .entering (.poll r tid) } := by
      refine .goto (by simp [hpc]) (by simpa [Pc.uses] using hmem) (by simp) (fun u => ?_) rfl
      simp only [Pc.stance]
      split_ifs <;> simp
    exact h.moved hx ⟨⟨rfl, rfl, rfl, rfl, rfl, rfl⟩, setRel_statusLock rfl, rfl⟩
  | load success r hpc hp =>
    have hx : s.Relinks p { s.procs p with pc := .entering (.announce success) } :=
      .goto (by simp [hpc]) (by simp [Pc.uses]) (by simp) (by simp [Pc.stance]) rfl
    exact h.moved hx ⟨⟨rfl, rfl, rfl, rfl, rfl, rfl⟩, fun _ => rfl, rfl⟩
  | acquire sec r hpc =>
    have huses : ∀ r ∈ (entering sec).uses, r ∈ (s.procs p).childrenInR := hpc ▸ h.uses p
    have hx : s.Relinks p { s.procs p with pc := .inside (s.rels r).statusLock sec } := by
      refine .goto (by simp [hpc]) ?_ (by simp) (fun u => ?_) rfl
      · cases sec <;> exact huses
      · cases sec with
        | poll r' tid =>
          simp only [Pc.stance]
          split_ifs <;> simp
        | _ => simp [Pc.stance]
    exact h.moved hx ⟨⟨rfl, rfl, rfl, rfl, rfl, rfl⟩, fun _ => rfl, rfl⟩
  | critical lock sec r hpc hr hf hl =>
    exact h.moved (critical_relinks h hpc hr) (s.crossed_rewrites p _ r sec _)
  | raise lock next hpc hl =>
    have hx : s.Relinks p { s.procs p with pc := next.pc } := by
      refine ⟨by simp [hpc], .refl _, ?_, (next_ne_creating next), ?_, ?_⟩
      · rw [uses_next lock, ← hpc]
        exact h.uses p
      · intro r hr
        rw [stance_next lock, ← hpc] at hr
        exact h.frees p r hr
      · intro r hr
        rw [owes_next lock, ← hpc] at hr
        exact h.owes p r hr
    exact h.moved hx ⟨⟨rfl, rfl, rfl, rfl, rfl, rfl⟩, fun _ => rfl, rfl⟩
  | free r after hpc hf =>
    have hx : s.Relinks p { s.procs p with pc := after.pc } := by
      cases after <;>
        exact .goto (by simp [hpc]) (by simp [After.pc, Pc.uses]) (by simp [After.pc])
          (by simp [After.pc, Pc.stance]) rfl
    exact h.moved hx ⟨⟨rfl, rfl, rfl, rfl, rfl, rfl⟩, fun _ => rfl, rfl⟩
  | «return» event hpc =>
    have hx : s.Relinks p { s.procs p with pc := .user } :=
      .goto (by simp [hpc]) (by simp [Pc.uses]) (by simp) (by simp [Pc.stance]) rfl
    exact h.moved hx ⟨⟨rfl, rfl, rfl, rfl, rfl, rfl⟩, fun _ => rfl, rfl⟩

end

theorem boot_links : boot.Links := by
  refine .of_linksAt (fun p hp => ?_) (fun r hr => absurd hr (Nat.not_lt_zero r)) nofun fun p => ?_
  · have hne : p ≠ 0 := (Nat.pos_of_ne_zero (Nat.one_le_iff_ne_zero.mp hp)).ne'
    exact ⟨if_neg hne, rfl, rfl⟩
  · have hpc : (boot.procs p).pc = .user ∨ (boot.procs p).pc = .absent := by
      by_cases hp : p = 0
      · exact .inl (if_pos hp)
      · exact .inr (if_neg hp)
    refine ⟨nodup_nil, nofun, fun r => ⟨nofun, nofun⟩, ?_, ?_, ?_, ?_⟩ <;>
      intro r hr <;> rcases hpc with h | h <;> rw [h] at hr <;> cases hr

end ProcTable

end Pintos.Userprog
