import Mathlib.Data.Option.Basic
import Pintos.Userprog.Process

namespace Pintos.Userprog

inductive Stance
  | creating
  | assigning (tid : Int)
  | polling (tid : Int)
  | idle
  | freeing
deriving DecidableEq

namespace Stance

def starts : Stance → Bool
  | .creating | .assigning _ | .polling _ => true
  | .idle | .freeing => false

def busy : Stance → Option Int
  | .assigning tid | .polling tid => some tid
  | .creating | .idle | .freeing => none

def assigned : Stance → Bool
  | .creating | .assigning _ => false
  | .polling _ | .idle | .freeing => true

end Stance

inductive ChildPhase
  | loading
  | announcing (success : Bool)
  | alive
  | exiting
  | tied (owes : Bool)
  | cut
deriving DecidableEq

-- One record with its two parties, apart from all other records; `tid` is the child's.
structure Bond where
  stance : Stance
  member : Bool
  freed : Nat
  rel : Relation
  child : Option ChildPhase
  tid : Int
  loaded : Option Bool
  ended : Option Int

inductive BondLabel
  | create
  | noThread
  | assign
  | settle
  | reap
  | orphan
  | free
  | load
  | announce
  | exit
  | tie
  | untie
deriving DecidableEq

inductive BondStep (b : Bond) : BondLabel → Bond → Prop
  | create (tid : Int) (hs : b.stance = .creating) (hc : b.child = none) :
      BondStep b .create
        { b with stance := .assigning tid, child := some .loading, tid := tid }
  | noThread (hs : b.stance = .creating) :
      BondStep b .noThread { b with stance := .assigning tidError }
  | assign (tid : Int) (hs : b.stance = .assigning tid) :
      BondStep b .assign { b with stance := .polling tid, rel := b.rel.setCId tid }
  | settle (tid : Int) (hs : b.stance = .polling tid) (hx : b.rel.cStatus ≠ .loading) :
      BondStep b .settle { b with stance := .idle }
  -- the parent has the lock: the child is not between its last write and the release
  | reap (hs : b.stance = .idle) (hm : b.member = true) (hx : b.rel.cStatus ≠ .running)
      (hl : b.child ≠ some (.tied false)) :
      BondStep b .reap { b with stance := .freeing, member := false }
  | orphanFree (hs : b.stance = .idle) (hm : b.member = true) (hx : b.rel.cStatus = .exited)
      (hl : b.child ≠ some (.tied false)) :
      BondStep b .orphan
        { b with stance := .freeing, member := false, rel := b.rel.setPStatus .exited }
  | orphanLeave (hs : b.stance = .idle) (hm : b.member = true) (hx : b.rel.cStatus ≠ .exited) :
      BondStep b .orphan { b with member := false, rel := b.rel.setPStatus .exited }
  | free (hs : b.stance = .freeing) :
      BondStep b .free { b with stance := .idle, freed := b.freed + 1 }
  | load (success : Bool) (hc : b.child = some .loading) :
      BondStep b .load { b with child := some (.announcing success), loaded := some success }
  | announceRunning (hc : b.child = some (.announcing true)) :
      BondStep b .announce { b with child := some .alive, rel := b.rel.setCStatus .running }
  | announceFailed (hc : b.child = some (.announcing false)) :
      BondStep b .announce { b with
        child := some .exiting
        rel := (b.rel.setCStatus .exited).setCId tidError }
  | exit (status : Int) (hc : b.child = some .alive) :
      BondStep b .exit { b with
        child := some .exiting
        rel := b.rel.setWStatus status
        ended := some status }
  | die (hc : b.child = some .alive) :
      BondStep b .exit { b with child := some .exiting, ended := some (-1) }
  | tie (hc : b.child = some .exiting) :
      BondStep b .tie { b with
        child := some (.tied (b.rel.pStatus = .exited))
        rel := b.rel.setCStatus .exited }
  | untie (hc : b.child = some (.tied false)) : BondStep b .untie { b with child := some .cut }
  | childFree (hc : b.child = some (.tied true)) :
      BondStep b .untie { b with child := some .cut, freed := b.freed + 1 }

namespace Bond

variable {b b' : Bond} {label : BondLabel} {tid : Int}

def fresh (p : ProcRef) (junk : Int) : Bond where
  stance := .creating
  member := true
  freed := 0
  rel := ⟨junk, .running, .loading, -1, p⟩
  child := none
  tid := 0
  loaded := none
  ended := none

def Shows (cStatus : ProcStatus) (loaded : Option Bool) (ended : Option Int) :
    ChildPhase → Prop
  | .loading => cStatus = .loading ∧ loaded = none ∧ ended = none
  | .announcing success => cStatus = .loading ∧ loaded = some success ∧ ended = none
  | .alive => cStatus = .running ∧ loaded = some true ∧ ended = none
  | .exiting =>
    cStatus = .running ∧ loaded = some true ∧ ended ≠ none ∨
      cStatus = .exited ∧ loaded = some false ∧ ended = none
  | .tied _ | .cut =>
    cStatus = .exited ∧ (loaded = some true ∧ ended ≠ none ∨ loaded = some false ∧ ended = none)

structure Sound (b : Bond) : Prop where
  member : b.member = true → b.freed = 0 ∧ b.rel.pStatus = .running
  creating : b.stance = .creating → b.member = true ∧ b.child = none
  busy : ∀ tid, b.stance.busy = some tid → b.member = true ∧ (b.child ≠ none → b.tid = tid)
  freeing : b.stance = .freeing → b.member = false
  owes : b.child = some (.tied true) → b.member = false
  childless : b.child = none → b.rel.cStatus = .loading ∧ b.loaded = none ∧ b.ended = none
  shows : ∀ phase, b.child = some phase → Shows b.rel.cStatus b.loaded b.ended phase
  starts : b.rel.cStatus = .loading → b.stance.starts = true
  wStatus : b.rel.wStatus = b.ended.getD (-1)
  cId : b.child ≠ none → b.stance.assigned = true →
    b.rel.cId = b.tid ∨ b.loaded = some false ∧ b.rel.cStatus = .exited ∧ b.rel.cId = tidError

attribute [grind =] Stance.starts Stance.busy Stance.assigned Shows

theorem fresh_sound (p : ProcRef) (junk : Int) : (fresh p junk).Sound := by
  constructor <;> grind [fresh]

section Step

variable (h : b.Sound) (hs : BondStep b label b')

include h hs

theorem Sound.member_step : b'.member = true → b'.freed = 0 ∧ b'.rel.pStatus = .running := by
  intro hm
  cases hs with
  | reap | orphanFree | orphanLeave => cases hm
  | free hst =>
    have hgone := h.freeing hst
    rw [hgone] at hm
    cases hm
  | childFree hc =>
    have hgone := h.owes hc
    rw [hgone] at hm
    cases hm
  | _ => exact h.member hm

theorem Sound.creating_step : b'.stance = .creating → b'.member = true ∧ b'.child = none := by
  intro hst
  cases hs with
  | create | noThread | assign | settle | reap | orphanFree | free => cases hst
  | orphanLeave hidle =>
    rw [hidle] at hst
    cases hst
  -- the child takes a step, but there is none yet
  | load _ hc | announceRunning hc | announceFailed hc | exit _ hc | die hc | tie hc | untie hc
  | childFree hc =>
    have hnone := (h.creating hst).2
    rw [hc] at hnone
    cases hnone

theorem Sound.busy_step : ∀ tid, b'.stance.busy = some tid →
    b'.member = true ∧ (b'.child ≠ none → b'.tid = tid) := by
  intro tid hbusy
  cases hs with
  | create tid' hst hc =>
    cases hbusy
    exact ⟨(h.creating hst).1, fun _ => rfl⟩
  | noThread hst => exact ⟨(h.creating hst).1, fun hchild => absurd (h.creating hst).2 hchild⟩
  | assign tid' hst =>
    cases hbusy
    exact h.busy tid (by rw [hst]; rfl)
  | settle | reap | orphanFree | free => cases hbusy
  | orphanLeave hidle =>
    rw [hidle] at hbusy
    cases hbusy
  | load _ hc | announceRunning hc | announceFailed hc | exit _ hc | die hc | tie hc | untie hc
  | childFree hc =>
    obtain ⟨hm, htid⟩ := h.busy tid hbusy
    exact ⟨hm, fun _ => htid (by simp [hc])⟩

theorem Sound.freeing_step : b'.stance = .freeing → b'.member = false := by
  intro hst
  cases hs with
  | create | noThread | assign | settle | free => cases hst
  | reap | orphanFree | orphanLeave => rfl
  | _ => exact h.freeing hst

theorem Sound.owes_step : b'.child = some (.tied true) → b'.member = false := by
  intro hc'
  cases hs with
  | create | load | announceRunning | announceFailed | exit | die | untie | childFree => cases hc'
  | reap | orphanFree | orphanLeave => rfl
  | tie hc =>
    have hexited : b.rel.pStatus = .exited := by simpa using hc'
    cases hm : b.member with
    | false => rfl
    | true =>
      have hrunning := (h.member hm).2
      rw [hexited] at hrunning
      cases hrunning
  | _ => exact h.owes hc'

theorem Sound.childless_step : b'.child = none →
    b'.rel.cStatus = .loading ∧ b'.loaded = none ∧ b'.ended = none := by
  intro hc'
  cases hs with
  | noThread | assign | settle | reap | orphanFree | orphanLeave | free => exact h.childless hc'
  | _ => cases hc'

theorem Sound.shows_step : ∀ phase, b'.child = some phase →
    Shows b'.rel.cStatus b'.loaded b'.ended phase := by
  intro phase hc'
  cases hs with
  | create tid hst hc =>
    cases hc'
    exact h.childless hc
  | load success hc =>
    cases hc'
    obtain ⟨hloading, -, hended⟩ := h.shows _ hc
    exact ⟨hloading, rfl, hended⟩
  | announceRunning hc =>
    cases hc'
    exact ⟨rfl, (h.shows _ hc).2⟩
  | announceFailed hc =>
    cases hc'
    exact .inr ⟨rfl, (h.shows _ hc).2⟩
  | exit status hc | die hc =>
    cases hc'
    obtain ⟨hrunning, hloaded, -⟩ := h.shows _ hc
    exact .inl ⟨hrunning, hloaded, by simp⟩
  | tie hc =>
    cases hc'
    refine ⟨rfl, ?_⟩
    rcases h.shows _ hc with ⟨-, hloaded, hended⟩ | ⟨-, hloaded, hended⟩
    · exact .inl ⟨hloaded, hended⟩
    · exact .inr ⟨hloaded, hended⟩
  | untie hc | childFree hc =>
    cases hc'
    have hshows := h.shows _ hc
    exact hshows
  | _ => exact h.shows phase hc'

theorem Sound.starts_step : b'.rel.cStatus = .loading → b'.stance.starts = true := by
  intro hx
  cases hs with
  | create | noThread | assign => rfl
  | settle _ _ hx' => exact absurd hx hx'
  | reap hst | free hst =>
    have hstarts := h.starts hx
    rw [hst] at hstarts
    cases hstarts
  | orphanFree _ _ hx' =>
    have hexited : b.rel.cStatus = .loading := hx
    rw [hx'] at hexited
    cases hexited
  | announceRunning | announceFailed | tie => cases hx
  | _ => exact h.starts hx

theorem Sound.wStatus_step : b'.rel.wStatus = b'.ended.getD (-1) := by
  cases hs with
  | exit => rfl
  | die hc =>
    have hw := h.wStatus
    rw [(h.shows .alive hc).2.2] at hw
    exact hw
  | _ => exact h.wStatus

theorem Sound.cId_kept : b'.child ≠ none → b'.stance.assigned = true → b'.rel.cId = b'.tid ∨
      b'.loaded = some false ∧ b'.rel.cStatus = .exited ∧ b'.rel.cId = tidError := by
  intro hchild hassigned
  cases hs with
  | create | noThread => cases hassigned
  | assign tid hst => exact .inl ((h.busy tid (by rw [hst]; rfl)).2 hchild).symm
  | settle _ hst | reap hst | orphanFree hst | free hst =>
    exact h.cId hchild (by rw [hst]; rfl)
  | orphanLeave => exact h.cId hchild hassigned
  | load success hc =>
    have hnone := (h.shows _ hc).2.1
    rcases h.cId (by simp [hc]) hassigned with hid | ⟨hloaded, -, -⟩
    · exact .inl hid
    · rw [hnone] at hloaded
      cases hloaded
  | announceRunning hc =>
    have hloading := (h.shows _ hc).1
    rcases h.cId (by simp [hc]) hassigned with hid | ⟨-, hexited, -⟩
    · exact .inl hid
    · rw [hloading] at hexited
      cases hexited
  | announceFailed hc => exact .inr ⟨(h.shows _ hc).2.1, rfl, rfl⟩
  | tie hc =>
    rcases h.cId (by simp [hc]) hassigned with hid | ⟨hloaded, -, hid⟩
    · exact .inl hid
    · exact .inr ⟨hloaded, rfl, hid⟩
  | exit _ hc | die hc | untie hc | childFree hc => exact h.cId (by simp [hc]) hassigned

theorem Sound.step : b'.Sound where
  member := h.member_step hs
  creating := h.creating_step hs
  busy := h.busy_step hs
  freeing := h.freeing_step hs
  owes := h.owes_step hs
  childless := h.childless_step hs
  shows := h.shows_step hs
  starts := h.starts_step hs
  wStatus := h.wStatus_step hs
  cId := h.cId_kept hs

end Step

section

variable (h : b.Sound)
include h

theorem Sound.child_of_idle (hs : b.stance = .idle) :
    ∃ phase, b.child = some phase ∧ b.rel.cStatus ≠ .loading := by
  have hstatus : b.rel.cStatus ≠ .loading := by
    intro hx
    have hstarts := h.starts hx
    rw [hs] at hstarts
    cases hstarts
  cases hc : b.child with
  | none => exact absurd (h.childless hc).1 hstatus
  | some phase => exact ⟨phase, rfl, hstatus⟩

section

variable (hs : BondStep b label b')
include hs

theorem Sound.loaded_step {success : Bool} (hl : b.loaded = some success) :
    b'.loaded = some success := by
  cases hs with
  | load success' hc =>
    have hnone := (h.shows .loading hc).2.1
    rw [hl] at hnone
    cases hnone
  | _ => exact hl

theorem Sound.ended_step {status : Int} (he : b.ended = some status) : b'.ended = some status := by
  cases hs with
  | exit _ hc | die hc =>
    have hnone := (h.shows .alive hc).2.2
    rw [he] at hnone
    cases hnone
  | _ => exact he

theorem Sound.exited_step (hx : b.rel.cStatus = .exited) : b'.rel.cStatus = .exited := by
  cases hs with
  | announceRunning hc =>
    have hloading := (h.shows _ hc).1
    rw [hx] at hloading
    cases hloading
  | tie | announceFailed => rfl
  | _ => exact hx

theorem Sound.cId_step (hst : b.stance.starts = false) : b'.rel.cId = b.rel.cId := by
  cases hs with
  | assign tid hs =>
    rw [hs] at hst
    cases hst
  | announceFailed hc =>
    have hstarts := h.starts (h.shows _ hc).1
    rw [hst] at hstarts
    cases hstarts
  | _ => rfl

end

theorem Sound.loaded_of_running (hx : b.rel.cStatus = .running) : b.loaded = some true := by
  cases hc : b.child with
  | none =>
    have hloading := (h.childless hc).1
    rw [hx] at hloading
    cases hloading
  | some phase =>
    have hshows := h.shows phase hc
    cases phase <;> grind

theorem Sound.of_exited (hs : b.stance = .idle) (hx : b.rel.cStatus ≠ .running) :
    b.child ≠ none ∧ b.rel.cStatus = .exited ∧
      (b.loaded = some true ∧ b.rel.cId = b.tid ∧ b.ended = some b.rel.wStatus ∨
        b.loaded = some false ∧ (b.rel.cId = b.tid ∨ b.rel.cId = tidError) ∧
          b.rel.wStatus = -1) := by
  obtain ⟨phase, hc, hloading⟩ := h.child_of_idle hs
  have hexit : b.rel.cStatus = .exited := by
    cases hst : b.rel.cStatus with
    | running => exact absurd hst hx
    | loading => exact absurd hst hloading
    | exited => rfl
  have hchild : b.child ≠ none := by simp [hc]
  have hcId := h.cId hchild (by rw [hs]; rfl)
  have hw := h.wStatus
  have hshows := h.shows phase hc
  have houtcome : b.loaded = some true ∧ b.ended ≠ none ∨ b.loaded = some false ∧ b.ended = none := by
    cases phase <;> grind
  refine ⟨hchild, hexit, ?_⟩
  rcases houtcome with ⟨hload, hended⟩ | ⟨hload, hended⟩
  · obtain ⟨status, hstatus⟩ := Option.ne_none_iff_exists'.mp hended
    rw [hstatus] at hw ⊢
    grind
  · rw [hended] at hw
    grind

theorem Sound.of_polling (hs : b.stance = .polling tid) (hx : b.rel.cStatus ≠ .loading) :
    b.child ≠ none ∧ (b.loaded = some true ∧ tid = b.tid ∧ b.rel.cId = b.tid ∨
      b.loaded = some false ∧ b.rel.cStatus = .exited) := by
  have hchild : b.child ≠ none := fun hnone => hx (h.childless hnone).1
  obtain ⟨phase, hc⟩ := Option.ne_none_iff_exists'.mp hchild
  have hshows := h.shows phase hc
  have htid := (h.busy tid (by rw [hs]; rfl)).2 hchild
  have hcId := h.cId hchild (by rw [hs]; rfl)
  refine ⟨hchild, ?_⟩
  cases phase <;> grind

end

theorem cut_step (hs : BondStep b label b') (hc : b.child = some .cut) : b'.child = some .cut := by
  cases hs <;> grind

structure Kept (b : Bond) : Prop where
  childless : b.child = none → b.member = true
  live : ∀ phase, b.child = some phase → phase ≠ .cut → b.freed = 0 ∧ b.stance ≠ .freeing ∧
    (b.member = false → b.rel.pStatus = .exited ∧ phase ≠ .tied false)
  finished : b.member = false → b.child = some .cut →
    b.stance = .freeing ∧ b.freed = 0 ∨ b.stance = .idle ∧ b.freed = 1

def Patient (b : Bond) (label : BondLabel) : Prop :=
  label = .reap ∨ label = .orphan → b.loaded = some false → b.child = some .cut

theorem fresh_kept (p : ProcRef) (junk : Int) : (fresh p junk).Kept := by
  constructor <;> grind [fresh]

-- A child whose record shows it exited is cut if it had loaded: the record shows it
-- only from the child's last write on, and the lock is free of it.
theorem Sound.cut_of_exited (h : b.Sound) (hs : b.stance = .idle) (hm : b.member = true)
    (hx : b.rel.cStatus ≠ .running) (hl : b.child ≠ some (.tied false))
    (hload : b.loaded ≠ some false) : b.child = some .cut := by
  obtain ⟨phase, hc, hstatus⟩ := h.child_of_idle hs
  have hshows := h.shows phase hc
  cases phase with
  | loading | announcing _ => exact absurd hshows.1 hstatus
  | alive => exact absurd hshows.1 hx
  | exiting => grind
  | tied owes =>
    cases owes with
    | false => exact absurd hc hl
    | true =>
      have hnot := h.owes hc
      rw [hm] at hnot
      cases hnot
  | cut => exact hc

theorem Sound.cut_of_patient (h : b.Sound) (hs : b.stance = .idle) (hm : b.member = true)
    (hx : b.rel.cStatus ≠ .running) (hl : b.child ≠ some (.tied false))
    (hp : b.loaded = some false → b.child = some .cut) : b.child = some .cut := by
  by_cases hload : b.loaded = some false
  · exact hp hload
  · exact h.cut_of_exited hs hm hx hl hload

theorem Sound.idle_of_not_member (h : b.Sound) (hm : b.member = false) (hf : b.stance ≠ .freeing) :
    b.stance = .idle := by
  have hmember : b.member ≠ true := by simp [hm]
  cases hst : b.stance with
  | idle => rfl
  | freeing => exact absurd hst hf
  | creating => exact absurd (h.creating hst).1 hmember
  | assigning tid | polling tid => exact absurd (h.busy tid (by rw [hst]; rfl)).1 hmember

section Step

variable (h : b.Kept) (hb : b.Sound) (hp : b.Patient label) (hs : BondStep b label b')

include h hb hs

theorem Kept.childless_step : b'.child = none → b'.member = true := by
  intro hc'
  cases hs with
  | noThread hst => exact (hb.creating hst).1
  | reap hst | orphanFree hst | orphanLeave hst =>
    obtain ⟨phase, hc, -⟩ := hb.child_of_idle hst
    have hnone : b.child = none := hc'
    rw [hc] at hnone
    cases hnone
  | assign | settle | free => exact h.childless hc'
  | _ => cases hc'

include hp

theorem Kept.live_step : ∀ phase, b'.child = some phase → phase ≠ .cut →
    b'.freed = 0 ∧ b'.stance ≠ .freeing ∧
      (b'.member = false → b'.rel.pStatus = .exited ∧ phase ≠ .tied false) := by
  intro phase hc' hcut
  cases hs with
  | create tid hst hc =>
    have hm := (hb.creating hst).1
    exact ⟨(hb.member hm).1, nofun, fun hgone => absurd (hm.symm.trans hgone) (by decide)⟩
  | noThread hst =>
    have hnone : b.child = some phase := hc'
    rw [(hb.creating hst).2] at hnone
    cases hnone
  | assign | settle =>
    obtain ⟨hfreed, -, hgone⟩ := h.live phase hc' hcut
    exact ⟨hfreed, nofun, hgone⟩
  | reap hst hm hx hl =>
    have hc := hb.cut_of_patient hst hm hx hl (hp (.inl rfl))
    exact absurd (Option.some.inj (hc'.symm.trans hc)) hcut
  | orphanFree hst hm hx hl =>
    have hc := hb.cut_of_patient hst hm (by rw [hx]; decide) hl (hp (.inr rfl))
    exact absurd (Option.some.inj (hc'.symm.trans hc)) hcut
  | orphanLeave hst hm hx =>
    refine ⟨(hb.member hm).1, by rw [hst]; decide, fun _ => ⟨rfl, ?_⟩⟩
    -- a child that is tied has set c_status
    rintro rfl
    exact hx (hb.shows _ hc').1
  | free hst => exact absurd hst (h.live phase hc' hcut).2.1
  | load _ hc | announceRunning hc | announceFailed hc | exit _ hc | die hc =>
    cases hc'
    obtain ⟨hfreed, hst, hgone⟩ := h.live _ hc (by decide)
    exact ⟨hfreed, hst, fun hm => ⟨(hgone hm).1, nofun⟩⟩
  | tie hc =>
    cases hc'
    obtain ⟨hfreed, hst, hgone⟩ := h.live _ hc (by decide)
    exact ⟨hfreed, hst, fun hm => ⟨(hgone hm).1, by simp [(hgone hm).1]⟩⟩
  | untie | childFree =>
    cases hc'
    exact absurd rfl hcut

theorem Kept.finished_step : b'.member = false → b'.child = some .cut →
    b'.stance = .freeing ∧ b'.freed = 0 ∨ b'.stance = .idle ∧ b'.freed = 1 := by
  intro hm' hc'
  cases hs with
  | create | load | announceRunning | announceFailed | exit | die | tie => cases hc'
  | noThread hst => exact absurd ((hb.creating hst).1.symm.trans hm') (by decide)
  | assign tid hst | settle tid hst =>
    have hm := (hb.busy tid (by rw [hst]; rfl)).1
    exact absurd (hm.symm.trans hm') (by decide)
  | reap hst hm | orphanFree hst hm => exact .inl ⟨rfl, (hb.member hm).1⟩
  | orphanLeave hst hm hx => exact absurd (hb.shows _ hc').1 hx
  | free hst =>
    rcases h.finished (hb.freeing hst) hc' with ⟨-, hfreed⟩ | ⟨hidle, -⟩
    · exact .inr ⟨rfl, by simp [hfreed]⟩
    · rw [hst] at hidle
      cases hidle
  | untie hc =>
    have hgone := (h.live _ hc (by decide)).2.2 hm'
    exact absurd rfl hgone.2
  | childFree hc =>
    obtain ⟨hfreed, hst, -⟩ := h.live _ hc (by decide)
    exact .inr ⟨hb.idle_of_not_member hm' hst, by simp [hfreed]⟩

theorem Kept.step : b'.Kept where
  childless := h.childless_step hb hs
  live := h.live_step hb hp hs
  finished := h.finished_step hb hp hs

end Step

structure Attended (b : Bond) : Prop where
  child : b.stance ≠ .creating → b.child ≠ none
  failed : b.stance.assigned = true → b.loaded = some false → b.rel.cStatus = .exited →
    b.rel.cId = tidError

def Prompt (b : Bond) (label : BondLabel) : Prop :=
  label ≠ .noThread ∧
    (label = .assign → ¬ (b.loaded = some false ∧ b.rel.cStatus = .exited))

theorem not_step_of_unattended (hs : b.stance = .polling tid) (hc : b.child = none)
    (hx : b.rel.cStatus = .loading) : ¬ BondStep b label b' := by
  intro hstep
  cases hstep <;> grind

theorem fresh_attended (p : ProcRef) (junk : Int) : (fresh p junk).Attended := by
  constructor <;> grind [fresh]

theorem Attended.step (h : b.Attended) (hb : b.Sound) (hp : b.Prompt label)
    (hs : BondStep b label b') : b'.Attended := by
  have hchild := h.child
  have hfailed := h.failed
  obtain ⟨hthread, hassign⟩ := hp
  cases hs with
  | noThread => exact absurd rfl hthread
  | assign tid hs =>
    have hnot := hassign rfl
    constructor <;> grind
  | load success hc | announceRunning hc | tie hc =>
    have hshows := hb.shows _ hc
    constructor <;> grind
  | _ => constructor <;> grind

end Bond

end Pintos.Userprog
