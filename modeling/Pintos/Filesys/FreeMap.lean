import Pintos.Lib.TransitionSystem
import Pintos.LibKernel.Bitmap
import Pintos.LibKernel.Hash.Keyed

namespace Pintos.Filesys.FreeMap

open Function Lib LibKernel List Bitmap Option

inductive Progress
  -- free_map_allocate has claimed the run and writes the bitmap to the file
  | writing (start : Nat) (run : Run) (entry : Nat)
  -- the write failed and the run is to be given back
  | undoing (run : Run) (entry : Nat)
  -- free_map_release has given back its run and writes the bitmap to the file
  | flushing
deriving DecidableEq

-- `sectorp` is what each thread has at the address it passes, `live` the runs that
-- have been returned and not yet released. `entry` in a call is the value at that
-- address when the call began.
structure State (τ : Type) where
  map : Bitmap
  fileOpen : Bool
  sectorp : τ → Nat
  live : List Run
  calls : List (τ × Progress)

inductive Label (τ : Type)
  | allocate (t : τ) (start cnt : Nat)
  | release (t : τ) (run : Run)
  -- bitmap_write returns
  | wrote (t : τ) (success : Bool)
  | undo (t : τ)

variable {τ : Type} [DecidableEq τ] {p : Progress}

def call (s : State τ) (t : τ) : Option (τ × Progress) := s.calls.find? (·.1 == t)

def endCall (s : State τ) (t : τ) : State τ := { s with calls := s.calls.eraseP (·.1 == t) }

-- The steps between two releases of bitmap_lock. A thread makes one call at a time and
-- releases only a run that is live; an assertion that fails ends the run.
def exec (s : State τ) : Label τ → Option (State τ)
  | .allocate t start cnt =>
    if (call s t).isSome then none
    else if start ≤ s.map.bitCnt then
      match s.map.scanAndFlip start cnt false with
      | (_, none) => some s
      | (map, some sector) =>
        some { s with
          map := map
          calls := (t, .writing start ⟨sector, cnt⟩ (s.sectorp t)) :: s.calls }
    else none
  | .release t run =>
    if (call s t).isSome then none
    else if run ∈ s.live then
      if s.map.all run.first run.cnt then
        some { s with
          map := s.map.setMultiple run.first run.cnt false
          live := s.live.erase run
          calls := (t, .flushing) :: s.calls }
      else none
    else none
  | .wrote t success =>
    match call s t with
    | some (_, .writing _ run entry) =>
      if s.fileOpen && !success then
        some { endCall s t with calls := (t, .undoing run entry) :: (endCall s t).calls }
      else
        some { endCall s t with
          live := run :: s.live
          sectorp := update s.sectorp t run.first }
    | some (_, .flushing) => some (endCall s t)
    | _ => none
  | .undo t =>
    match call s t with
    | some (_, .undoing run _) =>
      some { endCall s t with map := s.map.setMultiple run.first run.cnt false }
    | _ => none

def returns (s : State τ) : Label τ → Option (τ × Bool)
  | .allocate t start cnt =>
    match s.map.scan start cnt false with
    | none => some (t, false)
    | some _ => none
  | .wrote t success =>
    match call s t with
    | some (_, .writing _ _ _) => if s.fileOpen && !success then none else some (t, true)
    | _ => none
  | .undo t => some (t, false)
  | .release _ _ => none

def system (τ : Type) [DecidableEq τ] (bits : Bitmap) : Lib.System (State τ) (Label τ) where
  init s := s.map = bits ∧ s.live = [] ∧ s.calls = []
  step s label s' := exec s label = some s'

def Progress.claim : Progress → Option Run
  | .writing _ run _ => some run
  | .undoing run _ => some run
  | .flushing => none

def owned (s : State τ) : List Run := s.live ++ s.calls.filterMap (·.2.claim)

def Progress.Sound (s : State τ) (t : τ) : Progress → Prop
  | .writing start run entry => start ≤ run.first ∧ s.sectorp t = entry
  | .undoing _ entry => s.sectorp t = entry
  | .flushing => True

structure Inv (bits : Bitmap) (s : State τ) : Prop where
  covered : Covered bits.bits s.map.bits (owned s)
  threads : (s.calls.map Prod.fst).Nodup
  sound : ∀ c ∈ s.calls, c.2.Sound s c.1

inductive Move (s : State τ) : Label τ → State τ → Prop
  | refused {t : τ} {start cnt : Nat} : call s t = none → s.map.scan start cnt false = none →
      Move s (.allocate t start cnt) s
  | claimed {t : τ} {start cnt sector : Nat} : call s t = none →
      s.map.scan start cnt false = some sector →
      Move s (.allocate t start cnt) { s with
        map := s.map.setMultiple sector cnt true
        calls := (t, .writing start ⟨sector, cnt⟩ (s.sectorp t)) :: s.calls }
  | released {t : τ} {run : Run} : call s t = none → run ∈ s.live →
      Move s (.release t run) { s with
        map := s.map.setMultiple run.first run.cnt false
        live := s.live.erase run
        calls := (t, .flushing) :: s.calls }
  | returned {t : τ} {success : Bool} {start : Nat} {run : Run} {entry : Nat} :
      call s t = some (t, .writing start run entry) → (s.fileOpen && !success) = false →
      Move s (.wrote t success) { endCall s t with
        live := run :: s.live
        sectorp := update s.sectorp t run.first }
  | failed {t : τ} {success : Bool} {start : Nat} {run : Run} {entry : Nat} :
      call s t = some (t, .writing start run entry) → (s.fileOpen && !success) = true →
      Move s (.wrote t success)
        { endCall s t with calls := (t, .undoing run entry) :: (endCall s t).calls }
  | flushed {t : τ} {success : Bool} : call s t = some (t, .flushing) →
      Move s (.wrote t success) (endCall s t)
  | undone {t : τ} {run : Run} {entry : Nat} : call s t = some (t, .undoing run entry) →
      Move s (.undo t) { endCall s t with map := s.map.setMultiple run.first run.cnt false }

theorem call_fst {s : State τ} {t u : τ} (h : call s t = some (u, p)) : u = t := by
  simpa using find?_some h

theorem Move.of_exec {s s' : State τ} {label : Label τ} (h : exec s label = some s') :
    Move s label s' := by
  cases label with
  | allocate t start cnt =>
    simp only [exec, scanAndFlip] at h
    split at h
    · cases h
    · rename_i hcall
      rw [Bool.not_eq_true, isSome_eq_false_iff, isNone_iff_eq_none] at hcall
      split at h
      · cases hscan : s.map.scan start cnt false with
        | none =>
          rw [hscan] at h
          cases h
          exact .refused hcall hscan
        | some sector =>
          rw [hscan] at h
          cases h
          exact .claimed hcall hscan
      · cases h
  | release t run =>
    simp only [exec] at h
    split at h
    · cases h
    · rename_i hcall
      rw [Bool.not_eq_true, isSome_eq_false_iff, isNone_iff_eq_none] at hcall
      split at h
      · rename_i hlive
        split at h
        · cases h
          exact .released hcall hlive
        · cases h
      · cases h
  | wrote t success =>
    simp only [exec] at h
    split at h
    · rename_i u start run entry hcall
      cases call_fst hcall
      split at h
      · rename_i hfail
        cases h
        exact .failed hcall hfail
      · rename_i hok
        cases h
        exact .returned hcall (by simpa using hok)
    · rename_i u hcall
      cases call_fst hcall
      cases h
      exact .flushed hcall
    · cases h
  | undo t =>
    simp only [exec] at h
    split at h
    · rename_i u run entry hcall
      cases call_fst hcall
      cases h
      exact .undone hcall
    · cases h

theorem calls_perm {s : State τ} {t : τ} {c : τ × Progress} (h : call s t = some c) :
    s.calls ~ c :: (endCall s t).calls :=
  Hash.perm_cons_eraseP h

theorem not_mem_of_call {s : State τ} {t : τ} (h : call s t = none) : t ∉ s.calls.map Prod.fst := by
  intro hmem
  obtain ⟨c, hc, rfl⟩ := mem_map.mp hmem
  exact find?_eq_none.mp h c hc (by simp)

theorem not_mem_endCall {s : State τ} {t : τ}
    (hthreads : (s.calls.map Prod.fst).Nodup) (h : call s t = some (t, p)) :
    ((endCall s t).calls.map Prod.fst).Nodup ∧ t ∉ (endCall s t).calls.map Prod.fst := by
  have hnodup := ((calls_perm h).map Prod.fst).nodup_iff.mp hthreads
  rw [map_cons, nodup_cons] at hnodup
  exact ⟨hnodup.2, hnodup.1⟩

theorem mem_of_mem_endCall {s : State τ} {t : τ} {c : τ × Progress}
    (h : c ∈ (endCall s t).calls) : c ∈ s.calls :=
  mem_of_mem_eraseP h

omit [DecidableEq τ] in
theorem owned_cons (s : State τ) (calls : List (τ × Progress)) (t : τ) (p : Progress) :
    owned { s with calls := (t, p) :: calls } ~
      p.claim.toList ++ owned { s with calls := calls } := by
  simp only [owned, filterMap_cons]
  cases p.claim with
  | none => exact Perm.refl _
  | some run => exact perm_middle

theorem owned_endCall {s : State τ} {t : τ} (h : call s t = some (t, p)) :
    owned s ~ p.claim.toList ++ owned (endCall s t) := by
  have hperm := ((calls_perm h).filterMap (·.2.claim)).append_left s.live
  exact hperm.trans (owned_cons s (endCall s t).calls t p)

namespace Inv

variable {bits : Bitmap} {s s' : State τ} {label : Label τ}

omit [DecidableEq τ] in
theorem init (hmap : s.map = bits) (hlive : s.live = []) (hcalls : s.calls = []) : Inv bits s where
  covered i := by simp [owned, hmap, hlive, hcalls]
  threads := by simp [hcalls]
  sound c hc := by simp [hcalls] at hc

theorem move (hi : Inv bits s) (h : Move s label s') : Inv bits s' := by
  cases h with
  | refused => exact hi
  | @claimed t start cnt sector hcall hscan =>
    obtain ⟨hstart, -, hfree⟩ := scan_eq_some hscan
    constructor
    · have hmark : Covered bits.bits (s.map.setMultiple sector cnt true).bits
          (⟨sector, cnt⟩ :: owned s) := by
        apply hi.covered.mark hfree
        intro i
        rw [setMultiple_bits]
        cases (Run.mk sector cnt).has i <;> rfl
      exact hmark.of_perm (owned_cons s s.calls t (.writing start ⟨sector, cnt⟩ _)).symm
    · exact nodup_cons.mpr ⟨not_mem_of_call hcall, hi.threads⟩
    · intro c hc
      rcases mem_cons.mp hc with rfl | hc
      · exact ⟨hstart, rfl⟩
      · exact hi.sound c hc
  | @released t run hcall hlive =>
    constructor
    · have hperm : owned s ~ run :: owned { s with live := s.live.erase run } :=
        (perm_cons_erase hlive).append_right _
      refine (hi.covered.of_perm hperm).unmark ?_
      intro i
      rw [setMultiple_bits]
      cases run.has i <;> simp
    · exact nodup_cons.mpr ⟨not_mem_of_call hcall, hi.threads⟩
    · intro c hc
      rcases mem_cons.mp hc with rfl | hc
      · trivial
      · exact hi.sound c hc
  | @returned t success start run entry hcall hok =>
    obtain ⟨hnodup, hother⟩ := not_mem_endCall hi.threads hcall
    refine ⟨hi.covered.of_perm (owned_endCall hcall), hnodup, ?_⟩
    intro c hc
    have hne : c.1 ≠ t := fun heq => hother (mem_map.mpr ⟨c, hc, heq⟩)
    have hsound := hi.sound c (mem_of_mem_endCall hc)
    cases hp : c.2 <;> simp_all [Progress.Sound]
  | @failed t success start run entry hcall hfail =>
    obtain ⟨hnodup, hother⟩ := not_mem_endCall hi.threads hcall
    refine ⟨?_, nodup_cons.mpr ⟨hother, hnodup⟩, ?_⟩
    · exact (hi.covered.of_perm (owned_endCall hcall)).of_perm (owned_cons _ _ t _).symm
    · intro c hc
      rcases mem_cons.mp hc with rfl | hc
      · exact (hi.sound _ (mem_of_find?_eq_some hcall)).2
      · exact hi.sound c (mem_of_mem_endCall hc)
  | @flushed t success hcall =>
    obtain ⟨hnodup, -⟩ := not_mem_endCall hi.threads hcall
    exact ⟨hi.covered.of_perm (owned_endCall hcall), hnodup,
      fun c hc => hi.sound c (mem_of_mem_endCall hc)⟩
  | @undone t run entry hcall =>
    obtain ⟨hnodup, -⟩ := not_mem_endCall hi.threads hcall
    refine ⟨?_, hnodup, fun c hc => hi.sound c (mem_of_mem_endCall hc)⟩
    refine (hi.covered.of_perm (owned_endCall hcall)).unmark ?_
    intro i
    rw [setMultiple_bits]
    cases run.has i <;> simp

theorem of_reachable (hr : (system τ bits).Reachable s) : Inv bits s := by
  apply Lib.System.Reachable.invariant hr
  · rintro s ⟨hmap, hlive, hcalls⟩
    exact init hmap hlive hcalls
  · intro s label s' _ hi hstep
    exact hi.move (.of_exec hstep)

end Inv

def entry (s : State τ) (t : τ) : Nat :=
  match call s t with
  | some (_, .writing _ _ entry) => entry
  | some (_, .undoing _ entry) => entry
  | _ => s.sectorp t

namespace Inv

variable {bits : Bitmap} {s s' : State τ} {label : Label τ} {t : τ}

omit [DecidableEq τ] in
theorem live_pairwise (hi : Inv bits s) : s.live.Pairwise Run.Disjoint :=
  (pairwise_append.mp hi.covered.pairwise).1

omit [DecidableEq τ] in
theorem quiescent (hi : Inv bits s) (hcalls : s.calls = []) (i : Nat) :
    s.map.bits i = true ↔ bits.bits i = true ∨ ∃ run ∈ s.live, run.has i = true := by
  have hmarks := hi.covered.marks_iff i
  rwa [owned, hcalls, filterMap_nil, append_nil] at hmarks

omit [DecidableEq τ] in
theorem all_live (hi : Inv bits s) {run : Run} (hrun : run ∈ s.live) :
    s.map.all run.first run.cnt = true := by
  rw [all_iff]
  intro i hi'
  exact hi.covered.marked (mem_append_left _ hrun) hi'

-- The run that a call has claimed is none of the live ones.
omit [DecidableEq τ] in
theorem claim_disjoint (hi : Inv bits s) (hp : (t, p) ∈ s.calls) {run live : Run}
    (hclaim : p.claim = some run) (hlive : live ∈ s.live) : Run.Disjoint run live := by
  have hmem : run ∈ s.calls.filterMap (·.2.claim) := mem_filterMap.mpr ⟨(t, p), hp, hclaim⟩
  intro i hboth
  exact (pairwise_append.mp hi.covered.pairwise).2.2 live hlive run hmem i hboth.symm

theorem returns_true (hi : Inv bits s) (h : Move s label s')
    (hreturns : returns s label = some (t, true)) :
    ∃ start run entry, (t, Progress.writing start run entry) ∈ s.calls ∧ start ≤ run.first ∧
      s'.sectorp t = run.first ∧ s'.live = run :: s.live ∧
      ∀ live ∈ s.live, Run.Disjoint run live := by
  cases h with
  | refused _ hscan | claimed _ hscan => simp [returns, hscan] at hreturns
  | released | undone => simp [returns] at hreturns
  | @returned u success start run entry hcall hok =>
    obtain rfl : u = t := by simpa [returns, hcall, hok] using hreturns
    have hmem := mem_of_find?_eq_some hcall
    exact ⟨start, run, entry, hmem, (hi.sound _ hmem).1, update_self .., rfl,
      fun live hlive => hi.claim_disjoint hmem rfl hlive⟩
  | failed hcall hfail => simp [returns, hcall, hfail] at hreturns
  | flushed hcall => simp [returns, hcall] at hreturns

theorem returns_false (hi : Inv bits s) (h : Move s label s')
    (hreturns : returns s label = some (t, false)) : s'.sectorp t = entry s t := by
  cases h with
  | @refused u start cnt hcall hscan =>
    obtain rfl : u = t := by simpa [returns, hscan] using hreturns
    simp [entry, hcall]
  | claimed _ hscan => simp [returns, hscan] at hreturns
  | released => simp [returns] at hreturns
  | returned hcall hok => simp [returns, hcall, hok] at hreturns
  | failed hcall hfail => simp [returns, hcall, hfail] at hreturns
  | flushed hcall => simp [returns, hcall] at hreturns
  | @undone u run old hcall =>
    obtain rfl : u = t := by simpa [returns] using hreturns
    have hsound := hi.sound _ (mem_of_find?_eq_some hcall)
    simp only [entry, hcall]
    exact hsound

end Inv

theorem claims_free {s s' : State τ} {t : τ} {start cnt : Nat}
    (h : Move s (.allocate t start cnt) s') :
    s' = s ∨ ∃ sector, start ≤ sector ∧ sector + cnt ≤ s.map.bitCnt ∧
      (∀ i, (Run.mk sector cnt).has i = true → s.map.bits i = false) ∧
      s'.calls = (t, .writing start ⟨sector, cnt⟩ (s.sectorp t)) :: s.calls := by
  cases h with
  | refused => exact .inl rfl
  | @claimed _ _ _ sector hcall hscan =>
    obtain ⟨hstart, hend, hfree⟩ := scan_eq_some hscan
    exact .inr ⟨sector, hstart, hend, hfree, rfl⟩

theorem allocation_exclusive (bits : Bitmap) {s : State τ}
    (hr : (system τ bits).Reachable s) :
    s.live.Pairwise Run.Disjoint ∧
    (s.calls = [] → ∀ i, s.map.bits i = true ↔
      bits.bits i = true ∨ ∃ run ∈ s.live, run.has i = true) ∧
    (∀ run ∈ s.live, s.map.all run.first run.cnt = true) ∧
    (∀ t start cnt s', exec s (.allocate t start cnt) = some s' →
      s' = s ∨ ∃ sector, start ≤ sector ∧ sector + cnt ≤ s.map.bitCnt ∧
        (∀ i, (Run.mk sector cnt).has i = true → s.map.bits i = false) ∧
        s'.calls = (t, .writing start ⟨sector, cnt⟩ (s.sectorp t)) :: s.calls) ∧
    (∀ label t s', exec s label = some s' → returns s label = some (t, true) →
      ∃ start run entry, (t, Progress.writing start run entry) ∈ s.calls ∧ start ≤ run.first ∧
        s'.sectorp t = run.first ∧ s'.live = run :: s.live ∧
        ∀ live ∈ s.live, Run.Disjoint run live) ∧
    ∀ label t s', exec s label = some s' → returns s label = some (t, false) →
      s'.sectorp t = entry s t := by
  have hi := Inv.of_reachable hr
  exact ⟨hi.live_pairwise, hi.quiescent, fun run hrun => hi.all_live hrun,
    fun t start cnt s' h => claims_free (.of_exec h),
    fun label t s' h => hi.returns_true (.of_exec h),
    fun label t s' h => hi.returns_false (.of_exec h)⟩

def eight : Bitmap := ⟨8, fun i => i < 2⟩

def overlapping : List (Label Nat) :=
  [.allocate 0 2 2, .allocate 1 2 1, .wrote 0 false, .wrote 1 true, .undo 0]

theorem allocation_exclusive_overlapping :
    ∃ s, (system Nat eight).Reachable s ∧ s.live = [⟨4, 1⟩] ∧
      ∀ i, s.map.bits i = true ↔ i < 2 ∨ i = 4 := by
  obtain ⟨s, hr, hs⟩ := Lib.System.reachableVia_of_leadsTo (S := system Nat eight)
    (⟨eight, true, fun _ => 0, [], []⟩ : State Nat) exec overlapping
    (fun s => decide (s.live = [⟨4, 1⟩] ∧ s.calls = [])) ⟨rfl, rfl, rfl⟩
    (fun _ _ _ h => ⟨trivial, h⟩) (by decide +kernel)
  obtain ⟨hlive, hcalls⟩ := of_decide_eq_true hs
  refine ⟨s, hr, hlive, fun i => ?_⟩
  rw [(allocation_exclusive eight hr).2.1 hcalls i, hlive]
  simp only [eight, decide_eq_true_eq, mem_singleton, exists_eq_left, Run.has_iff]
  omega

end Pintos.Filesys.FreeMap
