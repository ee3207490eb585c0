import Pintos.Lib.Except
import Pintos.Userprog.Tasks.Discipline

namespace Pintos.Userprog.TaskTable

open Function Lib Threads Vm TaskTable Disciplined LockTable System

variable {s s' t : TaskTable} {p : TaskRef} {code : List Instr} {choice : TaskChoice} {x : Task}
  {l : LockName} {frame : Bool}

def AtPlace (held : List LockName) : Mode → Prop
  | .kernel code => Disciplined held code
  | _ => held = []

structure Orderly (s : TaskTable) : Prop where
  locks : s.locks.Consistent
  fresh : ∀ p, s.nextTask ≤ p → (s.tasks p).mode = .absent
  placed : ∀ p, AtPlace (s.locks.acquired p) (s.tasks p).mode

section

variable (h : Orderly s) (hmode : (s.tasks p).mode ≠ .absent)
include h hmode

theorem Orderly.moved (htasks : s'.tasks = update s.tasks p x) (hnext : s'.nextTask = s.nextTask)
    (hlocks : s'.locks.Consistent) (hothers : ∀ q, q ≠ p → s'.locks.acquired q = s.locks.acquired q)
    (hplace : AtPlace (s'.locks.acquired p) x.mode) : Orderly s' where
  locks := hlocks
  fresh q hq := by
    rw [hnext] at hq
    have hne : q ≠ p := by
      rintro rfl
      exact hmode (h.fresh q hq)
    rw [htasks, update_of_ne hne]
    exact h.fresh q hq
  placed q := by
    by_cases hq : q = p
    · subst hq
      rw [htasks, update_self]
      exact hplace
    · rw [htasks, update_of_ne hq, hothers q hq]
      exact h.placed q

theorem Orderly.stays (htasks : s'.tasks = update s.tasks p x) (hnext : s'.nextTask = s.nextTask)
    (hlocks : s'.locks = s.locks) (hplace : AtPlace (s.locks.acquired p) x.mode) : Orderly s' :=
  h.moved hmode htasks hnext (hlocks ▸ h.locks) (fun _ _ => by rw [hlocks]) (hlocks ▸ hplace)

theorem Orderly.goto (hcode : Disciplined (s.locks.acquired p) code) : Orderly (s.goto p code) :=
  h.stays hmode rfl rfl rfl hcode

theorem Orderly.acquire (hcode : Disciplined (s.locks.acquired p ++ [l]) code)
    (hs' : (s.goto p code).withLocks (s.locks.acquire p l) = .ok s') : Orderly s' := by
  unfold withLocks at hs'
  split at hs'
  · rename_i k hk
    obtain ⟨hfree, rfl⟩ := acquire_eq_ok.mp hk
    cases hs'
    refine h.moved hmode rfl rfl (h.locks.give hfree)
      (fun q hq => acquired_give_of_ne hq) ?_
    show Disciplined ((s.locks.give p l).acquired p) code
    rw [acquired_give_self]
    exact hcode
  · cases hs'

theorem Orderly.release (htasks : t.tasks = update s.tasks p x) (hnext : t.nextTask = s.nextTask)
    (hplace : AtPlace ((s.locks.acquired p).erase l) x.mode)
    (hs' : t.withLocks (s.locks.release p l) = .ok s') : Orderly s' := by
  unfold withLocks at hs'
  split at hs'
  · rename_i k hk
    obtain ⟨hheld, rfl⟩ := release_eq_ok.mp hk
    cases hs'
    refine h.moved hmode htasks hnext (h.locks.drop hheld)
      (fun q hq => acquired_drop_of_ne hq) ?_
    show AtPlace ((s.locks.drop p l).acquired p) x.mode
    rw [acquired_drop_self]
    exact hplace
  · cases hs'

theorem Orderly.spawn (exe : Executable) (hcode : Disciplined (s.locks.acquired p) code) :
    Orderly ((s.spawn p exe).goto p code) := by
  have hnew : (s.tasks s.nextTask).mode = .absent := h.fresh _ le_rfl
  have hnone : s.locks.acquired s.nextTask = [] := by
    have hplace := h.placed s.nextTask
    rw [hnew] at hplace
    exact hplace
  have hspawned : Orderly (s.spawn p exe) := by
    refine ⟨h.locks, fun q hq => ?_, fun q => ?_⟩
    · have hlt : s.nextTask < q := hq
      show (update s.tasks s.nextTask _ q).mode = .absent
      rw [update_of_ne hlt.ne']
      exact h.fresh q hlt.le
    · show AtPlace (s.locks.acquired q) (update s.tasks s.nextTask _ q).mode
      by_cases hq : q = s.nextTask
      · subst hq
        rw [update_self, hnone]
        exact startProcess p exe
      · rw [update_of_ne hq]
        exact h.placed q
  have hne : p ≠ s.nextTask := by
    rintro rfl
    exact hmode hnew
  refine hspawned.goto ?_ hcode
  show (update s.tasks s.nextTask _ p).mode ≠ .absent
  rw [update_of_ne hne]
  exact hmode

end

def Backed (s : TaskTable) (a : TaskRef × TaskChoice) : Prop :=
  match (s.tasks a.1).mode, a.2 with
  | .kernel (.fetch e _ :: _), .go true _ =>
    s.locks.holder .fs = some a.1 → ¬ShortFile s.fileLength e
  | _, _ => True

instance (s : TaskTable) (a : TaskRef × TaskChoice) : Decidable (Backed s a) := by
  unfold Backed
  split
  · infer_instance
  · infer_instance

theorem fetch_eq_exited {e : SpEntry} (h : s.fetch e frame = .exited) :
    frame = true ∧ ShortFile s.fileLength e := by
  unfold fetch at h
  split at h
  · cases h
  · exact (frameFetch_eq_exited _ _ _).mp h

theorem not_mem_of_light {held : List LockName} (h : Light held) : .frameTable ∉ held := by
  rcases h with rfl | rfl <;> simp

theorem Orderly.perform {i : Instr} {room : Bool} (h : Orderly s)
    (hmode : (s.tasks p).mode = .kernel (i :: code)) (hbacked : Backed s (p, .go frame room))
    (hs' : s.perform p frame room code i = .ok s') : Orderly s' := by
  have hhere : (s.tasks p).mode ≠ .absent := by simp [hmode]
  have hcode : Disciplined (s.locks.acquired p) (i :: code) := by
    have hplace := h.placed p
    rw [hmode] at hplace
    exact hplace
  have hmoves : ∀ code', Disciplined (s.locks.acquired p) code' → Orderly (s.goto p code') :=
    fun _ => h.goto hhere
  have hexit : s.locks.acquired p = [] → Orderly (s.goto p [.processExit]) :=
    fun hnil => hmoves _ (.inl hnil)
  cases i with
  | acquire l => exact h.acquire hhere hcode.2 hs'
  | release l =>
    exact h.release (t := s.goto p code) (x := { s.tasks p with mode := .kernel code }) hhere
      rfl rfl hcode.2 hs'
  | check ptr len =>
    cases hs'
    split
    · exact hmoves _ hcode.2
    · exact hexit hcode.1
  | validateEsp esp =>
    cases hs'
    split
    · exact hexit hcode.1
    · exact hmoves _ hcode.2
  | access addr write =>
    simp only [TaskTable.perform] at hs'
    split at hs'
    · cases hs'
      exact hmoves _ hcode.2
    · split at hs'
      · cases hs'
      · cases hs'
        exact hmoves _ ⟨hcode.1, trivial, hcode⟩
  | validateOnStack esp =>
    simp only [TaskTable.perform] at hs'
    split at hs'
    · cases hs'
    · split at hs'
      · cases hs'
        exact hmoves _ hcode.2
      · split at hs'
        · cases hs'
          exact hexit hcode.1
        · cases hs'
          exact hmoves _ ((suppAlloc_iff (by simp [hcode.1]) _).mpr hcode.2)
  | growStack addr write esp =>
    simp only [TaskTable.perform] at hs'
    split at hs'
    · cases hs'
      exact hmoves _ hcode.2
    · split at hs'
      · cases hs'
        exact hexit hcode.1
      · cases hs'
        exact hmoves _ ((suppAlloc_iff (by simp [hcode.1]) _).mpr hcode.2)
  | obtain addr fail =>
    simp only [TaskTable.perform] at hs'
    split at hs'
    · cases hs'
      exact hmoves _ ((frameObtain_iff hcode.1 _ _).mpr hcode.2)
    · cases hs'
      exact hmoves _ ⟨not_mem_of_light hcode.1, trivial⟩
  | fetch e fail =>
    have hfail := onFail (s.tasks p).parent hcode.1 hcode.2.1
    simp only [TaskTable.perform] at hs'
    split at hs'
    · split at hs'
      · cases hs'
        exact h.stays hhere rfl rfl rfl hcode.2.2
      · cases hs'
        exact hmoves _ hfail
    · cases hs'
      exact hmoves _ hfail
    · rename_i hexited
      cases hs'
      -- the file is short, so the process does not hold fs_lock
      obtain ⟨rfl, hshort⟩ := fetch_eq_exited hexited
      have hfs : s.locks.holder .fs ≠ some p := by
        intro hheld
        simp only [Backed, hmode] at hbacked
        exact hbacked hheld hshort
      rcases hcode.1 with hheld | hheld
      · exact hmoves _ (.inr hheld)
      · exact absurd ((h.locks.holder_iff _ _).mpr (by simp [hheld])) hfs
    · cases hs'
  | alloc e | setPagedir pd | openExec | link | unlink | resize file length | die =>
    cases hs'
    exact h.stays hhere rfl rfl rfl hcode
  | header file phdr =>
    have hfail : Disciplined (s.locks.acquired p) (Code.loadFailed (s.tasks p).parent) := by
      rw [hcode.1]
      exact loadFailed _
    simp only [TaskTable.perform] at hs'
    split at hs'
    · cases hs'
      exact hmoves _ hfail
    · split at hs'
      · split at hs'
        · cases hs'
          exact hmoves _ ((flatMap_suppAlloc_iff (by simp [hcode.1]) _).mpr hcode.2)
        · cases hs'
          exact hmoves _ hfail
      · cases hs'
        exact hmoves _ hcode.2
  | setupStack =>
    cases hs'
    apply hmoves
    rw [List.append_assoc, suppAlloc_iff (by simp [hcode.1]), frameObtain_iff (.inr hcode.1)]
    exact ⟨by simp [OnFail.Fits, hcode.1], hcode.2⟩
  | spawn exe =>
    cases hs'
    exact h.spawn hhere exe hcode
  | panic => cases hs'
  | powerOff => cases hs'
  | processExit =>
    cases hs'
    exact hmoves _ (Disciplined.exitCode s p hcode)
  | releaseAll =>
    simp only [TaskTable.perform] at hs'
    split at hs'
    · rename_i hnil
      cases hs'
      exact hmoves _ (hnil ▸ hcode)
    · refine h.release (x := s.tasks p) hhere (update_eq_self p s.tasks).symm rfl ?_ hs'
      rw [hmode]
      exact hcode

theorem Orderly.execOutside (h : Orderly s)
    (hmode : (s.tasks p).mode = .outside) (hs' : s.execOutside p choice = .ok s') :
    Orderly s' := by
  have hnil : s.locks.acquired p = [] := by
    have hplace := h.placed p
    rw [hmode] at hplace
    exact hplace
  have henter : ∀ code, Disciplined [] code → Orderly (s.goto p code) :=
    fun code hcode => h.goto (by simp [hmode]) (hnil ▸ hcode)
  have hexit : Orderly (s.goto p [.processExit]) := henter _ (.inl rfl)
  cases choice with
  | go frame room => cases hs'
  | evict tid page => cases hs'
  | runTask launch polls =>
    dsimp only [execOutside] at hs'
    split at hs'
    · cases hs'
      apply henter
      rw [processExecute_iff]
      exact of_append_nil ((processWait_iff p polls).mpr rfl)
    · cases hs'
  | syscall esp call =>
    dsimp only [execOutside] at hs'
    split at hs'
    · cases hs'
    · cases hs'
      exact henter _ (syscallHandler p esp call)
  | fault addr write esp =>
    dsimp only [execOutside] at hs'
    split at hs'
    · cases hs'
    · split at hs'
      · cases hs'
        exact hexit
      · cases hs'
        exact henter _ (pageFault addr write esp)
  | exception =>
    dsimp only [execOutside] at hs'
    split at hs'
    · cases hs'
    · cases hs'
      exact hexit

theorem Orderly.execKernel (h : Orderly s) (hmode : (s.tasks p).mode = .kernel code)
    (hbacked : Backed s (p, choice)) (hs' : s.execKernel p code choice = .ok s') : Orderly s' := by
  unfold TaskTable.execKernel at hs'
  split at hs'
  · have hplace := h.placed p
    rw [hmode] at hplace
    cases hs'
    exact h.stays (by simp [hmode]) rfl rfl rfl hplace
  · exact h.perform hmode hbacked hs'
  · split at hs'
    · cases hs'
      exact ⟨h.locks, h.fresh, h.placed⟩
    · cases hs'
  · cases hs'

theorem Orderly.step (h : Orderly s) (hbacked : Backed s (p, choice))
    (hs' : s.exec p choice = .ok s') : Orderly s' := by
  unfold exec at hs'
  split at hs'
  · rename_i hmode
    exact h.execKernel hmode hbacked hs'
  · rename_i hmode
    exact h.execOutside hmode hs'
  · cases hs'
  · cases hs'

theorem orderly_boot (fileLength : FileRef → Nat) : Orderly (boot fileLength) where
  locks := LockTable.Consistent.unheld
  fresh p hp := by
    have hpos : p ≠ 0 := Nat.ne_of_gt hp
    simp [boot, hpos]
  placed p := by
    by_cases hp : p = 0
    · simp [boot, hp, AtPlace, unheld]
    · simp [boot, hp, AtPlace, unheld]

theorem orderly_of_reachable (h : system.ReachableVia Backed s) : Orderly s := by
  apply h.invariant
  · rintro s ⟨fileLength, rfl⟩
    exact orderly_boot fileLength
  · rintro s ⟨p, choice⟩ s' - horderly hbacked hstep
    exact horderly.step hbacked hstep

theorem withLocks_eq_alreadyHeld {locks : Except LockFault (LockTable TaskRef LockName)}
    (h : t.withLocks locks = .error (.lock .alreadyHeld)) : locks = .error .alreadyHeld := by
  unfold withLocks at h
  split at h
  · cases h
  · cases h
    rfl

theorem release_ne_alreadyHeld : s.locks.release p l ≠ .error .alreadyHeld := by
  unfold release
  split
  · simp
  · simp

theorem acquires_of_alreadyHeld (h : s.exec p choice = .error (.lock .alreadyHeld)) :
    ∃ l code, (s.tasks p).mode = .kernel (.acquire l :: code) ∧ s.locks.holder l = some p := by
  unfold exec at h
  split at h
  · rename_i code hmode
    unfold TaskTable.execKernel at h
    split at h
    · cases h
    · rename_i i code
      cases i with
      | acquire l =>
        exact ⟨l, code, hmode, acquire_eq_alreadyHeld.mp (withLocks_eq_alreadyHeld h)⟩
      | release l => exact absurd (withLocks_eq_alreadyHeld h) release_ne_alreadyHeld
      | releaseAll =>
        simp only [TaskTable.perform] at h
        split at h
        · cases h
        · exact absurd (withLocks_eq_alreadyHeld h) release_ne_alreadyHeld
      | _ =>
        simp only [TaskTable.perform] at h
        repeat' split at h
        all_goals cases h
    · split at h
      · cases h
      · cases h
    · cases h
  · cases choice with
    | _ =>
      dsimp only [execOutside] at h
      repeat' split at h
      all_goals cases h
  · cases h
  · cases h

theorem Orderly.disciplined (h : Orderly s) (hmode : (s.tasks p).mode = .kernel code) :
    Disciplined (s.locks.acquired p) code := by
  have hplace := h.placed p
  rw [hmode] at hplace
  exact hplace

theorem exits_locked_of_not_backed (hbacked : ¬Backed s (p, choice))
    (hs' : s.exec p choice = .ok s') :
    (s'.tasks p).mode = .kernel [.processExit] ∧ s'.locks.holder .fs = some p := by
  unfold Backed at hbacked
  split at hbacked
  · rename_i e fail code room hmode hchoice
    push Not at hbacked
    obtain ⟨hheld, hshort⟩ := hbacked
    have hexited : s.fetch e true = .exited ∨ s.fetch e true = .panicked := by
      unfold fetch
      split
      · exact .inr rfl
      · exact .inl ((frameFetch_eq_exited _ _ _).mpr ⟨rfl, hshort⟩)
    simp only at hmode hchoice
    subst hchoice
    rcases hexited with hexited | hexited
    · simp only [exec, hmode, TaskTable.execKernel, TaskTable.perform, hexited,
        Except.ok.injEq] at hs'
      subst hs'
      exact ⟨by simp [goto, enter, setTask], hheld⟩
    · simp [exec, hmode, TaskTable.execKernel, TaskTable.perform, hexited] at hs'
  · exact absurd trivial hbacked

theorem exits_unlocked_of_backed (h : system.ReachableVia Backed s) (p : TaskRef) :
    (∀ code, (s.tasks p).mode = .kernel (.processExit :: code) →
      s.locks.holder .fs ≠ some p ∧
        s.locks.holder (.children (s.tasks p).parent) ≠ some p) ∧
    (∀ choice, s.exec p choice ≠ .error (.lock .alreadyHeld)) ∧
    ∀ choice s', ¬Backed s (p, choice) → s.exec p choice = .ok s' →
      (s'.tasks p).mode = .kernel [.processExit] ∧ s'.locks.holder .fs = some p := by
  have horderly := orderly_of_reachable h
  refine ⟨fun code hmode => ?_, fun choice hfault => ?_, fun choice s' => ?_⟩
  · have hheld := horderly.disciplined hmode
    constructor
    · rw [ne_eq, horderly.locks.holder_iff]
      rcases hheld with hheld | hheld <;> simp [hheld]
    · rw [ne_eq, horderly.locks.holder_iff]
      rcases hheld with hheld | hheld <;> simp [hheld]
  · obtain ⟨l, code, hmode, hholder⟩ := acquires_of_alreadyHeld hfault
    exact (horderly.disciplined hmode).1 ((horderly.locks.holder_iff l p).mp hholder)
  · exact exits_locked_of_not_backed

theorem exists_run (guard : TaskTable → TaskRef × TaskChoice → Prop)
    [∀ s a, Decidable (guard s a)] (fileLength : FileRef → Nat)
    (labels : List (TaskRef × TaskChoice)) (p : TaskTable → Bool)
    (h : leadsTo (boot fileLength) (tryExec (fun s a => decide (guard s a))
      fun s a => s.exec a.1 a.2) labels p = true) :
    ∃ s, system.ReachableVia guard s ∧ p s = true := by
  refine reachableVia_of_leadsTo _ _ labels p ⟨fileLength, rfl⟩ (fun s a s' hs => ?_) h
  obtain ⟨hguard, hexec⟩ := tryExec_eq_some hs
  exact ⟨of_decide_eq_true hguard, hexec⟩

def shortExecutable : Executable where
  pagedir := some 0xc0200000
  file := some 7
  headerOk := true
  phdrs := [some ⟨ptLoad, 0, 0x08048000, 0x1000, 0x1000, 5⟩,
    some ⟨ptLoad, 0x1000, 0x08049000, 0x2000, 0x2000, 6⟩]
  pushes := [4]

def consoleWrite (buf : Addr) (steps : Nat) : List (TaskRef × TaskChoice) :=
  [(0, .runTask ⟨true, 0, 0, some shortExecutable, 0⟩ none), (0, .go true true), (0, .go true true)] ++
    List.replicate 29 (1, .go true true) ++
    [(1, .syscall 0xbfffff00 (.write 1 buf 1 false 0 none))] ++
    List.replicate steps (1, .go true true)

def fileOfTwoPages (file : FileRef) : Nat := if file = 7 then 0x2000 else 0

def atExit (s : TaskTable) (p : TaskRef) : Bool :=
  match (s.tasks p).mode with
  | .kernel (.processExit :: _) => true
  | _ => false

theorem mode_of_atExit (h : s.atExit p = true) :
    ∃ code, (s.tasks p).mode = .kernel (.processExit :: code) := by
  unfold atExit at h
  split at h
  · rename_i code hmode
    exact ⟨code, hmode⟩
  · cases h

theorem exits_locked :
    (∃ s p code, system.Reachable s ∧ (s.tasks p).mode = .kernel (.processExit :: code) ∧
      s.locks.holder .fs = some p) ∧
    ∃ s p choice, system.Reachable s ∧ s.exec p choice = .error (.lock .alreadyHeld) := by
  constructor
  · obtain ⟨s, hr, hs⟩ := exists_run (fun _ _ => True) fileOfTwoPages
      (consoleWrite 0x0804a000 27)
      (fun s => s.atExit 1 && s.locks.holder .fs == some 1) (by decide +kernel)
    rw [Bool.and_eq_true, beq_iff_eq] at hs
    obtain ⟨code, hmode⟩ := mode_of_atExit hs.1
    exact ⟨s, 1, code, hr.reachable, hmode, hs.2⟩
  · obtain ⟨s, hr, hs⟩ := exists_run (fun _ _ => True) fileOfTwoPages
      (consoleWrite 0x0804a000 28)
      (fun s => faultOf (s.exec 1 (.go true true)) == some (.lock .alreadyHeld))
      (by decide +kernel)
    exact ⟨s, 1, .go true true, hr.reachable, eq_error_of_faultOf (beq_iff_eq.mp hs)⟩

-- The process writes from a page that the file covers, and dies when it touches the other
-- one itself.
theorem exits_unlocked_of_backed_fault :
    ∃ s code, system.ReachableVia Backed s ∧
      (s.tasks 1).mode = .kernel (.processExit :: code) ∧ s.locks.holder .fs ≠ some 1 ∧
      s.locks.holder (.children 0) ≠ some 1 := by
  obtain ⟨s, hr, hs⟩ := exists_run Backed fileOfTwoPages
    (consoleWrite 0x08049000 31 ++ [(1, .fault 0x0804a000 false 0xbfffff00)] ++
      List.replicate 5 (1, .go true true))
    (fun s => s.atExit 1 && (s.tasks 1).parent == 0) (by decide +kernel)
  rw [Bool.and_eq_true, beq_iff_eq] at hs
  obtain ⟨code, hmode⟩ := mode_of_atExit hs.1
  have hfree := (exits_unlocked_of_backed hr 1).1 code hmode
  rw [hs.2] at hfree
  exact ⟨s, code, hr, hmode, hfree⟩

end Pintos.Userprog.TaskTable
