import Pintos.Vm.Paging.Links

namespace Pintos.Vm

open Threads LibKernel Lib Userprog Option

def SpEntry.HasSlot (e : SpEntry) : Prop := e.sector ≠ sizeMax

namespace Paging

variable {c : Config} {s s' : Paging} {t : Int} {p : Proc} {b : Nat} {e : SpEntry} {ch : Choice}

def callCount (s : Paging) (call : SwapCall) (sector : BitVec 32) : Nat :=
  s.calls.countP fun made => made.1 = call ∧ made.2.sector = sector

structure SwapDiscipline (c : Config) (s : Paging) : Prop where
  disjoint : ∀ b b' e e', s.heap b = some e → s.heap b' = some e' → b ≠ b' → e.HasSlot →
    e'.HasSlot → ∀ sector ∈ slotSectors e.sector, sector ∉ slotSectors e'.sector
  inside : ∀ b e, s.heap b = some e → e.HasSlot → e.sector.toNat + 8 ≤ c.swapSectors
  held : ∀ made ∈ s.calls, made.2.HasSlot
  released : ∀ sector, (∀ b e, s.heap b = some e → e.HasSlot → e.sector ≠ sector) →
    s.callCount .delete sector = s.callCount .obtain sector
  kept : ∀ b e, s.heap b = some e → e.HasSlot →
    s.callCount .delete e.sector + 1 = s.callCount .obtain e.sector

def evicted (c : Config) (s : Paging) (b : Nat) (ch : Choice) : Option SpEntry :=
  if s.heap b = none ∨ (s.freeSlot c).isSome ∨ ch.random.toInt < 0 ∨
      c.slots ≤ ch.random.toInt.toNat then none
  else (s.ft ch.random.toInt.toNat).user.bind s.heap

def victim (c : Config) (s : Paging) : Int × Act → Option SpEntry
  | (t, .run ch) =>
    match s.procs t with
    | none => none
    | some p => (p.todo.head?.bind (s.obtains t p)).bind fun b => s.evicted c b ch
  | _ => none

theorem move_calls {act : Act} (h : Linked s) (hmove : Move c s t act s') : s'.calls = s.calls := by
  have houtcome : ∀ b ch s1 r, s.frameObtain c b ch = .ok (s1, r) →
      s1.calls = s.calls ∧ Linked s1 := by
    intro b ch s1 r hobtain
    obtain ⟨e, k, he, -, ho⟩ := frameObtain_eq_ok h.unswapped hobtain
    refine ⟨?_, h.outcome he ho⟩
    cases ho <;> rfl
  cases hmove with
  | create | turn | alloc | gone | store => rfl
  | obtain hp htodo hb hobtain hp' => exact (houtcome _ _ _ _ hobtain).1
  | stackFails hp htodo hobtain hdelete =>
    obtain ⟨hcalls, hlinked⟩ := houtcome _ _ _ _ hobtain
    obtain ⟨-, rfl⟩ := pageSuppDelete_eq_ok hlinked.unswapped hdelete
    exact hcalls
  | destroy hp htodo hlist hdelete =>
    obtain ⟨-, rfl⟩ := pageSuppDelete_eq_ok (h.delete _ _).1.unswapped hdelete
    rfl

theorem calls_eq_nil (h : (system c).Reachable s) : s.calls = [] := by
  apply h.invariant
  · rintro s ⟨mem, swap, rfl⟩
    rfl
  · intro s label s' hr hs hstep
    rw [← hs]
    exact move_calls (.of_reachable hr) (.of_exec hstep)

theorem swapDiscipline_of_reachable (h : (system c).Reachable s) : SwapDiscipline c s := by
  have hnone : ∀ b e, s.heap b = some e → ¬ e.HasSlot := by
    intro b e he hslot
    exact hslot ((Linked.of_reachable h).unswapped b e he).1
  have hcount : ∀ call sector, s.callCount call sector = 0 := by
    intro call sector
    rw [callCount, calls_eq_nil h, List.countP_nil]
  constructor
  · intro b b' e e' he _ _ hslot
    exact absurd hslot (hnone b e he)
  · intro b e he hslot
    exact absurd hslot (hnone b e he)
  · intro made hmade
    rw [calls_eq_nil h] at hmade
    cases hmade
  · intro sector _
    rw [hcount, hcount]
  · intro b e he hslot
    exact absurd hslot (hnone b e he)

theorem frameEvict_swap_iff (hs : s.Unswapped) (random : BitVec 32) (call : SwapCall) (a : SpEntry) :
    s.frameEvict c random = .error (.swap call a) ↔
      ¬ (random.toInt < 0 ∨ c.slots ≤ random.toInt.toNat) ∧
      ∃ e, (s.ft random.toInt.toNat).user.bind s.heap = some e ∧ e.location ≠ .filesystem ∧
        call = .write ∧ a = { e with location := .swapped } := by
  unfold frameEvict
  split
  · rename_i hrange
    simp [hrange]
  · rename_i hrange
    rw [and_iff_right hrange]
    split
    · rename_i huser
      simp [huser]
    · rename_i v huser
      rw [huser, bind_some]
      split
      · rename_i hheap
        simp [hheap]
      · rename_i e he
        rw [he]
        split
        · rename_i hlocation
          simp [hlocation]
        · rename_i hlocation
          dsimp only
          rw [swapWrite_eq (e := { e with location := .swapped }) (hs v e he).1]
          constructor
          · intro h
            cases h
            exact ⟨e, rfl, hlocation, rfl, rfl⟩
          · rintro ⟨e', heq, -, rfl, rfl⟩
            cases heq
            rfl

theorem fetchInto_ne_swap {k : Nat} (he : e.location ≠ .swapped)
    (call : SwapCall) (a : SpEntry) : s.fetchInto c b e k ch ≠ .error (.swap call a) := by
  intro h
  unfold fetchInto at h
  split at h
  · dsimp only at h
    split at h <;> cases h
  · cases h
  · cases h
  · rw [if_neg he] at h
    cases h
  · cases h

theorem bind_setEntry (he : s.heap b = some e) (idx : BitVec 32) (user : Option Nat) :
    (user.bind (s.setEntry b { e with idx := idx }).heap).map
        (fun a => (a.location, a.sector)) =
      (user.bind s.heap).map fun a => (a.location, a.sector) := by
  cases user with
  | none => rfl
  | some v =>
    by_cases hv : v = b
    · subst hv
      simp [setEntry, he]
    · simp [setEntry, Function.update_of_ne hv]

theorem frameObtain_swap (hs : s.Unswapped) {call : SwapCall} {a : SpEntry}
    (h : s.frameObtain c b ch = .error (.swap call a)) :
    a.sector = sizeMax ∧ ∃ e, s.evicted c b ch = some e ∧ e.location ≠ .filesystem := by
  unfold frameObtain at h
  split at h
  · cases h
  · rename_i e he
    split at h
    · rename_i fault hclaim
      cases h
      unfold claimSlot at hclaim
      split at hclaim
      · cases hclaim
      · rename_i hfull
        obtain ⟨hrange, e', huser, hlocation, -, rfl⟩ :=
          (frameEvict_swap_iff (hs.setEntry he _) _ _ _).mp hclaim
        have hsame := bind_setEntry he bitmapError (s.ft ch.random.toInt.toNat).user
        rw [show (s.ft ch.random.toInt.toNat).user.bind _ = some e' from huser] at hsame
        obtain ⟨v, hv, heq⟩ := map_eq_some_iff.mp hsame.symm
        rw [Prod.mk.injEq] at heq
        have hsector : v.sector = sizeMax := by
          obtain ⟨i, -, hi⟩ := bind_eq_some_iff.mp hv
          exact (hs i v hi).1
        refine ⟨heq.2.symm.trans hsector, v, ?_, heq.1 ▸ hlocation⟩
        rw [evicted, if_neg, hv]
        simpa [he, hfull] using hrange
    · rename_i s1 k hclaim
      obtain ⟨-, idx, hheap, -, hclaimed⟩ := claimSlot_eq_ok hs he hclaim
      rw [hheap] at h
      dsimp only at h
      split at h
      · exact absurd h (fetchInto_ne_swap (e := { e with idx := BitVec.ofNat 32 k })
          (hs b e he).2 call a)
      · cases h

theorem exists_swap_of_evicted (hs : s.Unswapped)
    (hevicted : s.evicted c b ch = some e) (hlocation : e.location ≠ .filesystem) :
    ∃ a, s.frameObtain c b ch = .error (.swap .write a) := by
  unfold evicted at hevicted
  split at hevicted
  · cases hevicted
  · rename_i hcond
    push Not at hcond
    obtain ⟨hlive, hfull, hlow, hhigh⟩ := hcond
    obtain ⟨e0, he0⟩ := ne_none_iff_exists'.mp hlive
    have hsame := bind_setEntry he0 bitmapError (s.ft ch.random.toInt.toNat).user
    rw [hevicted] at hsame
    obtain ⟨v, hv, heq⟩ := map_eq_some_iff.mp hsame
    rw [Prod.mk.injEq] at heq
    refine ⟨{ v with location := .swapped }, ?_⟩
    have hevict := (frameEvict_swap_iff (c := c) (hs.setEntry he0 bitmapError) ch.random .write
      { v with location := .swapped }).mpr
      ⟨by omega, v, hv, heq.1 ▸ hlocation, rfl, rfl⟩
    have hfull : s.freeSlot c = none := by simpa using hfull
    unfold frameObtain claimSlot
    simp only [he0, hfull, hevict]

theorem pageSuppDelete_ne_swap (hs : s.Unswapped) (b : Nat) (call : SwapCall) (a : SpEntry) :
    s.pageSuppDelete c b ≠ .error (.swap call a) := by
  intro h
  unfold pageSuppDelete at h
  split at h
  · cases h
  · rename_i e he
    rw [if_neg (hs b e he).2] at h
    cases h

theorem allocOr_ne_swap (e : SpEntry) (ch : Choice) (call : SwapCall) (a : SpEntry) :
    s.allocOr t p e ch ≠ .error (.swap call a) := by
  intro h
  unfold allocOr at h
  split at h <;> cases h

theorem runInstr_swap_iff (h : Linked s) (p : Proc) (rest : List Instr) (ch : Choice)
    (instr : Instr) (call : SwapCall) (a : SpEntry) :
    s.runInstr c t { p with todo := rest } ch instr = .error (.swap call a) ↔
      ∃ b, s.obtains t p instr = some b ∧ s.frameObtain c b ch = .error (.swap call a) := by
  cases instr with
  | alloc e | allocStack => simp [runInstr, obtains, allocOr_ne_swap]
  | validateOnStack esp =>
    dsimp only [runInstr, obtains]
    split
    · simp
    · split
      · simp
      · split <;> simp [allocOr_ne_swap]
  | growStack addr esp write =>
    dsimp only [runInstr, obtains]
    split
    · simp
    · split <;> simp [allocOr_ne_swap]
  | obtainStack b =>
    simp only [obtains, some.injEq, exists_eq_left']
    dsimp only [runInstr]
    split
    · rename_i fault hobtain
      rw [hobtain]
      simp
    · rename_i s1 hobtain
      rw [hobtain]
      simp
    · rename_i s1 hobtain
      obtain ⟨e, k, he, -, ho⟩ := frameObtain_eq_ok h.unswapped hobtain
      rw [hobtain]
      split
      · rename_i fault hdelete
        constructor
        · intro hfault
          cases hfault
          exact absurd hdelete (pageSuppDelete_ne_swap (h.outcome he ho).unswapped b call a)
        · intro hfault
          cases hfault
      · simp
    · rename_i s1 hobtain
      rw [hobtain]
      simp
  | obtain addr user =>
    dsimp only [runInstr, obtains]
    split
    · rename_i hfind
      simp [hfind]
    · rename_i x hfind
      simp only [hfind, map_some, some.injEq, exists_eq_left']
      split
      · rename_i fault hobtain
        rw [hobtain]
        simp
      · rename_i s1 hobtain
        rw [hobtain]
        simp
      · rename_i s1 hobtain
        rw [hobtain]
        split <;> simp
      · rename_i s1 hobtain
        rw [hobtain]
        simp
  | destroy =>
    dsimp only [runInstr, obtains]
    split
    · simp
    · rename_i x xs hlist
      unfold destroyRound
      split
      · simp
      · split
        · rename_i fault hdelete
          constructor
          · intro hfault
            cases hfault
            exact absurd hdelete (pageSuppDelete_ne_swap (h.delete x _).1.unswapped _ call a)
          · simp
        · simp

theorem exec_swap_iff (h : Linked s) (t : Int) (act : Act) (call : SwapCall) (a : SpEntry) :
    s.exec c (t, act) = .error (.swap call a) ↔
      ∃ ch p instr rest b, act = .run ch ∧ s.procs t = some p ∧ p.todo = instr :: rest ∧
        s.obtains t p instr = some b ∧ s.frameObtain c b ch = .error (.swap call a) := by
  constructor
  · intro hexec
    unfold exec at hexec
    split at hexec
    · split at hexec <;> cases hexec
    · rename_i heq
      cases heq
      split at hexec
      · cases hexec
      · rename_i p hp
        cases act with
        | create pd => cases hexec
        | segment file phdr | stack | exit =>
          dsimp only [execProc] at hexec
          split at hexec <;> cases hexec
        | fault addr esp user write =>
          dsimp only [execProc] at hexec
          unfold pageFault at hexec
          split at hexec
          · split at hexec
            · cases hexec
            · split at hexec <;> cases hexec
          · cases hexec
        | store addr byte =>
          dsimp only [execProc] at hexec
          split at hexec
          · cases hexec
          · split at hexec <;> cases hexec
        | run ch =>
          dsimp only [execProc] at hexec
          split at hexec
          · cases hexec
          · rename_i instr rest htodo
            obtain ⟨b, hb, hobtain⟩ := (runInstr_swap_iff h p rest ch instr call a).mp hexec
            exact ⟨ch, p, instr, rest, b, rfl, hp, htodo, hb, hobtain⟩
  · rintro ⟨ch, p, instr, rest, b, rfl, hp, htodo, hb, hobtain⟩
    simp only [exec, hp, execProc, htodo]
    exact (runInstr_swap_iff h p rest ch instr call a).mpr ⟨b, hb, hobtain⟩

-- In every state that can be reached nobody has a slot, and the next step calls into swap.c
-- for an entry without one exactly if it evicts a page that is not one of a file.
theorem swap_discipline_iff (h : (system c).Reachable s) (label : Int × Act) :
    SwapDiscipline c s ∧
      ((∀ call e, s.exec c label = .error (.swap call e) → e.HasSlot) ↔
        ∀ e, s.victim c label = some e → e.location = .filesystem) := by
  have hlinked := Linked.of_reachable h
  obtain ⟨t, act⟩ := label
  refine ⟨swapDiscipline_of_reachable h, ?_, ?_⟩
  · intro hcalls e hvictim
    by_contra hlocation
    unfold victim at hvictim
    split at hvictim
    · rename_i t' ch heq
      cases heq
      split at hvictim
      · cases hvictim
      · rename_i p hp
        obtain ⟨b, hb, hevicted⟩ := bind_eq_some_iff.mp hvictim
        obtain ⟨instr, hinstr, hb⟩ := bind_eq_some_iff.mp hb
        obtain ⟨rest, htodo⟩ := List.head?_eq_some_iff.mp hinstr
        obtain ⟨a, hobtain⟩ := exists_swap_of_evicted hlinked.unswapped hevicted hlocation
        apply hcalls .write a
        · exact (exec_swap_iff hlinked t _ _ _).mpr
            ⟨ch, p, instr, rest, b, rfl, hp, htodo, hb, hobtain⟩
        · exact (frameObtain_swap hlinked.unswapped hobtain).1
    · cases hvictim
  · intro hvictims call a hexec
    obtain ⟨ch, p, instr, rest, b, rfl, hp, htodo, hb, hobtain⟩ :=
      (exec_swap_iff hlinked t act call a).mp hexec
    obtain ⟨-, e, hevicted, hlocation⟩ := frameObtain_swap hlinked.unswapped hobtain
    apply absurd (hvictims e ?_) hlocation
    simp only [victim, hp, htodo, List.head?_cons, bind_some, hb]
    exact hevicted

def fullTable : List (Int × Act) :=
  starts 1 0x1000 0 ++ leaves 1 1 ++ starts 2 0x2000 0 ++ leaves 2 1 ++ starts 3 0x3000 0 ++
    leaves 3 1 ++ starts 4 0x4000 0 ++ grows 4 0xbfffeffc 0xbffffff0

theorem swap_discipline_iff_fullTable : ∃ s, (system .small).Reachable s ∧
    SwapDiscipline .small s ∧
      ((∀ call e, s.exec .small (4, .run (.page 1 3)) = .error (.swap call e) → e.HasSlot) ↔
        ∀ e, s.victim .small (4, .run (.page 1 3)) = some e → e.location = .filesystem) := by
  obtain ⟨s, hs, -⟩ := reachableVia_of_leadsTo .small (fun _ _ => true) fullTable (fun _ => true)
    (by decide +kernel)
  exact ⟨s, hs.reachable, swap_discipline_iff hs.reachable _⟩

theorem swap_write_without_slot : ∃ s, (system .small).Reachable s ∧
    ∃ e, s.exec .small (4, .run (.page 1 3)) = .error (.swap .write e) ∧ ¬ e.HasSlot := by
  obtain ⟨s, hs, hp⟩ := reachableVia_of_leadsTo .small (fun _ _ => true) fullTable
    (fun s => match s.exec .small (4, .run (.page 1 3)) with
      | .error (.swap .write e) => e.sector == sizeMax
      | _ => false) (by decide +kernel)
  refine ⟨s, hs.reachable, ?_⟩
  split at hp
  · rename_i e he
    exact ⟨e, he, fun hslot => hslot (by simpa using hp)⟩
  · cases hp

end Paging

end Pintos.Vm
