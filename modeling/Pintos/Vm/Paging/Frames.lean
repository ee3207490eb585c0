import Pintos.Vm.Paging.Links

namespace Pintos.Vm

open Function Threads LibKernel Lib Userprog Option Bool

namespace Paging

variable {c : Config} {s s' : Paging} {t : Int} {p : Proc} {k b : Nat} {e : SpEntry} {ch : Choice}

-- A frame_obtain that neither evicts nor leaves its slot in a strange state: there is a free
-- slot, and the page is not mapped, is not past the end of its file and is not one that
-- frame_fetch takes from the kernel's pool.
def obtainable (c : Config) (s : Paging) (b : Nat) : Bool :=
  (s.freeSlot c).isSome && (s.heap b).all fun e =>
    (s.lookup e.pagedir e.upage).isNone && poolOf e == .user &&
      !decide (ShortFile (fun file => (c.files file).length) e)

def frameless (s : Paging) (p : Proc) : Bool :=
  p.speList.head?.all fun x => (s.heap x.block).all fun e => e.idx == bitmapError

def ownsFrames (c : Config) (s : Paging) : Int × Act → Bool
  | (t, .run _) =>
    (s.procs t).all fun p => p.todo.head?.all fun instr =>
      ((s.obtains t p instr).all fun b => s.obtainable c b) &&
        match instr with
        | .destroy => s.frameless p
        | _ => true
  | _ => true

theorem ownsFrames_run {instr : Instr} {rest : List Instr} (hp : s.procs t = some p)
    (htodo : p.todo = instr :: rest) (h : s.ownsFrames c (t, .run ch) = true) :
    (∀ b, s.obtains t p instr = some b → s.obtainable c b = true) ∧
      (instr = .destroy → s.frameless p = true) := by
  simp only [ownsFrames, hp, htodo, all_some, List.head?_cons, and_eq_true] at h
  obtain ⟨hobtains, hdestroy⟩ := h
  constructor
  · intro b hb
    rw [hb] at hobtains
    exact hobtains
  · rintro rfl
    exact hdestroy

structure Holds (s : Paging) (k b : Nat) (e : SpEntry) (kpage : KPage) : Prop where
  used : s.used k = true
  ft : s.ft k = ⟨some kpage, some b⟩
  pool : kpage.pool = .user
  mapped : (s.lookup e.pagedir e.upage).map (·.kpage) = some kpage

structure Owned (c : Config) (s : Paging) : Prop where
  used : ∀ k, s.used k = true →
    k < c.slots ∧ ∃ b e, s.heap b = some e ∧ e.idx = BitVec.ofNat 32 k
  slot : ∀ b e, s.heap b = some e → e.idx ≠ bitmapError →
    ∃ k kpage, e.idx = BitVec.ofNat 32 k ∧ k < c.slots ∧ s.Holds k b e kpage

theorem idx_ne_bitmapError (hk : k < c.slots) : BitVec.ofNat 32 k ≠ bitmapError := by
  intro h
  have hnat := congrArg BitVec.toNat h
  have hlt := c.slots_lt
  rw [BitVec.toNat_ofNat, Nat.mod_eq_of_lt (by omega),
    show bitmapError.toNat = 2 ^ 32 - 1 from rfl] at hnat
  omega

theorem idx_inj {k' : Nat} (hk : k < c.slots) (hk' : k' < c.slots)
    (h : BitVec.ofNat 32 k = BitVec.ofNat 32 k') : k = k' := by
  have hnat := congrArg BitVec.toNat h
  have hlt := c.slots_lt
  rw [BitVec.toNat_ofNat, BitVec.toNat_ofNat, Nat.mod_eq_of_lt (by omega),
    Nat.mod_eq_of_lt (by omega)] at hnat
  exact hnat

namespace Owned

theorem boot (mem : KPage → PageBytes) (swap : Nat → Fin 512 → BitVec 8) :
    Owned c (boot mem swap) where
  used _ hused := nomatch hused
  slot _ _ he := nomatch he

section

variable (h : Owned c s)
include h

theorem same (hheap : s'.heap = s.heap) (hused : s'.used = s.used)
    (hft : ∀ k, s.used k = true → s'.ft k = s.ft k)
    (hdirs : ∀ b e, s.heap b = some e → s'.dirs e.pagedir = s.dirs e.pagedir) :
    Owned c s' where
  used := by
    rw [hheap, hused]
    exact h.used
  slot b e he hidx := by
    rw [hheap] at he
    obtain ⟨k, kpage, hk, hlt, hholds⟩ := h.slot b e he hidx
    refine ⟨k, kpage, hk, hlt, hused ▸ hholds.used, ?_, hholds.pool, ?_⟩
    · rw [hft k hholds.used]
      exact hholds.ft
    · rw [lookup, hdirs b e he]
      exact hholds.mapped

theorem free (hb : ∀ e, s.heap b = some e → e.idx = bitmapError) :
    Owned c { s with heap := update s.heap b none } where
  used k hk := by
    obtain ⟨hlt, b', e, he, hidx⟩ := h.used k hk
    refine ⟨hlt, b', e, ?_, hidx⟩
    have hne : b' ≠ b := by
      rintro rfl
      exact idx_ne_bitmapError hlt (hidx.symm.trans (hb e he))
    simpa only [update_of_ne hne] using he
  slot b' e he hidx := by
    have hne : b' ≠ b := by
      rintro rfl
      simp at he
    simp only [update_of_ne hne] at he
    obtain ⟨k, kpage, hk, hlt, hholds⟩ := h.slot b' e he hidx
    exact ⟨k, kpage, hk, hlt, hholds.used, hholds.ft, hholds.pool, hholds.mapped⟩

theorem pageSuppAlloc (hl : Linked s) {p' : Proc} (he : e.idx = bitmapError)
    (buckets : Bool) : Owned c (s.pageSuppAlloc t p' e buckets) where
  used k hk := by
    obtain ⟨hlt, b, e', he', hidx⟩ := h.used k hk
    obtain ⟨t', q, x, hq, hx, rfl, -⟩ := hl.heap_listed b e' he'
    have hne : x.block ≠ s.nextBlock := (hl.block_lt t' q hq x hx).ne
    exact ⟨hlt, x.block, e', (update_of_ne hne ..).trans he', hidx⟩
  slot b e' he' hidx := by
    rcases update_eq_some_iff.mp he' with ⟨rfl, rfl⟩ | ⟨-, he'⟩
    · exact absurd he hidx
    · obtain ⟨k, kpage, hk, hlt, hholds⟩ := h.slot b e' he' hidx
      exact ⟨k, kpage, hk, hlt, hholds.used, hholds.ft, hholds.pool, hholds.mapped⟩

theorem idx_of_lookup (he : s.heap b = some e)
    (hmap : s.lookup e.pagedir e.upage = none) : e.idx = bitmapError := by
  by_contra hidx
  obtain ⟨k, kpage, -, -, hholds⟩ := h.slot b e he hidx
  have hmapped := hholds.mapped
  rw [hmap] at hmapped
  cases hmapped

theorem failed (he : s.heap b = some e)
    (hidx : e.idx = bitmapError) (hfree : s.used k = false) (ho : Outcome c s b e k ch s' .failed) :
    Owned c s' := by
  have hentry : { e with idx := bitmapError } = e := by rw [← hidx]
  have hheap : s'.heap = s.heap := by
    rw [ho.heap_eq, if_pos rfl, hentry, ← he]
    exact update_eq_self b s.heap
  have hused : update (update s.used k true) k false = s.used := by
    rw [update_idem, ← hfree]
    exact update_eq_self k s.used
  have hne : ∀ k', s.used k' = true → k' ≠ k := by
    rintro k' hk' rfl
    rw [hfree] at hk'
    cases hk'
  cases ho with
  | rejected =>
    refine h.same hheap hused ?_ fun _ _ _ => rfl
    intro k' hk'
    simp only [giveBack, setEntry, pallocFreePage, fillFrame, claimed, update_of_ne (hne k' hk')]
  | refused => exact h.same hheap hused (fun _ _ => rfl) fun _ _ _ => rfl

theorem installed (he : s.heap b = some e) (hpool : poolOf e = .user) (hk : k < c.slots)
    (hfree : s.used k = false) (ho : Outcome c s b e k ch s' .installed) : Owned c s' := by
  cases ho with
  | installed hpage hcan hmap hfetch =>
  rename_i kpage
  have hidx := h.idx_of_lookup he hmap
  have hne : ∀ k', s.used k' = true → k' ≠ k := by
    rintro k' hk' rfl
    rw [hfree] at hk'
    cases hk'
  constructor
  · intro k' hk'
    by_cases hnew : k' = k
    · subst hnew
      exact ⟨hk, b, _, update_self .., rfl⟩
    · simp only [installPage, fillFrame, claimed, update_of_ne hnew] at hk'
      obtain ⟨hlt, b', e', he', hidx'⟩ := h.used k' hk'
      have hb : b' ≠ b := by
        rintro rfl
        cases he.symm.trans he'
        exact idx_ne_bitmapError hlt (hidx'.symm.trans hidx)
      exact ⟨hlt, b', e', (update_of_ne hb ..).trans he', hidx'⟩
  · intro b' e' he' hidx'
    rcases update_eq_some_iff.mp he' with ⟨rfl, rfl⟩ | ⟨-, he'⟩
    · refine ⟨k, kpage, rfl, hk, update_self .., ?_, ?_, ?_⟩
      · simp only [installPage, fillFrame, update_self]
      · simp only [canReturn, and_eq_true, beq_iff_eq] at hcan
        rw [hcan.1.1, hpool]
      · simp only [lookup, installPage, update_self, List.lookup_cons_self, map_some]
    · obtain ⟨k', kpage', hk', hlt, hholds⟩ := h.slot b' e' he' hidx'
      have hkk := hne k' hholds.used
      refine ⟨k', kpage', hk', hlt, ?_, ?_, hholds.pool, ?_⟩
      · simp only [installPage, fillFrame, claimed, update_of_ne hkk]
        exact hholds.used
      · simp only [installPage, fillFrame, claimed, update_of_ne hkk]
        exact hholds.ft
      · -- the new mapping is for a page that had none
        by_cases hpd : e'.pagedir = e.pagedir
        · have hpage' : e'.upage ≠ e.upage := by
            intro hpage'
            have hmapped := hholds.mapped
            rw [hpd, hpage', hmap] at hmapped
            cases hmapped
          simp only [lookup, installPage, hpd, update_self]
          rw [List.lookup_cons, beq_false_of_ne hpage']
          rw [← hpd]
          exact hholds.mapped
        · simp only [lookup, installPage, update_of_ne hpd]
          exact hholds.mapped

theorem outcome {r : Obtained} (he : s.heap b = some e) (hobtainable : s.obtainable c b = true)
    (hclaims : s.Claims c k) (ho : Outcome c s b e k ch s' r) :
    Owned c s' ∧ (r = .failed → ∀ e', s'.heap b = some e' → e'.idx = bitmapError) := by
  simp only [obtainable, he, all_some, and_eq_true, isNone_iff_eq_none,
    beq_iff_eq, not_eq_true', decide_eq_false_iff_not] at hobtainable
  obtain ⟨hfree, ⟨hmap, hpool⟩, hwhole⟩ := hobtainable
  obtain ⟨hk, hunused⟩ : k < c.slots ∧ s.used k = false := by
    rcases hclaims.2 with hfree' | ⟨hfull, -⟩
    · exact freeSlot_eq_some hfree'
    · rw [hfull] at hfree
      cases hfree
  cases r with
  | installed => exact ⟨h.installed he hpool hk hunused ho, fun hr => nomatch hr⟩
  | failed =>
    refine ⟨h.failed he (h.idx_of_lookup he hmap) hunused ho, ?_⟩
    intro _ e' he'
    rw [ho.heap_eq, update_self] at he'
    cases he'
    rfl
  | exited =>
    cases ho with
    | exited _ _ hshort => exact absurd hshort hwhole

theorem gone (hl : Linked s) (hp : s.procs t = some p) (hlist : p.speList = []) :
    Owned c (s.pagedirDestroy t p.pagedir) := by
  refine h.same rfl rfl (fun _ _ => rfl) ?_
  intro b e he
  have hne : e.pagedir ≠ p.pagedir := by
    intro hpd
    obtain ⟨q, x, hq, hqpd, hx, -⟩ := hl.heap_owner he
    have htid := hl.pagedir_inj e.tid q t p hq hp (hqpd.symm.trans hpd)
    rw [htid, hp] at hq
    cases hq
    rw [hlist] at hx
    cases hx
  exact update_of_ne hne ..

theorem move {act : Act} (hl : Linked s) (hguard : s.ownsFrames c (t, act) = true)
    (hmove : Move c s t act s') : Owned c s' := by
  cases hmove with
  | create | turn | store => exact h.same rfl rfl (fun _ _ => rfl) fun _ _ _ => rfl
  | alloc hp htodo he hp' => exact h.pageSuppAlloc hl (hl.made_of_allocates hp htodo he).idx _
  | obtain hp htodo hb hobtain hp' =>
    obtain ⟨e, k, he, hclaims, ho⟩ := frameObtain_eq_ok hl.unswapped hobtain
    have howned := (h.outcome he ((ownsFrames_run hp htodo hguard).1 _ hb) hclaims ho).1
    exact howned.same rfl rfl (fun _ _ => rfl) fun _ _ _ => rfl
  | stackFails hp htodo hobtain hdelete =>
    obtain ⟨e, k, he, hclaims, ho⟩ := frameObtain_eq_ok hl.unswapped hobtain
    obtain ⟨howned, hidx⟩ := h.outcome he ((ownsFrames_run hp htodo hguard).1 _ rfl) hclaims ho
    obtain ⟨-, rfl⟩ := pageSuppDelete_eq_ok (hl.outcome he ho).unswapped hdelete
    exact (howned.free (hidx rfl)).same rfl rfl (fun _ _ => rfl) fun _ _ _ => rfl
  | destroy hp htodo hlist hdelete =>
    obtain ⟨-, rfl⟩ := pageSuppDelete_eq_ok (hl.delete _ _).1.unswapped hdelete
    have hframeless := (ownsFrames_run hp htodo hguard).2 rfl
    simp only [frameless, hlist, List.head?_cons, all_some] at hframeless
    refine (h.free ?_).same rfl rfl (fun _ _ => rfl) fun _ _ _ => rfl
    intro e he
    rw [he, all_some, beq_iff_eq] at hframeless
    exact hframeless
  | gone hp htodo hlist => exact h.gone hl hp hlist

end

theorem of_reachable
    (h : (system c).ReachableVia (fun s label => s.ownsFrames c label = true) s) : Owned c s := by
  apply h.invariant
  · rintro s ⟨mem, swap, rfl⟩
    exact boot mem swap
  · intro s label s' hr hs hguard hstep
    exact hs.move (.of_reachable hr) hguard (.of_exec hstep)

end Owned

-- While every frame_obtain is for such a page and processes free no entry that has a frame: a
-- slot is marked exactly if a live entry has it, whose page is the one in the slot, and no two
-- entries have the same slot.
theorem frames_owned
    (h : (system c).ReachableVia (fun s label => s.ownsFrames c label = true) s) :
    (∀ k < c.slots, s.used k = true ↔ ∃ b e p kpage, s.heap b = some e ∧
      e.idx = BitVec.ofNat 32 k ∧ s.ft k = ⟨some kpage, some b⟩ ∧ kpage.pool = .user ∧
      s.procs e.tid = some p ∧ (s.lookup p.pagedir e.upage).map (·.kpage) = some kpage) ∧
    ∀ b b' e e', s.heap b = some e → s.heap b' = some e' → e.idx ≠ bitmapError →
      e.idx = e'.idx → b = b' := by
  have howned := Owned.of_reachable h
  have hlinked := Linked.of_reachable h
  -- the slot that an index names
  have hslot : ∀ k b e, k < c.slots → s.heap b = some e → e.idx = BitVec.ofNat 32 k →
      ∃ kpage, s.Holds k b e kpage := by
    intro k b e hk he hidx
    have hne : e.idx ≠ bitmapError := hidx ▸ idx_ne_bitmapError hk
    obtain ⟨k', kpage, hidx', hlt, hholds⟩ := howned.slot b e he hne
    obtain rfl := idx_inj hk hlt (hidx.symm.trans hidx')
    exact ⟨kpage, hholds⟩
  constructor
  · intro k hk
    constructor
    · intro hused
      obtain ⟨-, b, e, he, hidx⟩ := howned.used k hused
      obtain ⟨kpage, hholds⟩ := hslot k b e hk he hidx
      obtain ⟨p, x, hp, hpd, -⟩ := hlinked.heap_owner he
      exact ⟨b, e, p, kpage, he, hidx, hholds.ft, hholds.pool, hp, hpd ▸ hholds.mapped⟩
    · rintro ⟨b, e, p, kpage, he, hidx, -⟩
      obtain ⟨kpage', hholds⟩ := hslot k b e hk he hidx
      exact hholds.used
  · intro b b' e e' he he' hne hsame
    obtain ⟨k, kpage, hidx, hk, hholds⟩ := howned.slot b e he hne
    obtain ⟨kpage', hholds'⟩ := hslot k b' e' hk he' (hsame.symm.trans hidx)
    have hft := hholds.ft.symm.trans hholds'.ft
    injection hft with _ huser
    exact some.inj huser

theorem frames_owned_stack : ∃ s,
    (system .small).ReachableVia (fun s label => s.ownsFrames .small label = true) s ∧
    s.used 1 = true ∧ ∃ b e p kpage, s.heap b = some e ∧ e.idx = BitVec.ofNat 32 1 ∧
      s.ft 1 = ⟨some kpage, some b⟩ ∧ kpage.pool = .user ∧ s.procs e.tid = some p ∧
      (s.lookup p.pagedir e.upage).map (·.kpage) = some kpage := by
  obtain ⟨s, hs, hp⟩ := reachableVia_of_leadsTo .small (ownsFrames .small)
    (starts 1 0x1000 2 ++ starts 2 0x2000 0) (fun s => s.used 1) (by decide +kernel)
  exact ⟨s, hs, hp, ((frames_owned hs).1 1 (by decide)).mp hp⟩

-- A process that is gone leaves its slot marked, and no entry is left.
theorem slot_without_entry : ∃ s, (system .small).Reachable s ∧ s.used 0 = true ∧
    ∀ b, s.heap b = none := by
  obtain ⟨s, hs, hp⟩ := reachableVia_of_leadsTo .small (fun _ _ => true)
    (starts 1 0x1000 0 ++ leaves 1 1)
    (fun s => s.used 0 && (List.range s.nextBlock).all fun b => (s.heap b).isNone)
    (by decide +kernel)
  rw [and_eq_true, List.all_eq_true] at hp
  refine ⟨s, hs.reachable, hp.1, ?_⟩
  intro b
  rw [eq_none_iff_forall_ne_some]
  intro e he
  have hlinked := Linked.of_reachable hs
  obtain ⟨t, p, x, hproc, hx, rfl, -⟩ := hlinked.heap_listed b e he
  have hnone := hp.2 x.block (List.mem_range.mpr (hlinked.block_lt t p hproc x hx))
  rw [he] at hnone
  cases hnone

end Paging

end Pintos.Vm
