import Pintos.Userprog.Load.Segments
import Pintos.Vm.Paging

namespace Pintos.Vm

open Function Threads LibKernel Lib Userprog List

structure SpEntry.Made (t : Int) (pd : Addr) (e : SpEntry) : Prop where
  tid : e.tid = t
  pagedir : e.pagedir = pd
  idx : e.idx = bitmapError
  sector : e.sector = sizeMax
  location : e.location ≠ .swapped
  whole : e.location = .filesystem →
    e.fp.isSome ∧ e.readBytes.toNat + e.zeroBytes.toNat = 4096

theorem SpEntry.made_alloc (t : Int) (pd upage : Addr) :
    (SpEntry.alloc ⟨t, pd⟩ upage).Made t pd where
  tid := rfl
  pagedir := rfl
  idx := rfl
  sector := rfl
  location := by simp [SpEntry.alloc]
  whole := by simp [SpEntry.alloc]

theorem made_pageEntry (t : Int) (pd : Addr) (ref : FileRef) (ofs : BitVec 32) (writable : Bool)
    (pageNo : BitVec 32) (upage : Addr) {pageReadBytes : BitVec 32}
    (hread : pageReadBytes.toNat ≤ 4096) :
    (pageEntry ⟨t, pd⟩ ref ofs writable pageNo upage pageReadBytes).Made t pd where
  tid := rfl
  pagedir := rfl
  idx := rfl
  sector := rfl
  location := by simp [pageEntry]
  whole := by
    intro _
    refine ⟨rfl, ?_⟩
    have hzero := pageZeroBytes_toNat pageReadBytes hread
    show pageReadBytes.toNat + (pgSize - pageReadBytes).toNat = 4096
    omega

theorem made_segmentPages (t : Int) (pd : Addr) (ref : FileRef) (ofs : BitVec 32) (writable : Bool)
    (rounds : Nat) (pageNo : BitVec 32) (upage : Addr) (readBytes zeroBytes : BitVec 32) :
    ∀ e ∈ segmentPages ⟨t, pd⟩ ref ofs writable rounds pageNo upage readBytes zeroBytes,
      e.Made t pd := by
  induction rounds generalizing pageNo upage readBytes zeroBytes with
  | zero => simp [segmentPages]
  | succ rounds ih =>
    by_cases hdone : readBytes = 0 ∧ zeroBytes = 0
    · simp [segmentPages, hdone]
    · obtain ⟨pageReadBytes, hread, -, hcons⟩ := segmentPages_succ ⟨t, pd⟩ ref ofs writable
        rounds pageNo upage readBytes zeroBytes hdone
      rw [hcons]
      intro e he
      rcases mem_cons.mp he with rfl | he
      · exact made_pageEntry t pd ref ofs writable pageNo upage (by omega)
      · exact ih _ _ _ _ e he

namespace Paging

variable {c : Config} {s s' : Paging} {t : Int} {p : Proc} {e : SpEntry} {k b : Nat} {ch : Choice}
  {r : Obtained} {instr : Instr} {rest : List Instr} {loading : Bool} {act : Act}
  {random : BitVec 32}

def allocates (s : Paging) (t : Int) (p : Proc) : Instr → Option SpEntry
  | .alloc e => some e
  | .allocStack => some (SpEntry.alloc ⟨t, p.pagedir⟩ stackPage)
  | .validateOnStack esp =>
    if (s.lookup p.pagedir (pgRoundDown esp)).isSome ∨ beyondStackLimit esp then none
    else some (SpEntry.alloc ⟨t, p.pagedir⟩ (pgRoundDown esp))
  | .growStack addr esp write =>
    if (s.pageFind ⟨t, p.pagedir⟩ (pgRoundDown addr)).isSome ∨ beyondStackLimit addr ∨
        addr < esp ∧ !write then none
    else some (SpEntry.alloc ⟨t, p.pagedir⟩ (pgRoundDown addr))
  | _ => none

def obtains (s : Paging) (t : Int) (p : Proc) : Instr → Option Nat
  | .obtainStack b => some b
  | .obtain addr _ => (s.pageFind ⟨t, p.pagedir⟩ (pgRoundDown addr)).map (·.block)
  | _ => none

structure Continues (t : Int) (p p' : Proc) : Prop where
  pagedir : p'.pagedir = p.pagedir
  speList : p'.speList = p.speList
  allocs : ∀ e, Instr.alloc e ∈ p'.todo → Instr.alloc e ∈ p.todo ∨ e.Made t p.pagedir

inductive Move (c : Config) (s : Paging) (t : Int) : Act → Paging → Prop
  | create {pd : Addr} (hnew : s.nextTid ≤ t) (hpd : pd ∉ s.pagedirs) :
      Move c s t (.create pd) (s.create t pd)
  | turn {act : Act} {p p' : Proc} (hact : ∀ addr byte, act ≠ .store addr byte)
      (hp : s.procs t = some p) (hp' : Continues t p p') : Move c s t act (s.setProc t p')
  | alloc {ch : Choice} {p p' : Proc} {instr : Instr} {rest : List Instr} {e : SpEntry}
      (hp : s.procs t = some p) (htodo : p.todo = instr :: rest)
      (he : s.allocates t p instr = some e) (hp' : Continues t p p') :
      Move c s t (.run ch) (s.pageSuppAlloc t p' e ch.buckets)
  | obtain {ch : Choice} {p p' : Proc} {instr : Instr} {rest : List Instr} {b : Nat}
      {s' : Paging} {r : Obtained} (hp : s.procs t = some p) (htodo : p.todo = instr :: rest)
      (hb : s.obtains t p instr = some b) (hobtain : s.frameObtain c b ch = .ok (s', r))
      (hp' : Continues t p p') : Move c s t (.run ch) (s'.setProc t p')
  | stackFails {ch : Choice} {p : Proc} {b : Nat} {rest : List Instr} {s' s'' : Paging}
      (hp : s.procs t = some p) (htodo : p.todo = .obtainStack b :: rest)
      (hobtain : s.frameObtain c b ch = .ok (s', .failed))
      (hdelete : s'.pageSuppDelete c b = .ok s'') :
      Move c s t (.run ch) (s''.setProc t { p with todo := leave })
  | destroy {ch : Choice} {p : Proc} {rest : List Instr} {x : SpElem} {xs : List SpElem}
      {s' : Paging} (hp : s.procs t = some p) (htodo : p.todo = .destroy :: rest)
      (hlist : p.speList = x :: xs)
      (hdelete : { s with ptHash := (s.ptHash.delete x ch.buckets).1 }.pageSuppDelete c x.block =
        .ok s') : Move c s t (.run ch) (s'.setProc t { p with speList := xs, todo := leave })
  | gone {ch : Choice} {p : Proc} {rest : List Instr} (hp : s.procs t = some p)
      (htodo : p.todo = .destroy :: rest) (hlist : p.speList = []) :
      Move c s t (.run ch) (s.pagedirDestroy t p.pagedir)
  | store {p : Proc} {m : Mapping} {addr : Addr} {byte : BitVec 8} (hp : s.procs t = some p)
      (hm : s.lookup p.pagedir (pgRoundDown addr) = some m) :
      Move c s t (.store addr byte) (s.writeByte t m.kpage addr byte)

theorem continues_of_todo {todo : List Instr} (htodo : ∀ e, Instr.alloc e ∉ todo) :
    Continues t p { p with loading := loading, todo := todo } where
  pagedir := rfl
  speList := rfl
  allocs e he := absurd he (htodo e)

theorem continues_leave : Continues t p { p with todo := leave } :=
  continues_of_todo (by simp [leave])

theorem continues_rest (htodo : p.todo = instr :: rest) :
    Continues t p { p with loading := loading, todo := rest } where
  pagedir := rfl
  speList := rfl
  allocs _ he := .inl (htodo ▸ mem_cons_of_mem _ he)

theorem Move.of_allocOr {p' : Proc} (hp : s.procs t = some p) (htodo : p.todo = instr :: rest)
    (he : s.allocates t p instr = some e) (hp' : Continues t p p')
    (h : s.allocOr t p' e ch = .ok s') : Move c s t (.run ch) s' := by
  unfold allocOr at h
  split at h
  · cases h
    exact .alloc hp htodo he hp'
  · cases h

theorem Move.of_runInstr (hp : s.procs t = some p) (htodo : p.todo = instr :: rest)
    (h : s.runInstr c t { p with todo := rest } ch instr = .ok s') :
    Move c s t (.run ch) s' := by
  have hact : ∀ addr byte, Act.run ch ≠ .store addr byte := by
    intro addr byte hact
    cases hact
  have hrest : Continues t p { p with todo := rest } := continues_rest htodo
  cases instr with
  | alloc e => exact .of_allocOr hp htodo rfl hrest h
  | allocStack => exact .of_allocOr hp htodo rfl (continues_of_todo (by simp)) h
  | obtainStack b =>
    dsimp only [runInstr] at h
    split at h
    · cases h
    · rename_i s1 hobtain
      cases h
      exact .obtain hp htodo rfl hobtain (continues_rest htodo)
    · rename_i s1 hobtain
      split at h
      · cases h
      · rename_i s2 hdelete
        cases h
        exact .stackFails hp htodo hobtain hdelete
    · rename_i s1 hobtain
      cases h
      exact .obtain hp htodo rfl hobtain continues_leave
  | validateOnStack esp =>
    dsimp only [runInstr] at h
    split at h
    · cases h
    · split at h
      · cases h
        exact .turn hact hp hrest
      · rename_i hmapped
        split at h
        · cases h
          exact .turn hact hp continues_leave
        · rename_i hlimit
          refine .of_allocOr hp htodo ?_ hrest h
          exact if_neg (by simp only [not_or]; exact ⟨hmapped, hlimit⟩)
  | growStack addr esp write =>
    dsimp only [runInstr] at h
    split at h
    · cases h
      exact .turn hact hp hrest
    · rename_i hfind
      split at h
      · cases h
        exact .turn hact hp continues_leave
      · rename_i hlimit
        refine .of_allocOr hp htodo ?_ hrest h
        exact if_neg (by simp only [hfind, Option.isSome_none, Bool.false_eq_true, false_or]; exact hlimit)
  | obtain addr user =>
    dsimp only [runInstr] at h
    split at h
    · cases h
    · rename_i x hfind
      have hb : s.obtains t p (.obtain addr user) = some x.block := by
        simp only [obtains]
        rw [hfind, Option.map_some]
      split at h
      · cases h
      · rename_i s1 hobtain
        cases h
        exact .obtain hp htodo hb hobtain hrest
      · rename_i s1 hobtain
        split at h
        · cases h
          exact .obtain hp htodo hb hobtain continues_leave
        · cases h
      · rename_i s1 hobtain
        cases h
        exact .obtain hp htodo hb hobtain continues_leave
  | destroy =>
    dsimp only [runInstr] at h
    split at h
    · rename_i hlist
      cases h
      exact .gone hp htodo hlist
    · rename_i x xs hlist
      unfold destroyRound at h
      split at h
      · cases h
      · split at h
        · cases h
        · rename_i s1 hdelete
          cases h
          exact .destroy (p := p) hp htodo hlist hdelete

theorem Move.of_execProc (hp : s.procs t = some p)
    (h : s.execProc c t p act = .ok s') : Move c s t act s' := by
  cases act with
  | create pd => cases h
  | segment file phdr =>
    dsimp only [execProc] at h
    split at h
    · cases h
      refine .turn (by simp) hp ⟨rfl, rfl, ?_⟩
      intro e he
      obtain ⟨e', he', heq⟩ := mem_map.mp he
      cases heq
      exact .inr (made_segmentPages t p.pagedir file _ _ _ _ _ _ _ e he')
    · cases h
  | stack =>
    dsimp only [execProc] at h
    split at h
    · cases h
      exact .turn (by simp) hp (continues_of_todo (by simp))
    · cases h
  | fault addr esp user write =>
    dsimp only [execProc] at h
    split at h
    · unfold pageFault at h
      split at h
      · cases h
      · split at h
        · cases h
          exact .turn (by simp) hp continues_leave
        · cases h
          exact .turn (by simp) hp (continues_of_todo (by cases user <;> simp))
    · cases h
  | store addr byte =>
    dsimp only [execProc] at h
    split at h
    · cases h
    · rename_i m hm
      split at h
      · cases h
        exact .store hp hm
      · cases h
  | exit =>
    dsimp only [execProc] at h
    split at h
    · cases h
      exact .turn (by simp) hp continues_leave
    · cases h
  | run ch =>
    dsimp only [execProc] at h
    split at h
    · cases h
    · rename_i instr rest htodo
      exact .of_runInstr hp htodo h

theorem Move.of_exec (h : s.exec c (t, act) = .ok s') : Move c s t act s' := by
  unfold exec at h
  split at h
  · rename_i pd heq
    cases heq
    split at h
    · rename_i hnew
      cases h
      exact .create hnew.1 hnew.2
    · cases h
  · rename_i heq
    cases heq
    split at h
    · cases h
    · rename_i p hp
      exact .of_execProc hp h

def Unswapped (s : Paging) : Prop :=
  ∀ b e, s.heap b = some e → e.sector = sizeMax ∧ e.location ≠ .swapped

theorem swapWrite_eq (he : e.sector = sizeMax) : s.swapWrite c e = .error (.swap .write e) := by
  have hlast : (slotSectors e.sector).any (c.swapSectors ≤ ·) = true := by
    rw [any_eq_true]
    refine ⟨2 ^ 32 - 1, ?_, ?_⟩
    · rw [he]
      decide
    · have hlt := c.swap_lt
      simp only [decide_eq_true_eq]
      omega
  unfold swapWrite
  rw [if_pos (.inr hlast)]

def Claims (c : Config) (s : Paging) (k : Nat) : Prop :=
  k < c.slots ∧ (s.freeSlot c = some k ∨ s.freeSlot c = none ∧
    ∃ v e, (s.ft k).user = some v ∧ s.heap v = some e ∧ e.location = .filesystem)

theorem freeSlot_eq_some (h : s.freeSlot c = some k) : k < c.slots ∧ s.used k = false := by
  have hmem := mem_of_find?_eq_some h
  have hfree := find?_some h
  exact ⟨mem_range.mp hmem, by simpa using hfree⟩

theorem freeSlot_eq_none (h : s.freeSlot c = none) (hk : k < c.slots) : s.used k = true := by
  have hall := find?_eq_none.mp h k (mem_range.mpr hk)
  simpa using hall

def claimed (s : Paging) (b : Nat) (e : SpEntry) (k : Nat) : Paging :=
  { s with
    used := update s.used k true
    heap := update s.heap b (some { e with idx := BitVec.ofNat 32 k }) }

theorem frameEvict_eq_ok (hs : s.Unswapped) (h : s.frameEvict c random = .ok (s', k)) :
    s' = s ∧ k < c.slots ∧
      ∃ v e, (s.ft k).user = some v ∧ s.heap v = some e ∧ e.location = .filesystem := by
  unfold frameEvict at h
  split at h
  · cases h
  · rename_i hrange
    push Not at hrange
    split at h
    · cases h
    · rename_i v huser
      split at h
      · cases h
      · rename_i e he
        split at h
        · rename_i hlocation
          cases h
          exact ⟨rfl, hrange.2, v, e, huser, he, hlocation⟩
        · -- swap_write of an entry that has no slot
          dsimp only at h
          rw [swapWrite_eq (e := { e with location := .swapped }) (hs v e he).1] at h
          cases h

theorem Unswapped.setEntry (hs : s.Unswapped) (he : s.heap b = some e)
    (idx : BitVec 32) : (s.setEntry b { e with idx := idx }).Unswapped := by
  intro b' e' he'
  by_cases hb : b' = b
  · subst hb
    simp only [Paging.setEntry, update_self, Option.some.injEq] at he'
    subst he'
    exact hs b' e he
  · simp only [Paging.setEntry, update_of_ne hb] at he'
    exact hs b' e' he'

theorem claimSlot_eq_ok (hs : s.Unswapped)
    (he : s.heap b = some e) (h : s.claimSlot c b e random = .ok (s', k)) :
    s.Claims c k ∧ ∃ idx, s'.heap b = some { e with idx := idx } ∧ s'.taken = s.taken ∧
      s'.setEntry b { e with idx := BitVec.ofNat 32 k } = s.claimed b e k := by
  unfold claimSlot at h
  split at h
  · rename_i k' hfree
    cases h
    exact ⟨⟨(freeSlot_eq_some hfree).1, .inl hfree⟩, e.idx, he, rfl, rfl⟩
  · rename_i hfull
    obtain ⟨rfl, hk, v, victim, huser, hvictim, hlocation⟩ :=
      frameEvict_eq_ok (hs.setEntry he bitmapError) h
    have hclaims : s.Claims c k := by
      refine ⟨hk, .inr ⟨hfull, v, ?_⟩⟩
      by_cases hv : v = b
      · subst hv
        simp only [Paging.setEntry, update_self, Option.some.injEq] at hvictim
        subst hvictim
        exact ⟨e, huser, he, hlocation⟩
      · simp only [Paging.setEntry, update_of_ne hv] at hvictim
        exact ⟨victim, huser, hvictim, hlocation⟩
    refine ⟨hclaims, bitmapError, update_self .., rfl, ?_⟩
    have hused : update s.used k true = s.used := by
      rw [← freeSlot_eq_none hfull hk]
      exact update_eq_self k s.used
    simp only [Paging.setEntry, claimed, update_idem, hused]

inductive Outcome (c : Config) (s : Paging) (b : Nat) (e : SpEntry) (k : Nat) (ch : Choice) :
    Paging → Obtained → Prop
  | installed {kpage : KPage} (hpage : ch.kpage = some kpage)
      (hcan : s.canReturn c (poolOf e) (some kpage) = true)
      (hmap : s.lookup e.pagedir e.upage = none)
      (hfetch : ¬ ShortFile (fun file => (c.files file).length) e) :
      Outcome c s b e k ch (((s.claimed b e k).fillFrame c e k kpage).installPage c b e k kpage)
        .installed
  | rejected {kpage : KPage} (hpage : ch.kpage = some kpage)
      (hcan : s.canReturn c (poolOf e) (some kpage) = true)
      (hmap : (s.lookup e.pagedir e.upage).isSome ∨ ch.tables = false) :
      Outcome c s b e k ch
        ((((s.claimed b e k).fillFrame c e k kpage).pallocFreePage kpage).giveBack b e k) .failed
  | refused (hpage : ch.kpage = none) : Outcome c s b e k ch ((s.claimed b e k).giveBack b e k) .failed
  | exited {kpage : KPage} (hpage : ch.kpage = some kpage)
      (hcan : s.canReturn c (poolOf e) (some kpage) = true)
      (hfetch : ShortFile (fun file => (c.files file).length) e) :
      Outcome c s b e k ch
        { s.claimed b e k with taken := update s.taken kpage true } .exited

theorem frameFetch_eq_refused {frame : Bool} {fileLength : FileRef → Nat}
    (h : frameFetch fileLength e frame = .refused) : frame = false := by
  cases frame with
  | false => rfl
  | true =>
    unfold frameFetch at h
    cases hlocation : e.location with
    | unmapped | swapped => simp [hlocation] at h
    | filesystem =>
      simp only [hlocation, Bool.not_true, Bool.false_eq_true, ↓reduceIte] at h
      split at h
      · unfold fetchFile at h
        split at h
        · cases h
        · split at h <;> cases h
      · cases h

theorem Outcome.of_fetchInto (hcan : s.canReturn c (poolOf e) ch.kpage = true)
    (h : (s.claimed b e k).fetchInto c b { e with idx := BitVec.ofNat 32 k } k ch = .ok (s', r)) :
    Outcome c s b e k ch s' r := by
  unfold fetchInto at h
  split at h
  · rename_i kpage hfetch hpage
    rw [hpage] at hcan hfetch
    dsimp only at h
    split at h
    · rename_i hmap
      rw [Bool.and_eq_true, Option.isNone_iff_eq_none] at hmap
      cases h
      refine .installed hpage hcan hmap.1 ?_
      intro hshort
      have hexited := (frameFetch_eq_exited _ e true).mpr ⟨rfl, hshort⟩
      exact absurd (hfetch.symm.trans hexited) (by decide)
    · rename_i hmap
      cases h
      refine .rejected hpage hcan ?_
      rw [Bool.and_eq_true, not_and_or, Option.isNone_iff_eq_none, Bool.not_eq_true,
        ← ne_eq, Option.ne_none_iff_isSome] at hmap
      exact hmap
  · rename_i hfetch
    cases h
    exact .refused (by simpa using frameFetch_eq_refused hfetch)
  · rename_i kpage hfetch hpage
    rw [hpage] at hcan
    cases h
    exact .exited hpage hcan ((frameFetch_eq_exited _ e _).mp hfetch).2
  · cases h
  · cases h

-- frame_obtain touches its entry's index, and no list and no table entry.
theorem Outcome.heap_eq (h : Outcome c s b e k ch s' r) : s'.heap = update s.heap b (some { e with
      idx := if r = .failed then bitmapError else BitVec.ofNat 32 k }) := by
  cases h with
  | installed | exited => rfl
  | rejected | refused => exact update_idem ..

theorem Outcome.links_eq (h : Outcome c s b e k ch s' r) :
    s'.ptHash = s.ptHash ∧ s'.nextBlock = s.nextBlock ∧ s'.procs = s.procs ∧
      s'.nextTid = s.nextTid ∧ s'.pagedirs = s.pagedirs := by
  cases h <;> exact ⟨rfl, rfl, rfl, rfl, rfl⟩

theorem Outcome.dirs_eq (h : Outcome c s b e k ch s' r) {pd : Addr} (hpd : pd ≠ e.pagedir) :
    s'.dirs pd = s.dirs pd := by
  cases h with
  | installed => exact update_of_ne hpd ..
  | rejected | refused | exited => rfl

theorem pageSuppDelete_eq_ok (hs : s.Unswapped) (h : s.pageSuppDelete c b = .ok s') :
    (s.heap b).isSome ∧ s' = { s with heap := update s.heap b none } := by
  unfold pageSuppDelete at h
  split at h
  · cases h
  · rename_i e he
    rw [if_neg (hs b e he).2] at h
    cases h
    rw [he]
    exact ⟨rfl, rfl⟩

theorem frameObtain_eq_ok (hs : s.Unswapped) (h : s.frameObtain c b ch = .ok (s', r)) :
    ∃ e k, s.heap b = some e ∧ s.Claims c k ∧ Outcome c s b e k ch s' r := by
  unfold frameObtain at h
  split at h
  · cases h
  · rename_i e he
    split at h
    · cases h
    · rename_i s1 k hclaim
      obtain ⟨hclaims, idx, hheap, htaken, hclaimed⟩ := claimSlot_eq_ok hs he hclaim
      rw [hheap] at h
      dsimp only at h
      split at h
      · rename_i hcan
        rw [hclaimed] at h
        refine ⟨e, k, he, hclaims, .of_fetchInto ?_ h⟩
        rw [← hcan]
        unfold canReturn
        rw [htaken]
        rfl
      · cases h

end Paging

end Pintos.Vm
