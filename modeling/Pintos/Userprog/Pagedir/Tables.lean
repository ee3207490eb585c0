import Mathlib.Data.List.Nodup
import Pintos.Lib.TransitionSystem
import Pintos.Userprog.Pagedir

namespace Pintos.Userprog

open Threads BitVec Lib List Function

variable {page i pt flags flag : Addr} {word : BitVec 32}

theorem toNat_slot (hpage : pgOfs page = 0) (hi : i.toNat < 1024) :
    (page + i * 4).toNat = page.toNat + i.toNat * 4 := by
  have hlt := page.isLt
  have hofs : page.toNat % 4096 = 0 := by
    rw [← toNat_pgOfs, hpage]
    rfl
  have hmul : (i * 4).toNat = i.toNat * 4 := by
    rw [toNat_mul]
    exact Nat.mod_eq_of_lt (by simp; omega)
  rw [toNat_add, hmul]
  exact Nat.mod_eq_of_lt (by omega)

theorem pgRoundDown_slot (hpage : pgOfs page = 0) (hi : i.toNat < 1024) :
    pgRoundDown (page + i * 4) = page := by
  rw [pgRoundDown_eq_iff _ _ hpage, toNat_slot hpage hi]
  omega

theorem slot_inj {page' j : Addr} (hpage : pgOfs page = 0) (hpage' : pgOfs page' = 0)
    (hi : i.toNat < 1024) (hj : j.toNat < 1024) (h : page + i * 4 = page' + j * 4) :
    page = page' ∧ i = j := by
  have hsame : page = page' := by
    rw [← pgRoundDown_slot hpage hi, h, pgRoundDown_slot hpage' hj]
  subst hsame
  have hnat := congrArg BitVec.toNat h
  rw [toNat_slot hpage hi, toNat_slot hpage hj] at hnat
  exact ⟨rfl, BitVec.eq_of_toNat_eq (by omega)⟩

theorem pdNo_lt (va : Addr) : (pdNo va).toNat < 1024 := by
  have hlt := va.isLt
  rw [toNat_pdNo]
  omega

theorem pdNo_lt_of_user {va : Addr} (h : isUserVaddr va = true) : (pdNo va).toNat < 768 := by
  have hbase : physBase.toNat = 3221225472 := rfl
  simp only [isUserVaddr, decide_eq_true_eq, lt_def, hbase] at h
  rw [toNat_pdNo]
  omega

theorem ptNo_lt (va : Addr) : (ptNo va).toNat < 1024 := by
  rw [toNat_ptNo]
  omega

theorem pgRoundDown_eq_of_indices {u v : Addr} (hpd : pdNo u = pdNo v) (hpt : ptNo u = ptNo v) :
    pgRoundDown u = pgRoundDown v := by
  have hpd' := congrArg BitVec.toNat hpd
  have hpt' := congrArg BitVec.toNat hpt
  rw [toNat_pdNo, toNat_pdNo] at hpd'
  rw [toNat_ptNo, toNat_ptNo] at hpt'
  apply BitVec.eq_of_toNat_eq
  rw [toNat_pgRoundDown, toNat_pgRoundDown]
  omega

theorem ptov_vtop (page : Addr) : ptov (vtop page) = page := by
  unfold ptov vtop
  exact BitVec.sub_add_cancel page physBase

theorem vtop_and_pteAddr (h : pgOfs page = 0) : vtop page &&& pteAddr = vtop page := by
  have hofs : page.toNat % 4096 = 0 := by
    rw [← toNat_pgOfs, h]
    rfl
  have hround : vtop page &&& pteAddr = pgRoundDown (vtop page) := rfl
  have hbase : physBase.toNat = 3221225472 := rfl
  have hlt := page.isLt
  rw [hround]
  apply BitVec.eq_of_toNat_eq
  rw [toNat_pgRoundDown, vtop, toNat_sub, hbase]
  omega

theorem word_and_pteAddr (h : pgOfs page = 0) (hflags : flags &&& pteAddr = 0) :
    (vtop page ||| flags) &&& pteAddr = vtop page := by
  rw [BitVec.and_or_distrib_right, vtop_and_pteAddr h, hflags]
  exact or_zero

theorem word_and_flag (h : pgOfs page = 0) (hflag : pteAddr &&& flag = 0) :
    (vtop page ||| flags) &&& flag = flags &&& flag := by
  have hpage : vtop page &&& flag = 0 := by
    rw [← vtop_and_pteAddr h, BitVec.and_assoc, hflag]
    exact and_zero
  rw [BitVec.and_or_distrib_right, hpage]
  exact zero_or

theorem pdeCreate_eq (pt : Addr) : pdeCreate pt = vtop pt ||| 7 := by
  unfold pdeCreate
  rw [BitVec.or_assoc, BitVec.or_assoc]
  rfl

theorem pdeGetPt_pdeCreate (h : pgOfs pt = 0) : pdeGetPt (pdeCreate pt) = pt := by
  rw [pdeCreate_eq, pdeGetPt, word_and_pteAddr h (by decide), ptov_vtop]

theorem pdeCreate_and_pteP (h : pgOfs pt = 0) : pdeCreate pt &&& pteP ≠ 0 := by
  rw [pdeCreate_eq, word_and_flag h (by decide)]
  decide

theorem pdeCreate_ne_zero (h : pgOfs pt = 0) : pdeCreate pt ≠ 0 := by
  intro hzero
  apply pdeCreate_and_pteP h
  rw [hzero]
  exact zero_and

theorem pteCreateUser_eq (page : Addr) (writable : Bool) :
    pteCreateUser page writable = vtop page ||| (if writable then 7 else 5) := by
  unfold pteCreateUser pteCreateKernel
  rw [BitVec.or_assoc, BitVec.or_assoc]
  cases writable <;> rfl

theorem pteGetPage_pteCreateUser (h : pgOfs page = 0) (writable : Bool) :
    pteGetPage (pteCreateUser page writable) = page := by
  rw [pteCreateUser_eq, pteGetPage, word_and_pteAddr h (by cases writable <;> decide), ptov_vtop]

theorem pteCreateUser_and_pteP (h : pgOfs page = 0) (writable : Bool) :
    pteCreateUser page writable &&& pteP ≠ 0 := by
  rw [pteCreateUser_eq, word_and_flag h (by decide)]
  cases writable <;> decide

theorem pteCreateUser_and_flag (h : pgOfs page = 0) (writable : Bool)
    (hflag : pteAddr &&& flag = 0) (hseven : 7 &&& flag = 0) (hfive : 5 &&& flag = 0) :
    pteCreateUser page writable &&& flag = 0 := by
  rw [pteCreateUser_eq, word_and_flag h hflag]
  cases writable
  · exact hfive
  · exact hseven

theorem setBits_and {flag mask : BitVec 32} (hmask : flag &&& mask = 0)
    (hrest : ~~~flag &&& mask = mask) (value : Bool) :
    (if value then word ||| flag else word &&& ~~~flag) &&& mask = word &&& mask := by
  cases value
  · show word &&& ~~~flag &&& mask = word &&& mask
    rw [BitVec.and_assoc, hrest]
  · show (word ||| flag) &&& mask = word &&& mask
    rw [BitVec.and_or_distrib_right, hmask]
    exact or_zero

theorem setBits_and_self {flag : BitVec 32} (hflag : flag ≠ 0) (value : Bool) :
    (if value then word ||| flag else word &&& ~~~flag) &&& flag ≠ 0 ↔ value = true := by
  cases value
  · simp [BitVec.and_assoc]
  · simp only [if_true, iff_true]
    rw [BitVec.and_or_distrib_right, BitVec.and_self]
    intro hzero
    exact hflag (or_eq_zero_iff.mp hzero).2

structure Dir where
  mem : Words
  tables : List Addr

inductive DirOp
  | setPage (upage kpage : Addr) (writable : Bool) (pt : Option Addr)
  | clearPage (upage : Addr)
  | setDirty (vpage : Addr) (dirty : Bool)
  | setAccessed (vpage : Addr) (accessed : Bool)
  | getPage (uaddr : Addr)

namespace DirOp

def addr : DirOp → Addr
  | setPage upage _ _ _ => upage
  | clearPage upage => upage
  | setDirty vpage _ => vpage
  | setAccessed vpage _ => vpage
  | getPage uaddr => uaddr

end DirOp

namespace Dir

variable (initRamPages : Nat) (pd : Addr)

def FreshTable (s : Dir) (pt : Addr) : Prop :=
  pgOfs pt = 0 ∧ isUserVaddr pt = false ∧ pt ≠ pd ∧ pt ∉ s.tables

instance (s : Dir) (pt : Addr) : Decidable (s.FreshTable pd pt) :=
  inferInstanceAs (Decidable (_ ∧ _ ∧ _ ∧ _))

def tablesAfter (s : Dir) (upage : Addr) (pt : Option Addr) : List Addr :=
  if s.mem (pd + pdNo upage * 4) = 0 then s.tables ++ pt.toList else s.tables

-- An operation with its result, for an address of user memory. `none` when an assertion
-- fails, or when the page table is not one that palloc_get_page may return.
def exec (s : Dir) (op : DirOp) : Option (Dir × Bool) :=
  if isUserVaddr op.addr = false then none
  else match op with
    | .setPage upage kpage writable pt =>
      if (pt.toList.all fun t => s.FreshTable pd t) = false then none
      else (pagedirSetPage initRamPages s.mem pd upage kpage writable pt).map fun r =>
        (⟨r.1, s.tablesAfter pd upage pt⟩, r.2)
    | .clearPage upage => (pagedirClearPage s.mem pd upage).map fun mem => ({ s with mem }, true)
    | .setDirty vpage dirty => some ({ s with mem := pagedirSetDirty s.mem pd vpage dirty }, true)
    | .setAccessed vpage accessed =>
      some ({ s with mem := pagedirSetAccessed s.mem pd vpage accessed }, true)
    | .getPage _ => some (s, true)

def Created (s : Dir) : Prop :=
  s.tables = [] ∧ ∃ mem initPageDir,
    (∀ i : Addr, i.toNat < 768 → mem (initPageDir + i * 4) = 0) ∧
    s.mem = pagedirCreate mem initPageDir pd

def machine : System Dir (DirOp × Bool) where
  init := Created pd
  step s label s' := s.exec initRamPages pd label.1 = some (s', label.2)

end Dir

namespace Dir

variable {initRamPages : Nat} {pd : Addr} {s s' : Dir}

structure Wf (pd : Addr) (s : Dir) : Prop where
  aligned : pgOfs pd = 0
  table : ∀ pt ∈ s.tables, pgOfs pt = 0 ∧ pt ≠ pd
  nodup : s.tables.Nodup
  pde : ∀ i : Addr, i.toNat < 768 →
    s.mem (pd + i * 4) = 0 ∨ ∃ pt ∈ s.tables, s.mem (pd + i * 4) = pdeCreate pt
  inj : ∀ i j : Addr, i.toNat < 768 → j.toNat < 768 → s.mem (pd + i * 4) ≠ 0 →
    s.mem (pd + i * 4) = s.mem (pd + j * 4) → i = j
  linked : ∀ pt ∈ s.tables, ∃ i : Addr, i.toNat < 768 ∧ s.mem (pd + i * 4) = pdeCreate pt

def entry (pd : Addr) (mem : Words) (uaddr : Addr) : BitVec 32 :=
  match lookupPage mem pd uaddr with
  | some pte => mem pte
  | none => 0

theorem pagedirGetPage_eq (mem : Words) (uaddr : Addr) : pagedirGetPage mem pd uaddr =
      if entry pd mem uaddr &&& pteP ≠ 0 then some (pteGetPage (entry pd mem uaddr) + pgOfs uaddr)
      else none := by
  unfold pagedirGetPage entry
  cases lookupPage mem pd uaddr with
  | none => simp
  | some pte => rfl

theorem testFlag_eq (flag : BitVec 32) (mem : Words) (uaddr : Addr) :
    testFlag flag mem pd uaddr = (entry pd mem uaddr &&& flag != 0) := by
  unfold testFlag entry
  cases lookupPage mem pd uaddr with
  | none => simp
  | some pte => rfl

section

variable (h : Wf pd s)
include h

theorem Wf.lookupPage_eq_some {u a : Addr} (hu : isUserVaddr u = true)
    (hlookup : lookupPage s.mem pd u = some a) :
    ∃ pt ∈ s.tables, s.mem (pd + pdNo u * 4) = pdeCreate pt ∧ a = pt + ptNo u * 4 := by
  unfold lookupPage at hlookup
  split at hlookup
  · cases hlookup
  · rename_i hne
    rcases h.pde (pdNo u) (pdNo_lt_of_user hu) with hzero | ⟨pt, hpt, hpde⟩
    · exact absurd hzero hne
    · refine ⟨pt, hpt, hpde, ?_⟩
      rw [hpde, pdeGetPt_pdeCreate (h.table pt hpt).1] at hlookup
      exact (Option.some.inj hlookup).symm

theorem Wf.lookupPage_inj {u v a : Addr} (hu : isUserVaddr u = true) (hv : isUserVaddr v = true)
    (hlu : lookupPage s.mem pd u = some a) (hlv : lookupPage s.mem pd v = some a) :
    pgRoundDown u = pgRoundDown v := by
  obtain ⟨pt, hpt, hpde, ha⟩ := h.lookupPage_eq_some hu hlu
  obtain ⟨pt', hpt', hpde', ha'⟩ := h.lookupPage_eq_some hv hlv
  obtain ⟨hsame, hno⟩ := slot_inj (h.table pt hpt).1 (h.table pt' hpt').1 (ptNo_lt u) (ptNo_lt v)
    (ha.symm.trans ha')
  have hpd : pdNo u = pdNo v := by
    apply h.inj _ _ (pdNo_lt_of_user hu) (pdNo_lt_of_user hv)
    · rw [hpde]
      exact pdeCreate_ne_zero (h.table pt hpt).1
    · rw [hpde, hpde', hsame]
  exact pgRoundDown_eq_of_indices hpd hno

theorem Wf.pte_ne_pde {u a i : Addr} (hu : isUserVaddr u = true)
    (hlookup : lookupPage s.mem pd u = some a) (hi : i.toNat < 1024) : pd + i * 4 ≠ a := by
  intro heq
  obtain ⟨pt, hpt, -, ha⟩ := h.lookupPage_eq_some hu hlookup
  obtain ⟨hsame, -⟩ := slot_inj h.aligned (h.table pt hpt).1 hi (ptNo_lt u) (heq.trans ha)
  exact (h.table pt hpt).2 hsame.symm

theorem Wf.update {v a : Addr} (hv : isUserVaddr v = true)
    (hlookup : lookupPage s.mem pd v = some a) (word : BitVec 32) :
    Wf pd { s with mem := Function.update s.mem a word } := by
  have hpde : ∀ i : Addr, i.toNat < 768 →
      Function.update s.mem a word (pd + i * 4) = s.mem (pd + i * 4) := by
    intro i hi
    exact update_of_ne (h.pte_ne_pde hv hlookup (by omega)) _ _
  refine ⟨h.aligned, h.table, h.nodup, ?_, ?_, ?_⟩
  · intro i hi
    show Function.update s.mem a word (pd + i * 4) = 0 ∨ _
    rw [hpde i hi]
    rcases h.pde i hi with hzero | ⟨pt, hpt, heq⟩
    · exact .inl hzero
    · exact .inr ⟨pt, hpt, (hpde i hi).trans heq⟩
  · intro i j hi hj hne heq
    apply h.inj i j hi hj
    · rwa [← hpde i hi]
    · rw [← hpde i hi, ← hpde j hj]
      exact heq
  · intro pt hpt
    obtain ⟨i, hi, heq⟩ := h.linked pt hpt
    exact ⟨i, hi, (hpde i hi).trans heq⟩

theorem Wf.entry_update {u v a : Addr} (hu : isUserVaddr u = true) (hv : isUserVaddr v = true)
    (hlookup : lookupPage s.mem pd v = some a) (word : BitVec 32) :
    entry pd (Function.update s.mem a word) u =
      if pgRoundDown u = pgRoundDown v then word else entry pd s.mem u := by
  have hpde : Function.update s.mem a word (pd + pdNo u * 4) = s.mem (pd + pdNo u * 4) :=
    update_of_ne (h.pte_ne_pde hv hlookup (pdNo_lt u)) _ _
  have hsame : lookupPage (Function.update s.mem a word) pd u = lookupPage s.mem pd u := by
    unfold lookupPage
    rw [hpde]
  unfold entry
  rw [hsame]
  by_cases hpage : pgRoundDown u = pgRoundDown v
  · rw [if_pos hpage, ← lookupPage_pgRoundDown, hpage, lookupPage_pgRoundDown, hlookup]
    exact update_self a word s.mem
  · rw [if_neg hpage]
    cases hlu : lookupPage s.mem pd u with
    | none => rfl
    | some b =>
      have hne : b ≠ a := by
        rintro rfl
        exact hpage (h.lookupPage_inj hu hv hlu hlookup)
      exact update_of_ne hne _ _

theorem Wf.addTable {v pt : Addr} (hv : isUserVaddr v = true) (hzero : s.mem (pd + pdNo v * 4) = 0)
    (hfresh : s.FreshTable pd pt) :
    Wf pd ⟨Function.update (fillWords s.mem pt fun _ => 0) (pd + pdNo v * 4) (pdeCreate pt),
      s.tables ++ [pt]⟩ := by
  obtain ⟨haligned, -, hnepd, hnew⟩ := hfresh
  have hpde : ∀ i : Addr, i.toNat < 768 →
      Function.update (fillWords s.mem pt fun _ => 0) (pd + pdNo v * 4) (pdeCreate pt)
        (pd + i * 4) = if i = pdNo v then pdeCreate pt else s.mem (pd + i * 4) := by
    intro i hi
    by_cases hiv : i = pdNo v
    · rw [if_pos hiv, hiv]
      exact update_self _ _ _
    · have hne : pd + i * 4 ≠ pd + pdNo v * 4 := fun heq =>
        hiv (slot_inj h.aligned h.aligned (by omega) (pdNo_lt v) heq).2
      rw [if_neg hiv, update_of_ne hne, fillWords,
        pgRoundDown_slot h.aligned (by omega), if_neg (Ne.symm hnepd)]
  have hold : ∀ pt', pt' ∈ s.tables → pdeCreate pt' ≠ pdeCreate pt := by
    intro pt' hpt' heq
    have hget := congrArg pdeGetPt heq
    rw [pdeGetPt_pdeCreate (h.table pt' hpt').1, pdeGetPt_pdeCreate haligned] at hget
    exact hnew (hget ▸ hpt')
  refine ⟨h.aligned, ?_, ?_, ?_, ?_, ?_⟩
  · intro pt' hpt'
    rcases mem_append.mp hpt' with hpt' | hpt'
    · exact h.table pt' hpt'
    · rw [mem_singleton.mp hpt']
      exact ⟨haligned, hnepd⟩
  · rw [nodup_append]
    refine ⟨h.nodup, nodup_singleton pt, ?_⟩
    intro a ha b hb heq
    rw [mem_singleton.mp hb] at heq
    exact hnew (heq ▸ ha)
  · intro i hi
    dsimp only
    rw [hpde i hi]
    by_cases hiv : i = pdNo v
    · rw [if_pos hiv]
      exact .inr ⟨pt, by simp, rfl⟩
    · rw [if_neg hiv]
      rcases h.pde i hi with hz | ⟨pt', hpt', heq⟩
      · exact .inl hz
      · exact .inr ⟨pt', by simp [hpt'], heq⟩
  · intro i j hi hj hne heq
    dsimp only at hne heq
    rw [hpde i hi, hpde j hj] at heq
    rw [hpde i hi] at hne
    by_cases hiv : i = pdNo v
    · by_cases hjv : j = pdNo v
      · rw [hiv, hjv]
      · rw [if_pos hiv, if_neg hjv] at heq
        rcases h.pde j hj with hz | ⟨pt', hpt', hpt⟩
        · rw [hz] at heq
          exact absurd heq (pdeCreate_ne_zero haligned)
        · rw [hpt] at heq
          exact absurd heq.symm (hold pt' hpt')
    · rw [if_neg hiv] at heq hne
      by_cases hjv : j = pdNo v
      · rw [if_pos hjv] at heq
        rcases h.pde i hi with hz | ⟨pt', hpt', hpt⟩
        · exact absurd hz hne
        · rw [hpt] at heq
          exact absurd heq (hold pt' hpt')
      · rw [if_neg hjv] at heq
        exact h.inj i j hi hj hne heq
  · intro pt' hpt'
    rcases mem_append.mp hpt' with hpt' | hpt'
    · obtain ⟨i, hi, heq⟩ := h.linked pt' hpt'
      have hiv : i ≠ pdNo v := by
        rintro rfl
        rw [hzero] at heq
        exact pdeCreate_ne_zero (h.table pt' hpt').1 heq.symm
      exact ⟨i, hi, (hpde i hi).trans ((if_neg hiv).trans heq)⟩
    · rw [mem_singleton.mp hpt']
      exact ⟨pdNo v, pdNo_lt_of_user hv, (hpde _ (pdNo_lt_of_user hv)).trans (if_pos rfl)⟩

theorem Wf.entry_addTable {u v pt : Addr} (hu : isUserVaddr u = true)
    (hzero : s.mem (pd + pdNo v * 4) = 0) (hfresh : s.FreshTable pd pt) :
    entry pd (Function.update (fillWords s.mem pt fun _ => 0) (pd + pdNo v * 4) (pdeCreate pt)) u =
      entry pd s.mem u := by
  obtain ⟨haligned, -, hnepd, hnew⟩ := hfresh
  have hslot : ∀ pt' i : Addr, pgOfs pt' = 0 → pt' ≠ pd → i.toNat < 1024 →
      Function.update (fillWords s.mem pt fun _ => 0) (pd + pdNo v * 4) (pdeCreate pt)
        (pt' + i * 4) = if pt' = pt then 0 else s.mem (pt' + i * 4) := by
    intro pt' i hpt' hne hi
    have hneq : pt' + i * 4 ≠ pd + pdNo v * 4 := fun heq =>
      hne (slot_inj hpt' h.aligned hi (pdNo_lt v) heq).1
    rw [update_of_ne hneq, fillWords, pgRoundDown_slot hpt' hi]
  unfold entry lookupPage
  by_cases huv : pdNo u = pdNo v
  · rw [huv, update_self, if_neg (pdeCreate_ne_zero haligned), if_pos hzero,
      pdeGetPt_pdeCreate haligned]
    simp only
    rw [hslot pt (ptNo u) haligned hnepd (ptNo_lt u), if_pos rfl]
  · have hne : pd + pdNo u * 4 ≠ pd + pdNo v * 4 := fun heq =>
      huv (slot_inj h.aligned h.aligned (pdNo_lt u) (pdNo_lt v) heq).2
    rw [update_of_ne hne, fillWords, pgRoundDown_slot h.aligned (pdNo_lt u),
      if_neg (Ne.symm hnepd)]
    rcases h.pde (pdNo u) (pdNo_lt_of_user hu) with hz | ⟨pt', hpt', hpde⟩
    · rw [if_pos hz]
    · rw [hpde, if_neg (pdeCreate_ne_zero (h.table pt' hpt').1),
        pdeGetPt_pdeCreate (h.table pt' hpt').1]
      simp only
      rw [hslot pt' (ptNo u) (h.table pt' hpt').1 (h.table pt' hpt').2 (ptNo_lt u),
        if_neg fun heq : pt' = pt => hnew (heq ▸ hpt')]

end

end Dir

end Pintos.Userprog
