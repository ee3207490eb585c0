import Pintos.Userprog.Pagedir.Tables

namespace Pintos.Userprog

open Threads Lib Function

-- What the directory is for: the kernel page and the flags of each user page.
structure PageState where
  kpage : Option Addr
  dirty : Bool
  accessed : Bool

def PageState.apply (p : PageState) : DirOp × Bool → PageState
  | (.setPage _ kpage _ _, true) => ⟨some kpage, false, false⟩
  | (.setPage _ _ _ _, false) => p
  | (.clearPage _, _) => { p with kpage := none }
  | (.setDirty _ dirty, _) => { p with dirty := dirty }
  | (.setAccessed _ accessed, _) => { p with accessed := accessed }
  | (.getPage _, _) => p

abbrev DirMap := Addr → PageState

namespace DirMap

def empty : DirMap := fun _ => ⟨none, false, false⟩

def apply (m : DirMap) (label : DirOp × Bool) : DirMap :=
  Function.update m (pgRoundDown label.1.addr) ((m (pgRoundDown label.1.addr)).apply label)

def after (labels : List (DirOp × Bool)) : DirMap := labels.foldl apply empty

theorem foldl_apply (labels : List (DirOp × Bool)) (m : DirMap) (page : Addr) :
    labels.foldl apply m page =
      (labels.filter fun label => pgRoundDown label.1.addr = page).foldl PageState.apply
        (m page) := by
  induction labels generalizing m with
  | nil => rfl
  | cons label labels ih =>
    rw [List.foldl_cons, ih]
    by_cases hpage : pgRoundDown label.1.addr = page
    · rw [List.filter_cons_of_pos (by simpa using hpage), List.foldl_cons, apply, hpage,
        update_self]
    · rw [List.filter_cons_of_neg (by simpa using hpage), apply, update_of_ne (Ne.symm hpage)]

end DirMap

namespace Dir

variable {initRamPages : Nat} {pd v u a pt upage : Addr} {s s' : Dir} {mem : Words}
  {word word' : BitVec 32} {ok : Bool} {m : DirMap} {op : DirOp} {p : PageState}
  {labels : List (DirOp × Bool)}

def Effect (op : DirOp) (ok : Bool) (word word' : BitVec 32) : Prop :=
  match op with
  | .setPage _ kpage writable _ =>
    if ok then pgOfs kpage = 0 ∧ word' = pteCreateUser kpage writable else word' = word
  | .clearPage _ => word' = if word &&& pteP ≠ 0 then word &&& ~~~pteP else word
  | .setDirty _ dirty =>
    word' = (if dirty then word ||| pteD else word &&& ~~~pteD) ∨ word = 0 ∧ word' = 0
  | .setAccessed _ accessed =>
    word' = (if accessed then word ||| pteA else word &&& ~~~pteA) ∨ word = 0 ∧ word' = 0
  | .getPage _ => word' = word

structure Change (pd : Addr) (op : DirOp) (ok : Bool) (s s' : Dir) : Prop where
  wf : Wf pd s'
  others : ∀ u, isUserVaddr u = true → pgRoundDown u ≠ pgRoundDown op.addr →
    entry pd s'.mem u = entry pd s.mem u
  own : ∀ u, isUserVaddr u = true → pgRoundDown u = pgRoundDown op.addr →
    Effect op ok (entry pd s.mem u) (entry pd s'.mem u)

theorem entry_eq_of_page (h : pgRoundDown u = pgRoundDown v) : entry pd mem u = entry pd mem v := by
  unfold entry
  rw [← lookupPage_pgRoundDown mem pd u, h, lookupPage_pgRoundDown]

theorem entry_of_some (h : lookupPage mem pd v = some a) : entry pd mem v = mem a := by
  unfold entry
  rw [h]

theorem entry_of_none (h : lookupPage mem pd v = none) : entry pd mem v = 0 := by
  unfold entry
  rw [h]

theorem Wf.change_update (h : Wf pd s) (op : DirOp) (ok : Bool) (hv : isUserVaddr op.addr = true)
    (hlookup : lookupPage s.mem pd op.addr = some a) (heffect : Effect op ok (s.mem a) word) :
    Change pd op ok s { s with mem := Function.update s.mem a word } where
  wf := h.update hv hlookup word
  others u hu hne := by
    rw [h.entry_update hu hv hlookup, if_neg hne]
  own u hu hpage := by
    rw [h.entry_update hu hv hlookup, if_pos hpage, entry_eq_of_page hpage, entry_of_some hlookup]
    exact heffect

theorem Wf.change_same (h : Wf pd s) (op : DirOp) (ok : Bool)
    (heffect : Effect op ok (entry pd s.mem op.addr) (entry pd s.mem op.addr)) :
    Change pd op ok s s where
  wf := h
  others _ _ _ := rfl
  own u _ hpage := by
    rw [entry_eq_of_page hpage]
    exact heffect

theorem Change.after {m : Dir} (h : Change pd op ok m s')
    (hsame : ∀ u, isUserVaddr u = true → entry pd m.mem u = entry pd s.mem u) :
    Change pd op ok s s' where
  wf := h.wf
  others u hu hne := (h.others u hu hne).trans (hsame u hu)
  own u hu hpage := hsame u hu ▸ h.own u hu hpage

def withTable (pd : Addr) (mem : Words) (v pt : Addr) : Words :=
  Function.update (fillWords mem pt fun _ => 0) (pd + pdNo v * 4) (pdeCreate pt)

theorem lookupPageCreate_new (hzero : mem (pd + pdNo v * 4) = 0)
    (haligned : pgOfs pt = 0) : lookupPageCreate mem pd v (some pt) =
      (withTable pd mem v pt, some (pt + ptNo v * 4)) := by
  have hself : withTable pd mem v pt (pd + pdNo v * 4) = pdeCreate pt := update_self _ _ _
  have hdef : lookupPageCreate mem pd v (some pt) = (withTable pd mem v pt,
      some (pdeGetPt (withTable pd mem v pt (pd + pdNo v * 4)) + ptNo v * 4)) := if_pos hzero
  rw [hdef, hself, pdeGetPt_pdeCreate haligned]

theorem lookupPage_withTable (haligned : pgOfs pt = 0) :
    lookupPage (withTable pd mem v pt) pd v = some (pt + ptNo v * 4) := by
  have hself : withTable pd mem v pt (pd + pdNo v * 4) = pdeCreate pt := update_self _ _ _
  unfold lookupPage
  rw [hself, if_neg (pdeCreate_ne_zero haligned), pdeGetPt_pdeCreate haligned]

structure TableFor (pd : Addr) (s : Dir) (v : Addr) (pt : Option Addr)
    (result : Words × Option Addr) : Prop where
  wf : Wf pd ⟨result.1, s.tablesAfter pd v pt⟩
  same : ∀ u, isUserVaddr u = true → entry pd result.1 u = entry pd s.mem u
  found : ∀ a, result.2 = some a → lookupPage result.1 pd v = some a

theorem Wf.lookupPageCreate (h : Wf pd s) {pt : Option Addr}
    (hv : isUserVaddr v = true) (hfresh : ∀ t ∈ pt.toList, s.FreshTable pd t) :
    TableFor pd s v pt (lookupPageCreate s.mem pd v pt) := by
  by_cases hzero : s.mem (pd + pdNo v * 4) = 0
  · cases pt with
    | none =>
      have hdef : Userprog.lookupPageCreate s.mem pd v none = (s.mem, none) := if_pos hzero
      have htables : s.tablesAfter pd v none = s.tables := by simp [tablesAfter]
      rw [hdef]
      refine ⟨?_, fun _ _ => rfl, fun a ha => by cases ha⟩
      rw [htables]
      exact h
    | some pt =>
      have hnew : s.FreshTable pd pt := hfresh pt (by simp)
      have htables : s.tablesAfter pd v (some pt) = s.tables ++ [pt] := if_pos hzero
      rw [lookupPageCreate_new hzero hnew.1]
      refine ⟨?_, fun u hu => h.entry_addTable hu hzero hnew, ?_⟩
      · rw [htables]
        exact h.addTable hv hzero hnew
      · intro a ha
        rw [← ha]
        exact lookupPage_withTable hnew.1
  · have hdef : Userprog.lookupPageCreate s.mem pd v pt =
        (s.mem, some (pdeGetPt (s.mem (pd + pdNo v * 4)) + ptNo v * 4)) := if_neg hzero
    have htables : s.tablesAfter pd v pt = s.tables := if_neg hzero
    rw [hdef]
    refine ⟨?_, fun _ _ => rfl, ?_⟩
    · rw [htables]
      exact h
    · intro a ha
      rw [← ha]
      exact if_neg hzero

theorem Wf.change_setPage (h : Wf pd s) {kpage : Addr} {writable : Bool} {pt : Option Addr}
    (hv : isUserVaddr upage = true) (hfresh : ∀ t ∈ pt.toList, s.FreshTable pd t)
    (hset : pagedirSetPage initRamPages s.mem pd upage kpage writable pt = some (mem, ok)) :
    Change pd (.setPage upage kpage writable pt) ok s ⟨mem, s.tablesAfter pd upage pt⟩ := by
  obtain ⟨hwf, hsame, hfound⟩ := h.lookupPageCreate hv hfresh
  unfold pagedirSetPage at hset
  split at hset
  · cases hset
  rename_i hasserts
  split at hset
  · rename_i mem' pte hcreate
    rw [hcreate] at hwf hsame hfound
    split at hset
    · cases hset
    · cases hset
      have hupdate := hwf.change_update (.setPage upage kpage writable pt) true hv (hfound pte rfl)
        (show Effect _ _ _ (pteCreateUser kpage writable) from
          ⟨by_contra fun hne => hasserts (.inr (.inl hne)), rfl⟩)
      exact hupdate.after hsame
  · rename_i mem' hcreate
    cases hset
    rw [hcreate] at hwf hsame
    exact (hwf.change_same (.setPage upage kpage writable pt) false rfl).after hsame

theorem Wf.change_setFlag (h : Wf pd s) {flag : BitVec 32} (op : DirOp) {value : Bool}
    (hv : isUserVaddr op.addr = true)
    (heffect : ∀ word word', word' = (if value then word ||| flag else word &&& ~~~flag) ∨
      word = 0 ∧ word' = 0 → Effect op true word word') :
    Change pd op true s { s with mem := setFlag flag s.mem pd op.addr value } := by
  unfold setFlag
  split
  · rename_i pte hlookup
    exact h.change_update op true hv hlookup (heffect _ _ (.inl rfl))
  · rename_i hlookup
    apply h.change_same
    rw [entry_of_none hlookup]
    exact heffect _ _ (.inr ⟨rfl, rfl⟩)

theorem Wf.change_clearPage (h : Wf pd s)
    (hv : isUserVaddr upage = true) (hclear : pagedirClearPage s.mem pd upage = some mem) :
    Change pd (.clearPage upage) true s { s with mem } := by
  unfold pagedirClearPage at hclear
  split at hclear
  · cases hclear
  split at hclear
  · rename_i pte hlookup
    split at hclear
    · rename_i hpresent
      cases hclear
      exact h.change_update _ true hv hlookup (if_pos hpresent).symm
    · rename_i habsent
      cases hclear
      apply h.change_same
      show _ = if _ then _ else _
      rw [if_neg]
      rwa [show (DirOp.clearPage upage).addr = upage from rfl, entry_of_some hlookup]
  · rename_i hlookup
    cases hclear
    apply h.change_same
    show _ = if _ then _ else _
    rw [if_neg]
    rw [show (DirOp.clearPage upage).addr = upage from rfl, entry_of_none hlookup]
    decide

theorem Wf.change (h : Wf pd s)
    (hexec : s.exec initRamPages pd op = some (s', ok)) : Change pd op ok s s' := by
  unfold exec at hexec
  split at hexec
  · cases hexec
  rename_i huser
  have hv : isUserVaddr op.addr = true := by simpa using huser
  cases op with
  | setPage upage kpage writable pt =>
    dsimp only at hexec
    split at hexec
    · cases hexec
    rename_i hfresh
    replace hfresh : ∀ t ∈ pt.toList, s.FreshTable pd t := by simpa using hfresh
    obtain ⟨⟨mem, ok'⟩, hset, heq⟩ := Option.map_eq_some_iff.mp hexec
    cases heq
    exact h.change_setPage hv hfresh hset
  | clearPage upage =>
    obtain ⟨mem, hclear, heq⟩ := Option.map_eq_some_iff.mp hexec
    cases heq
    exact h.change_clearPage hv hclear
  | setDirty vpage dirty =>
    cases hexec
    exact h.change_setFlag (.setDirty vpage dirty) hv fun _ _ heffect => heffect
  | setAccessed vpage accessed =>
    cases hexec
    exact h.change_setFlag (.setAccessed vpage accessed) hv fun _ _ heffect => heffect
  | getPage uaddr =>
    cases hexec
    exact h.change_same _ _ rfl

structure Represents (word : BitVec 32) (p : PageState) : Prop where
  kpage : p.kpage = if word &&& pteP ≠ 0 then some (pteGetPage word) else none
  dirty : word &&& pteP ≠ 0 → (word &&& pteD ≠ 0 ↔ p.dirty = true)
  accessed : word &&& pteP ≠ 0 → (word &&& pteA ≠ 0 ↔ p.accessed = true)

theorem Represents.kpage_congr (h : Represents word p)
    (hp : word' &&& pteP = word &&& pteP) (haddr : word' &&& pteAddr = word &&& pteAddr) :
    p.kpage = if word' &&& pteP ≠ 0 then some (pteGetPage word') else none := by
  rw [h.kpage, hp, pteGetPage, pteGetPage, haddr]

theorem represents_zero (dirty accessed : Bool) : Represents 0 ⟨none, dirty, accessed⟩ where
  kpage := by simp
  dirty h := absurd BitVec.zero_and h
  accessed h := absurd BitVec.zero_and h

theorem Represents.absent (hp : word &&& pteP = 0) (hk : p.kpage = none) : Represents word p where
  kpage := by simp [hk, hp]
  dirty h := absurd hp h
  accessed h := absurd hp h

theorem Represents.effect (h : Represents word p) (heffect : Effect op ok word word') :
    Represents word' (p.apply (op, ok)) := by
  cases op with
  | setPage upage kpage writable pt =>
    cases ok with
    | false =>
      have hsame : word' = word := heffect
      rw [hsame]
      exact h
    | true =>
      obtain ⟨haligned, rfl⟩ : pgOfs kpage = 0 ∧ word' = pteCreateUser kpage writable := heffect
      have hpresent := pteCreateUser_and_pteP haligned writable
      refine ⟨?_, fun _ => ?_, fun _ => ?_⟩
      · rw [if_pos hpresent, pteGetPage_pteCreateUser haligned]
        rfl
      · rw [pteCreateUser_and_flag haligned writable (by decide) (by decide) (by decide)]
        simp [PageState.apply]
      · rw [pteCreateUser_and_flag haligned writable (by decide) (by decide) (by decide)]
        simp [PageState.apply]
  | clearPage upage =>
    have hword : word' = if word &&& pteP ≠ 0 then word &&& ~~~pteP else word := heffect
    apply Represents.absent
    · rw [hword]
      split
      · rw [BitVec.and_assoc]
        exact BitVec.and_zero
      · rename_i habsent
        exact not_not.mp habsent
    · rfl
  | setDirty vpage dirty =>
    rcases heffect with hword | ⟨hzero, hzero'⟩
    · have hp : word' &&& pteP = word &&& pteP := by
        rw [hword]
        exact setBits_and (by decide) (by decide) dirty
      refine ⟨?_, ?_, ?_⟩
      · refine h.kpage_congr hp ?_
        rw [hword]
        exact setBits_and (by decide) (by decide) dirty
      · intro _
        rw [hword]
        exact setBits_and_self (by decide) dirty
      · rw [hp, hword, setBits_and (by decide) (by decide) dirty]
        exact h.accessed
    · subst hzero hzero'
      exact Represents.absent (by decide) (h.kpage.trans (by simp))
  | setAccessed vpage accessed =>
    rcases heffect with hword | ⟨hzero, hzero'⟩
    · have hp : word' &&& pteP = word &&& pteP := by
        rw [hword]
        exact setBits_and (by decide) (by decide) accessed
      refine ⟨?_, ?_, ?_⟩
      · refine h.kpage_congr hp ?_
        rw [hword]
        exact setBits_and (by decide) (by decide) accessed
      · rw [hp, hword, setBits_and (by decide) (by decide) accessed]
        exact h.dirty
      · intro _
        rw [hword]
        exact setBits_and_self (by decide) accessed
    · subst hzero hzero'
      exact Represents.absent (by decide) (h.kpage.trans (by simp))
  | getPage uaddr =>
    have hsame : word' = word := heffect
    rw [hsame]
    exact h

structure Refines (pd : Addr) (s : Dir) (m : DirMap) : Prop where
  wf : Wf pd s
  pages : ∀ u, isUserVaddr u = true → Represents (entry pd s.mem u) (m (pgRoundDown u))

theorem Refines.step {label : DirOp × Bool} (h : Refines pd s m)
    (hstep : s.exec initRamPages pd label.1 = some (s', label.2)) :
    Refines pd s' (m.apply label) := by
  have hchange := h.wf.change hstep
  refine ⟨hchange.wf, ?_⟩
  intro u hu
  by_cases hpage : pgRoundDown u = pgRoundDown label.1.addr
  · rw [DirMap.apply, hpage, update_self, ← hpage]
    exact (h.pages u hu).effect (hchange.own u hu hpage)
  · rw [DirMap.apply, update_of_ne hpage, hchange.others u hu hpage]
    exact h.pages u hu

theorem Refines.trace (h : Refines pd s m) (htrace : (machine initRamPages pd).Trace s labels s') :
    Refines pd s' (labels.foldl DirMap.apply m) := by
  induction htrace generalizing m with
  | nil => exact h
  | cons hstep _ ih => exact ih (h.step hstep)

theorem Created.refines (haligned : pgOfs pd = 0) (h : Created pd s) :
    Refines pd s DirMap.empty := by
  obtain ⟨htables, mem, initPageDir, hzero, hmem⟩ := h
  have hpde : ∀ i : Addr, i.toNat < 768 → s.mem (pd + i * 4) = 0 := by
    intro i hi
    rw [hmem, pagedirCreate, fillWords, pgRoundDown_slot haligned (by omega), if_pos rfl]
    have hofs : pd + i * 4 - pd = i * 4 := by
      rw [BitVec.add_comm, BitVec.add_sub_cancel]
    rw [hofs]
    exact hzero i hi
  refine ⟨⟨haligned, ?_, ?_, fun i hi => .inl (hpde i hi), ?_, ?_⟩, ?_⟩
  · simp [htables]
  · simp [htables]
  · intro i j hi _ hne
    exact absurd (hpde i hi) hne
  · simp [htables]
  · intro u hu
    have hnone : lookupPage s.mem pd u = none := by
      unfold lookupPage
      rw [if_pos (hpde _ (pdNo_lt_of_user hu))]
    rw [entry_of_none hnone]
    exact represents_zero false false

theorem refines_after (haligned : pgOfs pd = 0) (h : Created pd s)
    (htrace : (machine initRamPages pd).Trace s labels s') :
    Refines pd s' (DirMap.after labels) :=
  (h.refines haligned).trace htrace

theorem Refines.pagedirGetPage (h : Refines pd s m) (hu : isUserVaddr u = true) :
    pagedirGetPage s.mem pd u = (m (pgRoundDown u)).kpage.map (· + pgOfs u) := by
  rw [pagedirGetPage_eq, (h.pages u hu).kpage]
  split <;> rfl

theorem Refines.flags (h : Refines pd s m) (hu : isUserVaddr u = true)
    (hmapped : (m (pgRoundDown u)).kpage.isSome) :
    pagedirIsDirty s.mem pd u = (m (pgRoundDown u)).dirty ∧
      pagedirIsAccessed s.mem pd u = (m (pgRoundDown u)).accessed := by
  have hpage := h.pages u hu
  have hpresent : entry pd s.mem u &&& pteP ≠ 0 := by
    rw [hpage.kpage] at hmapped
    split at hmapped
    · assumption
    · cases hmapped
  constructor
  · rw [pagedirIsDirty, testFlag_eq, Bool.eq_iff_iff, bne_iff_ne]
    exact hpage.dirty hpresent
  · rw [pagedirIsAccessed, testFlag_eq, Bool.eq_iff_iff, bne_iff_ne]
    exact hpage.accessed hpresent

end Dir

end Pintos.Userprog
