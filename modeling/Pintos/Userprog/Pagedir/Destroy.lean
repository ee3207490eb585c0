import Pintos.Userprog.Pagedir.Refinement

namespace Pintos.Userprog

open Threads List Option

def AgreeOn (P : Addr → Prop) (mem mem' : Words) : Prop := ∀ a, P (pgRoundDown a) → mem a = mem' a

theorem AgreeOn.freePage {P : Addr → Prop} {mem : Words} {s : Words × List Addr} {page : Addr}
    (h : AgreeOn P s.1 mem) (hpage : ¬ P page) : AgreeOn P (freePage s page).1 mem := by
  intro a ha
  have hne : pgRoundDown a ≠ page := fun heq => hpage (heq ▸ ha)
  unfold Userprog.freePage fillWords
  dsimp only
  rw [if_neg hne]
  exact h a ha

def framesOf (mem : Words) (ptes : List Addr) : List Addr :=
  (ptes.filter fun pte => mem pte &&& pteP != 0).map fun pte => pteGetPage (mem pte)

theorem mem_framesOf {mem : Words} {ptes : List Addr} {page : Addr} :
    page ∈ framesOf mem ptes ↔ ∃ pte ∈ ptes, mem pte &&& pteP ≠ 0 ∧ pteGetPage (mem pte) = page := by
  simp [framesOf, and_assoc]

theorem foldl_freePte {P : Addr → Prop} {mem : Words} (ptes : List Addr) (s : Words × List Addr)
    (hagree : AgreeOn P s.1 mem) (hptes : ∀ pte ∈ ptes, P (pgRoundDown pte))
    (hframes : ∀ page ∈ framesOf mem ptes, ¬ P page) :
    AgreeOn P (ptes.foldl freePte s).1 mem ∧
      (ptes.foldl freePte s).2 = s.2 ++ framesOf mem ptes := by
  induction ptes generalizing s with
  | nil => exact ⟨hagree, by simp [framesOf]⟩
  | cons pte ptes ih =>
    have hword : s.1 pte = mem pte := hagree pte (hptes pte mem_cons_self)
    have hrest : ∀ p ∈ ptes, P (pgRoundDown p) := fun p hp => hptes p (mem_cons_of_mem _ hp)
    rw [foldl_cons, freePte, hword]
    by_cases hpresent : mem pte &&& pteP ≠ 0
    · have hcons : framesOf mem (pte :: ptes) = pteGetPage (mem pte) :: framesOf mem ptes := by
        rw [framesOf, filter_cons_of_pos (by simpa using hpresent), map_cons]
        rfl
      rw [hcons] at hframes ⊢
      rw [if_pos hpresent]
      obtain ⟨hsame, hlist⟩ := ih _ (hagree.freePage (hframes _ mem_cons_self)) hrest
        fun page hp => hframes page (mem_cons_of_mem _ hp)
      refine ⟨hsame, hlist.trans ?_⟩
      simp [freePage]
    · have hcons : framesOf mem (pte :: ptes) = framesOf mem ptes := by
        rw [framesOf, filter_cons_of_neg (by simpa using hpresent)]
        rfl
      rw [hcons] at hframes ⊢
      rw [if_neg hpresent]
      exact ih s hagree hrest hframes

namespace Dir

variable {initRamPages i j : Nat} {pd page pt : Addr} {s : Dir} {m : DirMap} {mem : Words}

def pdeAt (pd : Addr) (mem : Words) (i : Nat) : BitVec 32 := mem (pd + BitVec.ofNat 32 i * 4)

def tableAt (pd : Addr) (mem : Words) (i : Nat) : Option Addr :=
  if pdeAt pd mem i &&& pteP ≠ 0 then some (pdeGetPt (pdeAt pd mem i)) else none

def freedBy (pd : Addr) (mem : Words) (i : Nat) : List Addr :=
  match tableAt pd mem i with
  | some pt => framesOf mem (wordsOf pt 1024) ++ [pt]
  | none => []

def Needed (pd : Addr) (mem : Words) (is : List Nat) (page : Addr) : Prop :=
  page = pd ∨ ∃ i ∈ is, tableAt pd mem i = some page

structure Apart (pd : Addr) (mem : Words) (is : List Nat) : Prop where
  bound : ∀ i ∈ is, i < 1024
  table : ∀ i ∈ is, ∀ pt, tableAt pd mem i = some pt → pgOfs pt = 0 ∧ pt ≠ pd
  tables : is.Pairwise fun i j => ∀ pt, tableAt pd mem i = some pt → tableAt pd mem j ≠ some pt
  frames : ∀ i ∈ is, ∀ pt, tableAt pd mem i = some pt →
    ∀ page ∈ framesOf mem (wordsOf pt 1024), ¬ Needed pd mem is page

theorem Needed.cons {is : List Nat} (h : Needed pd mem is page) : Needed pd mem (i :: is) page := by
  rcases h with h | ⟨j, hj, hpage⟩
  · exact .inl h
  · exact .inr ⟨j, mem_cons_of_mem _ hj, hpage⟩

theorem Apart.tail {is : List Nat} (h : Apart pd mem (i :: is)) : Apart pd mem is where
  bound j hj := h.bound j (mem_cons_of_mem _ hj)
  table j hj := h.table j (mem_cons_of_mem _ hj)
  tables := (pairwise_cons.mp h.tables).2
  frames j hj pt hpt page hpage hneeded :=
    h.frames j (mem_cons_of_mem _ hj) pt hpt page hpage hneeded.cons

theorem toNat_ofNat_lt (hi : i < 1024) : (BitVec.ofNat 32 i).toNat = i := by
  rw [BitVec.toNat_ofNat]
  exact Nat.mod_eq_of_lt (by omega)

theorem pgRoundDown_wordsOf {a : Addr} (haligned : pgOfs page = 0)
    (ha : a ∈ wordsOf page 1024) : pgRoundDown a = page := by
  obtain ⟨j, hj, rfl⟩ := List.mem_map.mp ha
  have hj' := mem_range.mp hj
  exact pgRoundDown_slot haligned (by rw [toNat_ofNat_lt hj']; exact hj')

theorem foldl_freePde (haligned : pgOfs pd = 0) (is : List Nat) (st : Words × List Addr)
    (h : Apart pd mem is) (hagree : AgreeOn (Needed pd mem is) st.1 mem) :
    ((is.map fun i => pd + BitVec.ofNat 32 i * 4).foldl freePde st).2 =
      st.2 ++ is.flatMap (freedBy pd mem) := by
  induction is generalizing st with
  | nil => simp
  | cons i is ih =>
    have hi := h.bound i mem_cons_self
    have hword : st.1 (pd + BitVec.ofNat 32 i * 4) = pdeAt pd mem i := by
      apply hagree
      left
      exact pgRoundDown_slot haligned (by rw [toNat_ofNat_lt hi]; exact hi)
    have hrest : AgreeOn (Needed pd mem is) st.1 mem := fun a ha => hagree a ha.cons
    rw [map_cons, foldl_cons, freePde, hword, flatMap_cons, freedBy]
    by_cases hpresent : pdeAt pd mem i &&& pteP ≠ 0
    · have htable : tableAt pd mem i = some (pdeGetPt (pdeAt pd mem i)) := if_pos hpresent
      obtain ⟨hpt, hne⟩ := h.table i mem_cons_self _ htable
      obtain ⟨hsame, hlist⟩ := foldl_freePte (wordsOf (pdeGetPt (pdeAt pd mem i)) 1024) st hagree
        (fun a ha => .inr ⟨i, mem_cons_self, by rw [pgRoundDown_wordsOf hpt ha, htable]⟩)
        (h.frames i mem_cons_self _ htable)
      have hfreed : ¬ Needed pd mem is (pdeGetPt (pdeAt pd mem i)) := by
        rintro (heq | ⟨j, hj, heq⟩)
        · exact hne heq
        · exact (pairwise_cons.mp h.tables).1 j hj _ htable heq
      have hagree' : AgreeOn (Needed pd mem is)
          ((wordsOf (pdeGetPt (pdeAt pd mem i)) 1024).foldl freePte st).1 mem :=
        fun a ha => hsame a ha.cons
      rw [if_pos hpresent, htable, freeTable, ih _ h.tail (hagree'.freePage hfreed)]
      simp [freePage, hlist]
    · have htable : tableAt pd mem i = none := if_neg hpresent
      rw [if_neg hpresent, htable, ih st h.tail hrest]
      rfl

theorem pagedirDestroy_eq (haligned : pgOfs pd = 0) (h : Apart pd mem (range 768)) :
    pagedirDestroy mem pd = (range 768).flatMap (freedBy pd mem) ++ [pd] := by
  have hcount : (pdNo physBase).toNat = 768 := by decide
  have hloop := foldl_freePde haligned (range 768) (mem, []) h fun _ _ => rfl
  rw [nil_append] at hloop
  rw [pagedirDestroy, hcount, freePage, wordsOf, hloop]

theorem Wf.tableAt_eq_some (h : Wf pd s) (hi : i < 768) :
    tableAt pd s.mem i = some pt ↔ pt ∈ s.tables ∧ pdeAt pd s.mem i = pdeCreate pt := by
  have hbound : (BitVec.ofNat 32 i).toNat < 768 := by rw [toNat_ofNat_lt (by omega)]; exact hi
  unfold tableAt
  constructor
  · intro hsome
    split at hsome
    · rename_i hpresent
      rcases h.pde _ hbound with hzero | ⟨pt', hpt', hpde⟩
      · exact absurd (by rw [pdeAt, hzero]; exact BitVec.zero_and) hpresent
      · have hget : pdeGetPt (pdeAt pd s.mem i) = pt' := by
          rw [pdeAt, hpde, pdeGetPt_pdeCreate (h.table pt' hpt').1]
        cases hget.symm.trans (some.inj hsome)
        exact ⟨hpt', hpde⟩
    · cases hsome
  · rintro ⟨hpt, hpde⟩
    rw [hpde, if_pos (pdeCreate_and_pteP (h.table pt hpt).1), pdeGetPt_pdeCreate (h.table pt hpt).1]

def pageAddr (i j : Nat) : Addr := BitVec.ofNat 32 (i * 4194304 + j * 4096)

theorem toNat_pageAddr (hi : i < 768) (hj : j < 1024) :
    (pageAddr i j).toNat = i * 4194304 + j * 4096 := by
  rw [pageAddr, BitVec.toNat_ofNat]
  exact Nat.mod_eq_of_lt (by omega)

theorem pageAddr_indices (hi : i < 768) (hj : j < 1024) :
    isUserVaddr (pageAddr i j) = true ∧ pdNo (pageAddr i j) = BitVec.ofNat 32 i ∧
      ptNo (pageAddr i j) = BitVec.ofNat 32 j := by
  have hnat := toNat_pageAddr hi hj
  have hbase : physBase.toNat = 3221225472 := rfl
  refine ⟨?_, ?_, ?_⟩
  · simp only [isUserVaddr, decide_eq_true_eq, BitVec.lt_def, hbase, hnat]
    omega
  · apply BitVec.eq_of_toNat_eq
    rw [toNat_pdNo, hnat, toNat_ofNat_lt (by omega)]
    omega
  · apply BitVec.eq_of_toNat_eq
    rw [toNat_ptNo, hnat, toNat_ofNat_lt hj]
    omega

theorem Wf.entry_pageAddr (h : Wf pd s) (hi : i < 768) (hj : j < 1024)
    (htable : tableAt pd s.mem i = some pt) :
    entry pd s.mem (pageAddr i j) = s.mem (pt + BitVec.ofNat 32 j * 4) := by
  obtain ⟨hpt, hpde⟩ := (h.tableAt_eq_some hi).mp htable
  obtain ⟨-, hpd, hno⟩ := pageAddr_indices hi hj
  apply entry_of_some
  unfold lookupPage
  rw [hpd, hno, show s.mem (pd + BitVec.ofNat 32 i * 4) = pdeCreate pt from hpde,
    if_neg (pdeCreate_ne_zero (h.table pt hpt).1), pdeGetPt_pdeCreate (h.table pt hpt).1]

theorem Refines.mem_framesOf (h : Refines pd s m) (hi : i < 768)
    (htable : tableAt pd s.mem i = some pt) (page : Addr) :
    page ∈ framesOf s.mem (wordsOf pt 1024) ↔
      ∃ j < 1024, (m (pgRoundDown (pageAddr i j))).kpage = some page := by
  have hkpage : ∀ j < 1024, (m (pgRoundDown (pageAddr i j))).kpage = some page ↔
      s.mem (pt + BitVec.ofNat 32 j * 4) &&& pteP ≠ 0 ∧
        pteGetPage (s.mem (pt + BitVec.ofNat 32 j * 4)) = page := by
    intro j hj
    rw [(h.pages _ (pageAddr_indices hi hj).1).kpage, h.wf.entry_pageAddr hi hj htable]
    split
    · rename_i hpresent
      exact ⟨fun heq => ⟨hpresent, some.inj heq⟩, fun hand => congrArg some hand.2⟩
    · rename_i habsent
      exact ⟨fun heq => (by cases heq), fun hand => absurd hand.1 habsent⟩
  rw [Userprog.mem_framesOf]
  constructor
  · rintro ⟨pte, hpte, hpresent, hpage⟩
    obtain ⟨j, hj, rfl⟩ := List.mem_map.mp hpte
    have hj' := mem_range.mp hj
    exact ⟨j, hj', (hkpage j hj').mpr ⟨hpresent, hpage⟩⟩
  · rintro ⟨j, hj, hpage⟩
    obtain ⟨hpresent, hpage⟩ := (hkpage j hj).mp hpage
    exact ⟨_, mem_map_of_mem (mem_range.mpr hj), hpresent, hpage⟩

structure Distinct (pd : Addr) (s : Dir) (m : DirMap) : Prop where
  inj : ∀ u v k, isUserVaddr u = true → isUserVaddr v = true →
    (m (pgRoundDown u)).kpage = some k → (m (pgRoundDown v)).kpage = some k →
    pgRoundDown u = pgRoundDown v
  apart : ∀ u k, isUserVaddr u = true → (m (pgRoundDown u)).kpage = some k →
    k ≠ pd ∧ k ∉ s.tables

theorem pageAddr_inj {i' j' : Nat} (hi : i < 768) (hj : j < 1024) (hi' : i' < 768)
    (hj' : j' < 1024) (h : pgRoundDown (pageAddr i j) = pgRoundDown (pageAddr i' j')) :
    i = i' ∧ j = j' := by
  have hnat := congrArg BitVec.toNat h
  rw [toNat_pgRoundDown, toNat_pgRoundDown, toNat_pageAddr hi hj, toNat_pageAddr hi' hj'] at hnat
  omega

theorem Refines.apart (h : Refines pd s m) (hd : Distinct pd s m) : Apart pd s.mem (range 768) where
  bound i hi := by
    have hi' := mem_range.mp hi
    omega
  table i hi pt hpt := h.wf.table pt ((h.wf.tableAt_eq_some (mem_range.mp hi)).mp hpt).1
  tables := by
    apply nodup_range.imp_of_mem
    intro i j hi hj hne pt hpt hpt'
    have hi' := mem_range.mp hi
    have hj' := mem_range.mp hj
    obtain ⟨hmem, hpde⟩ := (h.wf.tableAt_eq_some hi').mp hpt
    obtain ⟨-, hpde'⟩ := (h.wf.tableAt_eq_some hj').mp hpt'
    have heq := h.wf.inj (BitVec.ofNat 32 i) (BitVec.ofNat 32 j)
      (by rw [toNat_ofNat_lt (by omega)]; exact hi') (by rw [toNat_ofNat_lt (by omega)]; exact hj')
      (by rw [show s.mem (pd + BitVec.ofNat 32 i * 4) = pdeCreate pt from hpde]
          exact pdeCreate_ne_zero (h.wf.table pt hmem).1)
      (hpde.trans hpde'.symm)
    have hnat := congrArg BitVec.toNat heq
    rw [toNat_ofNat_lt (by omega), toNat_ofNat_lt (by omega)] at hnat
    exact hne hnat
  frames i hi pt hpt page hpage := by
    have hi' := mem_range.mp hi
    obtain ⟨j, hj, hk⟩ := (h.mem_framesOf hi' hpt _).mp hpage
    obtain ⟨hnepd, hnot⟩ := hd.apart _ page (pageAddr_indices hi' hj).1 hk
    rintro (heq | ⟨i', hi'', htable⟩)
    · exact hnepd heq
    · exact hnot ((h.wf.tableAt_eq_some (mem_range.mp hi'')).mp htable).1

theorem Refines.nodup_framesOf (h : Refines pd s m) (hd : Distinct pd s m) (hi : i < 768)
    (hpt : tableAt pd s.mem i = some pt) :
    (framesOf s.mem (wordsOf pt 1024)).Nodup := by
  have haligned := (h.wf.table pt ((h.wf.tableAt_eq_some hi).mp hpt).1).1
  have hwords : (wordsOf pt 1024).Nodup := by
    apply List.Nodup.map_on
    · intro j hj j' hj' heq
      have hj := mem_range.mp hj
      have hj' := mem_range.mp hj'
      have hindex := (slot_inj haligned haligned (by rw [toNat_ofNat_lt hj]; exact hj)
        (by rw [toNat_ofNat_lt hj']; exact hj') heq).2
      have hnat := congrArg BitVec.toNat hindex
      rwa [toNat_ofNat_lt hj, toNat_ofNat_lt hj'] at hnat
    · exact nodup_range
  have hkpage : ∀ j < 1024, s.mem (pt + BitVec.ofNat 32 j * 4) &&& pteP ≠ 0 →
      (m (pgRoundDown (pageAddr i j))).kpage =
        some (pteGetPage (s.mem (pt + BitVec.ofNat 32 j * 4))) := by
    intro j hj hpresent
    rw [(h.pages _ (pageAddr_indices hi hj).1).kpage, h.wf.entry_pageAddr hi hj hpt,
      if_pos hpresent]
  apply List.Nodup.map_on
  · intro pte hpte pte' hpte' heq
    obtain ⟨hmem, hpresent⟩ := mem_filter.mp hpte
    obtain ⟨hmem', hpresent'⟩ := mem_filter.mp hpte'
    obtain ⟨j, hj, rfl⟩ := List.mem_map.mp hmem
    obtain ⟨j', hj', rfl⟩ := List.mem_map.mp hmem'
    have hj := mem_range.mp hj
    have hj' := mem_range.mp hj'
    have hk := hkpage j hj (by simpa using hpresent)
    have hk' := hkpage j' hj' (by simpa using hpresent')
    rw [heq] at hk
    have hpage := hd.inj _ _ _ (pageAddr_indices hi hj).1 (pageAddr_indices hi hj').1 hk hk'
    rw [(pageAddr_inj hi hj hi hj' hpage).2]
  · exact hwords.filter _

theorem exists_pageAddr {u : Addr} (hu : isUserVaddr u = true) :
    ∃ i j, i < 768 ∧ j < 1024 ∧ pgRoundDown (pageAddr i j) = pgRoundDown u := by
  have hi := pdNo_lt_of_user hu
  have hj := ptNo_lt u
  refine ⟨(pdNo u).toNat, (ptNo u).toNat, hi, hj, ?_⟩
  obtain ⟨-, hpd, hno⟩ := pageAddr_indices hi hj
  apply pgRoundDown_eq_of_indices
  · rw [hpd, BitVec.ofNat_toNat, BitVec.setWidth_eq]
  · rw [hno, BitVec.ofNat_toNat, BitVec.setWidth_eq]

section

variable (h : Refines pd s m)
include h

theorem Refines.exists_table (hi : i < 768) (hj : j < 1024)
    (hk : (m (pgRoundDown (pageAddr i j))).kpage = some page) :
    ∃ pt, tableAt pd s.mem i = some pt := by
  obtain ⟨hu, hpd, -⟩ := pageAddr_indices hi hj
  rw [(h.pages _ hu).kpage] at hk
  split at hk
  · rename_i hpresent
    cases hlookup : lookupPage s.mem pd (pageAddr i j) with
    | none =>
      rw [entry_of_none hlookup] at hpresent
      exact absurd BitVec.zero_and hpresent
    | some a =>
      obtain ⟨pt, hpt, hpde, -⟩ := h.wf.lookupPage_eq_some hu hlookup
      rw [hpd] at hpde
      exact ⟨pt, (h.wf.tableAt_eq_some hi).mpr ⟨hpt, hpde⟩⟩
  · cases hk

theorem Refines.mem_freedBy (hi : i < 768) :
    page ∈ freedBy pd s.mem i ↔ ∃ pt, tableAt pd s.mem i = some pt ∧
      (page = pt ∨ ∃ j < 1024, (m (pgRoundDown (pageAddr i j))).kpage = some page) := by
  unfold freedBy
  cases htable : tableAt pd s.mem i with
  | none => simp
  | some pt =>
    have hframes := h.mem_framesOf hi htable page
    simp only [mem_append, mem_singleton, some.injEq, exists_eq_left', hframes]
    exact or_comm

section

variable (hd : Distinct pd s m)
include hd

theorem Refines.nodup_freedBy (hi : i < 768) : (freedBy pd s.mem i).Nodup := by
  unfold freedBy
  cases htable : tableAt pd s.mem i with
  | none => exact nodup_nil
  | some pt =>
    refine nodup_append.mpr ⟨h.nodup_framesOf hd hi htable, nodup_singleton pt, ?_⟩
    intro page hpage b hb heq
    obtain ⟨j, hj, hk⟩ := (h.mem_framesOf hi htable _).mp hpage
    rw [mem_singleton.mp hb] at heq
    exact (hd.apart _ page (pageAddr_indices hi hj).1 hk).2
      (heq ▸ ((h.wf.tableAt_eq_some hi).mp htable).1)

theorem Refines.disjoint_freedBy :
    (range 768).Pairwise (Function.onFun List.Disjoint (freedBy pd s.mem)) := by
  have hapart := h.apart hd
  apply (hapart.tables.and nodup_range).imp_of_mem
  rintro i i' hi hi' ⟨htables, hne⟩ page hpage hpage'
  have hi := mem_range.mp hi
  have hi' := mem_range.mp hi'
  obtain ⟨pt, hpt, hcase⟩ := (h.mem_freedBy hi).mp hpage
  obtain ⟨pt', hpt', hcase'⟩ := (h.mem_freedBy hi').mp hpage'
  have hmem := ((h.wf.tableAt_eq_some hi).mp hpt).1
  have hmem' := ((h.wf.tableAt_eq_some hi').mp hpt').1
  rcases hcase with rfl | ⟨j, hj, hk⟩
  · rcases hcase' with rfl | ⟨j', hj', hk'⟩
    · exact htables _ hpt hpt'
    · exact (hd.apart _ _ (pageAddr_indices hi' hj').1 hk').2 hmem
  · rcases hcase' with rfl | ⟨j', hj', hk'⟩
    · exact (hd.apart _ _ (pageAddr_indices hi hj).1 hk).2 hmem'
    · have hsame := hd.inj _ _ page (pageAddr_indices hi hj).1 (pageAddr_indices hi' hj').1 hk hk'
      exact hne (pageAddr_inj hi hj hi' hj' hsame).1

theorem Refines.nodup_destroy : (pagedirDestroy s.mem pd).Nodup := by
  have hall : ((range 768).flatMap (freedBy pd s.mem)).Nodup := by
    rw [nodup_flatMap]
    exact ⟨fun i hi => h.nodup_freedBy hd (mem_range.mp hi), h.disjoint_freedBy hd⟩
  rw [pagedirDestroy_eq h.wf.aligned (h.apart hd)]
  refine nodup_append.mpr ⟨hall, nodup_singleton pd, ?_⟩
  intro page hpage b hb heq
  rw [mem_singleton.mp hb] at heq
  obtain ⟨i, hi, hpage⟩ := mem_flatMap.mp hpage
  obtain ⟨pt, hpt, hcase⟩ := (h.mem_freedBy (mem_range.mp hi)).mp hpage
  rcases hcase with rfl | ⟨j, hj, hk⟩
  · exact (h.wf.table _ ((h.wf.tableAt_eq_some (mem_range.mp hi)).mp hpt).1).2 heq
  · exact (hd.apart _ page (pageAddr_indices (mem_range.mp hi) hj).1 hk).1 heq

theorem Refines.mem_destroy (page : Addr) :
    page ∈ pagedirDestroy s.mem pd ↔ page = pd ∨ page ∈ s.tables ∨
      ∃ u, isUserVaddr u = true ∧ (m (pgRoundDown u)).kpage = some page := by
  rw [pagedirDestroy_eq h.wf.aligned (h.apart hd), mem_append, mem_singleton, mem_flatMap]
  constructor
  · rintro (⟨i, hi, hpage⟩ | rfl)
    · have hi := mem_range.mp hi
      obtain ⟨pt, hpt, hcase⟩ := (h.mem_freedBy hi).mp hpage
      rcases hcase with rfl | ⟨j, hj, hk⟩
      · exact .inr (.inl ((h.wf.tableAt_eq_some hi).mp hpt).1)
      · exact .inr (.inr ⟨_, (pageAddr_indices hi hj).1, hk⟩)
    · exact .inl rfl
  · rintro (rfl | hpt | ⟨u, hu, hk⟩)
    · exact .inr rfl
    · obtain ⟨i, hi, hpde⟩ := h.wf.linked page hpt
      have hpde' : pdeAt pd s.mem i.toNat = pdeCreate page := by
        rw [pdeAt, BitVec.ofNat_toNat, BitVec.setWidth_eq, hpde]
      refine .inl ⟨i.toNat, mem_range.mpr hi, (h.mem_freedBy hi).mpr ⟨page, ?_, .inl rfl⟩⟩
      exact (h.wf.tableAt_eq_some hi).mpr ⟨hpt, hpde'⟩
    · obtain ⟨i, j, hi, hj, hsame⟩ := exists_pageAddr hu
      obtain ⟨pt, htable⟩ := h.exists_table hi hj (show _ = some page from hsame ▸ hk)
      exact .inl ⟨i, mem_range.mpr hi,
        (h.mem_freedBy hi).mpr ⟨pt, htable, .inr ⟨j, hj, hsame ▸ hk⟩⟩⟩

end

end

theorem pagedir_refines_map {labels : List (DirOp × Bool)} {s₀ : Dir} (haligned : pgOfs pd = 0)
    (hcreated : Created pd s₀) (htrace : (machine initRamPages pd).Trace s₀ labels s) :
    (∀ u, isUserVaddr u = true → pagedirGetPage s.mem pd u =
      (DirMap.after labels (pgRoundDown u)).kpage.map (· + pgOfs u)) ∧
    (∀ u, isUserVaddr u = true → (DirMap.after labels (pgRoundDown u)).kpage.isSome →
      pagedirIsDirty s.mem pd u = (DirMap.after labels (pgRoundDown u)).dirty ∧
      pagedirIsAccessed s.mem pd u = (DirMap.after labels (pgRoundDown u)).accessed) ∧
    (∀ page, DirMap.after labels page =
      (labels.filter fun label => pgRoundDown label.1.addr = page).foldl PageState.apply
        ⟨none, false, false⟩) ∧
    (∀ u op ok s', isUserVaddr u = true → s.exec initRamPages pd op = some (s', ok) →
      pgRoundDown u ≠ pgRoundDown op.addr →
      pagedirIsDirty s'.mem pd u = pagedirIsDirty s.mem pd u ∧
      pagedirIsAccessed s'.mem pd u = pagedirIsAccessed s.mem pd u) ∧
    (Distinct pd s (DirMap.after labels) → (pagedirDestroy s.mem pd).Nodup ∧
      ∀ page, page ∈ pagedirDestroy s.mem pd ↔ page = pd ∨ page ∈ s.tables ∨
        ∃ u, isUserVaddr u = true ∧
          (DirMap.after labels (pgRoundDown u)).kpage = some page) := by
  have h := refines_after haligned hcreated htrace
  refine ⟨fun u hu => h.pagedirGetPage hu, ?_, fun page => DirMap.foldl_apply labels _ page, ?_,
    fun hd => ⟨h.nodup_destroy hd, h.mem_destroy hd⟩⟩
  · intro u hu hmapped
    exact h.flags hu hmapped
  · intro u op ok s' hu hexec hne
    have hentry := (h.wf.change hexec).others u hu hne
    unfold pagedirIsDirty pagedirIsAccessed
    rw [testFlag_eq, testFlag_eq, testFlag_eq, testFlag_eq, hentry]
    exact ⟨rfl, rfl⟩

def mapAndDirty : List (DirOp × Bool) :=
  [(.setPage 0x08048000 0xc0200000 true (some 0xc0101000), true), (.setDirty 0x08048123 true, true)]

theorem after_mapAndDirty (page : Addr) : (DirMap.after mapAndDirty page).kpage =
    if page = 0x08048000 then some 0xc0200000 else none := by
  have hown : ∀ label ∈ mapAndDirty, pgRoundDown label.1.addr = 0x08048000 := by decide
  by_cases hpage : page = 0x08048000
  · subst hpage
    decide
  · have hnone : mapAndDirty.filter (fun label => pgRoundDown label.1.addr = page) = [] := by
      rw [filter_eq_nil_iff]
      intro label hlabel
      rw [hown label hlabel]
      simpa using Ne.symm hpage
    rw [DirMap.after, DirMap.foldl_apply, hnone, if_neg hpage]
    rfl

theorem pagedir_refines_map_dirty :
    ∃ s₀ s, Created 0xc0100000 s₀ ∧ (machine 1024 0xc0100000).Trace s₀ mapAndDirty s ∧
      pagedirGetPage s.mem 0xc0100000 0x08048123 = some 0xc0200123 ∧
      pagedirIsDirty s.mem 0xc0100000 0x08048004 = true ∧
      (pagedirDestroy s.mem 0xc0100000).Nodup := by
  have hcreated : Created 0xc0100000 ⟨fun _ => 0, []⟩ :=
    ⟨rfl, fun _ => 0, 0, fun _ _ => rfl, by funext a; simp [pagedirCreate, fillWords]⟩
  have hruns : ((exec 1024 0xc0100000 ⟨fun _ => 0, []⟩
      (.setPage 0x08048000 0xc0200000 true (some 0xc0101000))).bind fun r =>
        (r.1.exec 1024 0xc0100000 (.setDirty 0x08048123 true)).map fun r' =>
          (r.2, r'.2, r'.1.tables)) = some (true, true, [0xc0101000]) := by
    decide +kernel
  obtain ⟨⟨s₁, ok₁⟩, hset, hruns⟩ := bind_eq_some_iff.mp hruns
  obtain ⟨⟨s₂, ok₂⟩, hdirty, hresult⟩ := map_eq_some_iff.mp hruns
  obtain ⟨rfl, rfl, htables⟩ : ok₁ = true ∧ ok₂ = true ∧ s₂.tables = [0xc0101000] := by
    simpa using hresult
  have htrace : (machine 1024 0xc0100000).Trace ⟨fun _ => 0, []⟩ mapAndDirty s₂ :=
    .cons hset (.cons hdirty .nil)
  obtain ⟨hget, hflags, -, -, hdestroy⟩ := pagedir_refines_map (by decide) hcreated htrace
  refine ⟨_, s₂, hcreated, htrace, ?_, ?_, ?_⟩
  · rw [hget _ (by decide), after_mapAndDirty]
    decide
  · refine (hflags _ (by decide) ?_).1.trans (by decide)
    rw [after_mapAndDirty]
    decide
  · refine (hdestroy ⟨?_, ?_⟩).1
    · intro u v k _ _ hku hkv
      rw [after_mapAndDirty] at hku hkv
      split at hku
      · split at hkv
        · simp_all
        · cases hkv
      · cases hku
    · intro u k _ hk
      rw [after_mapAndDirty] at hk
      split at hk
      · cases hk
        rw [htables]
        decide
      · cases hk

end Dir

end Pintos.Userprog
