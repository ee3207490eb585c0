import Pintos.Vm.Paging.Links

namespace Pintos.Vm

open Function Threads LibKernel Lib Userprog List

namespace Paging

variable {c : Config} {s s' : Paging} {t : Int} {p p' : Proc} {ch : Choice} {e : SpEntry}
  {x : SpElem} {rest : List Instr} {b k : Nat} {xs : List SpElem} {act : Act}

def stackGranted (s : Paging) (b : Nat) (ch : Choice) : Bool :=
  ch.kpage.isSome && ch.tables &&
    (s.heap b).all fun e => (s.lookup e.pagedir e.upage).isNone

-- page_supp_alloc is called only for a page that page_find does not find, and setup_stack
-- gets its frame.
def keepsMap (s : Paging) : Int × Act → Bool
  | (t, .run ch) =>
    (s.procs t).all fun p => p.todo.head?.all fun instr =>
      ((s.allocates t p instr).all fun e => (s.pageFind ⟨t, p.pagedir⟩ e.upage).isNone) &&
        match instr with
        | .obtainStack b => s.stackGranted b ch
        | _ => true
  | _ => true

theorem keepsMap_run {instr : Instr} (hp : s.procs t = some p)
    (htodo : p.todo = instr :: rest) (h : s.keepsMap (t, .run ch) = true) :
    (∀ e, s.allocates t p instr = some e → s.pageFind ⟨t, p.pagedir⟩ e.upage = none) ∧
      ∀ b, instr = .obtainStack b → s.stackGranted b ch = true := by
  simp only [keepsMap, hp, htodo, Option.all_some, head?_cons, Bool.and_eq_true] at h
  obtain ⟨hallocates, hgranted⟩ := h
  constructor
  · intro e he
    rw [he] at hallocates
    simpa using hallocates
  · rintro b rfl
    exact hgranted

structure Tabled (s : Paging) : Prop extends Linked s where
  listed : ∀ t p, s.procs t = some p → ∀ x ∈ p.speList,
    x ∈ s.ptHash.elems ∧ (s.heap x.block).isSome

namespace Tabled

theorem pageFind_eq_some_iff (h : Tabled s) (user : UserThread) (page : Addr) (x : SpElem) :
    s.pageFind user page = some x ↔
      x ∈ s.ptHash.elems ∧ x.made.upage = page ∧ x.made.tid = user.tid := by
  rw [pageFind, h.keyed.find_eq_some_iff]
  show _ ∧ (x.made.upage, x.made.tid) = (page, user.tid) ↔ _
  rw [Prod.mk.injEq]

theorem continues (h : Tabled s) (hp : s.procs t = some p) (hp' : Continues t p p') :
    Tabled (s.setProc t p') where
  toLinked := h.toLinked.continues hp hp'
  listed t' q hq x hx := by
    rcases update_eq_some_iff.mp hq with ⟨rfl, rfl⟩ | ⟨-, hq⟩
    · exact h.listed t' p hp x (hp'.speList ▸ hx)
    · exact h.listed t' q hq x hx

theorem outcome (h : Tabled s) {r : Obtained}
    (he : s.heap b = some e) (ho : Outcome c s b e k ch s' r) : Tabled s' where
  toLinked := h.toLinked.outcome he ho
  listed t' q hq x hx := by
    obtain ⟨hhash, -, hprocs, -⟩ := ho.links_eq
    rw [hprocs] at hq
    obtain ⟨hmem, hlive⟩ := h.listed t' q hq x hx
    rw [hhash, ho.heap_eq]
    refine ⟨hmem, ?_⟩
    by_cases hb : x.block = b
    · rw [hb, update_self]
      rfl
    · rw [update_of_ne hb]
      exact hlive

theorem not_failed (he : s.heap b = some e)
    (hgranted : s.stackGranted b ch = true) : ¬ Outcome c s b e k ch s' .failed := by
  simp only [stackGranted, he, Option.all_some, Bool.and_eq_true] at hgranted
  obtain ⟨⟨hpage, htables⟩, hmap⟩ := hgranted
  intro ho
  cases ho with
  | rejected _ _ hnot =>
    rcases hnot with hsome | hnone
    · rw [Option.isNone_iff_eq_none] at hmap
      rw [hmap] at hsome
      cases hsome
    · rw [htables] at hnone
      cases hnone
  | refused hnone =>
    rw [hnone] at hpage
    cases hpage

section

variable (h : Tabled s) (hp : s.procs t = some p)
include h hp

theorem find_self (hx : x ∈ p.speList) : s.ptHash.find x = some x :=
  (h.keyed.find_eq_some_iff x x).mpr ⟨(h.listed t p hp x hx).1, rfl⟩

theorem destroyed (hlist : p.speList = x :: xs) {buckets : Bool}
    (hdelete : { s with ptHash := (s.ptHash.delete x buckets).1 }.pageSuppDelete c x.block =
      .ok s') : Tabled (s'.setProc t { p with speList := xs, todo := leave }) where
  toLinked := h.toLinked.destroyed hp hlist hdelete
  listed t' q' hq' y hy := by
    obtain ⟨-, rfl⟩ := pageSuppDelete_eq_ok (h.toLinked.delete x buckets).1.unswapped hdelete
    have hx : x ∈ p.speList := hlist ▸ mem_cons_self
    -- `y` was listed before, and is not `x`
    have hold : ∃ q, s.procs t' = some q ∧ y ∈ q.speList ∧ y ≠ x := by
      rcases update_eq_some_iff.mp hq' with ⟨rfl, rfl⟩ | ⟨ht, hq⟩
      · have hnodup := h.list_nodup t' p hp
        rw [hlist, nodup_cons] at hnodup
        refine ⟨p, hp, hlist ▸ mem_cons_of_mem _ hy, ?_⟩
        rintro rfl
        exact hnodup.1 hy
      · refine ⟨q', hq, hy, ?_⟩
        rintro rfl
        have htid := (h.made t' q' hq y hy).tid
        rw [(h.made t p hp y hx).tid] at htid
        exact ht htid.symm
    obtain ⟨q, hq, hyq, hne⟩ := hold
    obtain ⟨hmem, hlive⟩ := h.listed t' q hq y hyq
    have hperm := (h.keyed.delete_of_some (h.find_self hp hx) buckets).2.2
    refine ⟨(mem_cons.mp (hperm.mem_iff.mp hmem)).resolve_left hne, ?_⟩
    have hblock : y.block ≠ x.block := fun hb => hne (h.block_inj t' q t p y x hq hp hyq hx hb)
    show (update s.heap x.block none y.block).isSome
    rw [update_of_ne hblock]
    exact hlive

theorem pageSuppAlloc (hp' : Continues t p p') (he : e.Made t p.pagedir)
    (hnone : s.pageFind ⟨t, p.pagedir⟩ e.upage = none) (buckets : Bool) :
    Tabled (s.pageSuppAlloc t p' e buckets) where
  toLinked := h.toLinked.pageSuppAlloc hp hp' he buckets
  listed t' q' hq' x hx := by
    obtain ⟨-, helems⟩ := h.toLinked.insert ⟨s.nextBlock, e⟩ buckets
    have hfind : s.ptHash.find ⟨s.nextBlock, e⟩ = none := by
      rw [h.keyed.find_eq_none_iff]
      intro y hy hkey
      rw [pageFind, h.keyed.find_eq_none_iff] at hnone
      apply hnone y hy
      rw [hkey]
      show (e.upage, e.tid) = (e.upage, t)
      rw [he.tid]
    -- an element of an old list, or the new one
    have hcases : (∃ q, s.procs t' = some q ∧ x ∈ q.speList) ∨ x = ⟨s.nextBlock, e⟩ := by
      rcases update_eq_some_iff.mp hq' with ⟨rfl, rfl⟩ | ⟨-, hq⟩
      · rcases mem_append.mp hx with hx | hx
        · exact .inl ⟨p, hp, hp'.speList ▸ hx⟩
        · exact .inr (mem_singleton.mp hx)
      · exact .inl ⟨q', hq, hx⟩
    rcases hcases with ⟨q, hq, hxq⟩ | rfl
    · obtain ⟨hmem, hlive⟩ := h.listed t' q hq x hxq
      refine ⟨(helems x).mpr (.inl hmem), ?_⟩
      have hblock : x.block ≠ s.nextBlock := (h.block_lt t' q hq x hxq).ne
      show (update s.heap s.nextBlock (some e) x.block).isSome
      rw [update_of_ne hblock]
      exact hlive
    · refine ⟨(helems _).mpr (.inr ⟨rfl, hfind⟩), ?_⟩
      show (update s.heap s.nextBlock (some e) s.nextBlock).isSome
      rw [update_self]
      rfl

end

theorem move (h : Tabled s) (hguard : s.keepsMap (t, act) = true)
    (hmove : Move c s t act s') : Tabled s' := by
  have hlinked := h.toLinked.move hmove
  cases hmove with
  | create hnew hpd =>
    refine ⟨hlinked, ?_⟩
    intro t' q hq x hx
    rcases update_eq_some_iff.mp hq with ⟨rfl, rfl⟩ | ⟨-, hq⟩
    · cases hx
    · exact h.listed t' q hq x hx
  | turn _ hp hp' => exact h.continues hp hp'
  | alloc hp htodo he hp' =>
    exact h.pageSuppAlloc hp hp' (h.made_of_allocates hp htodo he)
      ((keepsMap_run hp htodo hguard).1 _ he) _
  | obtain hp htodo hb hobtain hp' =>
    obtain ⟨e, k, he, -, ho⟩ := frameObtain_eq_ok h.unswapped hobtain
    exact (h.outcome he ho).continues (ho.links_eq.2.2.1 ▸ hp) hp'
  | stackFails hp htodo hobtain hdelete =>
    obtain ⟨e, k, he, -, ho⟩ := frameObtain_eq_ok h.unswapped hobtain
    exact absurd ho (not_failed he ((keepsMap_run hp htodo hguard).2 _ rfl))
  | destroy hp htodo hlist hdelete => exact h.destroyed hp hlist hdelete
  | gone hp htodo hlist =>
    refine ⟨hlinked, ?_⟩
    intro t' q hq x hx
    by_cases ht : t' = t
    · subst ht
      simp [pagedirDestroy] at hq
    · exact h.listed t' q ((update_of_ne ht ..).symm.trans hq) x hx
  | store hp hm => exact ⟨hlinked, h.listed⟩

theorem of_reachable (h : (system c).ReachableVia (fun s label => s.keepsMap label = true) s) :
    Tabled s := by
  apply h.invariant
  · rintro s ⟨mem, swap, rfl⟩
    exact ⟨Linked.boot mem swap, fun t p hp => nomatch hp⟩
  · intro s label s' _ hs hguard hstep
    exact hs.move hguard (.of_exec hstep)

theorem elems_nodup (h : Tabled s) : s.ptHash.elems.Nodup := h.keyed.nodup.of_map

section

variable (h : Tabled s) (hp : s.procs t = some p)
include h hp

theorem speList_perm : p.speList ~ s.ptHash.elems.filter fun x => x.made.tid = t := by
  rw [perm_ext_iff_of_nodup (h.list_nodup t p hp) (h.elems_nodup.filter _)]
  intro x
  rw [mem_filter, decide_eq_true_eq]
  constructor
  · intro hx
    exact ⟨(h.listed t p hp x hx).1, (h.made t p hp x hx).tid⟩
  · rintro ⟨hx, rfl⟩
    obtain ⟨q, hq, hxq⟩ := h.hash_listed x hx
    cases hp.symm.trans hq
    exact hxq

theorem exec_destroy
    (htodo : p.todo = .destroy :: rest) (hlist : p.speList = x :: xs) (ch : Choice) :
    s.exec c (t, .run ch) = .ok ({ s with
      ptHash := (s.ptHash.delete x ch.buckets).1
      heap := update s.heap x.block none }.setProc t
        { p with speList := xs, todo := leave }) := by
  obtain ⟨-, hlive⟩ := h.listed t p hp x (hlist ▸ mem_cons_self)
  obtain ⟨e, he⟩ := Option.isSome_iff_exists.mp hlive
  simp only [exec, hp, execProc, htodo, runInstr, hlist, destroyRound, he, reduceCtorEq, ↓reduceIte,
    pageSuppDelete, (h.unswapped _ e he).2]

-- The loop of page_supp_destroy, by induction on what is left of the list.
theorem destroy_run (htodo : p.todo = leave) (ch : Choice) :
    ∃ s', (system c).Trace s (List.replicate p.speList.length (t, .run ch)) s' ∧ Tabled s' ∧
      s'.procs t = some { p with speList := [] } ∧ s.ptHash.elems ~ p.speList ++ s'.ptHash.elems ∧
      ∀ b, s'.heap b = if p.speList.any (·.block == b) then none else s.heap b := by
  generalize hlist : p.speList = list
  induction list generalizing s p with
  | nil =>
    refine ⟨s, .nil, h, ?_, List.Perm.refl _, fun b => rfl⟩
    rw [hp, ← hlist]
  | cons x xs ih =>
    have hexec := h.exec_destroy (c := c) hp htodo hlist ch
    have hguard : s.keepsMap (t, .run ch) = true := by
      simp [keepsMap, hp, htodo, leave, allocates]
    have hnext := h.move hguard (.of_exec hexec)
    have hx : x ∈ p.speList := hlist ▸ mem_cons_self
    have hperm := (h.keyed.delete_of_some (h.find_self hp hx) ch.buckets).2.2
    obtain ⟨s', htrace, htabled, hprocs, helems, hheap⟩ :=
      ih (p := { p with speList := xs, todo := leave }) hnext (update_self ..) rfl rfl
    refine ⟨s', .cons hexec htrace, htabled, ?_, hperm.trans (helems.cons x), ?_⟩
    · rw [hprocs, htodo]
    · intro b
      rw [hheap, any_cons]
      by_cases hb : x.block = b
      · subst hb
        simp [setProc]
      · simp [setProc, hb, update_of_ne (Ne.symm hb)]

theorem destroy_run_elems (htabled : Tabled s')
    (hprocs : s'.procs t = some { p with speList := [] })
    (hperm : s.ptHash.elems ~ p.speList ++ s'.ptHash.elems) :
    s'.ptHash.elems ~ s.ptHash.elems.filter fun x => x.made.tid ≠ t := by
  have hmine : (p.speList.filter fun x => x.made.tid ≠ t) = [] := by
    rw [filter_eq_nil_iff]
    intro x hx hne
    exact absurd (h.made t p hp x hx).tid (by simpa using hne)
  have hothers : (s'.ptHash.elems.filter fun x => x.made.tid ≠ t) = s'.ptHash.elems := by
    rw [filter_eq_self]
    intro x hx
    rw [decide_eq_true_eq]
    rintro rfl
    obtain ⟨q, hq, hxq⟩ := htabled.hash_listed x hx
    cases hprocs.symm.trans hq
    cases hxq
  have hfilter := hperm.filter fun x => x.made.tid ≠ t
  rw [filter_append, hmine, hothers, nil_append] at hfilter
  exact hfilter.symm

end

end Tabled

theorem exists_alloc (h : Linked s) (hexec : s.exec c (t, act) = .ok s')
    (hblock : s'.nextBlock ≠ s.nextBlock) :
    ∃ p p' e buckets, s.procs t = some p ∧ s' = s.pageSuppAlloc t p' e buckets := by
  cases Move.of_exec hexec with
  | create | turn | gone | store => exact absurd rfl hblock
  | alloc hp htodo he hp' => exact ⟨_, _, _, _, hp, rfl⟩
  | obtain hp htodo hb hobtain hp' =>
    obtain ⟨e, k, he, -, ho⟩ := frameObtain_eq_ok h.unswapped hobtain
    exact absurd ho.links_eq.2.1 hblock
  | stackFails hp htodo hobtain hdelete =>
    obtain ⟨e, k, he, -, ho⟩ := frameObtain_eq_ok h.unswapped hobtain
    obtain ⟨-, rfl⟩ := pageSuppDelete_eq_ok (h.outcome he ho).unswapped hdelete
    exact absurd ho.links_eq.2.1 hblock
  | destroy hp htodo hlist hdelete =>
    obtain ⟨-, rfl⟩ := pageSuppDelete_eq_ok (h.delete _ _).1.unswapped hdelete
    exact absurd rfl hblock

-- While page_supp_alloc is called for new pages only and setup_stack gets its frame: each
-- key is in the table once, a list has what the table has for its process, page_find
-- returns the element with the key, and this is a live entry; a new entry is the one that is
-- then found; and page_supp_destroy removes and frees the entries of its process alone.
theorem supp_table_is_map
    (h : (system c).ReachableVia (fun s label => s.keepsMap label = true) s) :
    (s.ptHash.elems.map SpElem.key).Nodup ∧
    (∀ t p, s.procs t = some p → p.speList ~ s.ptHash.elems.filter fun x => x.made.tid = t) ∧
    (∀ user page x, s.pageFind user page = some x ↔
      x ∈ s.ptHash.elems ∧ x.made.upage = page ∧ x.made.tid = user.tid) ∧
    (∀ x ∈ s.ptHash.elems, ∃ e, s.heap x.block = some e ∧ e = { x.made with idx := e.idx }) ∧
    (∀ label s', s.keepsMap label = true → s.exec c label = .ok s' → s'.nextBlock ≠ s.nextBlock →
      ∃ e, s'.heap s.nextBlock = some e ∧
        s'.pageFind ⟨e.tid, e.pagedir⟩ e.upage = some ⟨s.nextBlock, e⟩) ∧
    ∀ t p ch, s.procs t = some p → p.todo = leave → ∃ s',
      (system c).Trace s (List.replicate p.speList.length (t, .run ch)) s' ∧
      (s'.ptHash.elems ~ s.ptHash.elems.filter fun x => x.made.tid ≠ t) ∧
      ∀ b, s'.heap b = if p.speList.any (·.block == b) then none else s.heap b := by
  have htabled := Tabled.of_reachable h
  refine ⟨htabled.keyed.nodup, fun t p hp => htabled.speList_perm hp,
    htabled.pageFind_eq_some_iff, ?_, ?_, ?_⟩
  · intro x hx
    obtain ⟨p, hp, hxp⟩ := htabled.hash_listed x hx
    obtain ⟨e, he⟩ := Option.isSome_iff_exists.mp (htabled.listed _ p hp x hxp).2
    exact ⟨e, he, htabled.heap_made hp hxp he⟩
  · rintro ⟨t, act⟩ s' hguard hexec hblock
    obtain ⟨p, p', e, buckets, -, rfl⟩ := exists_alloc htabled.toLinked hexec hblock
    have hnext := htabled.move hguard (.of_exec hexec)
    refine ⟨e, update_self .., (hnext.pageFind_eq_some_iff _ _ _).mpr ⟨?_, rfl, rfl⟩⟩
    refine (hnext.listed t _ (update_self ..) ⟨s.nextBlock, e⟩ ?_).1
    exact mem_append_right _ mem_cons_self
  · intro t p ch hp htodo
    obtain ⟨s', htrace, htabled', hprocs, helems, hheap⟩ := htabled.destroy_run hp htodo ch
    exact ⟨s', htrace, htabled.destroy_run_elems hp htabled' hprocs helems, hheap⟩

def growsAndLeaves : List (Int × Act) :=
  starts 1 0x1000 0 ++ starts 2 0x2000 1 ++ grows 1 0xbfffe010 0xbfffe000 ++
    [(1, .run (.page 2 0)), (1, .exit)]

theorem supp_table_is_map_leaving : ∃ s p s',
    (system .small).ReachableVia (fun s label => s.keepsMap label = true) s ∧
    s.procs 1 = some p ∧ (p.speList ~ s.ptHash.elems.filter fun x => x.made.tid = 1) ∧
    (system .small).Trace s (List.replicate 2 (1, .run (.page 0 0))) s' ∧
    s'.ptHash.elems ~ s.ptHash.elems.filter fun x => x.made.tid ≠ 1 := by
  obtain ⟨s, hs, hp⟩ := reachableVia_of_leadsTo .small keepsMap growsAndLeaves
    (fun s => (s.procs 1).any fun p => p.todo == leave && p.speList.length == 2)
    (by decide +kernel)
  cases hproc : s.procs 1 with
  | none => simp [hproc] at hp
  | some p =>
    rw [hproc, Option.any_some, Bool.and_eq_true, beq_iff_eq, beq_iff_eq] at hp
    obtain ⟨-, hlist, -, -, -, hdestroy⟩ := supp_table_is_map hs
    obtain ⟨s', htrace, helems, -⟩ := hdestroy 1 p (.page 0 0) hproc hp.1
    rw [hp.2] at htrace
    exact ⟨s, p, s', hs, hproc, hlist 1 p hproc, htrace, helems⟩

def faultsAboveEsp : List (Int × Act) :=
  starts 1 0x1000 0 ++ grows 1 0xbfffe010 0xbfffc000 ++ [(1, .run (.page 1 0))] ++
    grows 1 0xbfffd010 0xbfffc000

theorem supp_table_not_map : ∃ s p x, (system .small).Reachable s ∧ s.procs 1 = some p ∧
    x ∈ p.speList ∧ x ∉ s.ptHash.elems ∧
    s.pageFind ⟨1, p.pagedir⟩ x.made.upage ≠ some x := by
  obtain ⟨s, hs, hp⟩ := reachableVia_of_leadsTo .small (fun _ _ => true) faultsAboveEsp
    (fun s => (s.procs 1).any fun p => p.speList.any fun x =>
      !s.ptHash.elems.contains x && s.pageFind ⟨1, p.pagedir⟩ x.made.upage != some x)
    (by decide +kernel)
  cases hproc : s.procs 1 with
  | none => simp [hproc] at hp
  | some p =>
    rw [hproc, Option.any_some, any_eq_true] at hp
    obtain ⟨x, hx, hnot⟩ := hp
    rw [Bool.and_eq_true] at hnot
    exact ⟨s, p, x, hs.reachable, hproc, hx, by simpa using hnot.1, by simpa using hnot.2⟩

end Paging

end Pintos.Vm
