import Pintos.Vm.Paging.Steps

namespace Pintos.Vm

open Function Threads LibKernel Lib Userprog List

theorem update_eq_some_iff {α β : Type} [DecidableEq α] {f : α → Option β} {a a' : α} {b b' : β} :
    update f a (some b) a' = some b' ↔ a' = a ∧ b = b' ∨ a' ≠ a ∧ f a' = some b' := by
  by_cases h : a' = a
  · subst h
    simp
  · simp [h]

namespace Paging

variable {c : Config} {s s' : Paging} {t : Int} {p p' : Proc} {e : SpEntry} {x : SpElem} {b : Nat}

structure Linked (s : Paging) : Prop where
  keyed : s.ptHash.KeyedBy SpElem.key
  hash_listed : ∀ x ∈ s.ptHash.elems, ∃ p, s.procs x.made.tid = some p ∧ x ∈ p.speList
  made : ∀ t p, s.procs t = some p → ∀ x ∈ p.speList, x.made.Made t p.pagedir
  allocs : ∀ t p, s.procs t = some p → ∀ e, Instr.alloc e ∈ p.todo → e.Made t p.pagedir
  block_lt : ∀ t p, s.procs t = some p → ∀ x ∈ p.speList, x.block < s.nextBlock
  block_inj : ∀ t p t' p' x x', s.procs t = some p → s.procs t' = some p' → x ∈ p.speList →
    x' ∈ p'.speList → x.block = x'.block → x = x'
  list_nodup : ∀ t p, s.procs t = some p → p.speList.Nodup
  heap_listed : ∀ b e, s.heap b = some e → ∃ t p x, s.procs t = some p ∧ x ∈ p.speList ∧
    x.block = b ∧ e = { x.made with idx := e.idx }
  tid_lt : ∀ t p, s.procs t = some p → t < s.nextTid
  pagedir_mem : ∀ t p, s.procs t = some p → p.pagedir ∈ s.pagedirs
  pagedir_inj : ∀ t p t' p', s.procs t = some p → s.procs t' = some p' →
    p.pagedir = p'.pagedir → t = t'
  pagedirs_nodup : s.pagedirs.Nodup
  dirs_owned : ∀ pd, s.dirs pd ≠ [] → ∃ t p, s.procs t = some p ∧ p.pagedir = pd

namespace Linked

theorem unswapped (h : Linked s) : s.Unswapped := by
  intro b e he
  obtain ⟨t, p, x, hp, hx, -, hmade⟩ := h.heap_listed b e he
  have hx' := h.made t p hp x hx
  rw [hmade]
  exact ⟨hx'.sector, hx'.location⟩

theorem heap_made (h : Linked s) (hp : s.procs t = some p) (hx : x ∈ p.speList)
    (he : s.heap x.block = some e) : e = { x.made with idx := e.idx } := by
  obtain ⟨t', p', x', hp', hx', hblock, hmade⟩ := h.heap_listed _ e he
  rw [h.block_inj t p t' p' x x' hp hp' hx hx' hblock.symm]
  exact hmade

theorem heap_owner (h : Linked s) (he : s.heap b = some e) :
    ∃ p x, s.procs e.tid = some p ∧ e.pagedir = p.pagedir ∧ x ∈ p.speList ∧ x.block = b ∧
      e = { x.made with idx := e.idx } := by
  obtain ⟨t, p, x, hp, hx, hblock, hmade⟩ := h.heap_listed b e he
  have hx' := h.made t p hp x hx
  have htid : e.tid = t := by
    rw [hmade]
    exact hx'.tid
  have hpd : e.pagedir = p.pagedir := by
    rw [hmade]
    exact hx'.pagedir
  exact ⟨p, x, htid ▸ hp, hpd, hx, hblock, hmade⟩

theorem boot (mem : KPage → PageBytes) (swap : Nat → Fin 512 → BitVec 8) :
    Linked (boot mem swap) where
  keyed := by
    apply Hash.KeyedBy.init
    · intro a b
      have hequal := SpTable.pageSuppInit.equal_iff a.made b.made
      rw [SpElem.key, SpElem.key, Prod.mk.injEq]
      exact hequal
    · intro a b hab
      have hpage : a.made.upage = b.made.upage := congrArg Prod.fst hab
      rw [SpElem.hash, SpElem.hash, pageHash, pageHash, hpage]
  hash_listed x hx := by simp [Paging.boot, Hash.init, Hash.elems] at hx
  made _ _ hp := nomatch hp
  allocs _ _ hp := nomatch hp
  block_lt _ _ hp := nomatch hp
  block_inj _ _ _ _ _ _ hp := nomatch hp
  list_nodup _ _ hp := nomatch hp
  heap_listed _ _ he := nomatch he
  tid_lt _ _ hp := nomatch hp
  pagedir_mem _ _ hp := nomatch hp
  pagedir_inj _ _ _ _ hp := nomatch hp
  pagedirs_nodup := nodup_nil
  dirs_owned _ hpd := absurd rfl hpd

section

variable (h : Linked s)
include h

-- Steps that touch no list: an entry may get another index or be freed, and a process may
-- get more mappings.
theorem reframe (hhash : s'.ptHash = s.ptHash) (hnext : s'.nextBlock = s.nextBlock)
    (hprocs : s'.procs = s.procs) (htid : s'.nextTid = s.nextTid) (hpds : s'.pagedirs = s.pagedirs)
    (hheap : ∀ b e', s'.heap b = some e' → ∃ e, s.heap b = some e ∧ e' = { e with idx := e'.idx })
    (hdirs : ∀ pd, s'.dirs pd ≠ [] → ∃ t p, s.procs t = some p ∧ p.pagedir = pd) : Linked s' := by
  cases s'
  dsimp only at hhash hnext hprocs htid hpds hheap hdirs
  subst hhash hnext hprocs htid hpds
  refine { h with heap_listed := fun b e' he' => ?_, dirs_owned := hdirs }
  obtain ⟨e, he, hidx⟩ := hheap b e' he'
  obtain ⟨t, p, x, hp, hx, hblock, hmade⟩ := h.heap_listed b e he
  refine ⟨t, p, x, hp, hx, hblock, ?_⟩
  rw [hidx, hmade]

-- Each process of the new state stands for one of the old with no shorter list, and what the
-- hash table or the heap still holds is still listed.
theorem shrunk (hhash : s'.ptHash = s.ptHash) (hnext : s'.nextBlock = s.nextBlock)
    (htid : s'.nextTid = s.nextTid) (hheap : s'.heap = s.heap)
    (hold : ∀ t q', s'.procs t = some q' → ∃ q, s.procs t = some q ∧ q'.pagedir = q.pagedir ∧
      q'.speList.Sublist q.speList ∧
      ∀ e, Instr.alloc e ∈ q'.todo → Instr.alloc e ∈ q.todo ∨ e.Made t q.pagedir)
    (hnew : ∀ t q x, s.procs t = some q → x ∈ q.speList →
      x ∈ s.ptHash.elems ∨ s.heap x.block ≠ none → ∃ q', s'.procs t = some q' ∧ x ∈ q'.speList)
    (hpds : ∀ t q, s'.procs t = some q → q.pagedir ∈ s.pagedirs → q.pagedir ∈ s'.pagedirs)
    (hnodup : s'.pagedirs.Nodup)
    (hdirs : ∀ pd, s'.dirs pd ≠ [] → ∃ t p, s'.procs t = some p ∧ p.pagedir = pd) :
    Linked s' := by
  constructor
  · exact hhash ▸ h.keyed
  · intro x hx
    rw [hhash] at hx
    obtain ⟨q, hq, hxq⟩ := h.hash_listed x hx
    exact hnew _ q x hq hxq (.inl hx)
  · intro t q' hq' x hx
    obtain ⟨q, hq, hqpd, hqsub, -⟩ := hold t q' hq'
    rw [hqpd]
    exact h.made t q hq x (hqsub.subset hx)
  · intro t q' hq' e he
    obtain ⟨q, hq, hqpd, -, hqallocs⟩ := hold t q' hq'
    rw [hqpd]
    exact (hqallocs e he).elim (h.allocs t q hq e) id
  · intro t q' hq' x hx
    obtain ⟨q, hq, -, hqsub, -⟩ := hold t q' hq'
    exact hnext ▸ h.block_lt t q hq x (hqsub.subset hx)
  · intro t1 q1' t2 q2' x1 x2 hq1' hq2' hx1 hx2 hblock
    obtain ⟨q1, hq1, -, hsub1, -⟩ := hold t1 q1' hq1'
    obtain ⟨q2, hq2, -, hsub2, -⟩ := hold t2 q2' hq2'
    exact h.block_inj t1 q1 t2 q2 x1 x2 hq1 hq2 (hsub1.subset hx1) (hsub2.subset hx2) hblock
  · intro t q' hq'
    obtain ⟨q, hq, -, hqsub, -⟩ := hold t q' hq'
    exact (h.list_nodup t q hq).sublist hqsub
  · intro b e he
    rw [hheap] at he
    obtain ⟨t, q, x, hq, hx, rfl, hmade⟩ := h.heap_listed b e he
    obtain ⟨q', hq', hx'⟩ := hnew t q x hq hx (.inr (by simp [he]))
    exact ⟨t, q', x, hq', hx', rfl, hmade⟩
  · intro t q' hq'
    obtain ⟨q, hq, -⟩ := hold t q' hq'
    exact htid ▸ h.tid_lt t q hq
  · intro t q' hq'
    obtain ⟨q, hq, hqpd, -⟩ := hold t q' hq'
    exact hpds t q' hq' (hqpd ▸ h.pagedir_mem t q hq)
  · intro t1 q1' t2 q2' hq1' hq2' hsame
    obtain ⟨q1, hq1, hpd1, -⟩ := hold t1 q1' hq1'
    obtain ⟨q2, hq2, hpd2, -⟩ := hold t2 q2' hq2'
    rw [hpd1, hpd2] at hsame
    exact h.pagedir_inj t1 q1 t2 q2 hq1 hq2 hsame
  · exact hnodup
  · exact hdirs

theorem setProc (hp : s.procs t = some p) (hpd : p'.pagedir = p.pagedir)
    (hsub : p'.speList.Sublist p.speList)
    (hkept : ∀ x ∈ p.speList, x ∈ s.ptHash.elems ∨ s.heap x.block ≠ none → x ∈ p'.speList)
    (hallocs : ∀ e, Instr.alloc e ∈ p'.todo → Instr.alloc e ∈ p.todo ∨ e.Made t p.pagedir) :
    Linked (s.setProc t p') := by
  refine h.shrunk rfl rfl rfl rfl ?_ ?_ (fun _ _ _ => id) h.pagedirs_nodup ?_
  · intro t' q' hq'
    rcases update_eq_some_iff.mp hq' with ⟨rfl, rfl⟩ | ⟨-, hq⟩
    · exact ⟨p, hp, hpd, hsub, hallocs⟩
    · exact ⟨q', hq, rfl, List.Sublist.refl _, fun e he => .inl he⟩
  · intro t' q x hq hx hlive
    by_cases ht : t' = t
    · subst ht
      cases hp.symm.trans hq
      exact ⟨p', update_self .., hkept x hx hlive⟩
    · exact ⟨q, (update_of_ne ht ..).trans hq, hx⟩
  · intro pd hdir
    obtain ⟨t', q, hq, hqpd⟩ := h.dirs_owned pd hdir
    by_cases ht : t' = t
    · subst ht
      cases hp.symm.trans hq
      exact ⟨t', p', update_self .., hpd.trans hqpd⟩
    · exact ⟨t', q, (update_of_ne ht ..).trans hq, hqpd⟩

theorem continues (hp : s.procs t = some p) (hp' : Continues t p p') : Linked (s.setProc t p') := by
  apply h.setProc hp hp'.pagedir
  · rw [hp'.speList]
  · intro x hx _
    rw [hp'.speList]
    exact hx
  · exact hp'.allocs

theorem outcome {k : Nat} {ch : Choice} {r : Obtained}
    (he : s.heap b = some e) (ho : Outcome c s b e k ch s' r) : Linked s' := by
  obtain ⟨hhash, hnext, hprocs, htid, hpds⟩ := ho.links_eq
  apply h.reframe hhash hnext hprocs htid hpds
  · intro b' e' he'
    rw [ho.heap_eq, update_eq_some_iff] at he'
    rcases he' with ⟨rfl, rfl⟩ | ⟨-, he'⟩
    · exact ⟨e, he, rfl⟩
    · exact ⟨e', he', rfl⟩
  · intro pd hdir
    by_cases hpd : pd = e.pagedir
    · obtain ⟨p, x, hp, hpd', -⟩ := h.heap_owner he
      exact ⟨e.tid, p, hp, hpd'.symm.trans hpd.symm⟩
    · rw [ho.dirs_eq hpd] at hdir
      exact h.dirs_owned pd hdir

theorem free (b : Nat) : Linked { s with heap := update s.heap b none } := by
  refine h.reframe rfl rfl rfl rfl rfl ?_ h.dirs_owned
  intro b' e' he'
  by_cases hb : b' = b
  · subst hb
    simp at he'
  · simp only [update_of_ne hb] at he'
    exact ⟨e', he', rfl⟩

theorem writeByte (kpage : KPage) (addr : Addr) (byte : BitVec 8) :
    Linked (s.writeByte t kpage addr byte) :=
  h.reframe rfl rfl rfl rfl rfl (fun _ e he => ⟨e, he, rfl⟩) h.dirs_owned

theorem delete (x : SpElem) (buckets : Bool) :
    Linked { s with ptHash := (s.ptHash.delete x buckets).1 } ∧
      x ∉ (s.ptHash.delete x buckets).1.elems := by
  have hdelete : (s.ptHash.delete x buckets).1.KeyedBy SpElem.key ∧
      (∀ y ∈ (s.ptHash.delete x buckets).1.elems, y ∈ s.ptHash.elems) ∧
      x ∉ (s.ptHash.delete x buckets).1.elems := by
    cases hfind : s.ptHash.find x with
    | none =>
      have hnot := (h.keyed.find_eq_none_iff x).mp hfind
      simp only [Hash.delete, hfind]
      exact ⟨h.keyed, fun y hy => hy, fun hx => hnot x hx rfl⟩
    | some y =>
      obtain ⟨-, hkeyed, hperm⟩ := h.keyed.delete_of_some hfind buckets
      have hkey := ((h.keyed.find_eq_some_iff x y).mp hfind).2
      refine ⟨hkeyed, fun z hz => hperm.mem_iff.mpr (mem_cons_of_mem _ hz), ?_⟩
      intro hx
      have hnodup := (hperm.map SpElem.key).nodup_iff.mp h.keyed.nodup
      rw [map_cons, nodup_cons] at hnodup
      exact hnodup.1 (mem_map.mpr ⟨x, hx, hkey.symm⟩)
  obtain ⟨hkeyed, hsub, hnot⟩ := hdelete
  exact ⟨{ h with keyed := hkeyed, hash_listed := fun y hy => h.hash_listed y (hsub y hy) }, hnot⟩

theorem destroyed (hp : s.procs t = some p) {xs : List SpElem}
    (hlist : p.speList = x :: xs) {buckets : Bool}
    (hdelete : { s with ptHash := (s.ptHash.delete x buckets).1 }.pageSuppDelete c x.block =
      .ok s') : Linked (s'.setProc t { p with speList := xs, todo := leave }) := by
  obtain ⟨hlinked, hnot⟩ := h.delete x buckets
  obtain ⟨-, rfl⟩ := pageSuppDelete_eq_ok hlinked.unswapped hdelete
  refine (hlinked.free x.block).setProc hp rfl ?_ ?_ ?_
  · rw [hlist]
    exact sublist_cons_self x xs
  · intro y hy hlive
    rw [hlist] at hy
    rcases mem_cons.mp hy with rfl | hy
    · simp [hnot] at hlive
    · exact hy
  · simp [leave]

theorem gone (hp : s.procs t = some p) (hlist : p.speList = []) :
    Linked (s.pagedirDestroy t p.pagedir) := by
  have hold : ∀ t' q, (s.pagedirDestroy t p.pagedir).procs t' = some q →
      t' ≠ t ∧ s.procs t' = some q := by
    intro t' q hq
    by_cases ht : t' = t
    · subst ht
      simp [pagedirDestroy] at hq
    · exact ⟨ht, (update_of_ne ht ..).symm.trans hq⟩
  refine h.shrunk rfl rfl rfl rfl (fun t' q hq => ?_) ?_ ?_ (h.pagedirs_nodup.erase p.pagedir) ?_
  · exact ⟨q, (hold t' q hq).2, rfl, List.Sublist.refl _, fun e he => .inl he⟩
  · intro t' q x hq hx _
    have ht : t' ≠ t := by
      rintro rfl
      cases hp.symm.trans hq
      rw [hlist] at hx
      cases hx
    exact ⟨q, (update_of_ne ht ..).trans hq, hx⟩
  · intro t' q hq hmem
    obtain ⟨ht, hq⟩ := hold t' q hq
    exact (mem_erase_of_ne fun hpd => ht (h.pagedir_inj t' q t p hq hp hpd)).mpr hmem
  · intro pd hdir
    have hpd : pd ≠ p.pagedir := by
      rintro rfl
      simp [pagedirDestroy] at hdir
    simp only [pagedirDestroy, update_of_ne hpd] at hdir
    obtain ⟨t', q, hq, hqpd⟩ := h.dirs_owned pd hdir
    have ht : t' ≠ t := by
      rintro rfl
      cases hp.symm.trans hq
      exact hpd hqpd.symm
    exact ⟨t', q, (update_of_ne ht ..).trans hq, hqpd⟩

theorem create {pd : Addr} (hnew : s.nextTid ≤ t) (hpd : pd ∉ s.pagedirs) :
    Linked (s.create t pd) := by
  have hnone : ∀ q, s.procs t ≠ some q := by
    intro q hq
    have hlt := h.tid_lt t q hq
    omega
  have hkept : ∀ t' q, s.procs t' = some q → (s.create t pd).procs t' = some q := by
    intro t' q hq
    refine (update_of_ne ?_ ..).trans hq
    rintro rfl
    exact hnone q hq
  have hold : ∀ t' q, (s.create t pd).procs t' = some q →
      t' = t ∧ q = ⟨pd, true, [], []⟩ ∨ s.procs t' = some q := by
    intro t' q hq
    rcases update_eq_some_iff.mp hq with ⟨rfl, rfl⟩ | ⟨-, hq⟩
    · exact .inl ⟨rfl, rfl⟩
    · exact .inr hq
  have hlisted : ∀ t' q x, (s.create t pd).procs t' = some q → x ∈ q.speList →
      s.procs t' = some q := by
    intro t' q x hq hx
    rcases hold t' q hq with ⟨-, rfl⟩ | hq
    · cases hx
    · exact hq
  constructor
  · exact h.keyed
  · intro x hx
    obtain ⟨q, hq, hxq⟩ := h.hash_listed x hx
    exact ⟨q, hkept _ q hq, hxq⟩
  · exact fun t' q hq x hx => h.made t' q (hlisted t' q x hq hx) x hx
  · intro t' q hq e he
    rcases hold t' q hq with ⟨-, rfl⟩ | hq
    · cases he
    · exact h.allocs t' q hq e he
  · exact fun t' q hq x hx => h.block_lt t' q (hlisted t' q x hq hx) x hx
  · exact fun t1 q1 t2 q2 x1 x2 hq1 hq2 hx1 hx2 =>
      h.block_inj t1 q1 t2 q2 x1 x2 (hlisted t1 q1 x1 hq1 hx1) (hlisted t2 q2 x2 hq2 hx2) hx1 hx2
  · intro t' q hq
    rcases hold t' q hq with ⟨-, rfl⟩ | hq
    · exact nodup_nil
    · exact h.list_nodup t' q hq
  · intro b e he
    obtain ⟨t', q, x, hq, hx, hblock, hmade⟩ := h.heap_listed b e he
    exact ⟨t', q, x, hkept t' q hq, hx, hblock, hmade⟩
  · intro t' q hq
    show t' < t + 1
    rcases hold t' q hq with ⟨rfl, -⟩ | hq
    · omega
    · have hlt := h.tid_lt t' q hq
      omega
  · intro t' q hq
    rcases hold t' q hq with ⟨-, rfl⟩ | hq
    · exact mem_cons_self
    · exact mem_cons_of_mem _ (h.pagedir_mem t' q hq)
  · intro t1 q1 t2 q2 hq1 hq2 hsame
    rcases hold t1 q1 hq1 with ⟨rfl, rfl⟩ | hold1 <;>
      rcases hold t2 q2 hq2 with ⟨rfl, rfl⟩ | hold2
    · rfl
    · have hmem := h.pagedir_mem t2 q2 hold2
      rw [← hsame] at hmem
      exact absurd hmem hpd
    · have hmem := h.pagedir_mem t1 q1 hold1
      rw [hsame] at hmem
      exact absurd hmem hpd
    · exact h.pagedir_inj t1 q1 t2 q2 hold1 hold2 hsame
  · exact nodup_cons.mpr ⟨hpd, h.pagedirs_nodup⟩
  · intro pd' hdir
    obtain ⟨t', q, hq, hqpd⟩ := h.dirs_owned pd' hdir
    exact ⟨t', q, hkept t' q hq, hqpd⟩

theorem insert (x : SpElem) (buckets : Bool) : (s.ptHash.insert x buckets).1.KeyedBy SpElem.key ∧
      ∀ y, y ∈ (s.ptHash.insert x buckets).1.elems ↔
        y ∈ s.ptHash.elems ∨ y = x ∧ s.ptHash.find x = none := by
  cases hfind : s.ptHash.find x with
  | none =>
    obtain ⟨-, hkeyed, hperm⟩ := h.keyed.insert_of_none hfind buckets
    refine ⟨hkeyed, fun y => ?_⟩
    rw [hperm.mem_iff, mem_cons, or_comm]
    simp
  | some old =>
    obtain ⟨-, hkeyed, hperm⟩ := h.keyed.insert_of_some hfind buckets
    refine ⟨hkeyed, fun y => ?_⟩
    rw [hperm.mem_iff]
    simp

theorem pageSuppAlloc (hp : s.procs t = some p) (hp' : Continues t p p')
    (he : e.Made t p.pagedir) (buckets : Bool) :
    Linked (s.pageSuppAlloc t p' e buckets) := by
  have hold : ∀ t' q', (s.pageSuppAlloc t p' e buckets).procs t' = some q' → ∃ q,
      s.procs t' = some q ∧ q'.pagedir = q.pagedir ∧
      (q'.speList = q.speList ∨ t' = t ∧ q'.speList = q.speList ++ [⟨s.nextBlock, e⟩]) ∧
      ∀ a, Instr.alloc a ∈ q'.todo → Instr.alloc a ∈ q.todo ∨ a.Made t' q.pagedir := by
    intro t' q' hq'
    rcases update_eq_some_iff.mp hq' with ⟨rfl, rfl⟩ | ⟨-, hq⟩
    · exact ⟨p, hp, hp'.pagedir, .inr ⟨rfl, by rw [hp'.speList]⟩, hp'.allocs⟩
    · exact ⟨q', hq, rfl, .inl rfl, fun a ha => .inl ha⟩
  have hmem : ∀ t' q' x, (s.pageSuppAlloc t p' e buckets).procs t' = some q' →
      x ∈ q'.speList → (∃ q, s.procs t' = some q ∧ q'.pagedir = q.pagedir ∧ x ∈ q.speList) ∨
        t' = t ∧ q'.pagedir = p.pagedir ∧ x = ⟨s.nextBlock, e⟩ := by
    intro t' q' x hq' hx
    obtain ⟨q, hq, hpd, hlist, -⟩ := hold t' q' hq'
    rcases hlist with hlist | ⟨rfl, hlist⟩
    · exact .inl ⟨q, hq, hpd, hlist ▸ hx⟩
    · rw [hlist, mem_append, mem_singleton] at hx
      cases hp.symm.trans hq
      rcases hx with hx | rfl
      · exact .inl ⟨p, hp, hpd, hx⟩
      · exact .inr ⟨rfl, hpd, rfl⟩
  have hkept : ∀ t' q, s.procs t' = some q → ∃ q',
      (s.pageSuppAlloc t p' e buckets).procs t' = some q' ∧ q'.pagedir = q.pagedir ∧
        (∀ x ∈ q.speList, x ∈ q'.speList) ∧ (t' = t → ⟨s.nextBlock, e⟩ ∈ q'.speList) := by
    intro t' q hq
    by_cases ht : t' = t
    · subst ht
      cases hp.symm.trans hq
      refine ⟨_, update_self .., hp'.pagedir, ?_, ?_⟩
      · intro x hx
        rw [hp'.speList]
        exact mem_append_left _ hx
      · intro _
        exact mem_append_right _ mem_cons_self
    · exact ⟨q, (update_of_ne ht ..).trans hq, rfl, fun x hx => hx, fun h => absurd h ht⟩
  obtain ⟨hkeyed, helems⟩ := h.insert ⟨s.nextBlock, e⟩ buckets
  constructor
  · exact hkeyed
  · intro x hx
    rcases (helems x).mp hx with hx | ⟨rfl, -⟩
    · obtain ⟨q, hq, hxq⟩ := h.hash_listed x hx
      obtain ⟨q', hq', -, hsub, -⟩ := hkept _ q hq
      exact ⟨q', hq', hsub x hxq⟩
    · obtain ⟨q', hq', -, -, hnew⟩ := hkept t p hp
      exact ⟨q', he.tid ▸ hq', hnew rfl⟩
  · intro t' q' hq' x hx
    rcases hmem t' q' x hq' hx with ⟨q, hq, hpd, hxq⟩ | ⟨rfl, hpd, rfl⟩
    · rw [hpd]
      exact h.made t' q hq x hxq
    · rw [hpd]
      exact he
  · intro t' q' hq' a ha
    obtain ⟨q, hq, hpd, -, hallocs⟩ := hold t' q' hq'
    rw [hpd]
    exact (hallocs a ha).elim (h.allocs t' q hq a) id
  · intro t' q' hq' x hx
    show x.block < s.nextBlock + 1
    rcases hmem t' q' x hq' hx with ⟨q, hq, -, hxq⟩ | ⟨-, -, rfl⟩
    · have hlt := h.block_lt t' q hq x hxq
      omega
    · exact Nat.lt_succ_self _
  · intro t1 q1' t2 q2' x1 x2 hq1' hq2' hx1 hx2 hblock
    -- the new block is above all others
    rcases hmem t1 q1' x1 hq1' hx1 with ⟨q1, hq1, -, hxq1⟩ | ⟨-, -, rfl⟩ <;>
      rcases hmem t2 q2' x2 hq2' hx2 with ⟨q2, hq2, -, hxq2⟩ | ⟨-, -, rfl⟩
    · exact h.block_inj t1 q1 t2 q2 x1 x2 hq1 hq2 hxq1 hxq2 hblock
    · exact absurd hblock (h.block_lt t1 q1 hq1 x1 hxq1).ne
    · exact absurd hblock (h.block_lt t2 q2 hq2 x2 hxq2).ne'
    · rfl
  · intro t' q' hq'
    obtain ⟨q, hq, -, hlist, -⟩ := hold t' q' hq'
    rcases hlist with hlist | ⟨-, hlist⟩
    · rw [hlist]
      exact h.list_nodup t' q hq
    · rw [hlist, nodup_append]
      refine ⟨h.list_nodup t' q hq, nodup_singleton _, ?_⟩
      intro x hx y hy hxy
      rw [mem_singleton.mp hy] at hxy
      exact absurd (congrArg SpElem.block hxy) (h.block_lt t' q hq x hx).ne
  · intro b a ha
    rcases update_eq_some_iff.mp ha with ⟨rfl, rfl⟩ | ⟨-, ha⟩
    · obtain ⟨q', hq', -, -, hnew⟩ := hkept t p hp
      exact ⟨t, q', _, hq', hnew rfl, rfl, rfl⟩
    · obtain ⟨t', q, x, hq, hx, hblock, hmade⟩ := h.heap_listed b a ha
      obtain ⟨q', hq', -, hsub, -⟩ := hkept t' q hq
      exact ⟨t', q', x, hq', hsub x hx, hblock, hmade⟩
  · intro t' q' hq'
    obtain ⟨q, hq, -⟩ := hold t' q' hq'
    exact h.tid_lt t' q hq
  · intro t' q' hq'
    obtain ⟨q, hq, hpd, -⟩ := hold t' q' hq'
    rw [hpd]
    exact h.pagedir_mem t' q hq
  · intro t1 q1' t2 q2' hq1' hq2' hsame
    obtain ⟨q1, hq1, hpd1, -⟩ := hold t1 q1' hq1'
    obtain ⟨q2, hq2, hpd2, -⟩ := hold t2 q2' hq2'
    rw [hpd1, hpd2] at hsame
    exact h.pagedir_inj t1 q1 t2 q2 hq1 hq2 hsame
  · exact h.pagedirs_nodup
  · intro pd hdir
    obtain ⟨t', q, hq, hqpd⟩ := h.dirs_owned pd hdir
    obtain ⟨q', hq', hpd, -⟩ := hkept t' q hq
    exact ⟨t', q', hq', hpd.trans hqpd⟩

theorem made_of_allocates (hp : s.procs t = some p) {instr : Instr} {rest : List Instr}
    (htodo : p.todo = instr :: rest) (he : s.allocates t p instr = some e) :
    e.Made t p.pagedir := by
  cases instr with
  | alloc a =>
    cases he
    exact h.allocs t p hp e (htodo ▸ mem_cons_self)
  | allocStack =>
    cases he
    exact SpEntry.made_alloc ..
  | validateOnStack esp | growStack addr esp write =>
    dsimp only [allocates] at he
    split at he
    · cases he
    · cases he
      exact SpEntry.made_alloc ..
  | obtainStack b | obtain addr user | destroy => cases he

theorem move {act : Act} (hmove : Move c s t act s') : Linked s' := by
  cases hmove with
  | create hnew hpd => exact h.create hnew hpd
  | turn _ hp hp' => exact h.continues hp hp'
  | alloc hp htodo he hp' => exact h.pageSuppAlloc hp hp' (h.made_of_allocates hp htodo he) _
  | obtain hp htodo hb hobtain hp' =>
    obtain ⟨e, k, he, -, ho⟩ := frameObtain_eq_ok h.unswapped hobtain
    exact (h.outcome he ho).continues (ho.links_eq.2.2.1 ▸ hp) hp'
  | stackFails hp htodo hobtain hdelete =>
    obtain ⟨e, k, he, -, ho⟩ := frameObtain_eq_ok h.unswapped hobtain
    have hlinked := h.outcome he ho
    obtain ⟨-, rfl⟩ := pageSuppDelete_eq_ok hlinked.unswapped hdelete
    exact (hlinked.free _).continues (ho.links_eq.2.2.1 ▸ hp) continues_leave
  | destroy hp htodo hlist hdelete => exact h.destroyed hp hlist hdelete
  | gone hp htodo hlist => exact h.gone hp hlist
  | store hp hm => exact h.writeByte _ _ _

end

theorem of_reachable {guard : Paging → Int × Act → Prop} (h : (system c).ReachableVia guard s) :
    Linked s := by
  apply h.invariant
  · rintro s ⟨mem, swap, rfl⟩
    exact boot mem swap
  · intro s label s' _ hs _ hstep
    exact hs.move (.of_exec hstep)

end Linked

end Paging

end Pintos.Vm
