import Pintos.Vm.Paging.Links

namespace Pintos.Vm

open Function Threads LibKernel Lib Userprog Option List

theorem fetchBytes_eq {files : FileRef → FileData} {t : Int} {pd : Addr} {e : SpEntry}
    (he : e.Made t pd) (old new : PageBytes) : fetchBytes files e old = fetchBytes files e new := by
  cases hlocation : e.location with
  | unmapped | swapped => simp only [fetchBytes, hlocation]
  | filesystem =>
    obtain ⟨hfp, hwhole⟩ := he.whole hlocation
    obtain ⟨file, hfile⟩ := isSome_iff_exists.mp hfp
    simp only [fetchBytes, hlocation, hfile]
    split
    · funext i
      have hi := i.isLt
      unfold fillPage
      rw [if_pos (show i.val < e.readBytes.toNat + e.zeroBytes.toNat by omega)]
      rw [if_pos (show i.val < e.readBytes.toNat + e.zeroBytes.toNat by omega)]
    · rfl

namespace Paging

variable {c : Config} {s s' : Paging} {t t' : Int} {p p' : Proc} {b k : Nat} {e : SpEntry}
  {ch : Choice} {act : Act} {pd page : Addr} {r : Obtained} {m : Mapping} {kpage : KPage}

def pagedirOf (s : Paging) (t : Int) : Option Addr := (s.procs t).map (·.pagedir)

theorem pagedirOf_update (hp : s.procs t = some p) (hpd : p'.pagedir = p.pagedir)
    (t' : Int) : (update s.procs t (some p') t').map (·.pagedir) = s.pagedirOf t' := by
  by_cases ht : t' = t
  · subst ht
    simp [pagedirOf, hp, hpd]
  · simp [pagedirOf, update_of_ne ht]

theorem mem_of_lookup (h : s.lookup pd page = some m) : (page, m) ∈ s.dirs pd := by
  obtain ⟨before, after, hdirs, -⟩ := lookup_eq_some_iff.mp h
  rw [hdirs]
  exact mem_append_right _ mem_cons_self

theorem lookup_eq_none_iff : s.lookup pd page = none ↔ ∀ m ∈ s.dirs pd, m.1 ≠ page := by
  rw [lookup, List.lookup_eq_none_iff]
  constructor
  · intro h m hm hpage
    have hne := h m hm
    simp [hpage] at hne
  · intro h m hm
    simpa using Ne.symm (h m hm)

structure Resident (s : Paging) : Prop where
  pages_nodup : ∀ pd, ((s.dirs pd).map Prod.fst).Nodup
  taken : ∀ pd, ∀ m ∈ s.dirs pd, s.taken m.2.kpage = true
  frame_inj : ∀ pd pd' m m', m ∈ s.dirs pd → m' ∈ s.dirs pd' → m.2.kpage = m'.2.kpage →
    pd = pd' ∧ m = m'
  value_eq : ∀ t pd, s.pagedirOf t = some pd → ∀ m ∈ s.dirs pd,
    s.value t m.1 = some (s.mem m.2.kpage)
  value_mapped : ∀ t page, (s.value t page).isSome →
    ∃ pd, s.pagedirOf t = some pd ∧ ∃ m ∈ s.dirs pd, m.1 = page

namespace Resident

theorem boot (mem : KPage → PageBytes) (swap : Nat → Fin 512 → BitVec 8) :
    Resident (boot mem swap) where
  pages_nodup _ := nodup_nil
  taken _ _ hm := nomatch hm
  frame_inj _ _ _ _ hm := nomatch hm
  value_eq _ _ hpd := nomatch hpd
  value_mapped _ _ hvalue := nomatch hvalue

section

variable (h : Resident s)
include h

theorem same (hdirs : s'.dirs = s.dirs) (hvalue : s'.value = s.value)
    (hpd : ∀ t, s'.pagedirOf t = s.pagedirOf t) (hframes : ∀ pd, ∀ m ∈ s.dirs pd,
      s'.taken m.2.kpage = true ∧ s'.mem m.2.kpage = s.mem m.2.kpage) : Resident s' where
  pages_nodup := hdirs ▸ h.pages_nodup
  taken pd m hm := by
    rw [hdirs] at hm
    exact (hframes pd m hm).1
  frame_inj := hdirs ▸ h.frame_inj
  value_eq t pd ht m hm := by
    rw [hdirs] at hm
    rw [hpd] at ht
    rw [hvalue, (hframes pd m hm).2]
    exact h.value_eq t pd ht m hm
  value_mapped t page hsome := by
    rw [hvalue] at hsome
    rw [hpd, hdirs]
    exact h.value_mapped t page hsome

theorem setProc (hp : s.procs t = some p) (hpd : p'.pagedir = p.pagedir) :
    Resident (s.setProc t p') :=
  h.same rfl rfl (pagedirOf_update hp hpd) fun pd m hm => ⟨h.taken pd m hm, rfl⟩

theorem table (ptHash : Hash SpElem) (heap : Nat → Option SpEntry) :
    Resident { s with ptHash := ptHash, heap := heap } :=
  h.same rfl rfl (fun _ => rfl) fun pd m hm => ⟨h.taken pd m hm, rfl⟩

theorem not_mapped {pool : Pool} (hcan : s.canReturn c pool (some kpage) = true)
    {m : Addr × Mapping} (hm : m ∈ s.dirs pd) : m.2.kpage ≠ kpage := by
  intro hkpage
  have htaken := h.taken pd m hm
  simp only [canReturn, Bool.and_eq_true, Bool.not_eq_true'] at hcan
  rw [hkpage, hcan.2] at htaken
  cases htaken

theorem installPage (hpd : s.pagedirOf e.tid = some e.pagedir)
    (howner : ∀ t, s.pagedirOf t = some e.pagedir → t = e.tid)
    (hmap : s.lookup e.pagedir e.upage = none) (hfresh : ∀ pd, ∀ m ∈ s.dirs pd, m.2.kpage ≠ kpage)
    (htaken : s.taken kpage = true) (hmem : s.mem kpage = initialBytes c e) :
    Resident (s.installPage c b e k kpage) := by
  have hmap := lookup_eq_none_iff.mp hmap
  have hnone : s.value e.tid e.upage = none := by
    rw [← not_isSome_iff_eq_none]
    intro hsome
    obtain ⟨pd, hpd', m, hm, hpage⟩ := h.value_mapped _ _ hsome
    cases hpd.symm.trans hpd'
    exact hmap m hm hpage
  -- a mapping is an old one or the new one
  have hcases : ∀ pd m, m ∈ (s.installPage c b e k kpage).dirs pd →
      m ∈ s.dirs pd ∨ pd = e.pagedir ∧ m = (e.upage, ⟨kpage, e.writable⟩) := by
    intro pd m hm
    by_cases hne : pd = e.pagedir
    · subst hne
      simp only [Paging.installPage, update_self] at hm
      rcases mem_cons.mp hm with rfl | hm
      · exact .inr ⟨rfl, rfl⟩
      · exact .inl hm
    · simp only [Paging.installPage, update_of_ne hne] at hm
      exact .inl hm
  have hold : ∀ pd m, m ∈ s.dirs pd → m ∈ (s.installPage c b e k kpage).dirs pd := by
    intro pd m hm
    by_cases hne : pd = e.pagedir
    · subst hne
      simp only [Paging.installPage, update_self]
      exact mem_cons_of_mem _ hm
    · simpa only [Paging.installPage, update_of_ne hne] using hm
  constructor
  · intro pd
    by_cases hne : pd = e.pagedir
    · subst hne
      simp only [Paging.installPage, update_self, map_cons, nodup_cons]
      refine ⟨?_, h.pages_nodup _⟩
      intro hmem
      obtain ⟨m, hm, hpage⟩ := mem_map.mp hmem
      exact hmap m hm hpage
    · simpa only [Paging.installPage, update_of_ne hne] using h.pages_nodup pd
  · intro pd m hm
    rcases hcases pd m hm with hm | ⟨-, rfl⟩
    · exact h.taken pd m hm
    · exact htaken
  · intro pd pd' m m' hm hm' hkpage
    rcases hcases pd m hm with hm | ⟨rfl, rfl⟩ <;> rcases hcases pd' m' hm' with hm' | ⟨rfl, rfl⟩
    · exact h.frame_inj pd pd' m m' hm hm' hkpage
    · exact absurd hkpage (hfresh pd m hm)
    · exact absurd hkpage.symm (hfresh pd' m' hm')
    · exact ⟨rfl, rfl⟩
  · intro t pd ht m hm
    rcases hcases pd m hm with hm | ⟨rfl, rfl⟩
    · have hvalue := h.value_eq t pd ht m hm
      have hother : t = e.tid → m.1 ≠ e.upage := by
        rintro rfl
        cases hpd.symm.trans ht
        exact hmap m hm
      by_cases htid : t = e.tid
      · subst htid
        simpa only [Paging.installPage, update_self, update_of_ne (hother rfl)] using hvalue
      · simpa only [Paging.installPage, update_of_ne htid] using hvalue
    · cases howner t ht
      simp only [Paging.installPage, update_self, hnone, getD_none, hmem]
  · intro t page hsome
    by_cases hnew : t = e.tid ∧ page = e.upage
    · obtain ⟨rfl, rfl⟩ := hnew
      refine ⟨e.pagedir, hpd, (e.upage, ⟨kpage, e.writable⟩), ?_, rfl⟩
      simp only [Paging.installPage, update_self]
      exact mem_cons_self
    · have hsame : (s.installPage c b e k kpage).value t page = s.value t page := by
        by_cases htid : t = e.tid
        · subst htid
          have hpage : page ≠ e.upage := fun hpage => hnew ⟨rfl, hpage⟩
          simp only [Paging.installPage, update_self, update_of_ne hpage]
        · simp only [Paging.installPage, update_of_ne htid]
      rw [hsame] at hsome
      obtain ⟨pd, hpd', m, hm, hpage⟩ := h.value_mapped t page hsome
      exact ⟨pd, hpd', m, hold pd m hm, hpage⟩

section

variable (hl : Linked s)
include hl

theorem outcome (he : s.heap b = some e) (ho : Outcome c s b e k ch s' r) : Resident s' := by
  cases ho with
  | installed hpage hcan hmap hfetch =>
    rename_i kpage
    obtain ⟨p, x, hp, hpd, hx, -, hmade⟩ := hl.heap_owner he
    have hx' := hl.made _ p hp x hx
    have hfilled : Resident ((s.claimed b e k).fillFrame c e k kpage) := by
      refine h.same rfl rfl (fun _ => rfl) fun pd m hm => ?_
      have hne := h.not_mapped hcan hm
      simp only [fillFrame, claimed, update_of_ne hne]
      exact ⟨h.taken pd m hm, trivial⟩
    apply hfilled.installPage
    · show (s.procs e.tid).map (·.pagedir) = _
      rw [hp, hpd]
      rfl
    · intro t ht
      obtain ⟨q, hq, hqpd⟩ := map_eq_some_iff.mp ht
      exact hl.pagedir_inj t q e.tid p hq hp (hqpd.trans hpd)
    · exact hmap
    · exact fun pd m hm => h.not_mapped hcan hm
    · exact update_self ..
    · -- the entry is the one made for the page, with another index
      have hbytes : ∀ old new, fetchBytes c.files e old = fetchBytes c.files e new := by
        rw [hmade]
        exact fun old new => fetchBytes_eq hx' old new
      simp only [fillFrame, update_self, initialBytes]
      exact hbytes _ _
  | rejected hpage hcan hmap =>
    refine h.same rfl rfl (fun _ => rfl) fun pd m hm => ?_
    have hne := h.not_mapped hcan hm
    simp only [giveBack, Paging.setEntry, pallocFreePage, fillFrame, claimed, update_of_ne hne]
    exact ⟨h.taken pd m hm, trivial⟩
  | refused hpage => exact h.same rfl rfl (fun _ => rfl) fun pd m hm => ⟨h.taken pd m hm, rfl⟩
  | exited hpage hcan hfetch =>
    refine h.same rfl rfl (fun _ => rfl) fun pd m hm => ?_
    simp only [claimed, update_of_ne (h.not_mapped hcan hm)]
    exact ⟨h.taken pd m hm, trivial⟩

theorem create (hnew : s.nextTid ≤ t) (hpd : pd ∉ s.pagedirs) : Resident (s.create t pd) := by
  have hempty : s.dirs pd = [] := by
    by_contra hne
    obtain ⟨t', q, hq, hqpd⟩ := hl.dirs_owned pd hne
    exact hpd (hqpd ▸ hl.pagedir_mem t' q hq)
  have hnone : s.pagedirOf t = none := by
    cases hproc : s.procs t with
    | none => simp [pagedirOf, hproc]
    | some q =>
      have hlt := hl.tid_lt t q hproc
      omega
  have hpds : ∀ t', t' ≠ t → (s.create t pd).pagedirOf t' = s.pagedirOf t' := by
    intro t' ht
    simp only [pagedirOf, Paging.create, update_of_ne ht]
  refine ⟨h.pages_nodup, h.taken, h.frame_inj, ?_, ?_⟩
  · intro t' pd' ht' m hm
    by_cases ht : t' = t
    · subst ht
      simp only [pagedirOf, Paging.create, update_self, map_some, some.injEq] at ht'
      subst ht'
      rw [show (s.create t' pd).dirs pd = [] from hempty] at hm
      cases hm
    · rw [hpds t' ht] at ht'
      exact h.value_eq t' pd' ht' m hm
  · intro t' page hsome
    obtain ⟨pd', hpd', hm⟩ := h.value_mapped t' page hsome
    have ht : t' ≠ t := by
      rintro rfl
      rw [hnone] at hpd'
      cases hpd'
    exact ⟨pd', (hpds t' ht).trans hpd', hm⟩

theorem gone (hp : s.procs t = some p) : Resident (s.pagedirDestroy t p.pagedir) := by
  have hpds : ∀ t' pd, (s.pagedirDestroy t p.pagedir).pagedirOf t' = some pd →
      t' ≠ t ∧ pd ≠ p.pagedir ∧ s.pagedirOf t' = some pd := by
    intro t' pd hpd
    have ht : t' ≠ t := by
      rintro rfl
      simp [pagedirOf, pagedirDestroy] at hpd
    simp only [pagedirOf, pagedirDestroy, update_of_ne ht] at hpd
    obtain ⟨q, hq, hqpd⟩ := map_eq_some_iff.mp hpd
    refine ⟨ht, ?_, hpd⟩
    rintro rfl
    exact ht (hl.pagedir_inj t' q t p hq hp hqpd)
  have hdirs : ∀ pd m, m ∈ (s.pagedirDestroy t p.pagedir).dirs pd →
      pd ≠ p.pagedir ∧ m ∈ s.dirs pd := by
    intro pd m hm
    have hne : pd ≠ p.pagedir := by
      rintro rfl
      simp [pagedirDestroy] at hm
    simp only [pagedirDestroy, update_of_ne hne] at hm
    exact ⟨hne, hm⟩
  -- a page that another directory has is not freed
  have hfreed : ∀ pd m, pd ≠ p.pagedir → m ∈ s.dirs pd →
      ((s.dirs p.pagedir).any fun m' => m'.2.kpage = m.2.kpage) = false := by
    intro pd m hne hm
    rw [List.any_eq_false]
    intro m' hm' hkpage
    exact hne (h.frame_inj _ _ m' m hm' hm (by simpa using hkpage)).1.symm
  constructor
  · intro pd
    by_cases hne : pd = p.pagedir
    · subst hne
      simp [pagedirDestroy]
    · simpa only [pagedirDestroy, update_of_ne hne] using h.pages_nodup pd
  · intro pd m hm
    obtain ⟨hne, hm⟩ := hdirs pd m hm
    simp only [pagedirDestroy, h.taken pd m hm, hfreed pd m hne hm, Bool.not_false, Bool.and_self]
  · intro pd pd' m m' hm hm'
    exact h.frame_inj pd pd' m m' (hdirs pd m hm).2 (hdirs pd' m' hm').2
  · intro t' pd ht' m hm
    obtain ⟨ht, -, ht'⟩ := hpds t' pd ht'
    obtain ⟨hne, hm⟩ := hdirs pd m hm
    simp only [pagedirDestroy, update_of_ne ht, hfreed pd m hne hm, Bool.false_eq_true, ↓reduceIte]
    exact h.value_eq t' pd ht' m hm
  · intro t' page hsome
    have ht : t' ≠ t := by
      rintro rfl
      simp [pagedirDestroy] at hsome
    simp only [pagedirDestroy, update_of_ne ht] at hsome
    obtain ⟨pd, hpd, m, hm, hpage⟩ := h.value_mapped t' page hsome
    have hne : pd ≠ p.pagedir := by
      rintro rfl
      obtain ⟨q, hq, hqpd⟩ := map_eq_some_iff.mp hpd
      exact ht (hl.pagedir_inj t' q t p hq hp hqpd)
    refine ⟨pd, ?_, m, ?_, hpage⟩
    · simpa only [pagedirOf, pagedirDestroy, update_of_ne ht] using hpd
    · simpa only [pagedirDestroy, update_of_ne hne] using hm

theorem writeByte {addr : Addr} (hp : s.procs t = some p)
    (hm : s.lookup p.pagedir (pgRoundDown addr) = some m) (byte : BitVec 8) :
    Resident (s.writeByte t m.kpage addr byte) := by
  have hm := mem_of_lookup hm
  have hpd : s.pagedirOf t = some p.pagedir := by simp [pagedirOf, hp]
  refine ⟨h.pages_nodup, h.taken, h.frame_inj, ?_, ?_⟩
  · intro t' pd ht' m' hm'
    have hvalue := h.value_eq t' pd ht' m' hm'
    by_cases hkpage : m'.2.kpage = m.kpage
    · -- the frame written is that of one page of one process
      obtain ⟨rfl, rfl⟩ := h.frame_inj _ _ m' _ hm' hm hkpage
      obtain ⟨q, hq, hqpd⟩ := map_eq_some_iff.mp ht'
      obtain rfl := hl.pagedir_inj t' q t p hq hp hqpd
      simp only [Paging.writeByte, update_self, hvalue, map_some]
    · have hother : t' = t → m'.1 ≠ pgRoundDown addr := by
        rintro rfl hpage
        cases hpd.symm.trans ht'
        have hsame := inj_on_of_nodup_map (h.pages_nodup _) hm' hm hpage
        exact hkpage (congrArg (fun m => m.2.kpage) hsame)
      by_cases ht : t' = t
      · subst ht
        simpa only [Paging.writeByte, update_self, update_of_ne (hother rfl),
          update_of_ne hkpage] using hvalue
      · simpa only [Paging.writeByte, update_of_ne ht, update_of_ne hkpage]
          using hvalue
  · intro t' page hsome
    apply h.value_mapped t' page
    by_cases ht : t' = t
    · subst ht
      by_cases hpage : page = pgRoundDown addr
      · subst hpage
        simpa only [Paging.writeByte, update_self, isSome_map] using hsome
      · simpa only [Paging.writeByte, update_self, update_of_ne hpage] using hsome
    · simpa only [Paging.writeByte, update_of_ne ht] using hsome

theorem move (hmove : Move c s t act s') : Resident s' := by
  cases hmove with
  | create hnew hpd => exact h.create hl hnew hpd
  | turn _ hp hp' => exact h.setProc hp hp'.pagedir
  | alloc hp htodo he hp' =>
    exact h.same rfl rfl (pagedirOf_update hp hp'.pagedir) fun pd m hm => ⟨h.taken pd m hm, rfl⟩
  | obtain hp htodo hb hobtain hp' =>
    obtain ⟨e, k, he, -, ho⟩ := frameObtain_eq_ok hl.unswapped hobtain
    exact (h.outcome hl he ho).setProc (ho.links_eq.2.2.1 ▸ hp) hp'.pagedir
  | stackFails hp htodo hobtain hdelete =>
    obtain ⟨e, k, he, -, ho⟩ := frameObtain_eq_ok hl.unswapped hobtain
    obtain ⟨-, rfl⟩ := pageSuppDelete_eq_ok (hl.outcome he ho).unswapped hdelete
    rw [← ho.links_eq.2.2.1] at hp
    exact ((h.outcome hl he ho).table _ _).setProc hp rfl
  | destroy hp htodo hlist hdelete =>
    obtain ⟨-, rfl⟩ := pageSuppDelete_eq_ok (hl.delete _ _).1.unswapped hdelete
    exact (h.table _ _).setProc hp rfl
  | gone hp htodo hlist => exact h.gone hl hp
  | store hp hm => exact h.writeByte hl hp hm _

end

end

theorem of_reachable {guard : Paging → Int × Act → Prop} (h : (system c).ReachableVia guard s) :
    Resident s := by
  apply h.invariant
  · rintro s ⟨mem, swap, rfl⟩
    exact boot mem swap
  · intro s label s' hr hs _ hstep
    exact hs.move (.of_reachable hr) (.of_exec hstep)

end Resident

theorem written_of_ne_store (hact : ∀ addr byte, act ≠ .store addr byte) (t' : Int)
    (page : Addr) (bytes : PageBytes) : written t act t' page bytes = bytes := by
  cases act with
  | store addr byte => exact absurd rfl (hact addr byte)
  | create | segment | stack | fault | exit | run => rfl

structure ValueFrom (c : Config) (s s' : Paging) (t : Int) (act : Act) (t' : Int) (page : Addr) :
    Prop where
  kept : ∀ bytes, s.value t' page = some bytes →
    s'.value t' page = some (written t act t' page bytes)
  fresh : s.value t' page = none → ∀ bytes, s'.value t' page = some bytes →
    ∃ b e, s.heap b = some e ∧ e.tid = t' ∧ e.upage = page ∧ bytes = initialBytes c e

theorem ValueFrom.of_eq
    (hact : ∀ addr byte, act ≠ .store addr byte) (h : s'.value t' page = s.value t' page) :
    ValueFrom c s s' t act t' page where
  kept bytes hbytes := by
    rw [h, hbytes, written_of_ne_store hact]
  fresh hnone bytes hbytes := by
    rw [h, hnone] at hbytes
    cases hbytes

theorem Outcome.value_cases (h : Outcome c s b e k ch s' r) (t' : Int) (page : Addr) :
    s'.value t' page = s.value t' page ∨ t' = e.tid ∧ page = e.upage ∧
      s'.value t' page = some ((s.value t' page).getD (initialBytes c e)) := by
  cases h with
  | rejected | refused | exited => exact .inl rfl
  | installed =>
    by_cases ht : t' = e.tid
    · subst ht
      by_cases hpage : page = e.upage
      · subst hpage
        refine .inr ⟨rfl, rfl, ?_⟩
        simp only [installPage, update_self]
        rfl
      · refine .inl ?_
        simp only [installPage, update_self, update_of_ne hpage]
        rfl
    · refine .inl ?_
      simp only [installPage, update_of_ne ht]
      rfl

theorem ValueFrom.of_outcome (he : s.heap b = some e) (ho : Outcome c s b e k ch s' r)
    {s'' : Paging} (hvalue : s''.value = s'.value) (t' : Int) (page : Addr) :
    ValueFrom c s s'' t (.run ch) t' page := by
  have hcases := ho.value_cases t' page
  rw [← hvalue] at hcases
  rcases hcases with hsame | ⟨rfl, rfl, hvalue⟩
  · exact .of_eq (by simp) hsame
  · constructor
    · intro bytes hbytes
      rw [hvalue, hbytes]
      rfl
    · intro hnone bytes hbytes
      rw [hvalue, hnone] at hbytes
      cases hbytes
      exact ⟨b, e, he, rfl, rfl, rfl⟩

theorem ValueFrom.of_move (h : Linked s) (hmove : Move c s t act s')
    (hlive : (s'.procs t').isSome) (page : Addr) : ValueFrom c s s' t act t' page := by
  cases hmove with
  | create | alloc => exact .of_eq (by simp) rfl
  | turn hact => exact .of_eq hact rfl
  | obtain hp htodo hb hobtain hp' =>
    obtain ⟨e, k, he, -, ho⟩ := frameObtain_eq_ok h.unswapped hobtain
    refine ValueFrom.of_outcome he ho ?_ t' page
    rfl
  | stackFails hp htodo hobtain hdelete =>
    obtain ⟨e, k, he, -, ho⟩ := frameObtain_eq_ok h.unswapped hobtain
    obtain ⟨-, rfl⟩ := pageSuppDelete_eq_ok (h.outcome he ho).unswapped hdelete
    refine ValueFrom.of_outcome he ho ?_ t' page
    rfl
  | destroy hp htodo hlist hdelete =>
    obtain ⟨-, rfl⟩ := pageSuppDelete_eq_ok (h.delete _ _).1.unswapped hdelete
    exact .of_eq (by simp) rfl
  | gone hp htodo hlist =>
    apply ValueFrom.of_eq (by simp)
    have ht : t' ≠ t := by
      rintro rfl
      simp [pagedirDestroy] at hlive
    simp only [pagedirDestroy, update_of_ne ht]
  | store hp hm =>
    rename_i p m addr byte
    by_cases hpage : t' = t ∧ page = pgRoundDown addr
    · obtain ⟨rfl, rfl⟩ := hpage
      constructor
      · intro bytes hbytes
        simp only [writeByte, update_self, hbytes, map_some, written, and_self, ↓reduceIte]
      · intro hnone bytes hbytes
        simp only [writeByte, update_self, hnone, map_none, reduceCtorEq] at hbytes
    · have hsame : (s.writeByte t m.kpage addr byte).value t' page = s.value t' page := by
        by_cases ht : t' = t
        · subst ht
          have hne : page ≠ pgRoundDown addr := fun hne => hpage ⟨rfl, hne⟩
          simp only [writeByte, update_self, update_of_ne hne]
        · simp only [writeByte, update_of_ne ht]
      constructor
      · intro bytes hbytes
        rw [hsame, hbytes, written, if_neg hpage]
      · intro hnone bytes hbytes
        rw [hsame, hnone] at hbytes
        cases hbytes

-- A free slot for every frame_obtain, so that nothing is evicted.
def keepsFrames (c : Config) (s : Paging) : Int × Act → Bool
  | (t, .run _) =>
    (s.procs t).all fun p =>
      (p.todo.head?.bind (s.obtains t p)).isNone || (s.freeSlot c).isSome
  | _ => true

theorem freeSlot_of_keepsFrames {instr : Instr} {rest : List Instr}
    (hp : s.procs t = some p) (htodo : p.todo = instr :: rest)
    (hb : s.obtains t p instr = some b) (h : s.keepsFrames c (t, .run ch) = true)
    (hclaims : s.Claims c k) : k < c.slots ∧ s.used k = false := by
  have hfree : (s.freeSlot c).isSome := by
    simpa [keepsFrames, hp, htodo, hb] using h
  rcases hclaims.2 with hfree' | ⟨hfull, -⟩
  · exact freeSlot_eq_some hfree'
  · rw [hfull] at hfree
    cases hfree

def Backed (c : Config) (s : Paging) : Prop :=
  ∀ pd, ∀ m ∈ s.dirs pd, ∃ k < c.slots, s.used k = true ∧ (s.ft k).pAddr = some m.2.kpage

theorem Backed.outcome (h : Backed c s)
    (hk : k < c.slots) (hfree : s.used k = false) (ho : Outcome c s b e k ch s' r) :
    Backed c s' := by
  -- the slots of the old mappings are not the one claimed
  have hold : ∀ pd, ∀ m ∈ s.dirs pd, ∃ k' < c.slots, k' ≠ k ∧ s.used k' = true ∧
      (s.ft k').pAddr = some m.2.kpage := by
    intro pd m hm
    obtain ⟨k', hk', hused, haddr⟩ := h pd m hm
    refine ⟨k', hk', ?_, hused, haddr⟩
    rintro rfl
    rw [hfree] at hused
    cases hused
  intro pd m hm
  cases ho with
  | installed hpage hcan hmap hfetch =>
    rename_i kpage
    by_cases hnew : pd = e.pagedir ∧ m = (e.upage, ⟨kpage, e.writable⟩)
    · obtain ⟨rfl, rfl⟩ := hnew
      refine ⟨k, hk, update_self .., ?_⟩
      simp only [installPage, fillFrame, update_self]
    · have hm : m ∈ s.dirs pd := by
        by_cases hpd : pd = e.pagedir
        · subst hpd
          simp only [installPage, update_self] at hm
          exact (mem_cons.mp hm).resolve_left fun hm => hnew ⟨rfl, hm⟩
        · simpa only [installPage, fillFrame, claimed, update_of_ne hpd] using hm
      obtain ⟨k', hk', hne, hused, haddr⟩ := hold pd m hm
      refine ⟨k', hk', ?_, ?_⟩
      · simpa only [installPage, fillFrame, claimed, update_of_ne hne] using hused
      · simpa only [installPage, fillFrame, claimed, update_of_ne hne] using haddr
  | rejected =>
    obtain ⟨k', hk', hne, hused, haddr⟩ := hold pd m hm
    refine ⟨k', hk', ?_, ?_⟩
    · simpa only [giveBack, setEntry, pallocFreePage, fillFrame, claimed,
        update_of_ne hne] using hused
    · simpa only [giveBack, setEntry, pallocFreePage, fillFrame, claimed,
        update_of_ne hne] using haddr
  | refused =>
    obtain ⟨k', hk', hne, hused, haddr⟩ := hold pd m hm
    refine ⟨k', hk', ?_, haddr⟩
    simpa only [giveBack, setEntry, claimed, update_of_ne hne] using hused
  | exited =>
    obtain ⟨k', hk', hne, hused, haddr⟩ := hold pd m hm
    refine ⟨k', hk', ?_, haddr⟩
    simpa only [claimed, update_of_ne hne] using hused

theorem Backed.move (h : Backed c s) (hl : Linked s)
    (hguard : s.keepsFrames c (t, act) = true) (hmove : Move c s t act s') : Backed c s' := by
  cases hmove with
  | create | turn | alloc | store => exact h
  | obtain hp htodo hb hobtain hp' =>
    obtain ⟨e, k, he, hclaims, ho⟩ := frameObtain_eq_ok hl.unswapped hobtain
    obtain ⟨hk, hfree⟩ := freeSlot_of_keepsFrames hp htodo hb hguard hclaims
    have hbacked := h.outcome hk hfree ho
    exact hbacked
  | stackFails hp htodo hobtain hdelete =>
    obtain ⟨e, k, he, hclaims, ho⟩ := frameObtain_eq_ok hl.unswapped hobtain
    obtain ⟨-, rfl⟩ := pageSuppDelete_eq_ok (hl.outcome he ho).unswapped hdelete
    obtain ⟨hk, hfree⟩ := freeSlot_of_keepsFrames hp htodo rfl hguard hclaims
    have hbacked := h.outcome hk hfree ho
    exact hbacked
  | destroy hp htodo hlist hdelete =>
    obtain ⟨-, rfl⟩ := pageSuppDelete_eq_ok (hl.delete _ _).1.unswapped hdelete
    exact h
  | gone hp htodo hlist =>
    rename_i ch p rest
    intro pd m hm
    have hne : pd ≠ p.pagedir := by
      rintro rfl
      simp [pagedirDestroy] at hm
    simp only [pagedirDestroy, update_of_ne hne] at hm
    exact h pd m hm

theorem Backed.of_reachable
    (h : (system c).ReachableVia (fun s label => s.keepsFrames c label = true) s) : Backed c s := by
  apply h.invariant
  · rintro s ⟨mem, swap, rfl⟩ pd m hm
    cases hm
  · intro s label s' hr hs hguard hstep
    exact hs.move (.of_reachable hr) hguard (.of_exec hstep)

-- While every frame_obtain finds a free slot: a page that is mapped has the contents that its
-- owner gave it, a page whose frame is not in the table is mapped nowhere, and a step changes
-- only the page that its process writes to or brings in.
theorem memory_survives
    (h : (system c).ReachableVia (fun s label => s.keepsFrames c label = true) s) :
    (∀ t p page m, s.procs t = some p → s.lookup p.pagedir page = some m →
      s.value t page = some (s.mem m.kpage)) ∧
    (∀ t p page m, s.procs t = some p → s.lookup p.pagedir page = some m →
      ∃ k < c.slots, s.used k = true ∧ (s.ft k).pAddr = some m.kpage) ∧
    ∀ t act s', s.exec c (t, act) = .ok s' → ∀ t', (s'.procs t').isSome → ∀ page,
      ValueFrom c s s' t act t' page := by
  have hresident := Resident.of_reachable h
  refine ⟨?_, ?_, ?_⟩
  · intro t p page m hp hm
    have hpd : s.pagedirOf t = some p.pagedir := by simp [pagedirOf, hp]
    exact hresident.value_eq t p.pagedir hpd (page, m) (mem_of_lookup hm)
  · intro t p page m _ hm
    exact Backed.of_reachable h p.pagedir (page, m) (mem_of_lookup hm)
  · intro t act s' hexec t' hlive page
    exact .of_move (.of_reachable h) (.of_exec hexec) hlive page

def codeSegment : Phdr := ⟨ptLoad, 0, 0x08048000, 4096, 4096, 5⟩

def loads (t : Int) (pd : Addr) (stackNo codeNo : Nat) : List (Int × Act) :=
  [(t, .create pd), (t, .segment 0 codeSegment), (t, .run (.page 0 0)), (t, .stack),
    (t, .run (.page 0 0)), (t, .run (.page stackNo 0)), (t, .fault 0x08048000 0xbffffff0 true false),
    (t, .run (.page 0 0)), (t, .run (.page 0 0)), (t, .run (.page codeNo 0))]

theorem memory_survives_write : ∃ s p m,
    (system .small).ReachableVia (fun s label => s.keepsFrames .small label = true) s ∧
    s.procs 1 = some p ∧ s.lookup p.pagedir 0xbffff000 = some m ∧
    s.mem m.kpage 4 = 7 ∧ s.value 1 0xbffff000 = some (s.mem m.kpage) := by
  obtain ⟨s, hs, hp⟩ := reachableVia_of_leadsTo .small (keepsFrames .small)
    (loads 1 0x1000 0 1 ++ [(1, .store 0xbffff004 7)])
    (fun s => (s.procs 1).any fun p => (s.lookup p.pagedir 0xbffff000).any fun m =>
      s.mem m.kpage 4 == 7) (by decide +kernel)
  cases hproc : s.procs 1 with
  | none => simp [hproc] at hp
  | some p =>
    rw [hproc, any_some] at hp
    cases hmap : s.lookup p.pagedir 0xbffff000 with
    | none =>
      rw [hmap, any_none] at hp
      cases hp
    | some m =>
      rw [hmap, any_some, beq_iff_eq] at hp
      exact ⟨s, p, m, hs, hproc, hmap, hp, (memory_survives hs).1 1 p _ m hproc hmap⟩

-- The table is full when the third process needs a page. The slot of its code is reused, but
-- the code stays mapped, in a frame that no slot has.
theorem evicted_page_mapped : ∃ s p m, (system .small).Reachable s ∧ s.procs 3 = some p ∧
    s.lookup p.pagedir 0x08048000 = some m ∧
    ∀ k < Config.small.slots, (s.ft k).pAddr ≠ some m.kpage := by
  obtain ⟨s, hs, hp⟩ := reachableVia_of_leadsTo .small (fun _ _ => true)
    (starts 1 0x1000 0 ++ leaves 1 1 ++ starts 2 0x2000 0 ++ leaves 2 1 ++ loads 3 0x3000 0 1 ++
      grows 3 0xbfffeffc 0xbffffff0 ++ [(3, .run (.page 2 3))])
    (fun s => (s.procs 3).any fun p => (s.lookup p.pagedir 0x08048000).any fun m =>
      (range 4).all fun k => (s.ft k).pAddr != some m.kpage) (by decide +kernel)
  cases hproc : s.procs 3 with
  | none => simp [hproc] at hp
  | some p =>
    rw [hproc, any_some] at hp
    cases hmap : s.lookup p.pagedir 0x08048000 with
    | none =>
      rw [hmap, any_none] at hp
      cases hp
    | some m =>
      rw [hmap, any_some, List.all_eq_true] at hp
      refine ⟨s, p, m, hs.reachable, hproc, hmap, ?_⟩
      intro k hk
      simpa using hp k (mem_range.mpr hk)

theorem written_of_ne (ht : t' ≠ t) (act : Act) (page : Addr) (bytes : PageBytes) :
    written t act t' page bytes = bytes := by
  cases act with
  | store addr byte => exact if_neg fun h => ht h.1
  | _ => rfl

theorem Resident.mapped (h : Resident s) {bytes : PageBytes} (hp : s.procs t = some p)
    (hv : s.value t page = some bytes) :
    ∃ m, s.lookup p.pagedir page = some m ∧ s.mem m.kpage = bytes := by
  have hpd : s.pagedirOf t = some p.pagedir := by simp [pagedirOf, hp]
  obtain ⟨pd, hpd', m, hm, rfl⟩ := h.value_mapped t page (by simp [hv])
  obtain rfl := some.inj (hpd.symm.trans hpd')
  cases hlookup : s.lookup p.pagedir m.1 with
  | none => exact absurd rfl (lookup_eq_none_iff.mp hlookup m hm)
  | some m' =>
    refine ⟨m', rfl, some.inj ?_⟩
    rw [← hv]
    exact (h.value_eq t p.pagedir hpd _ (mem_of_lookup hlookup)).symm

theorem Move.procs_of_ne (h : Linked s) (hmove : Move c s t act s') (ht : t' ≠ t) :
    s'.procs t' = s.procs t' := by
  cases hmove with
  | create | turn | alloc | gone => exact update_of_ne ht _ _
  | store => rfl
  | obtain hp htodo hb hobtain hp' =>
    obtain ⟨e, k, he, -, ho⟩ := frameObtain_eq_ok h.unswapped hobtain
    exact (update_of_ne ht _ _).trans (congrFun ho.links_eq.2.2.1 t')
  | stackFails hp htodo hobtain hdelete =>
    obtain ⟨e, k, he, -, ho⟩ := frameObtain_eq_ok h.unswapped hobtain
    obtain ⟨-, rfl⟩ := pageSuppDelete_eq_ok (h.outcome he ho).unswapped hdelete
    exact (update_of_ne ht _ _).trans (congrFun ho.links_eq.2.2.1 t')
  | destroy hp htodo hlist hdelete =>
    obtain ⟨-, rfl⟩ := pageSuppDelete_eq_ok (h.delete _ _).1.unswapped hdelete
    exact update_of_ne ht _ _

theorem value_of_trace {labels : List (Int × Act)} {bytes : PageBytes}
    (h : (system c).Reachable s) (htrace : (system c).Trace s labels s')
    (hother : ∀ label ∈ labels, label.1 ≠ t) (hp : s.procs t = some p)
    (hv : s.value t page = some bytes) : s'.procs t = some p ∧ s'.value t page = some bytes := by
  induction htrace with
  | nil => exact ⟨hp, hv⟩
  | @cons s m s' label labels hstep htrace ih =>
    obtain ⟨ht, hother⟩ := forall_mem_cons.mp hother
    have hmove : Move c s label.1 label.2 m := .of_exec hstep
    have hlinked : Linked s := .of_reachable h
    have hproc : m.procs t = some p := (hmove.procs_of_ne hlinked ht.symm).trans hp
    have hkept := (ValueFrom.of_move hlinked hmove (by simp [hproc]) page).kept _ hv
    rw [written_of_ne ht.symm] at hkept
    exact ih (h.next hstep) hother hproc hkept

-- Evictions included: no frame is behind two pages, and what other processes do leaves what a
-- process has mapped, and its bytes.
theorem processes_isolated (h : (system c).Reachable s) :
    (∀ t t' p p' page page' m m', s.procs t = some p → s.procs t' = some p' →
      s.lookup p.pagedir page = some m → s.lookup p'.pagedir page' = some m' →
      m.kpage = m'.kpage → t = t' ∧ page = page') ∧
    ∀ labels s', (system c).Trace s labels s' → ∀ t p page m, (∀ label ∈ labels, label.1 ≠ t) →
      s.procs t = some p → s.lookup p.pagedir page = some m → s'.procs t = some p ∧
        ∃ m', s'.lookup p.pagedir page = some m' ∧ s'.mem m'.kpage = s.mem m.kpage := by
  have hr : Resident s := .of_reachable h
  refine ⟨fun t t' p p' page page' m m' hp hp' hm hm' heq => ?_,
    fun labels s' htrace t p page m hother hp hm => ?_⟩
  · obtain ⟨hpd, hsame⟩ := hr.frame_inj _ _ _ _ (mem_of_lookup hm) (mem_of_lookup hm') heq
    have hlinked : Linked s := .of_reachable h
    exact ⟨hlinked.pagedir_inj t p t' p' hp hp' hpd, congrArg Prod.fst hsame⟩
  · have hv : s.value t page = some (s.mem m.kpage) :=
      hr.value_eq t p.pagedir (by simp [pagedirOf, hp]) _ (mem_of_lookup hm)
    obtain ⟨hp', hv'⟩ := value_of_trace h htrace hother hp hv
    exact ⟨hp', (Resident.of_reachable (htrace.reachable h)).mapped hp' hv'⟩

-- Two processes have their stacks at one address.
theorem processes_isolated_stacks : ∃ s, (system .small).Reachable s ∧
    ([1, 2].all fun t => (s.procs t).any fun p => (s.lookup p.pagedir 0xbffff000).isSome) ∧
    ∀ p p' m m', s.procs 1 = some p → s.procs 2 = some p' →
      s.lookup p.pagedir 0xbffff000 = some m → s.lookup p'.pagedir 0xbffff000 = some m' →
      m.kpage ≠ m'.kpage := by
  obtain ⟨s, hs, hmapped⟩ := reachableVia_of_leadsTo .small (fun _ _ => true)
    (starts 1 0x1000 0 ++ starts 2 0x2000 1)
    (fun s => [1, 2].all fun t => (s.procs t).any fun p => (s.lookup p.pagedir 0xbffff000).isSome)
    (by decide +kernel)
  refine ⟨s, hs.reachable, hmapped, fun p p' m m' hp hp' hm hm' heq => ?_⟩
  have hsame := (processes_isolated hs.reachable).1 _ _ p p' _ _ m m' hp hp' hm hm' heq
  exact absurd hsame.1 (by decide)

end Paging

end Pintos.Vm
