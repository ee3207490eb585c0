import Mathlib.Data.List.Induction
import Pintos.Userprog.Load.Segments
import Pintos.Vm.Frame

namespace Pintos.Userprog

open Function Threads Vm List Option

structure UserPage where
  bytes : PageBytes
  writable : Bool

abbrev PageMap := Addr → Option UserPage

section Eager

variable (file : FileData) (writable : Bool) (garbage : Addr → PageBytes)

-- The loop of load_segment without VM, with enough memory. `pos` is the position of the
-- file, and `garbage` what the frames from palloc_get_page held before.
def eagerPages : Nat → Nat → Addr → BitVec 32 → BitVec 32 → PageMap → Option PageMap
  | 0, _, _, _, _, map => some map
  | rounds + 1, pos, upage, readBytes, zeroBytes, map =>
    if readBytes = 0 ∧ zeroBytes = 0 then some map
    else
      let pageReadBytes := if readBytes < pgSize then readBytes else pgSize
      let pageZeroBytes := pgSize - pageReadBytes
      let bytesRead := fileReadAt file.length pageReadBytes.toNat pos
      if bytesRead ≠ pageReadBytes.toNat then none
      -- install_page refuses a page that is mapped
      else if (map upage).isSome then none
      else
        let bytes := fillPage (garbage upage) pageReadBytes.toNat pageZeroBytes.toNat
          fun i => file.byte (pos + i)
        eagerPages rounds (pos + bytesRead) (upage + pgSize) (readBytes - pageReadBytes)
          (zeroBytes - pageZeroBytes) (update map upage (some ⟨bytes, writable⟩))

end Eager

def loadSegmentEager (file : FileData) (garbage : Addr → PageBytes) (map : PageMap) (phdr : Phdr) :
    Option PageMap :=
  eagerPages file (phdr.pFlags &&& pfW ≠ 0) garbage (2 ^ 20) (phdr.pOffset &&& ~~~pgMask).toNat
    (phdr.pVaddr &&& ~~~pgMask) (segmentBytes phdr).1 (segmentBytes phdr).2 map

def loadEager (file : FileData) (garbage : Addr → PageBytes) (phdrs : List Phdr) :
    Option PageMap :=
  phdrs.foldlM (loadSegmentEager file garbage) fun _ => none

section Demand

variable (files : FileRef → FileData) (garbage : Addr → PageBytes)

def loadDemand (t : UserThread) (file : FileRef) (phdrs : List Phdr) (table : SpTable)
    (mem : Nat → Bool) : SpTable :=
  table.insertAll (phdrs.flatMap (loadSegment t file)) mem

def touch (t : UserThread) (table : SpTable) (map : PageMap) (addr : Addr) : PageMap :=
  let page := pgRoundDown addr
  if (map page).isSome then map
  else match table.pageFind t page with
    | none => map
    | some e =>
      match frameFetch (fun file => (files file).length) e true with
      | .fetched =>
        update map page (some ⟨fetchBytes files e (garbage page), e.writable⟩)
      | _ => map

def runDemand (t : UserThread) (table : SpTable) (addrs : List Addr) : PageMap :=
  addrs.foldl (touch files garbage t table) fun _ => none

end Demand

theorem fillPage_eq (old : PageBytes) (readBytes zeroBytes : Nat) (source : Nat → BitVec 8)
    (h : readBytes + zeroBytes = 4096) :
    fillPage old readBytes zeroBytes source =
      fun i => if i.val < readBytes then source i.val else 0 := by
  funext i
  have hi : (i : Nat) < readBytes + zeroBytes := by omega
  simp [fillPage, hi]

section Segment

variable {t : UserThread} {ref : FileRef} {ofs : BitVec 32} {writable : Bool}
variable (files : FileRef → FileData) (garbage : Addr → PageBytes)

def install (map : PageMap) (e : SpEntry) : PageMap :=
  update map e.upage (some ⟨fetchBytes files e (garbage e.upage), e.writable⟩)

theorem fetchBytes_eq {length : Nat} {e : SpEntry} (h : Recorded t ref length e)
    (old : PageBytes) : fetchBytes files e old = fun i : Fin 4096 =>
        if i.val < e.readBytes.toNat then (files ref).byte (e.ofs.toNat + i.val) else 0 := by
  have hsize : pgSize.toNat = 4096 := rfl
  unfold fetchBytes
  simp only [h.location, h.fp]
  by_cases hzero : e.zeroBytes = pgSize
  · have hnone : e.readBytes.toNat = 0 := by
      have hwhole := h.whole
      rw [hzero, hsize] at hwhole
      omega
    simp [hzero, hnone]
  · rw [if_pos hzero, fillPage_eq _ _ _ _ h.whole]

theorem frameFetch_eq {length : Nat} {e : SpEntry} (h : Recorded t ref length e)
    (hlength : (files ref).length = length) :
    frameFetch (fun file => (files file).length) e true = .fetched := by
  have hcovered := h.covered
  have hnot : ¬ fileReadAt length e.readBytes.toNat e.ofs.toNat < e.readBytes.toNat := by
    rw [fileReadAt_lt_iff]
    omega
  unfold frameFetch fetchFile
  simp only [h.location, h.fp, hlength]
  rw [if_neg hnot]
  simp

theorem eagerPages_eq (rounds n : Nat) (pos : Nat) (pageNo : BitVec 32) (upage : Addr)
    (readBytes zeroBytes : BitVec 32) (map : PageMap)
    (hpages : readBytes.toNat + zeroBytes.toNat = n * 4096)
    (hpos : 0 < readBytes.toNat → pos = (ofs + pageNo * pgSize).toNat ∧
      pos + readBytes.toNat ≤ (files ref).length)
    (hnodup : ((segmentPages t ref ofs writable rounds pageNo upage readBytes zeroBytes).map
      (·.upage)).Nodup)
    (hfree : ∀ e ∈ segmentPages t ref ofs writable rounds pageNo upage readBytes zeroBytes,
      map e.upage = none) (garbage' : Addr → PageBytes) :
    eagerPages (files ref) writable garbage' rounds pos upage readBytes zeroBytes map =
      some ((segmentPages t ref ofs writable rounds pageNo upage readBytes zeroBytes).foldl
        (install files garbage) map) := by
  induction rounds generalizing n pos pageNo upage readBytes zeroBytes map with
  | zero => rfl
  | succ rounds ih =>
    cases n with
    | zero => simp [eagerPages, segmentPages, done hpages]
    | succ n =>
      obtain ⟨pageReadBytes, hread, hdef, hcons⟩ := segmentPages_succ t ref ofs writable
        rounds pageNo upage readBytes zeroBytes
        (not_done hpages)
      have hleft := round_left hread hpages
      have hrecorded : Recorded t ref (files ref).length
          (pageEntry t ref ofs writable pageNo upage pageReadBytes) :=
        recorded_pageEntry hread fun h => (hpos h).1 ▸ (hpos h).2
      rw [hcons] at hnodup hfree ⊢
      obtain ⟨hnew, hnodup⟩ := nodup_cons.mp hnodup
      have hfirst : map upage = none := hfree _ mem_cons_self
      have hall : fileReadAt (files ref).length pageReadBytes.toNat pos = pageReadBytes.toNat := by
        have hiff := fileReadAt_lt_iff (files ref).length pageReadBytes.toNat pos
        have hle := fileReadAt_le (files ref).length pageReadBytes.toNat pos
        omega
      have hbytes : fillPage (garbage' upage) pageReadBytes.toNat
          (pgSize - pageReadBytes).toNat (fun i => (files ref).byte (pos + i)) =
          fetchBytes files (pageEntry t ref ofs writable pageNo upage pageReadBytes)
            (garbage upage) := by
        have hwhole : pageReadBytes.toNat + (pgSize - pageReadBytes).toNat = 4096 := hrecorded.whole
        rw [fetchBytes_eq files hrecorded, fillPage_eq _ _ _ _ hwhole]
        funext i
        show (if i.val < pageReadBytes.toNat then _ else _) = if i.val < pageReadBytes.toNat then
            (files ref).byte ((ofs + pageNo * pgSize).toNat + i.val) else 0
        by_cases hi : i.val < pageReadBytes.toNat
        · rw [if_pos hi, if_pos hi, (hpos (by omega)).1]
        · rw [if_neg hi, if_neg hi]
      rw [eagerPages, if_neg (not_done hpages)]
      simp only [← hdef, hall, hfirst, ne_eq, not_true_eq_false, if_false, isSome_none,
        Bool.false_eq_true, hbytes, foldl_cons]
      apply ih n
      · exact hleft.2
      · intro hmore
        obtain ⟨hoffset, hcovered⟩ := hpos (by omega)
        have hnext := next_offset (files ref).length_lt (hoffset ▸ hcovered) (by omega)
        omega
      · exact hnodup
      · intro e he
        have hne : e.upage ≠ upage := fun heq => hnew (mem_map.mpr ⟨e, he, heq⟩)
        rw [update_of_ne hne]
        exact hfree e (mem_cons_of_mem _ he)

end Segment

theorem loadSegmentEager_eq (files : FileRef → FileData) (garbage garbage' : Addr → PageBytes)
    {t : UserThread} {ref : FileRef} {phdr : Phdr} (map : PageMap)
    (h : Validated phdr (files ref).length) (hcovered : CoveredBy phdr (files ref).length)
    (hfree : ∀ e ∈ loadSegment t ref phdr, map e.upage = none) :
    loadSegmentEager (files ref) garbage' map phdr =
      some ((loadSegment t ref phdr).foldl (install files garbage) map) := by
  apply eagerPages_eq (n := pageCount phdr)
  · exact (segmentBytes_toNat h).1
  · intro hpos
    exact ⟨by simp, covers_first h hcovered hpos⟩
  · exact (mem_upages_loadSegment h t ref).1
  · exact hfree

section Installed

variable (files : FileRef → FileData) (garbage : Addr → PageBytes) {t : UserThread}
  {ref : FileRef}

theorem foldl_install_of_not_mem {es : List SpEntry} (map : PageMap) {page : Addr}
    (h : page ∉ es.map (·.upage)) : es.foldl (install files garbage) map page = map page := by
  induction es generalizing map with
  | nil => rfl
  | cons e es ih =>
    rw [map_cons, mem_cons, not_or] at h
    rw [foldl_cons, ih _ h.2, install, update_of_ne h.1]

def pageOf (e : SpEntry) : UserPage := ⟨fetchBytes files e (garbage e.upage), e.writable⟩

theorem foldl_install {es : List SpEntry} (map : PageMap) (hnodup : (es.map (·.upage)).Nodup)
    (hfree : ∀ e ∈ es, map e.upage = none) (page : Addr) :
    es.foldl (install files garbage) map page =
      ((es.find? (·.upage = page)).map (pageOf files garbage)).or (map page) := by
  induction es generalizing map with
  | nil => rfl
  | cons e es ih =>
    obtain ⟨hnew, hnodup⟩ := nodup_cons.mp hnodup
    by_cases hpage : e.upage = page
    · subst hpage
      rw [foldl_cons, foldl_install_of_not_mem files garbage _ hnew]
      simp [install, pageOf]
    · rw [foldl_cons, ih _ hnodup]
      · simp [hpage, install, update_of_ne (Ne.symm hpage)]
      · intro e' he'
        have hne : e'.upage ≠ e.upage := fun heq => hnew (mem_map.mpr ⟨e', he', heq⟩)
        rw [install, update_of_ne hne]
        exact hfree e' (mem_cons_of_mem _ he')

theorem foldlM_loadSegmentEager (garbage' : Addr → PageBytes) {phdrs : List Phdr} (map : PageMap)
    (hvalid : ∀ phdr ∈ phdrs, Validated phdr (files ref).length)
    (hcovered : ∀ phdr ∈ phdrs, CoveredBy phdr (files ref).length)
    (hnodup : ((phdrs.flatMap (loadSegment t ref)).map (·.upage)).Nodup)
    (hfree : ∀ e ∈ phdrs.flatMap (loadSegment t ref), map e.upage = none) :
    phdrs.foldlM (loadSegmentEager (files ref) garbage') map =
      some ((phdrs.flatMap (loadSegment t ref)).foldl (install files garbage) map) := by
  induction phdrs generalizing map with
  | nil => rfl
  | cons phdr phdrs ih =>
    rw [flatMap_cons] at hnodup hfree
    rw [map_append, nodup_append] at hnodup
    rw [foldlM_cons, loadSegmentEager_eq files garbage garbage' map
      (hvalid phdr mem_cons_self) (hcovered phdr mem_cons_self)
      fun e he => hfree e (mem_append_left _ he)]
    rw [flatMap_cons, foldl_append]
    apply ih
    · exact fun p hp => hvalid p (mem_cons_of_mem _ hp)
    · exact fun p hp => hcovered p (mem_cons_of_mem _ hp)
    · exact hnodup.2.1
    · intro e he
      have hnot : e.upage ∉ (loadSegment t ref phdr).map (·.upage) := fun hmem =>
        hnodup.2.2 _ hmem _ (mem_map_of_mem he) rfl
      rw [foldl_install_of_not_mem files garbage map hnot]
      exact hfree e (mem_append_right _ he)

theorem touch_eq {table : SpTable} {es : List SpEntry} {length : Nat}
    (hlength : (files ref).length = length)
    (hfind : ∀ page, table.pageFind t page = es.find? (·.upage = page))
    (hrecorded : ∀ e ∈ es, Recorded t ref length e) (map : PageMap) (addr : Addr)
    (hmap : map (pgRoundDown addr) = none) (page : Addr) :
    touch files garbage t table map addr page =
      if page = pgRoundDown addr then (es.find? (·.upage = page)).map (pageOf files garbage)
      else map page := by
  simp only [touch, hmap, isSome_none, Bool.false_eq_true, if_false, hfind]
  cases he : es.find? (·.upage = pgRoundDown addr) with
  | none =>
    by_cases hpage : page = pgRoundDown addr
    · subst hpage
      simp [he, hmap]
    · simp [hpage]
  | some e =>
    have hupage : e.upage = pgRoundDown addr := by simpa using find?_some he
    simp only [frameFetch_eq files (hrecorded e (mem_of_find?_eq_some he)) hlength]
    by_cases hpage : page = pgRoundDown addr
    · subst hpage
      simp [he, pageOf, hupage]
    · simp [hpage]

theorem runDemand_eq {table : SpTable} {es : List SpEntry} {length : Nat}
    (hlength : (files ref).length = length)
    (hfind : ∀ page, table.pageFind t page = es.find? (·.upage = page))
    (hrecorded : ∀ e ∈ es, Recorded t ref length e) (addrs : List Addr) (page : Addr) :
    runDemand files garbage t table addrs page =
      if page ∈ addrs.map pgRoundDown then (es.find? (·.upage = page)).map (pageOf files garbage)
      else none := by
  induction addrs using List.reverseRecOn generalizing page with
  | nil => rfl
  | append_singleton addrs addr ih =>
    have hlast : runDemand files garbage t table (addrs ++ [addr]) =
        touch files garbage t table (runDemand files garbage t table addrs) addr := by
      simp [runDemand]
    rw [hlast]
    simp only [map_append, map_singleton, mem_append, mem_singleton]
    by_cases hseen : (runDemand files garbage t table addrs (pgRoundDown addr)).isSome
    · have hmem : pgRoundDown addr ∈ addrs.map pgRoundDown := by
        by_contra hnot
        rw [ih, if_neg hnot] at hseen
        cases hseen
      have hiff : page ∈ addrs.map pgRoundDown ∨ page = pgRoundDown addr ↔
          page ∈ addrs.map pgRoundDown := or_iff_left_of_imp fun heq => heq ▸ hmem
      have hsame : touch files garbage t table (runDemand files garbage t table addrs) addr =
          runDemand files garbage t table addrs := by
        simp only [touch, hseen, if_true]
      simp only [hsame, ih, hiff]
    · rw [not_isSome_iff_eq_none] at hseen
      rw [touch_eq files garbage hlength hfind hrecorded _ _ hseen, ih]
      by_cases hpage : page = pgRoundDown addr
      · rw [if_pos hpage, if_pos (.inr hpage)]
      · rw [if_neg hpage]
        simp only [hpage, or_false]

end Installed

theorem nodup_upages {phdrs : List Phdr} {length : Nat} (t : UserThread) (ref : FileRef)
    (hvalid : ∀ phdr ∈ phdrs, Validated phdr length)
    (hdisjoint : phdrs.Pairwise fun a b => ∀ page, InSegment a page → ¬ InSegment b page) :
    ((phdrs.flatMap (loadSegment t ref)).map (·.upage)).Nodup := by
  rw [map_flatMap, nodup_flatMap]
  refine ⟨fun phdr hphdr => (mem_upages_loadSegment (hvalid phdr hphdr) t ref).1, ?_⟩
  apply hdisjoint.imp_of_mem
  intro a b ha hb hab page hpa hpb
  exact hab page (((mem_upages_loadSegment (hvalid a ha) t ref).2 page).mp hpa)
    (((mem_upages_loadSegment (hvalid b hb) t ref).2 page).mp hpb)

theorem demand_loading_eq_eager (files : FileRef → FileData) (ref : FileRef) (phdrs : List Phdr)
    (hvalid : ∀ phdr ∈ phdrs, validateSegment phdr (files ref).length = true)
    (hdisjoint : phdrs.Pairwise fun a b => ∀ page, InSegment a page → ¬ InSegment b page)
    (hcovered : ∀ phdr ∈ phdrs, CoveredBy phdr (files ref).length)
    (t : UserThread) (table : SpTable) (hfresh : ∀ e ∈ table.entries, e.tid ≠ t.tid)
    (mem : Nat → Bool) (garbage garbage' : Addr → PageBytes) :
    ∃ map, loadEager (files ref) garbage' phdrs = some map ∧
      (∀ page, (map page).isSome ↔ ∃ phdr ∈ phdrs, InSegment phdr page) ∧
      ∀ addrs page, runDemand files garbage t (loadDemand t ref phdrs table mem) addrs page =
        if page ∈ addrs.map pgRoundDown then map page else none := by
  have hvalidated : ∀ phdr ∈ phdrs, Validated phdr (files ref).length := fun phdr hphdr =>
    validated_of_validateSegment (hvalid phdr hphdr)
  have hnodup := nodup_upages t ref hvalidated hdisjoint
  have hrecorded : ∀ e ∈ phdrs.flatMap (loadSegment t ref),
      Recorded t ref (files ref).length e := by
    intro e he
    obtain ⟨phdr, hphdr, he⟩ := mem_flatMap.mp he
    exact recorded_loadSegment (files ref).length_lt (hvalidated phdr hphdr)
      (hcovered phdr hphdr) t ref e he
  have hfind := table.pageFind_insertAll _ mem t (fun e he => (hrecorded e he).tid) hnodup hfresh
  have hmap := foldl_install files garbage (fun _ => none) hnodup fun _ _ => rfl
  refine ⟨_, foldlM_loadSegmentEager files garbage garbage' (fun _ => none) hvalidated hcovered
    hnodup fun _ _ => rfl, ?_, ?_⟩
  · intro page
    rw [hmap, or_none, isSome_map, find?_isSome]
    constructor
    · rintro ⟨e, he, hpage⟩
      obtain ⟨phdr, hphdr, he⟩ := mem_flatMap.mp he
      refine ⟨phdr, hphdr, ?_⟩
      rw [← (mem_upages_loadSegment (hvalidated phdr hphdr) t ref).2]
      exact mem_map.mpr ⟨e, he, by simpa using hpage⟩
    · rintro ⟨phdr, hphdr, hpage⟩
      rw [← (mem_upages_loadSegment (hvalidated phdr hphdr) t ref).2] at hpage
      obtain ⟨e, he, hpage⟩ := mem_map.mp hpage
      exact ⟨e, mem_flatMap.mpr ⟨phdr, hphdr, he⟩, by simpa using hpage⟩
  · intro addrs page
    rw [loadDemand, runDemand_eq files garbage rfl hfind hrecorded, hmap, or_none]

def textAndData : List Phdr :=
  [⟨ptLoad, 0, 0x08048000, 0x1000, 0x1000, 5⟩, ⟨ptLoad, 0x1000, 0x08049000, 0x20, 0x1800, 6⟩]

def countingFile : FileData := ⟨0x1020, fun i => BitVec.ofNat 8 i, by decide⟩

theorem demand_loading_eq_eager_data :
    ∃ map, loadEager countingFile (fun _ _ => 7) textAndData = some map ∧
      (map 0x0804a000).isSome ∧
      runDemand (fun _ => countingFile) (fun _ _ => 9) ⟨3, 0⟩
        (loadDemand ⟨3, 0⟩ 0 textAndData SpTable.pageSuppInit fun _ => true)
        [0x0804a123, 0x08049004] 0x0804a000 = map 0x0804a000 := by
  obtain ⟨map, hload, hpages, hrun⟩ := demand_loading_eq_eager (fun _ => countingFile) 0 textAndData
    (by decide)
    (by
      simp only [textAndData, pairwise_cons, mem_singleton, forall_eq, not_mem_nil,
        false_implies, implies_true, List.Pairwise.nil, and_true]
      rintro page ⟨-, -, hend⟩ ⟨-, hstart, -⟩
      simp at hend hstart
      omega)
    (by decide) ⟨3, 0⟩ SpTable.pageSuppInit (by decide) (fun _ => true) (fun _ _ => 9)
    fun _ _ => 7
  refine ⟨map, hload, ?_, ?_⟩
  · rw [hpages]
    exact ⟨_, mem_cons_of_mem _ mem_cons_self, rfl, by decide, by decide⟩
  · rw [hrun, if_pos (by decide)]

end Pintos.Userprog
