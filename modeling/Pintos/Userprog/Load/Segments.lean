import Mathlib.Algebra.GroupWithZero.Nat
import Pintos.Userprog.Load

namespace Pintos.Userprog

open Threads Vm List Nat BitVec

variable {length : Nat} {phdr : Phdr}

theorem pageReadBytes_toNat (readBytes : BitVec 32) :
    (if readBytes < pgSize then readBytes else pgSize).toNat = min readBytes.toNat 4096 := by
  have hsize : pgSize.toNat = 4096 := rfl
  split
  · rename_i hlt
    rw [BitVec.lt_def, hsize] at hlt
    omega
  · rename_i hge
    rw [BitVec.lt_def, hsize] at hge
    omega

theorem pageZeroBytes_toNat (pageReadBytes : BitVec 32) (h : pageReadBytes.toNat ≤ 4096) :
    (pgSize - pageReadBytes).toNat = 4096 - pageReadBytes.toNat := by
  have hsize : pgSize.toNat = 4096 := rfl
  rw [BitVec.toNat_sub_of_le (by rw [BitVec.le_def, hsize]; exact h), hsize]

section Segment

variable {t : UserThread} {ref : FileRef} {ofs readBytes zeroBytes pageReadBytes pageNo : BitVec 32}
  {writable : Bool} {length n : Nat} {phdr : Phdr}

theorem round_left (hread : pageReadBytes.toNat = min readBytes.toNat 4096)
    (hpages : readBytes.toNat + zeroBytes.toNat = (n + 1) * 4096) :
    (readBytes - pageReadBytes).toNat = readBytes.toNat - 4096 ∧
      (readBytes - pageReadBytes).toNat + (zeroBytes - (pgSize - pageReadBytes)).toNat =
        n * 4096 := by
  have hzero := pageZeroBytes_toNat pageReadBytes (by omega)
  rw [BitVec.toNat_sub_of_le (by rw [BitVec.le_def]; omega),
    BitVec.toNat_sub_of_le (by rw [BitVec.le_def, hzero]; omega), hzero, hread]
  omega

theorem not_done (hpages : readBytes.toNat + zeroBytes.toNat = (n + 1) * 4096) :
    ¬ (readBytes = 0 ∧ zeroBytes = 0) := by
  rintro ⟨rfl, rfl⟩
  simp at hpages

theorem done
    (hpages : readBytes.toNat + zeroBytes.toNat = 0 * 4096) : readBytes = 0 ∧ zeroBytes = 0 := by
  have hread : readBytes.toNat = 0 := by omega
  have hzero : zeroBytes.toNat = 0 := by omega
  exact ⟨BitVec.eq_of_toNat_eq hread, BitVec.eq_of_toNat_eq hzero⟩

def pageEntry (t : UserThread) (ref : FileRef) (ofs : BitVec 32) (writable : Bool)
    (pageNo : BitVec 32) (upage : Addr) (pageReadBytes : BitVec 32) : SpEntry :=
  { SpEntry.alloc t upage with
    readBytes := pageReadBytes
    zeroBytes := pgSize - pageReadBytes
    ofs := ofs + pageNo * pgSize
    writable := writable
    fp := some ref
    location := .filesystem }

theorem segmentPages_succ (t : UserThread) (ref : FileRef) (ofs : BitVec 32) (writable : Bool)
    (rounds : Nat) (pageNo : BitVec 32) (upage : Addr)
    (readBytes zeroBytes : BitVec 32) (h : ¬ (readBytes = 0 ∧ zeroBytes = 0)) :
    ∃ pageReadBytes : BitVec 32, pageReadBytes.toNat = min readBytes.toNat 4096 ∧
      pageReadBytes = (if readBytes < pgSize then readBytes else pgSize) ∧
      segmentPages t ref ofs writable (rounds + 1) pageNo upage readBytes zeroBytes =
        pageEntry t ref ofs writable pageNo upage pageReadBytes ::
          segmentPages t ref ofs writable rounds (pageNo + 1) (upage + pgSize)
            (readBytes - pageReadBytes) (zeroBytes - (pgSize - pageReadBytes)) := by
  refine ⟨_, pageReadBytes_toNat readBytes, rfl, ?_⟩
  rw [segmentPages, if_neg h]
  rfl

theorem segmentPages_eq (rounds n : Nat) (pageNo : BitVec 32) (upage : Addr)
    (readBytes zeroBytes : BitVec 32) (hrounds : n ≤ rounds)
    (hpages : readBytes.toNat + zeroBytes.toNat = n * 4096) :
    segmentPages t ref ofs writable rounds pageNo upage readBytes zeroBytes =
      (List.range n).map fun i => pageEntry t ref ofs writable (pageNo + BitVec.ofNat 32 i)
        (upage + BitVec.ofNat 32 (i * 4096))
        (BitVec.ofNat 32 (min (readBytes.toNat - i * 4096) 4096)) := by
  induction rounds generalizing n pageNo upage readBytes zeroBytes with
  | zero =>
    have hn : n = 0 := by omega
    subst hn
    rfl
  | succ rounds ih =>
    cases n with
    | zero => simp [segmentPages, done hpages]
    | succ n =>
      obtain ⟨pageReadBytes, hread, -, hcons⟩ := segmentPages_succ t ref ofs writable
        rounds pageNo upage readBytes zeroBytes
        (not_done hpages)
      have hleft := round_left hread hpages
      rw [hcons, ih n _ _ _ _ (by omega) hleft.2, range_succ_eq_map, map_cons, map_map]
      refine congrArg₂ _ ?_ (map_congr_left fun i _ => ?_)
      · have hfirst : pageReadBytes = BitVec.ofNat 32 (min (readBytes.toNat - 0 * 4096) 4096) := by
          apply BitVec.eq_of_toNat_eq
          rw [BitVec.toNat_ofNat, mod_eq_of_lt (by omega)]
          omega
        rw [← hfirst, Nat.zero_mul, BitVec.add_zero, BitVec.add_zero]
      · have hno : pageNo + 1 + BitVec.ofNat 32 i = pageNo + BitVec.ofNat 32 (i + 1) := by
          rw [BitVec.add_assoc, Nat.add_comm i, BitVec.ofNat_add]
          rfl
        have hupage : upage + pgSize + BitVec.ofNat 32 (i * 4096) =
            upage + BitVec.ofNat 32 ((i + 1) * 4096) := by
          rw [BitVec.add_assoc, Nat.succ_mul, Nat.add_comm, BitVec.ofNat_add]
          rfl
        rw [hno, hupage, hleft.1, Nat.sub_sub, Nat.add_comm 4096, ← Nat.succ_mul]
        rfl

theorem map_upage_segmentPages (rounds n : Nat) (pageNo : BitVec 32) (upage : Addr)
    (readBytes zeroBytes : BitVec 32) (hrounds : n ≤ rounds)
    (hpages : readBytes.toNat + zeroBytes.toNat = n * 4096) :
    (segmentPages t ref ofs writable rounds pageNo upage readBytes zeroBytes).map (·.upage) =
      (List.range n).map fun i => upage + BitVec.ofNat 32 (i * 4096) := by
  rw [segmentPages_eq rounds n _ _ _ _ hrounds hpages, map_map]
  rfl

theorem next_offset (hlength : length < 2 ^ 31)
    (hcovers : (ofs + pageNo * pgSize).toNat + readBytes.toNat ≤ length)
    (hmore : 4096 < readBytes.toNat) :
    (ofs + (pageNo + 1) * pgSize).toNat = (ofs + pageNo * pgSize).toNat + 4096 := by
  have hsize : pgSize.toNat = 4096 := rfl
  have hsum : ofs + (pageNo + 1) * pgSize = ofs + pageNo * pgSize + pgSize := by
    have hone : (pageNo + 1) * pgSize = pageNo * pgSize + pgSize := by
      rw [BitVec.add_mul]
      exact congrArg _ (BitVec.one_mul pgSize)
    rw [hone, BitVec.add_assoc]
  rw [hsum, BitVec.toNat_add, hsize]
  exact mod_eq_of_lt (by omega)

structure Recorded (t : UserThread) (ref : FileRef) (length : Nat) (e : SpEntry) : Prop where
  tid : e.tid = t.tid
  fp : e.fp = some ref
  location : e.location = .filesystem
  whole : e.readBytes.toNat + e.zeroBytes.toNat = 4096
  covered : 0 < e.readBytes.toNat → e.ofs.toNat + e.readBytes.toNat ≤ length

theorem recorded_pageEntry
    {upage : Addr} (hread : pageReadBytes.toNat = min readBytes.toNat 4096)
    (hcovers : 0 < readBytes.toNat → (ofs + pageNo * pgSize).toNat + readBytes.toNat ≤ length) :
    Recorded t ref length (pageEntry t ref ofs writable pageNo upage pageReadBytes) where
  tid := rfl
  fp := rfl
  location := rfl
  whole := by
    have hzero := pageZeroBytes_toNat pageReadBytes (by omega)
    show pageReadBytes.toNat + (pgSize - pageReadBytes).toNat = 4096
    omega
  covered := by
    show 0 < pageReadBytes.toNat → (ofs + pageNo * pgSize).toNat + pageReadBytes.toNat ≤ length
    intro hpos
    have hcovered := hcovers (by omega)
    omega

theorem recorded_segmentPages (hlength : length < 2 ^ 31) (rounds : Nat)
    (pageNo : BitVec 32) (upage : Addr) (readBytes zeroBytes : BitVec 32)
    (hcovers : 0 < readBytes.toNat → (ofs + pageNo * pgSize).toNat + readBytes.toNat ≤ length) :
    ∀ e ∈ segmentPages t ref ofs writable rounds pageNo upage readBytes zeroBytes,
      Recorded t ref length e := by
  induction rounds generalizing pageNo upage readBytes zeroBytes with
  | zero => simp [segmentPages]
  | succ rounds ih =>
    by_cases hdone : readBytes = 0 ∧ zeroBytes = 0
    · simp [segmentPages, hdone]
    · obtain ⟨pageReadBytes, hread, -, hcons⟩ := segmentPages_succ t ref ofs writable
        rounds pageNo upage readBytes zeroBytes hdone
      rw [hcons]
      intro e he
      rcases mem_cons.mp he with rfl | he
      · exact recorded_pageEntry hread hcovers
      · refine ih _ _ _ _ ?_ e he
        intro hmore
        rw [BitVec.toNat_sub_of_le (by rw [BitVec.le_def]; omega)] at hmore ⊢
        have hcovered := hcovers (by omega)
        have hnext := next_offset hlength hcovered (by omega)
        omega

end Segment

structure Validated (phdr : Phdr) (length : Nat) : Prop where
  aligned : phdr.pOffset.toNat % 4096 = phdr.pVaddr.toNat % 4096
  inFile : phdr.pOffset.toNat ≤ length
  filesz_le : phdr.pFilesz.toNat ≤ phdr.pMemsz.toNat
  memsz_pos : 0 < phdr.pMemsz.toNat
  user : phdr.pVaddr.toNat + phdr.pMemsz.toNat < 0xc0000000

theorem validated_of_validateSegment {length : Nat}
    (h : validateSegment phdr length = true) : Validated phdr length := by
  unfold validateSegment at h
  split at h
  · cases h
  rename_i haligned
  split at h
  · cases h
  rename_i hinFile
  split at h
  · cases h
  rename_i hfilesz
  split at h
  · cases h
  rename_i hmemsz
  split at h
  · cases h
  rename_i huser
  split at h
  · cases h
  rename_i hend
  split at h
  · cases h
  rename_i hwrap
  have hbase : physBase.toNat = 0xc0000000 := rfl
  simp only [isUserVaddr, Bool.not_eq_true', decide_eq_false_iff_not, Classical.not_not,
    BitVec.lt_def, hbase, BitVec.toNat_add] at huser hend hwrap hfilesz
  refine ⟨?_, by omega, by omega, ?_, by omega⟩
  · have heq := congrArg BitVec.toNat (not_not.mp haligned)
    exact (toNat_pgOfs phdr.pOffset).symm.trans (heq.trans (toNat_pgOfs phdr.pVaddr))
  · have hne : phdr.pMemsz.toNat ≠ 0 := fun hzero => hmemsz (BitVec.eq_of_toNat_eq hzero)
    omega

def pageCount (phdr : Phdr) : Nat := (phdr.pVaddr.toNat % 4096 + phdr.pMemsz.toNat + 4095) / 4096

theorem roundUp_toNat (x : BitVec 32) (h : x.toNat + 4095 < 2 ^ 32) :
    (roundUp x pgSize).toNat = (x.toNat + 4095) / 4096 * 4096 := by
  have hsize : pgSize.toNat = 4096 := rfl
  have hsum : (x + pgSize - 1).toNat = x.toNat + 4095 := by
    have hone : x + pgSize - 1 = x + 4095#32 := by
      unfold pgSize
      rw [BitVec.sub_eq_add_neg, BitVec.add_assoc]
      rfl
    rw [hone, BitVec.toNat_add]
    exact mod_eq_of_lt h
  unfold roundUp
  rw [BitVec.toNat_mul, BitVec.toNat_udiv, hsum, hsize]
  apply mod_eq_of_lt
  omega

theorem segmentBytes_toNat {length : Nat} (h : Validated phdr length) :
    (segmentBytes phdr).1.toNat + (segmentBytes phdr).2.toNat = pageCount phdr * 4096 ∧
      (0 < (segmentBytes phdr).1.toNat →
        (segmentBytes phdr).1.toNat = phdr.pVaddr.toNat % 4096 + phdr.pFilesz.toNat ∧
        0 < phdr.pFilesz.toNat) := by
  have hofs : (phdr.pVaddr &&& pgMask).toNat = phdr.pVaddr.toNat % 4096 := toNat_pgOfs _
  have huser := h.user
  have hfilesz := h.filesz_le
  have hmem : ((phdr.pVaddr &&& pgMask) + phdr.pMemsz).toNat =
      phdr.pVaddr.toNat % 4096 + phdr.pMemsz.toNat := by
    rw [BitVec.toNat_add, hofs]
    exact mod_eq_of_lt (by omega)
  have hround : (roundUp ((phdr.pVaddr &&& pgMask) + phdr.pMemsz) pgSize).toNat =
      pageCount phdr * 4096 := by
    rw [roundUp_toNat _ (by omega), hmem]
    rfl
  unfold segmentBytes
  by_cases hfile : 0 < phdr.pFilesz
  · have hread : ((phdr.pVaddr &&& pgMask) + phdr.pFilesz).toNat =
        phdr.pVaddr.toNat % 4096 + phdr.pFilesz.toNat := by
      rw [BitVec.toNat_add, hofs]
      exact mod_eq_of_lt (by omega)
    have hle : ((phdr.pVaddr &&& pgMask) + phdr.pFilesz).toNat ≤ pageCount phdr * 4096 := by
      rw [hread]
      unfold pageCount
      omega
    rw [if_pos hfile]
    refine ⟨?_, fun _ => ⟨hread, by simpa [BitVec.lt_def] using hfile⟩⟩
    show ((phdr.pVaddr &&& pgMask) + phdr.pFilesz).toNat +
      (roundUp ((phdr.pVaddr &&& pgMask) + phdr.pMemsz) pgSize -
        ((phdr.pVaddr &&& pgMask) + phdr.pFilesz)).toNat = _
    rw [BitVec.toNat_sub_of_le (by rw [BitVec.le_def, hround]; exact hle), hround]
    omega
  · rw [if_neg hfile]
    refine ⟨by rw [hround]; simp, ?_⟩
    intro hpos
    simp at hpos

def InSegment (phdr : Phdr) (page : Addr) : Prop :=
  pgOfs page = 0 ∧ phdr.pVaddr.toNat / 4096 * 4096 ≤ page.toNat ∧
    page.toNat < phdr.pVaddr.toNat + phdr.pMemsz.toNat

theorem pageCount_le {length : Nat} (h : Validated phdr length) :
    pageCount phdr ≤ 2 ^ 20 := by
  have huser := h.user
  unfold pageCount
  omega

theorem toNat_upage {length i : Nat} (h : Validated phdr length)
    (hi : i < pageCount phdr) :
    ((phdr.pVaddr &&& ~~~pgMask) + BitVec.ofNat 32 (i * 4096)).toNat =
      phdr.pVaddr.toNat / 4096 * 4096 + i * 4096 := by
  have huser := h.user
  have hbase : (phdr.pVaddr &&& ~~~pgMask).toNat = phdr.pVaddr.toNat / 4096 * 4096 :=
    toNat_pgRoundDown _
  unfold pageCount at hi
  have hsmall : i * 4096 % 2 ^ 32 = i * 4096 := mod_eq_of_lt (by omega)
  rw [BitVec.toNat_add, hbase, BitVec.toNat_ofNat, hsmall]
  exact mod_eq_of_lt (by omega)

theorem mem_upages_loadSegment {length : Nat} (h : Validated phdr length)
    (t : UserThread) (ref : FileRef) :
    ((loadSegment t ref phdr).map (·.upage)).Nodup ∧
      ∀ page, page ∈ (loadSegment t ref phdr).map (·.upage) ↔ InSegment phdr page := by
  have hmemsz := h.memsz_pos
  unfold loadSegment
  rw [map_upage_segmentPages _ (pageCount phdr) _ _ _ _ (pageCount_le h) (segmentBytes_toNat h).1]
  constructor
  · apply List.Nodup.map_on
    · intro i hi j hj heq
      have hnat := congrArg BitVec.toNat heq
      rw [toNat_upage h (mem_range.mp hi), toNat_upage h (mem_range.mp hj)] at hnat
      omega
    · exact nodup_range
  · intro page
    have hlast := h.user
    have hofs : pgOfs page = 0 ↔ page.toNat % 4096 = 0 := by
      rw [← toNat_pgOfs, ← BitVec.toNat_inj]
      rfl
    unfold InSegment
    rw [mem_map, hofs]
    constructor
    · rintro ⟨i, hi, rfl⟩
      rw [toNat_upage h (mem_range.mp hi)]
      have hi' := mem_range.mp hi
      unfold pageCount at hi'
      omega
    · rintro ⟨haligned, hfirst, hend⟩
      have hi : (page.toNat - phdr.pVaddr.toNat / 4096 * 4096) / 4096 < pageCount phdr := by
        unfold pageCount
        omega
      refine ⟨_, mem_range.mpr hi, ?_⟩
      apply BitVec.eq_of_toNat_eq
      rw [toNat_upage h hi]
      omega

def CoveredBy (phdr : Phdr) (length : Nat) : Prop :=
  0 < phdr.pFilesz.toNat → phdr.pOffset.toNat + phdr.pFilesz.toNat ≤ length

instance (phdr : Phdr) (length : Nat) : Decidable (CoveredBy phdr length) :=
  inferInstanceAs (Decidable (_ → _))

theorem covers_first {length : Nat} (h : Validated phdr length)
    (hcovered : CoveredBy phdr length) (hpos : 0 < (segmentBytes phdr).1.toNat) :
    (phdr.pOffset &&& ~~~pgMask).toNat + (segmentBytes phdr).1.toNat ≤ length := by
  have hbase : (phdr.pOffset &&& ~~~pgMask).toNat = phdr.pOffset.toNat / 4096 * 4096 :=
    toNat_pgRoundDown _
  obtain ⟨hread, hfilesz⟩ := (segmentBytes_toNat h).2 hpos
  have haligned := h.aligned
  have hfile := hcovered hfilesz
  omega

theorem recorded_loadSegment {length : Nat} (hlength : length < 2 ^ 31)
    (h : Validated phdr length) (hcovered : CoveredBy phdr length) (t : UserThread)
    (ref : FileRef) : ∀ e ∈ loadSegment t ref phdr, Recorded t ref length e := by
  apply recorded_segmentPages hlength
  intro hpos
  have hfirst := covers_first h hcovered hpos
  simpa using hfirst

-- The assertions of load_segment. `ofs` is an off_t, which has a sign.
def segmentAsserts (ofs : BitVec 32) (upage : Addr) (readBytes zeroBytes : BitVec 32) : Bool :=
  (readBytes + zeroBytes) % pgSize = 0 && pgOfs upage = 0 && ofs.toInt.tmod 4096 = 0

def bytesLeft : Nat → BitVec 32 → BitVec 32 → BitVec 32 × BitVec 32
  | 0, readBytes, zeroBytes => (readBytes, zeroBytes)
  | rounds + 1, readBytes, zeroBytes =>
    if readBytes = 0 ∧ zeroBytes = 0 then (readBytes, zeroBytes)
    else
      let pageReadBytes := if readBytes < pgSize then readBytes else pgSize
      bytesLeft rounds (readBytes - pageReadBytes) (zeroBytes - (pgSize - pageReadBytes))

theorem bytesLeft_eq (n : Nat) {readBytes zeroBytes : BitVec 32}
    (hpages : readBytes.toNat + zeroBytes.toNat = n * 4096) :
    bytesLeft n readBytes zeroBytes = (0, 0) := by
  induction n generalizing readBytes zeroBytes with
  | zero =>
    obtain ⟨rfl, rfl⟩ := done hpages
    rfl
  | succ n ih =>
    rw [bytesLeft, if_neg (not_done hpages)]
    exact ih (round_left (pageReadBytes_toNat readBytes) hpages).2

theorem tmod_toInt_eq_zero {x : BitVec 32} (h : x.toNat % 4096 = 0) : x.toInt.tmod 4096 = 0 := by
  apply Int.tmod_eq_zero_of_dvd
  rw [toInt_eq_toNat_cond]
  split <;> omega

theorem sum_min_sub (r n : Nat) :
    ((range n).map fun i => min (r - i * 4096) 4096).sum = min r (n * 4096) := by
  induction n with
  | zero => simp
  | succ n ih =>
    rw [range_succ, map_append, List.sum_append, ih]
    simp only [map_cons, map_nil, sum_cons, sum_nil]
    omega

def fileBytes (phdr : Phdr) : Nat :=
  if 0 < phdr.pFilesz.toNat then phdr.pVaddr.toNat % 4096 + phdr.pFilesz.toNat else 0

structure Plan (phdr : Phdr) (es : List SpEntry) : Prop where
  readBytes : (segmentBytes phdr).1.toNat = fileBytes phdr
  zeroBytes : fileBytes phdr + (segmentBytes phdr).2.toNat = pageCount phdr * 4096
  asserts : segmentAsserts (phdr.pOffset &&& ~~~pgMask) (phdr.pVaddr &&& ~~~pgMask)
    (segmentBytes phdr).1 (segmentBytes phdr).2 = true
  ends : bytesLeft (pageCount phdr) (segmentBytes phdr).1 (segmentBytes phdr).2 = (0, 0)
  last : phdr.pVaddr.toNat / 4096 * 4096 + pageCount phdr * 4096 =
    (phdr.pVaddr.toNat + phdr.pMemsz.toNat + 4095) / 4096 * 4096
  pages : es.map (·.upage.toNat) =
    (List.range (pageCount phdr)).map fun i => phdr.pVaddr.toNat / 4096 * 4096 + i * 4096
  user : ∀ e ∈ es, 4096 ≤ e.upage.toNat ∧ e.upage.toNat + 4096 ≤ 0xc0000000
  whole : ∀ e ∈ es, e.readBytes.toNat + e.zeroBytes.toNat = 4096
  offsets : es.map (·.ofs) = (List.range (pageCount phdr)).map fun i =>
    BitVec.ofNat 32 (phdr.pOffset.toNat / 4096 * 4096 + i * 4096)
  total : (es.map (·.readBytes.toNat)).sum = fileBytes phdr

theorem pgSize_le_of_validateSegment
    (h : validateSegment phdr length = true) : 4096 ≤ phdr.pVaddr.toNat := by
  by_contra hlow
  have hlt : phdr.pVaddr < pgSize := by
    rw [lt_def]
    exact not_le.mp hlow
  simp [validateSegment, hlt] at h

theorem segmentBytes_fst (h : Validated phdr length) :
    (segmentBytes phdr).1.toNat = fileBytes phdr := by
  have hofs : (phdr.pVaddr &&& pgMask).toNat = phdr.pVaddr.toNat % 4096 := toNat_pgOfs _
  have huser := h.user
  have hfilesz := h.filesz_le
  have hpos : 0 < phdr.pFilesz ↔ 0 < phdr.pFilesz.toNat := by rw [lt_def]; rfl
  unfold segmentBytes fileBytes
  simp only [hpos]
  split
  · show ((phdr.pVaddr &&& pgMask) + phdr.pFilesz).toNat = _
    rw [toNat_add, hofs]
    exact Nat.mod_eq_of_lt (by omega)
  · rfl

theorem loadSegment_eq (h : Validated phdr length)
    (t : UserThread) (file : FileRef) :
    loadSegment t file phdr = (range (pageCount phdr)).map fun i =>
      pageEntry t file (phdr.pOffset &&& ~~~pgMask) (phdr.pFlags &&& pfW ≠ 0)
        (0 + BitVec.ofNat 32 i) ((phdr.pVaddr &&& ~~~pgMask) + BitVec.ofNat 32 (i * 4096))
        (BitVec.ofNat 32 (min (fileBytes phdr - i * 4096) 4096)) := by
  rw [loadSegment, segmentPages_eq _ (pageCount phdr) _ _ _ _ (pageCount_le h)
    (segmentBytes_toNat h).1, segmentBytes_fst h]

theorem toNat_min_pgSize (k : Nat) : (BitVec.ofNat 32 (min k 4096)).toNat = min k 4096 := by
  rw [BitVec.toNat_ofNat]
  exact Nat.mod_eq_of_lt (by omega)

theorem map_ofs_loadSegment (h : Validated phdr length)
    (t : UserThread) (file : FileRef) :
    (loadSegment t file phdr).map (·.ofs) = (range (pageCount phdr)).map fun i =>
      BitVec.ofNat 32 (phdr.pOffset.toNat / 4096 * 4096 + i * 4096) := by
  rw [loadSegment_eq h, map_map]
  refine map_congr_left fun i _ => ?_
  show (phdr.pOffset &&& ~~~pgMask) + (0 + BitVec.ofNat 32 i) * pgSize = _
  have hbase : phdr.pOffset.toNat / 4096 * 4096 = (phdr.pOffset &&& ~~~pgMask).toNat :=
    (toNat_pgRoundDown _).symm
  have hno : (0 : BitVec 32) + BitVec.ofNat 32 i = BitVec.ofNat 32 i := BitVec.zero_add _
  rw [hbase, hno, ofNat_add, ofNat_toNat, setWidth_eq, ofNat_mul]
  rfl

theorem segmentAsserts_of_validated (h : Validated phdr length) :
    segmentAsserts (phdr.pOffset &&& ~~~pgMask) (phdr.pVaddr &&& ~~~pgMask)
      (segmentBytes phdr).1 (segmentBytes phdr).2 = true := by
  have hdown : ∀ x : BitVec 32, (x &&& ~~~pgMask).toNat % 4096 = 0 := by
    intro x
    rw [show (x &&& ~~~pgMask).toNat = x.toNat / 4096 * 4096 from toNat_pgRoundDown x]
    omega
  simp only [segmentAsserts, Bool.and_eq_true, decide_eq_true_eq]
  refine ⟨⟨?_, ?_⟩, tmod_toInt_eq_zero (hdown _)⟩
  · apply eq_of_toNat_eq
    rw [toNat_umod, toNat_add, (segmentBytes_toNat h).1, show pgSize.toNat = 4096 from rfl]
    show _ = 0
    omega
  · apply eq_of_toNat_eq
    rw [toNat_pgOfs, hdown]
    rfl

theorem segment_plan (phdr : Phdr) (length : Nat) (h : validateSegment phdr length = true)
    (t : UserThread) (file : FileRef) : Plan phdr (loadSegment t file phdr) := by
  have hv := validated_of_validateSegment h
  have hsum := (segmentBytes_toNat hv).1
  have hlow := pgSize_le_of_validateSegment h
  have huser := hv.user
  have heq := loadSegment_eq hv t file
  have hentry : ∀ e ∈ loadSegment t file phdr, ∃ i < pageCount phdr,
      e.upage.toNat = phdr.pVaddr.toNat / 4096 * 4096 + i * 4096 ∧
      e.readBytes.toNat + e.zeroBytes.toNat = 4096 := by
    intro e he
    rw [heq] at he
    obtain ⟨i, hi, rfl⟩ := mem_map.mp he
    have hlt := mem_range.mp hi
    refine ⟨i, hlt, toNat_upage hv hlt, ?_⟩
    have hread := toNat_min_pgSize (fileBytes phdr - i * 4096)
    have hzero := pageZeroBytes_toNat _ (by rw [hread]; omega)
    simp only [pageEntry, hzero, hread]
    omega
  have hcount : phdr.pVaddr.toNat / 4096 * 4096 + pageCount phdr * 4096 =
      (phdr.pVaddr.toNat + phdr.pMemsz.toNat + 4095) / 4096 * 4096 := by
    unfold pageCount
    omega
  refine ⟨segmentBytes_fst hv, ?_, segmentAsserts_of_validated hv, bytesLeft_eq _ hsum, hcount,
    ?_, ?_, ?_, map_ofs_loadSegment hv t file, ?_⟩
  · rw [← segmentBytes_fst hv, hsum]
  · rw [heq, map_map]
    exact map_congr_left fun i hi => toNat_upage hv (mem_range.mp hi)
  · intro e he
    obtain ⟨i, hi, hpage, -⟩ := hentry e he
    omega
  · intro e he
    obtain ⟨i, -, -, hwhole⟩ := hentry e he
    exact hwhole
  · rw [heq, map_map]
    refine (congrArg sum (map_congr_left fun i _ => toNat_min_pgSize _)).trans ?_
    rw [sum_min_sub, ← segmentBytes_fst hv]
    omega

-- Three pages, of which the first and a part of the second are read.
theorem segment_plan_data : Plan ⟨ptLoad, 0x1010, 0x0804a010, 5000, 9000, pfW⟩
    (loadSegment ⟨3, 0⟩ 7 ⟨ptLoad, 0x1010, 0x0804a010, 5000, 9000, pfW⟩) :=
  segment_plan _ 0x3000 (by decide) ⟨3, 0⟩ 7

def longHeader : Phdr := ⟨ptLoad, 0x7ffff000, 0x1000, 0, 0xbfffe000, 0⟩

theorem segment_offsets_wrap : validateSegment longHeader 0x7fffffff = true ∧
    ∀ t file, (loadSegment t file longHeader).map (·.ofs.toNat) ≠
      (List.range (pageCount longHeader)).map fun i => 0x7ffff000 + i * 4096 := by
  have hvalid : validateSegment longHeader 0x7fffffff = true := by decide
  have hcount : 0x80001 < pageCount longHeader := by decide
  refine ⟨hvalid, fun t file heq => ?_⟩
  have hofs := congrArg (map BitVec.toNat)
    (map_ofs_loadSegment (validated_of_validateSegment hvalid) t file)
  rw [map_map, map_map] at hofs
  have hat := map_inj_left.mp (hofs.symm.trans heq) 0x80001 (mem_range.mpr hcount)
  rw [Function.comp, BitVec.toNat_ofNat] at hat
  exact absurd hat (by decide)

end Pintos.Userprog
