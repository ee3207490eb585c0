import Pintos.Filesys.Fsutil

namespace Pintos.Filesys.Fsutil

open Lib Devices Ustar List Block Nat Prod

variable {dev dev' : Block} {sector : Nat} {file : SourceFile} {files : List SourceFile}
  {buffer : Bytes}

theorem blockWrite_of_lt (h : sector < dev.size) (buffer : Bytes) :
    blockWrite dev sector buffer = .ok (dev.set sector buffer) := by
  simp only [blockWrite, write_of_lt h]

theorem blockRead_of_lt (h : sector < dev.size) :
    blockRead dev sector = .ok (dev.sectors sector) := by
  simp only [blockRead, read_of_lt h]

theorem sectorCnt_of_ne_nil {rest : List UInt8} (h : rest ≠ []) :
    sectorCnt rest = 1 + sectorCnt (rest.drop sectorSize) := by
  have hpos := length_pos_iff.mpr h
  simp only [sectorCnt, length_drop, sectorSize]
  omega

theorem dataSector_succ (contents : List UInt8) (j : Nat) :
    dataSector contents (j + 1) = dataSector (contents.drop sectorSize) j := by
  simp only [dataSector, drop_drop, succ_mul, add_comm]

theorem length_dataSector (contents : List UInt8) (j : Nat) :
    (dataSector contents j).length = sectorSize := by
  simp only [dataSector, length_append, length_replicate, length_take]
  omega

theorem fill_eq (buffer : Bytes) (rest : List UInt8) :
    fill buffer (rest.take sectorSize) = buffer.write 0 (dataSector rest 0) := by
  have hdata : dataSector rest 0 = rest.take sectorSize ++
      List.replicate (sectorSize - (rest.take sectorSize).length) 0 := by
    simp [dataSector]
  rw [hdata, Bytes.write_append, zero_add]
  rfl

theorem read_fill (buffer : Bytes) (rest : List UInt8) :
    (fill buffer (rest.take sectorSize)).read 0 sectorSize = dataSector rest 0 := by
  rw [fill_eq, ← length_dataSector rest 0, Bytes.read_write]

theorem fill_of_ge (buffer : Bytes) (rest : List UInt8) {i : Nat} (h : sectorSize ≤ i) :
    fill buffer (rest.take sectorSize) i = buffer i := by
  rw [fill_eq, Bytes.write_of_ge (by rw [length_dataSector]; omega)]

theorem copyOut_spec (name : CString) (fuel : Nat) (dev : Block) (sector : Nat) (buffer : Bytes)
    (rest : List UInt8) (hfuel : rest.length ≤ fuel) (hroom : sector + sectorCnt rest ≤ dev.size) :
    ∃ dev' buffer', copyOut name fuel dev sector buffer rest =
        .ok (dev', sector + sectorCnt rest, buffer') ∧
      dev'.size = dev.size ∧
      (∀ j < sectorCnt rest, (dev'.sectors (sector + j)).read 0 sectorSize = dataSector rest j) ∧
      (∀ s, s < sector ∨ sector + sectorCnt rest ≤ s → dev'.sectors s = dev.sectors s) ∧
      ∀ i, sectorSize ≤ i → buffer' i = buffer i := by
  induction fuel generalizing dev sector buffer rest with
  | zero =>
    obtain rfl : rest = [] := eq_nil_of_length_eq_zero (by omega)
    exact ⟨dev, buffer, rfl, rfl, fun j hj => absurd hj (by simp [sectorCnt]), fun s _ => rfl,
      fun i _ => rfl⟩
  | succ fuel ih =>
    by_cases hnil : rest = []
    · subst hnil
      exact ⟨dev, buffer, by simp [copyOut, sectorCnt], rfl,
        fun j hj => absurd hj (by simp [sectorCnt]), fun s _ => rfl, fun i _ => rfl⟩
    · have hcnt := sectorCnt_of_ne_nil hnil
      have hpos := length_pos_iff.mpr hnil
      have hlt : sector < dev.size := by omega
      obtain ⟨dev', buffer', hcopy, hsize, hdata, hframe, hbuffer⟩ := ih
        (dev.set sector (fill buffer (rest.take sectorSize))) (sector + 1)
        (fill buffer (rest.take sectorSize)) (rest.drop sectorSize)
        (by rw [length_drop, sectorSize]; omega) (by rw [size_set]; omega)
      refine ⟨dev', buffer', ?_, hsize, ?_, ?_, ?_⟩
      · rw [copyOut, if_neg hnil, if_neg (by omega)]
        simp only [blockWrite_of_lt hlt, bind, Except.bind]
        rw [hcopy, hcnt, add_assoc]
      · intro j hj
        cases j with
        | zero =>
          rw [add_zero, hframe sector (.inl (by omega)), sectors_set_self, read_fill]
        | succ j =>
          rw [dataSector_succ, ← hdata j (by omega)]
          congr 2
          omega
      · intro s hs
        rw [hframe s (by omega), sectors_set_of_ne (by omega)]
      · intro i hi
        rw [hbuffer i hi, fill_of_ge buffer rest hi]

structure Appended (dev : Block) (sector : Nat) (file : SourceFile) (stray : UInt8)
    (dev' : Block) : Prop where
  size : dev'.size = dev.size
  header : some ((dev'.sectors sector).read 0 headerSize) = headerSector file
  data : ∀ j < sectorCnt file.contents,
    (dev'.sectors (sector + 1 + j)).read 0 Block.sectorSize = dataSector file.contents j
  marker : ∀ i < Block.sectorSize, dev'.sectors (sector + (1 + sectorCnt file.contents)) i =
    if i + 1 = Block.sectorSize then stray else 0
  frame : ∀ s, s < sector ∨ sector + (1 + sectorCnt file.contents) < s →
    dev'.sectors s = dev.sectors s

theorem fsutilAppend_spec (dev : Block) (sector : Nat) (file : SourceFile) (buffer : Bytes)
    (hname : (stripAntisocialPrefixes file.name).length ≤ 99)
    (hroom : sector + (1 + sectorCnt file.contents) < dev.size) :
    ∃ dev', fsutilAppend dev sector file buffer =
        .ok (dev', sector + (1 + sectorCnt file.contents)) ∧
      Appended dev sector file (buffer sectorSize) dev' := by
  obtain ⟨h, hmake, hkeep⟩ := ustarMakeHeader_isSome .regular file.contents.length buffer hname
  obtain ⟨h0, hmake0, -⟩ := ustarMakeHeader_isSome .regular file.contents.length (fun _ => 0) hname
  obtain ⟨dev1, buffer1, hcopy, hsize, hdata, hframe, hbuffer⟩ := copyOut_spec file.name
    file.contents.length (dev.set sector h) (sector + 1) h file.contents (le_refl _)
    (by rw [size_set]; omega)
  rw [size_set] at hsize
  rw [add_assoc] at hcopy
  have hend : sector + (1 + sectorCnt file.contents) < dev1.size := by omega
  refine ⟨(dev1.set (sector + (1 + sectorCnt file.contents))
    (buffer1.write 0 (List.replicate sectorSize 0))).set
      (sector + (1 + sectorCnt file.contents))
      fun i => buffer1.write 0 (List.replicate sectorSize 0) (i + 1), ?_, ?_⟩
  · simp only [fsutilAppend, hmake, blockWrite_of_lt (show sector < dev.size by omega), bind,
      Except.bind, hcopy, blockWrite_of_lt hend]
    rw [blockWrite_of_lt (by rw [size_set]; exact hend)]
    rfl
  · constructor
    · exact hsize
    · have hread : h.read 0 headerSize = h0.read 0 headerSize := by
        apply Bytes.read_congr
        intro i hi
        rw [zero_add]
        exact ustarMakeHeader_congr hmake hmake0 i hi
      rw [sectors_set_of_ne (by omega), sectors_set_of_ne (by omega),
        hframe sector (.inl (by omega)), sectors_set_self, hread, headerSector, hmake0]
      rfl
    · intro j hj
      rw [sectors_set_of_ne (by omega), sectors_set_of_ne (by omega)]
      exact hdata j hj
    · intro i hi
      rw [sectors_set_self]
      by_cases hlast : i + 1 = sectorSize
      · rw [if_pos hlast, Bytes.write_of_ge (by rw [length_replicate]; omega),
          hbuffer _ (by omega), hkeep _ (by unfold headerSize; unfold sectorSize at hlast; omega),
          hlast]
      · rw [if_neg hlast, ← zero_add (i + 1),
          Bytes.write_add (by rw [length_replicate]; omega) 0, getD_replicate _ (by omega)]
    · intro s hs
      rw [sectors_set_of_ne (by omega), sectors_set_of_ne (by omega),
        hframe s (by omega), sectors_set_of_ne (by omega)]

def lastStray (dev : Block) (sector : Nat) (calls : List (SourceFile × Bytes)) : Bytes :=
  match calls.getLast? with
  | none => dev.sectors sector
  | some (_, buffer) => fun i => if i + 1 = Block.sectorSize then buffer Block.sectorSize else 0

theorem span_cons (file : SourceFile) (files : List SourceFile) :
    span (file :: files) = 1 + sectorCnt file.contents + span files := by
  simp [span]

theorem appendAll_spec (calls : List (SourceFile × Bytes)) (dev : Block) (sector : Nat)
    (hname : ∀ c ∈ calls, (stripAntisocialPrefixes c.1.name).length ≤ 99)
    (hroom : sector + span (calls.map fst) < dev.size) :
    ∃ dev', appendAll dev sector calls = .ok (dev', sector + span (calls.map fst)) ∧
      dev'.size = dev.size ∧ Stored dev' sector (calls.map fst) ∧
      (∀ i < sectorSize, dev'.sectors (sector + span (calls.map fst)) i =
        lastStray dev sector calls i) ∧
      ∀ s, s < sector ∨ sector + span (calls.map fst) < s → dev'.sectors s = dev.sectors s := by
  induction calls generalizing dev sector with
  | nil => exact ⟨dev, rfl, rfl, trivial, fun i _ => rfl, fun s _ => rfl⟩
  | cons call calls ih =>
    obtain ⟨file, buffer⟩ := call
    simp only [map_cons, span_cons] at hroom ⊢
    obtain ⟨dev1, happend, hone⟩ := fsutilAppend_spec dev sector file buffer
      (hname _ mem_cons_self) (by omega)
    obtain ⟨dev', hall, hsize, hstored, hmarker, hframe⟩ := ih dev1
      (sector + (1 + sectorCnt file.contents))
      (fun c hc => hname c (mem_cons_of_mem _ hc)) (by rw [hone.size]; omega)
    have hkeep : ∀ s, s < sector + (1 + sectorCnt file.contents) →
        dev'.sectors s = dev1.sectors s := fun s hs => hframe s (.inl hs)
    rw [← add_assoc]
    refine ⟨dev', ?_, hsize.trans hone.size, ⟨?_, ?_, hstored⟩, ?_, ?_⟩
    · simp only [appendAll, happend, bind, Except.bind]
      exact hall
    · rw [hkeep sector (by omega)]
      exact hone.header
    · intro j hj
      rw [hkeep _ (by omega)]
      exact hone.data j hj
    · intro i hi
      rw [hmarker i hi]
      cases calls with
      | nil => exact hone.marker i hi
      | cons next calls => simp [lastStray, getLast?_cons]
    · intro s hs
      rw [hframe s (by omega), hone.frame s (by omega)]

theorem copyIn_spec (fuel : Nat) (sector : Nat) (contents : List UInt8)
    (hfuel : contents.length ≤ fuel) (hroom : sector + sectorCnt contents ≤ dev.size)
    (hdata : ∀ j < sectorCnt contents,
      (dev.sectors (sector + j)).read 0 sectorSize = dataSector contents j) :
    copyIn fuel dev sector contents.length = .ok (contents, sector + sectorCnt contents) := by
  induction fuel generalizing sector contents with
  | zero =>
    obtain rfl : contents = [] := eq_nil_of_length_eq_zero (by omega)
    rfl
  | succ fuel ih =>
    by_cases hnil : contents = []
    · subst hnil
      rfl
    · have hcnt := sectorCnt_of_ne_nil hnil
      have hpos := length_pos_iff.mpr hnil
      have hrest := ih (sector + 1) (contents.drop sectorSize)
        (by rw [length_drop, sectorSize]; omega) (by omega) (by
          intro j hj
          rw [← dataSector_succ, ← hdata (j + 1) (by omega)]
          congr 2
          omega)
      have hsize : contents.length - min sectorSize contents.length =
          (contents.drop sectorSize).length := by
        rw [length_drop]
        omega
      have hchunk : (dev.sectors sector).read 0 (min sectorSize contents.length) =
          contents.take sectorSize := by
        have hfirst := hdata 0 (by omega)
        have hle : min sectorSize contents.length ≤ sectorSize := min_le_left ..
        rw [add_zero] at hfirst
        rw [← Bytes.take_read hle, hfirst]
        simp [dataSector]
      rw [copyIn, if_neg (by omega), blockRead_of_lt (by omega)]
      simp only [bind, Except.bind, hsize, hrest, hchunk, take_append_drop, pure,
        Except.pure, hcnt, add_assoc]

theorem ustarParseHeader_of_zero (h : ZeroSector dev sector) :
    ustarParseHeader (dev.sectors sector) = .ok .eof := by
  have hzeros : isAllZeros (dev.sectors sector) headerSize = true := by
    simp only [isAllZeros, Bytes.read, all_map, all_eq_true, mem_range,
      Function.comp_apply, beq_iff_eq]
    intro i hi
    rw [zero_add]
    exact h i hi
  unfold ustarParseHeader
  rw [if_pos hzeros]

theorem ustarParseHeader_of_header (hsize : file.contents.length ≤ intMax)
    (hheader : some ((dev.sectors sector).read 0 headerSize) = headerSector file) :
    ustarParseHeader (dev.sectors sector) =
      .ok (.regular (stripAntisocialPrefixes file.name) file.contents.length) := by
  obtain ⟨h, hmake, hread⟩ := Option.map_eq_some_iff.mp hheader.symm
  have heq : ∀ i < headerSize, dev.sectors sector i = h i := by
    intro i hi
    have hbyte := Bytes.eq_of_read_eq hread hi
    rw [zero_add] at hbyte
    exact hbyte.symm
  rw [ustarParseHeader_congr heq]
  exact ustarParseHeader_of_make hmake hsize

theorem extractLoop_spec (fuel sector : Nat) (files : List SourceFile) (hfuel : files.length < fuel)
    (hsize : ∀ f ∈ files, f.contents.length ≤ intMax) (hroom : sector + span files < dev.size)
    (hstored : Stored dev sector files) (hend : ZeroSector dev (sector + span files)) :
    extractLoop fuel dev sector = .ok
      (files.map fun f => ⟨stripAntisocialPrefixes f.name, f.contents.length, f.contents⟩,
        sector + span files + 1) := by
  induction files generalizing fuel sector with
  | nil =>
    obtain ⟨fuel, rfl⟩ := exists_eq_add_one_of_ne_zero (ne_of_gt hfuel)
    have hparse := ustarParseHeader_of_zero hend
    simp only [span, map_nil, sum_nil, add_zero] at hroom hparse ⊢
    simp only [extractLoop, blockRead_of_lt hroom, bind, Except.bind, hparse, Except.mapError, pure,
      Except.pure]
  | cons file files ih =>
    obtain ⟨fuel, rfl⟩ := exists_eq_add_one_of_ne_zero (ne_of_gt (zero_lt_of_lt hfuel))
    rw [span_cons] at hroom hend ⊢
    obtain ⟨hheader, hdata, hrest⟩ := hstored
    have hparse := ustarParseHeader_of_header (hsize file mem_cons_self) hheader
    have hcopy := copyIn_spec file.contents.length (sector + 1) file.contents (le_refl _)
      (by omega) hdata
    have hloop := ih fuel (sector + (1 + sectorCnt file.contents)) (by simpa using hfuel)
      (fun f hf => hsize f (mem_cons_of_mem _ hf)) (by omega) hrest
      (by rwa [add_assoc])
    rw [add_assoc] at hcopy
    simp only [extractLoop, blockRead_of_lt (show sector < dev.size by omega), bind, Except.bind,
      hparse, Except.mapError, hcopy, hloop, pure, Except.pure, map_cons, add_assoc]

def extracted (file : SourceFile) : Extracted := ⟨file.name, file.contents.length, file.contents⟩

def Agrees (dev : Block) (files : List SourceFile) : Prop :=
  Archive dev files ∧
    ∃ dev' sector, fsutilExtract dev 0 = .ok (files.map extracted, dev', sector)

theorem length_le_span (files : List SourceFile) : files.length ≤ span files := by
  induction files with
  | nil => exact zero_le _
  | cons file files ih =>
    rw [span_cons, length_cons]
    omega

def MarkerClean (dev : Block) (calls : List (SourceFile × Bytes)) : Prop :=
  match calls.getLast? with
  | none => ZeroSector dev 0
  | some (_, buffer) => buffer Block.sectorSize = 0

theorem markerClean_iff (dev : Block) (calls : List (SourceFile × Bytes)) :
    MarkerClean dev calls ↔ ∀ i < sectorSize, lastStray dev 0 calls i = 0 := by
  unfold MarkerClean lastStray
  cases calls.getLast? with
  | none => exact Iff.rfl
  | some call =>
    constructor
    · intro hstray i _
      dsimp only at hstray ⊢
      rw [hstray, ite_self]
    · intro hzero
      have hlast := hzero 511 (by decide)
      exact hlast

theorem fsutilExtract_spec (dev : Block) (files : List SourceFile)
    (hsize : ∀ f ∈ files, f.contents.length ≤ intMax) (hroom : span files + 2 ≤ dev.size)
    (hstored : Stored dev 0 files) (hend : ZeroSector dev (span files)) :
    ∃ dev' sector, fsutilExtract dev 0 = .ok
      (files.map fun f => ⟨stripAntisocialPrefixes f.name, f.contents.length, f.contents⟩,
        dev', sector) := by
  have hfuel := length_le_span files
  have hloop := extractLoop_spec (dev.size + 1) 0 files (by omega) hsize (by omega) hstored
    (by rwa [zero_add])
  refine ⟨(dev.set 0 fun _ => 0).set 1 fun _ => 0, 0 + span files + 1, ?_⟩
  simp only [fsutilExtract, hloop, bind, Except.bind, blockWrite_of_lt (show 0 < dev.size by omega)]
  rw [blockWrite_of_lt (by rw [size_set]; omega)]
  rfl

-- Appending and extracting agree exactly where the marker comes out right and no name is
-- stripped.
theorem append_extract_agree_iff (calls : List (SourceFile × Bytes)) (dev : Block)
    (hname : ∀ c ∈ calls, (stripAntisocialPrefixes c.1.name).length ≤ 99)
    (hsize : ∀ c ∈ calls, c.1.contents.length ≤ intMax)
    (hroom : span (calls.map Prod.fst) + 2 ≤ dev.size) :
    ∃ dev', appendAll dev 0 calls = .ok (dev', span (calls.map Prod.fst)) ∧
      (Agrees dev' (calls.map Prod.fst) ↔
        ZeroSector dev (span (calls.map Prod.fst) + 1) ∧ MarkerClean dev calls ∧
        ∀ c ∈ calls, antisocial c.1.name.val = false) := by
  obtain ⟨dev', happend, hsame, hstored, hmarker, hframe⟩ := appendAll_spec calls dev 0 hname
    (by omega)
  rw [zero_add] at happend hmarker hframe
  refine ⟨dev', happend, ?_⟩
  have hfirst : ZeroSector dev' (span (calls.map fst)) ↔ MarkerClean dev calls := by
    rw [markerClean_iff]
    exact forall₂_congr fun i hi => by rw [hmarker i hi]
  have hsecond : ZeroSector dev' (span (calls.map fst) + 1) ↔
      ZeroSector dev (span (calls.map fst) + 1) := by
    unfold ZeroSector
    rw [hframe _ (.inr (lt_succ_self _))]
  have hextract := fsutilExtract_spec dev' (calls.map fst)
    (fun f hf => by
      obtain ⟨c, hc, rfl⟩ := mem_map.mp hf
      exact hsize c hc)
    (by omega) hstored
  constructor
  · rintro ⟨⟨-, hzero, hzero'⟩, dev2, sector2, hread⟩
    refine ⟨hsecond.mp hzero', hfirst.mp hzero, ?_⟩
    obtain ⟨dev3, sector3, hread'⟩ := hextract hzero
    rw [hread] at hread'
    have hfiles := congrArg fst (Except.ok.inj hread')
    intro c hc
    have hsame := map_inj_left.mp hfiles c.1 (mem_map_of_mem hc)
    rw [← stripAntisocialPrefixes_eq_self_iff]
    exact (congrArg Extracted.name hsame).symm
  · rintro ⟨hzero', hclean, hnames⟩
    have hzero := hfirst.mpr hclean
    refine ⟨⟨hstored, hzero, hsecond.mpr hzero'⟩, ?_⟩
    obtain ⟨dev3, sector3, hread⟩ := hextract hzero
    refine ⟨dev3, sector3, ?_⟩
    rw [hread]
    congr 2
    apply map_congr_left
    intro f hf
    obtain ⟨c, hc, rfl⟩ := mem_map.mp hf
    rw [extracted, (stripAntisocialPrefixes_eq_self_iff c.1.name).mpr (hnames c hc)]

def emptyFile : SourceFile := ⟨⟨[97], by decide⟩, []⟩

def strayBuffer : Bytes := fun i => if i = Block.sectorSize then 1 else 0

theorem append_extract_agree_iff_zeros :
    ∃ dev', appendAll ⟨8, fun _ _ => 0⟩ 0 [(emptyFile, fun _ => 0)] = .ok (dev', 1) ∧
      Agrees dev' [emptyFile] := by
  obtain ⟨dev', happend, hiff⟩ := append_extract_agree_iff [(emptyFile, fun _ => 0)]
    ⟨8, fun _ _ => 0⟩ (by decide) (by decide) (by decide)
  refine ⟨dev', happend, hiff.mpr ⟨fun _ _ => rfl, rfl, ?_⟩⟩
  decide

theorem append_marker_overwritten :
    (∃ dev', appendAll ⟨8, fun _ _ => 255⟩ 0 [(emptyFile, fun _ => 0)] = .ok (dev', 1) ∧
      ¬Agrees dev' [emptyFile]) ∧
    ∃ dev', appendAll ⟨8, fun _ _ => 0⟩ 0 [(emptyFile, strayBuffer)] = .ok (dev', 1) ∧
      fsutilExtract dev' 0 = .error (.badHeader 1 "not a ustar archive") := by
  constructor
  · obtain ⟨dev', happend, -, -, -, hframe⟩ := appendAll_spec [(emptyFile, fun _ => 0)]
      ⟨8, fun _ _ => 255⟩ 0 (by decide) (by decide)
    refine ⟨dev', happend, ?_⟩
    rintro ⟨⟨-, -, hzero⟩, -⟩
    have hbyte := hzero 0 (by decide)
    rw [hframe _ (.inr (by decide))] at hbyte
    exact absurd hbyte (by decide)
  · obtain ⟨dev', happend, hsize, hstored, hmarker, -⟩ := appendAll_spec [(emptyFile, strayBuffer)]
      ⟨8, fun _ _ => 0⟩ 0 (by decide) (by decide)
    have hsize' : dev'.size = 8 := hsize
    have hshort : emptyFile.contents.length ≤ intMax := by decide
    have hfirst := ustarParseHeader_of_header hshort hstored.1
    have hmarker' : ∀ i < headerSize, dev'.sectors 1 i = if i + 1 = sectorSize then 1 else 0 :=
      hmarker
    have hsecond : ustarParseHeader (dev'.sectors 1) = .error "not a ustar archive" := by
      rw [ustarParseHeader_congr hmarker']
      decide +kernel
    have hcopy : copyIn emptyFile.contents.length dev' 1 emptyFile.contents.length = .ok ([], 1) := rfl
    refine ⟨dev', happend, ?_⟩
    simp only [fsutilExtract, hsize', extractLoop, blockRead_of_lt (show 0 < dev'.size by omega),
      Except.mapError, hfirst, hcopy, blockRead_of_lt (show 1 < dev'.size by omega), hsecond, bind,
      Except.bind, zero_add]

end Pintos.Filesys.Fsutil
