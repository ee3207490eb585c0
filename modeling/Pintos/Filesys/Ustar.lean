import Mathlib.Algebra.Order.BigOperators.Group.List
import Mathlib.Algebra.Module.NatInt
import Mathlib.Algebra.Order.Ring.Nat
import Pintos.Lib.Bytes
import Pintos.Lib.CString
import Pintos.LibC.Stdio

namespace Pintos.Filesys.Ustar

open Lib List Bytes Nat LibC.Stdio

def headerSize : Nat := 512

inductive UstarType
  | regular
  | directory
deriving DecidableEq

def UstarType.flag : UstarType → UInt8
  | .regular => 48
  | .directory => 53

-- snprintf (field, width + 1, "%0<width>o", value)
def octalField (width value : Nat) : List UInt8 :=
  snprintf (width + 1) (formatInteger value false false baseO (octalConversion width))

def ustar : List UInt8 := [117, 115, 116, 97, 114]

def root : List UInt8 := [114, 111, 111, 116]

def chksumStart : Nat := 148

def calculateChksum (h : Bytes) : Nat :=
  ((List.range headerSize).map fun i =>
    if chksumStart ≤ i ∧ i < chksumStart + 8 then 32 else (h i).toNat).sum

def stripPrefixes : List UInt8 → List UInt8
  | 47 :: rest => stripPrefixes rest
  | 46 :: 47 :: rest => stripPrefixes rest
  | 46 :: 46 :: 47 :: rest => stripPrefixes rest
  | fileName => fileName

theorem stripPrefixes_suffix (l : List UInt8) : stripPrefixes l <:+ l := by
  induction l using stripPrefixes.induct with
  | case1 rest ih =>
    rw [stripPrefixes]
    exact ih.trans (suffix_cons 47 rest)
  | case2 rest ih =>
    rw [stripPrefixes]
    exact ih.trans (suffix_append [46, 47] rest)
  | case3 rest ih =>
    rw [stripPrefixes]
    exact ih.trans (suffix_append [46, 46, 47] rest)
  | case4 fileName h1 h2 h3 =>
    have hself : stripPrefixes fileName = fileName := by rw [stripPrefixes] <;> assumption
    exact ⟨[], hself⟩

theorem mem_of_mem_stripPrefixes (l : List UInt8) (b : UInt8) (h : b ∈ stripPrefixes l) : b ∈ l :=
  (stripPrefixes_suffix l).subset h

def dot : CString := ⟨[46], by decide⟩

def stripAntisocialPrefixes (fileName : CString) : CString :=
  if stripPrefixes fileName.val = [] ∨ stripPrefixes fileName.val = [46, 46] then dot
  else ⟨stripPrefixes fileName.val, fun h => fileName.property (mem_of_mem_stripPrefixes _ _ h)⟩

-- The fields in the order in which they are filled in, each with its offset and, for a
-- string, its terminator; what no field covers stays zero.
def headerFields (fileName : CString) (type : UstarType) (size : Nat) :
    List (Nat × List UInt8) :=
  [(0, fileName.val ++ [0]),
    (100, octalField 7 (if type = .regular then 0o644 else 0o755)),
    (108, List.replicate 7 48 ++ [0]),
    (116, List.replicate 7 48 ++ [0]),
    (124, octalField 11 size),
    (136, octalField 11 1136102400),
    (156, [type.flag]),
    (257, ustar ++ [0]),
    (263, [48, 48]),
    (297, root ++ [0]),
    (265, root ++ [0])]

-- `header` is the buffer before the call; what follows its 512 bytes is not touched.
def ustarMakeHeader (fileName : CString) (type : UstarType) (size : Nat) (header : Bytes) :
    Option Bytes :=
  let fileName := stripAntisocialPrefixes fileName
  if 99 < fileName.length then none
  else
    let h := header.write 0 (List.replicate headerSize 0)
    let h := h.writeAll (headerFields fileName type size)
    some (h.write chksumStart (octalField 7 (calculateChksum h)))

def ulongMax : Nat := 2 ^ 32 - 1

def parseOctalField : List UInt8 → Bool → Nat → Option Nat
  | [], _, _ => none
  | c :: rest, started, value =>
    if 48 ≤ c ∧ c ≤ 55 then
      if ulongMax / 8 < value then none
      else parseOctalField rest true (c.toNat - 48 + value * 8)
    else if c = 32 ∨ c = 0 then
      if started then some value else none
    else none

def isAllZeros (block : Bytes) (cnt : Nat) : Bool := (block.read 0 cnt).all (· == 0)

inductive Parsed
  | eof
  | regular (fileName : CString) (size : Nat)
  | directory (fileName : CString)
deriving DecidableEq

def intMax : Nat := 2 ^ 31 - 1

def ustarParseHeader (h : Bytes) : Except String Parsed :=
  if isAllZeros h headerSize then .ok .eof
  else if h.read 257 6 ≠ ustar ++ [0] then .error "not a ustar archive"
  else if h.read 263 2 ≠ [48, 48] then .error "invalid ustar version"
  else
    match parseOctalField (h.read chksumStart 8) false 0 with
    | none => .error "corrupt chksum field"
    | some chksum =>
      if chksum ≠ calculateChksum h then .error "checksum mismatch"
      else if h 99 ≠ 0 ∨ h 345 ≠ 0 then .error "file name too long"
      else
        let fileName := stripAntisocialPrefixes (.ofBytes (h.read 0 100))
        if h 156 = UstarType.regular.flag then
          match parseOctalField (h.read 124 12) false 0 with
          | none => .error "corrupt file size field"
          | some size =>
            if intMax < size then .error "file too large"
            else .ok (.regular fileName size)
        else if h 156 = UstarType.directory.flag then .ok (.directory fileName)
        else .error "unimplemented file type"

theorem octalField_eq {width : Nat} (hwidth : 0 < width) (value : Nat) :
    octalField width value =
      (replicate (width - (accumulateDigits baseO false value value 0).length) 48 ++
        (accumulateDigits baseO false value value 0).reverse).take width ++ [0] := by
  rw [octalField, snprintf, if_pos width.succ_pos, formatInteger_octal hwidth,
    Nat.add_sub_cancel]

@[simp] theorem length_octalField {width : Nat} (hwidth : 0 < width) (value : Nat) :
    (octalField width value).length = width + 1 := by
  rw [octalField_eq hwidth]
  simp
  omega

theorem parseOctalField_zeros (cnt : Nat) (rest : List UInt8) (started : Bool) :
    parseOctalField (replicate cnt 48 ++ rest) started 0 =
      parseOctalField rest (started || decide (0 < cnt)) 0 := by
  induction cnt generalizing started with
  | zero => simp
  | succ cnt ih => simp [replicate_succ, parseOctalField, ih]

theorem digit_baseO (d : Fin 8) : 48 ≤ baseO.digits.getD d 0 ∧ baseO.digits.getD d 0 ≤ 55 ∧
    (baseO.digits.getD d 0).toNat = 48 + d := by
  revert d
  decide

theorem parseOctalField_digits (fuel value digitCnt : Nat) (rest : List UInt8) (started : Bool)
    (hfuel : value ≤ fuel) (hfits : value < 2 ^ 32) :
    parseOctalField ((accumulateDigits baseO false fuel value digitCnt).reverse ++ rest) started 0 =
      parseOctalField rest (started || decide (0 < value)) value := by
  induction fuel generalizing value digitCnt rest with
  | zero =>
    obtain rfl : value = 0 := by omega
    simp [accumulateDigits]
  | succ fuel ih =>
    rw [accumulateDigits]
    split
    · rename_i hzero
      simp [hzero]
    · rename_i hpos
      have hroom : ¬ulongMax / 8 < value / 8 := by
        unfold ulongMax
        omega
      -- the last digit of the value is the first one of the buffer
      obtain ⟨hlow, hhigh, hdigit⟩ := digit_baseO ⟨value % 8, Nat.mod_lt value (by decide)⟩
      have hbase : baseO.base = 8 := rfl
      rw [hbase, if_neg (by simp), nil_append, reverse_cons, append_assoc,
        ih (value / 8) (digitCnt + 1) _ (by omega) (by omega), singleton_append, parseOctalField,
        if_pos ⟨hlow, hhigh⟩, if_neg hroom, hdigit]
      have hnext : 48 + value % 8 - 48 + value / 8 * 8 = value := by omega
      rw [hnext, decide_eq_true (by omega : 0 < value), Bool.or_true]

theorem parseOctalField_octalField (width value : Nat) (hwidth : 0 < width)
    (hvalue : value < 8 ^ width) (hfits : value < 2 ^ 32) :
    parseOctalField (octalField width value) false 0 = some value := by
  have hlen := length_accumulateDigits_le baseO value value 0 width hvalue
  rw [octalField_eq hwidth, take_of_length_le (by simp; omega), append_assoc,
    parseOctalField_zeros, parseOctalField_digits value value 0 [0] _ le_rfl hfits]
  simp [parseOctalField]
  rintro hfull rfl
  have hnone : (accumulateDigits baseO false 0 0 0).length = 0 := rfl
  omega

theorem calculateChksum_lt (h : Bytes) : calculateChksum h < 8 ^ 7 := by
  have hle : calculateChksum h ≤ _ := sum_le_card_nsmul _ 255 (by
    intro v hv
    obtain ⟨i, -, rfl⟩ := mem_map.mp hv
    have hbyte := (h i).toNat_lt
    split <;> omega)
  rw [length_map, length_range, smul_eq_mul] at hle
  unfold headerSize at hle
  omega

theorem calculateChksum_congr {h h' : Bytes}
    (heq : ∀ i < headerSize, ¬(chksumStart ≤ i ∧ i < chksumStart + 8) → h i = h' i) :
    calculateChksum h = calculateChksum h' := by
  refine congrArg sum (map_congr_left fun i hi => ?_)
  split
  · rfl
  · rename_i hout
    rw [heq i (mem_range.mp hi) hout]

theorem ustarParseHeader_congr {h h' : Bytes} (heq : ∀ i < headerSize, h i = h' i) :
    ustarParseHeader h = ustarParseHeader h' := by
  have hread : ∀ start cnt, start + cnt ≤ headerSize → h.read start cnt = h'.read start cnt := by
    intro start cnt hle
    exact read_congr fun i hi => heq _ (by omega)
  have hzeros : isAllZeros h headerSize = isAllZeros h' headerSize := by
    unfold isAllZeros
    rw [hread 0 headerSize (by omega)]
  have hchksum : calculateChksum h = calculateChksum h' :=
    calculateChksum_congr fun i hi _ => heq i hi
  unfold ustarParseHeader
  rw [hzeros, hchksum, hread 257 6 (by decide), hread 263 2 (by decide),
    hread chksumStart 8 (by decide), hread 0 100 (by decide), hread 124 12 (by decide),
    heq 99 (by decide), heq 345 (by decide), heq 156 (by decide)]

theorem stripPrefixes_idem (l : List UInt8) : stripPrefixes (stripPrefixes l) = stripPrefixes l := by
  induction l using stripPrefixes.induct with
  | case1 rest ih | case2 rest ih | case3 rest ih => rwa [stripPrefixes]
  | case4 fileName h1 h2 h3 =>
    have hself : stripPrefixes fileName = fileName := by rw [stripPrefixes] <;> assumption
    rw [hself, hself]

theorem val_stripAntisocialPrefixes (fileName : CString) : (stripAntisocialPrefixes fileName).val =
      if stripPrefixes fileName.val = [] ∨ stripPrefixes fileName.val = [46, 46] then [46]
      else stripPrefixes fileName.val := by
  unfold stripAntisocialPrefixes
  split
  · rfl
  · rfl

theorem stripAntisocialPrefixes_idem (fileName : CString) :
    stripAntisocialPrefixes (stripAntisocialPrefixes fileName) =
      stripAntisocialPrefixes fileName := by
  by_cases hspecial : stripPrefixes fileName.val = [] ∨ stripPrefixes fileName.val = [46, 46]
  · have hdot : stripAntisocialPrefixes fileName = dot := if_pos hspecial
    rw [hdot]
    decide
  · have hval := val_stripAntisocialPrefixes fileName
    rw [if_neg hspecial] at hval
    apply Subtype.ext
    rw [val_stripAntisocialPrefixes, hval, stripPrefixes_idem, if_neg hspecial]

def antisocial : List UInt8 → Bool
  | [] => true
  | 47 :: _ => true
  | 46 :: 47 :: _ => true
  | 46 :: 46 :: 47 :: _ => true
  | [46, 46] => true
  | _ => false

theorem stripped_ne {l : List UInt8} (rest : List UInt8) (hlt : rest.length < l.length)
    (hdot : l ≠ [46])
    (hstrip : stripPrefixes l = stripPrefixes rest) :
    (if stripPrefixes l = [] ∨ stripPrefixes l = [46, 46] then [46] else stripPrefixes l) ≠ l := by
  split
  · exact hdot.symm
  · intro heq
    have hle := (stripPrefixes_suffix rest).length_le
    rw [← hstrip, heq] at hle
    omega

theorem stripAntisocialPrefixes_eq_self_iff (fileName : CString) :
    stripAntisocialPrefixes fileName = fileName ↔ antisocial fileName.val = false := by
  rw [Subtype.ext_iff, val_stripAntisocialPrefixes]
  generalize fileName.val = l
  fun_cases antisocial l with
  | case1 => simp [stripPrefixes]
  | case2 rest =>
    exact iff_of_false (stripped_ne rest (by simp) (by simp) (by rw [stripPrefixes])) (by simp)
  | case3 rest =>
    have hlt : rest.length < (46 :: 47 :: rest).length := by simp only [length_cons]; omega
    exact iff_of_false (stripped_ne rest hlt (by simp) (by rw [stripPrefixes])) (by simp)
  | case4 rest =>
    have hlt : rest.length < (46 :: 46 :: 47 :: rest).length := by simp only [length_cons]; omega
    exact iff_of_false (stripped_ne rest hlt (by simp) (by rw [stripPrefixes])) (by simp)
  | case5 => decide
  | case6 _ hnil hslash hdot hdots hparent =>
    have hself : stripPrefixes l = l := by rw [stripPrefixes] <;> assumption
    rw [hself, if_neg (not_or.mpr ⟨hnil, hparent⟩)]
    simp

theorem antisocial_eq_false {l : List UInt8} (h : antisocial l = false) :
    l ≠ [] ∧ ¬[47] <+: l ∧ ¬[46, 47] <+: l ∧ ¬[46, 46, 47] <+: l ∧ l ≠ [46, 46] := by
  refine ⟨?_, ?_, ?_, ?_, ?_⟩
  · rintro rfl
    cases h
  · rintro ⟨rest, rfl⟩
    simp [antisocial] at h
  · rintro ⟨rest, rfl⟩
    simp [antisocial] at h
  · rintro ⟨rest, rfl⟩
    simp [antisocial] at h
  · rintro rfl
    cases h

theorem antisocial_prefixes_stripped (fileName : CString) :
    ((stripAntisocialPrefixes fileName).val <:+ fileName.val ∨
        stripAntisocialPrefixes fileName = ⟨[46], by decide⟩) ∧
      (stripAntisocialPrefixes fileName).val ≠ [] ∧
      ¬[47] <+: (stripAntisocialPrefixes fileName).val ∧
      ¬[46, 47] <+: (stripAntisocialPrefixes fileName).val ∧
      ¬[46, 46, 47] <+: (stripAntisocialPrefixes fileName).val ∧
      (stripAntisocialPrefixes fileName).val ≠ [46, 46] ∧
      stripAntisocialPrefixes (stripAntisocialPrefixes fileName) =
        stripAntisocialPrefixes fileName := by
  have hidem := stripAntisocialPrefixes_idem fileName
  obtain ⟨hne, hslash, hdot, hdots, hparent⟩ :=
    antisocial_eq_false ((stripAntisocialPrefixes_eq_self_iff _).mp hidem)
  refine ⟨?_, hne, hslash, hdot, hdots, hparent, hidem⟩
  by_cases hspecial : stripPrefixes fileName.val = [] ∨ stripPrefixes fileName.val = [46, 46]
  · exact .inr (if_pos hspecial)
  · rw [val_stripAntisocialPrefixes, if_neg hspecial]
    exact .inl (stripPrefixes_suffix _)

section RoundTrip

variable {fileName : CString} {type : UstarType} {size : Nat} {header h : Bytes}

theorem pairwise_headerFields (type : UstarType) (hname : fileName.length ≤ 99)
    (size chksum : Nat) :
    (headerFields fileName type size ++ [(chksumStart, octalField 7 chksum)]).Pairwise
      Bytes.Apart := by
  unfold CString.length at hname
  simp [headerFields, chksumStart, ustar, root, Bytes.Apart]
  omega

theorem ustarMakeHeader_eq (hmake : ustarMakeHeader fileName type size header = some h) :
    (stripAntisocialPrefixes fileName).length ≤ 99 ∧
      h = (header.write 0 (replicate headerSize 0)).writeAll
        (headerFields (stripAntisocialPrefixes fileName) type size ++
          [(chksumStart, octalField 7 (calculateChksum h))]) := by
  simp only [ustarMakeHeader] at hmake
  split at hmake
  · cases hmake
  · rename_i hlong
    refine ⟨by omega, ?_⟩
    have heq := Option.some.inj hmake
    have hchksum : calculateChksum h = calculateChksum ((header.write 0
        (replicate headerSize 0)).writeAll
          (headerFields (stripAntisocialPrefixes fileName) type size)) := by
      rw [← heq]
      apply calculateChksum_congr
      intro i _ hout
      by_cases hlt : i < chksumStart
      · exact write_of_lt hlt
      · exact write_of_ge (by simp; omega)
    rw [hchksum, writeAll_append, ← heq]
    rfl

theorem ustarMakeHeader_gap (hmake : ustarMakeHeader fileName type size header = some h)
    {i : Nat} (hi : i < headerSize)
    (hgap : ∀ w ∈ headerFields (stripAntisocialPrefixes fileName) type size ++
      [(chksumStart, octalField 7 (calculateChksum h))], i < w.1 ∨ w.1 + w.2.length ≤ i) :
    h i = 0 := by
  obtain ⟨-, heq⟩ := ustarMakeHeader_eq hmake
  have hzero : header.write 0 (replicate headerSize 0) (0 + i) =
      (replicate headerSize 0).getD i 0 := write_add (by simpa using hi) 0
  rw [heq, writeAll_of_disjoint hgap, ← zero_add i, hzero]
  simp

structure Fields (h : Bytes) (fileName : CString) (type : UstarType) (size : Nat) : Prop where
  magic : h.read 257 6 = ustar ++ [0]
  version : h.read 263 2 = [48, 48]
  chksum : h.read chksumStart 8 = octalField 7 (calculateChksum h)
  typeflag : h.read 156 1 = [type.flag]
  size : h.read 124 12 = octalField 11 size
  noPrefix : h 345 = 0
  terminated : h 99 = 0
  name : ∃ rest, h.read 0 100 = fileName.val ++ 0 :: rest

theorem ustarMakeHeader_fields (hmake : ustarMakeHeader fileName type size header = some h) :
    Fields h (stripAntisocialPrefixes fileName) type size := by
  obtain ⟨hname, heq⟩ := ustarMakeHeader_eq hmake
  have hpair := pairwise_headerFields type hname size (calculateChksum h)
  have hfield : ∀ start data n, data.length = n →
      (start, data) ∈ headerFields (stripAntisocialPrefixes fileName) type size ++
        [(chksumStart, octalField 7 (calculateChksum h))] → h.read start n = data := by
    rintro start data n rfl hmem
    rw [heq]
    exact read_writeAll hpair hmem
  have hstring := hfield 0 ((stripAntisocialPrefixes fileName).val ++ [0]) _ rfl
    (by simp [headerFields])
  unfold CString.length at hname
  rw [length_append, length_singleton] at hstring
  constructor
  · exact hfield 257 (ustar ++ [0]) 6 rfl (by simp [headerFields])
  · exact hfield 263 [48, 48] 2 rfl (by simp [headerFields])
  · exact hfield chksumStart (octalField 7 (calculateChksum h)) 8 (by simp) (by simp)
  · exact hfield 156 [type.flag] 1 rfl (by simp [headerFields])
  · exact hfield 124 (octalField 11 size) 12 (by simp) (by simp [headerFields])
  · apply ustarMakeHeader_gap hmake (by decide)
    simp [headerFields, chksumStart, ustar, root]
    omega
  · by_cases hfull : (stripAntisocialPrefixes fileName).val.length = 99
    · have hlast : (h.read 0 100).getD 99 0 = h (0 + 99) := getD_read (by omega) 0
      rw [hfull] at hstring
      rw [hstring, getD_append_right _ _ _ _ (by omega), hfull] at hlast
      exact hlast.symm
    · apply ustarMakeHeader_gap hmake (by decide)
      simp [headerFields, chksumStart, ustar, root]
      omega
  · refine ⟨h.read ((stripAntisocialPrefixes fileName).val.length + 1)
      (100 - ((stripAntisocialPrefixes fileName).val.length + 1)), ?_⟩
    have hcnt : 100 = (stripAntisocialPrefixes fileName).val.length + 1 +
      (100 - ((stripAntisocialPrefixes fileName).val.length + 1)) := by omega
    conv_lhs => rw [hcnt]
    rw [read_add, hstring, zero_add, append_assoc, singleton_append]

def UstarType.parsed : UstarType → CString → Nat → Parsed
  | .regular, fileName, size => .regular fileName size
  | .directory, fileName, _ => .directory fileName

theorem ustarParseHeader_of_make
    (hmake : ustarMakeHeader fileName type size header = some h) (hsize : size ≤ intMax) :
    ustarParseHeader h = .ok (type.parsed (stripAntisocialPrefixes fileName) size) := by
  have hf := ustarMakeHeader_fields hmake
  unfold intMax at hsize
  have hnonzero : isAllZeros h headerSize = false := by
    have hbyte : (h.read 257 6).getD 0 0 = h (257 + 0) := getD_read (by omega) 0
    rw [hf.magic] at hbyte
    unfold isAllZeros
    rw [all_eq_false]
    refine ⟨h 257, ?_, ?_⟩
    · exact mem_map.mpr ⟨257, mem_range.mpr (by decide), by simp⟩
    · rw [← add_zero 257, ← hbyte]
      decide
  have hflag : h 156 = type.flag := by
    have hbyte : (h.read 156 1).getD 0 0 = h (156 + 0) := getD_read (by omega) 0
    rw [hf.typeflag] at hbyte
    exact hbyte.symm
  have hchksum := parseOctalField_octalField 7 (calculateChksum h) (by omega) (calculateChksum_lt h)
    (lt_trans (calculateChksum_lt h) (by decide))
  have hsizeField := parseOctalField_octalField 11 size (by omega) (by omega) (by omega)
  obtain ⟨rest, hname⟩ := hf.name
  have hstring : CString.ofBytes (h.read 0 100) = stripAntisocialPrefixes fileName := by
    rw [hname]
    exact CString.ofBytes_append_zero _ rest
  unfold ustarParseHeader
  rw [hnonzero, hf.magic, hf.version, hf.chksum, hchksum, hf.size, hsizeField, hf.noPrefix,
    hf.terminated, hflag, hstring, stripAntisocialPrefixes_idem]
  unfold intMax
  cases type with
  | regular =>
    simp [UstarType.parsed]
    omega
  | directory => simp [UstarType.flag, UstarType.parsed]

theorem ustarMakeHeader_isSome (type : UstarType) (size : Nat) (header : Bytes)
    (hname : (stripAntisocialPrefixes fileName).length ≤ 99) :
    ∃ h, ustarMakeHeader fileName type size header = some h ∧
      ∀ i, headerSize ≤ i → h i = header i := by
  simp only [ustarMakeHeader]
  rw [if_neg (by omega)]
  refine ⟨_, rfl, ?_⟩
  intro i hi
  have hi' : 512 ≤ i := hi
  unfold CString.length at hname
  rw [write_of_ge (by simp [chksumStart]; omega), writeAll_of_disjoint,
    write_of_ge (by rw [length_replicate]; omega)]
  simp [headerFields, ustar, root]
  omega

theorem ustarMakeHeader_congr {header' h' : Bytes}
    (hmake : ustarMakeHeader fileName type size header = some h)
    (hmake' : ustarMakeHeader fileName type size header' = some h') :
    ∀ i < headerSize, h i = h' i := by
  have hzero : ∀ i < headerSize, header.write 0 (replicate headerSize 0) i =
      header'.write 0 (replicate headerSize 0) i := by
    intro i hi
    rw [← zero_add i, write_add (by simpa using hi) 0, write_add (by simpa using hi) 0]
  have hfields := fun i hi => writeAll_congr (hzero i hi)
    (headerFields (stripAntisocialPrefixes fileName) type size)
  have hchksum := calculateChksum_congr fun i hi _ => hfields i hi
  simp only [ustarMakeHeader] at hmake hmake'
  split at hmake
  · cases hmake
  · rename_i hlong
    rw [if_neg hlong] at hmake'
    cases hmake
    cases hmake'
    intro i hi
    rw [hchksum]
    exact write_congr (hfields i hi)

end RoundTrip

theorem header_round_trip (fileName : CString) (type : UstarType) (size : Nat) (header : Bytes)
    (hname : (stripAntisocialPrefixes fileName).length ≤ 99) (hsize : size ≤ intMax) :
    ∃ h, ustarMakeHeader fileName type size header = some h ∧
      ustarParseHeader h = .ok (type.parsed (stripAntisocialPrefixes fileName) size) := by
  obtain ⟨h, hmake, -⟩ := ustarMakeHeader_isSome type size header hname
  exact ⟨h, hmake, ustarParseHeader_of_make hmake hsize⟩

-- "../a" with the greatest size.
theorem header_round_trip_parent :
    ∃ h, ustarMakeHeader ⟨[46, 46, 47, 97], by decide⟩ .regular 2147483647 (fun _ => 7) = some h ∧
      ustarParseHeader h = .ok (.regular ⟨[97], by decide⟩ 2147483647) :=
  header_round_trip ⟨[46, 46, 47, 97], by decide⟩ .regular 2147483647 (fun _ => 7) (by decide)
    (by decide)

end Pintos.Filesys.Ustar
