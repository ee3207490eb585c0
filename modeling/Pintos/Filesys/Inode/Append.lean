import Pintos.Filesys.Inode
import Pintos.Lib.Program

namespace Pintos.Filesys.Inodes

open Function Lib LibKernel Devices Block Bytes List Nat

section Device

variable {d : Block} {sector start value ofs : Nat}

theorem cached_of_lt (h : sector < d.size) : cached sector d = .ok (d.sectors sector, d) := by
  simp only [cached, read_of_lt h]

theorem cached_of_ge (h : d.size ≤ sector) : cached sector d = .error .pastDevice := by
  simp only [cached, Block.read, if_neg (Nat.not_lt.mpr h)]

theorem cacheWrite_of_le {data : List UInt8} (h : start + data.length ≤ sectorSize) :
    cacheWrite sector start data d = .ok ((), d.set sector ((d.sectors sector).write start data)) :=
  if_pos h

theorem wordAt_of_lt (h : sector < d.size) (hofs : ofs + 4 ≤ sectorSize) :
    wordAt sector ofs d = .ok ((d.sectors sector).word ofs, d) := by
  unfold wordAt
  rw [bind_of_ok (cached_of_lt h), if_pos hofs]
  rfl

theorem writeWord_of_lt (h : sector < d.size) (hstart : start + 4 ≤ sectorSize) :
    writeWord sector start value d =
      .ok ((), d.set sector ((d.sectors sector).write start (Bytes.ofWord value))) := by
  unfold writeWord
  rw [bind_of_ok (cached_of_lt h), cacheWrite_of_le (by rwa [Bytes.length_ofWord])]

theorem writeWord_of_ge (h : d.size ≤ sector) :
    writeWord sector start value d = .error .pastDevice :=
  bind_of_error (cached_of_ge h)

end Device

section Locks

variable {α : Type} {body : OnDevice α} {fs : Fs} {a : α} {d : Block} {lock : Lock} {mode : Mode}

theorem held_locking_self (fs : Fs) (lock : Lock) (mode : Mode) :
    (fs.locking lock mode).held lock = some mode := by simp [Fs.locking]

theorem held_locking_of_ne {other : Lock} (h : other ≠ lock) :
    (fs.locking lock mode).held other = fs.held other := by simp [Fs.locking, h]

theorem acquire_of_free (h : fs.held lock = none) :
    acquire lock mode fs = .ok ((), fs.locking lock mode) := if_pos h

theorem acquire_of_held (h : fs.held lock ≠ none) : acquire lock mode fs = .error .alreadyHeld :=
  if_neg h

theorem release_of_held (h : fs.held lock = some mode) :
    release lock mode fs = .ok ((), { fs with held := update fs.held lock none }) := if_pos h

theorem release_of_ne (h : fs.held lock ≠ some mode) : release lock mode fs = .error .notHeld :=
  if_neg h

theorem withLock_of_ok {x : M α} {fs' : Fs} (hfree : fs.held lock = none)
    (hx : x (fs.locking lock mode) = .ok (a, fs'))
    (hheld : fs'.held = (fs.locking lock mode).held) :
    withLock lock mode x fs = .ok (a, { fs' with held := fs.held }) := by
  have hrelease : release lock mode fs' = .ok ((), { fs' with held := fs.held }) := by
    have hmode : fs'.held lock = some mode := by rw [hheld, held_locking_self]
    rw [release_of_held hmode, hheld, Fs.locking, update_idem, ← hfree, update_eq_self]
  unfold withLock
  rw [bind_of_ok (acquire_of_free hfree), bind_of_ok hx, bind_of_ok hrelease]
  rfl

theorem withLock_of_error {x : M α} {fault : Fault} (hfree : fs.held lock = none)
    (hx : x (fs.locking lock mode) = .error fault) : withLock lock mode x fs = .error fault := by
  unfold withLock
  rw [bind_of_ok (acquire_of_free hfree), bind_of_error hx]

theorem withGengar_of_ok (hheld : fs.held .gengar = none) (h : body fs.device = .ok (a, d)) :
    withGengar body fs = .ok (a, { fs with device := d }) := by
  have hbody : onDevice body (fs.locking .gengar .exclusive) =
      .ok (a, { fs.locking .gengar .exclusive with device := d }) := by
    rw [onDevice, Fs.locking, h]
  exact withLock_of_ok hheld hbody rfl

theorem withGengar_of_error {fault : DeviceFault} (hheld : fs.held .gengar = none)
    (h : body fs.device = .error fault) : withGengar body fs = .error (.device fault) := by
  refine withLock_of_error hheld ?_
  rw [onDevice, Fs.locking, h]

end Locks

section Layout

variable (i : Inode)

theorem ofs_le : i.ofs ≤ 480 := by
  have hmod := Nat.mod_lt i.inumber (show 0 < inodesPerSector by decide)
  simp only [Inode.ofs, byteOfsInodeSector, inodesPerSector, inodeSize] at hmod ⊢
  omega

theorem iSectors_eq {idx : Nat} (h : idx ≤ 6) : iSectors i.ofs idx = i.ofs + 4 * idx := by
  have := ofs_le i
  exact Nat.mod_eq_of_lt (by omega)

theorem iSectors_add_le {idx : Nat} (h : idx ≤ 6) : iSectors i.ofs idx + 4 ≤ sectorSize := by
  have := ofs_le i
  rw [iSectors_eq i h]
  simp only [sectorSize]
  omega

end Layout

section Maps

variable {fs : Fs} {file : Nat}

theorem bitmapWrite_of_free (hgengar : fs.held .gengar = none) (hfile : fs.held (.sl file) = none) :
    bitmapWrite (some file) fs = .ok ((), fs) := by
  have hfree : (fs.locking (.sl file) .exclusive).held .gengar = none := by
    rwa [held_locking_of_ne (by simp)]
  have hgot : withGengar (pure ()) (fs.locking (.sl file) .exclusive) =
      .ok ((), fs.locking (.sl file) .exclusive) := withGengar_of_ok hfree rfl
  have hrun := withLock_of_ok hfile hgot rfl
  exact hrun

-- The lock of the file of fs_map is free.
def Fs.Writable (fs : Fs) : Prop := ∀ file, fs.fsMap.file = some file → fs.held (.sl file) = none

def Fs.take (fs : Fs) (sector : Nat) : Fs :=
  { fs with fsMap := ⟨fs.fsMap.sectors.set sector true, fs.fsMap.file, fs.fsMap.writes.tail⟩ }

theorem writeMap_of_writable (hgengar : fs.held .gengar = none) (h : fs.Writable) (sector : Nat) :
    writeMap fs.fsMap (fs.take sector) =
      .ok (fs.fsMap.file.isNone || fs.fsMap.writes.headD true, fs.take sector) := by
  unfold writeMap
  match hfile : fs.fsMap.file with
  | none => rfl
  | some file =>
    have hrun : bitmapWrite (some file) (fs.take sector) = .ok ((), fs.take sector) :=
      bitmapWrite_of_free hgengar (h file hfile)
    exact bind_of_ok hrun

theorem allocateSector_of_none (hstart : fs.fileBlockStart ≤ fs.fsMap.sectors.bitCnt)
    (hscan : fs.fsMap.sectors.scan fs.fileBlockStart 1 false = none) :
    allocateSector fs = .ok (none, fs) := by
  simp only [allocateSector, if_pos hstart, Bitmap.scanAndFlip, hscan]

theorem allocateSector_of_some {sector : Nat}
    (hstart : fs.fileBlockStart ≤ fs.fsMap.sectors.bitCnt)
    (hscan : fs.fsMap.sectors.scan fs.fileBlockStart 1 false = some sector) :
    allocateSector fs = (do
      if ← writeMap fs.fsMap then return some sector
      else
        modify (·.giveBack sector)
        return none : M (Option Nat)) (fs.take sector) := by
  simp only [allocateSector, if_pos hstart, Bitmap.scanAndFlip, hscan]
  rfl

def Fs.Available (fs : Fs) : Prop :=
  fs.fsMap.sectors.scan fs.fileBlockStart 1 false ≠ none ∧ fs.fsMap.writes.headD true = true

theorem allocate_of_available (hgengar : fs.held .gengar = none) (hw : fs.Writable)
    (hstart : fs.fileBlockStart ≤ fs.fsMap.sectors.bitCnt) (h : fs.Available) :
    ∃ sector, fs.fileBlockStart ≤ sector ∧ sector < fs.fsMap.sectors.bitCnt ∧
      fs.fsMap.sectors.bits sector = false ∧
      allocateSector fs = .ok (some sector, fs.take sector) := by
  obtain ⟨hfree, hwrite⟩ := h
  obtain ⟨sector, hscan⟩ := Option.ne_none_iff_exists'.mp hfree
  obtain ⟨hge, hlt, hbits⟩ := Bitmap.scan_eq_some hscan
  refine ⟨sector, hge, hlt, hbits sector (Run.has_iff.mpr ⟨le_refl _, by simp⟩), ?_⟩
  have hwritten := writeMap_of_writable hgengar hw sector
  rw [hwrite, Bool.or_true] at hwritten
  exact (allocateSector_of_some hstart hscan).trans (bind_of_ok hwritten)

end Maps

structure Ready (fs : Fs) : Prop where
  gengar : fs.held .gengar = none
  writable : fs.Writable
  bitCnt : fs.fsMap.sectors.bitCnt = fs.device.size
  size_lt : fs.device.size < 2 ^ 32

def Fs.setDevice (fs : Fs) (d : Block) : Fs := { fs with device := d }

variable {fs fs' : Fs} {i : Inode} {sector newSector idx value b : Nat}

theorem Ready.start_le (h : Ready fs) : fs.fileBlockStart ≤ fs.fsMap.sectors.bitCnt := by
  rw [h.bitCnt]
  exact div_le_self ..

theorem Ready.take (h : Ready fs) (sector : Nat) : Ready (fs.take sector) :=
  ⟨h.gengar, h.writable, h.bitCnt, h.size_lt⟩

theorem Ready.setDevice {d : Block} (h : Ready fs) (hsize : d.size = fs.device.size) :
    Ready (fs.setDevice d) :=
  ⟨h.gengar, h.writable, h.bitCnt.trans hsize.symm, hsize.trans_lt h.size_lt⟩

theorem allocateSector_of_available (hr : Ready fs) (h : fs.Available) :
    ∃ sector, fs.fileBlockStart ≤ sector ∧ sector < fs.device.size ∧
      fs.fsMap.sectors.bits sector = false ∧
      allocateSector fs = .ok (some sector, fs.take sector) := by
  have hrun := allocate_of_available hr.gengar hr.writable hr.start_le h
  rwa [hr.bitCnt] at hrun

theorem append_of_some (h : allocateSector fs = .ok (some newSector, fs')) :
    inodeAppendSector i fs = layOut i newSector fs' := bind_of_ok h

def zeroed (d : Block) (sector : Nat) : Block :=
  d.set sector ((d.sectors sector).write 0 (List.replicate Block.sectorSize 0))

theorem zeroed_self (d : Block) (hb : b < Block.sectorSize) :
    (zeroed d sector).sectors sector b = 0 := by
  have hlen : b < (replicate Block.sectorSize (0 : UInt8)).length := by
    rwa [length_replicate]
  have hwrite : (d.sectors sector).write 0 _ (0 + b) = _ := write_add hlen 0
  rw [Nat.zero_add] at hwrite
  rw [zeroed, sectors_set_self, hwrite, getD_replicate _ hb]

theorem zeroed_of_ne {s : Nat} (d : Block) (h : s ≠ sector) :
    (zeroed d sector).sectors s = d.sectors s := sectors_set_of_ne h

theorem zeroSector_run (hr : Ready fs) (hlt : newSector < fs.device.size) :
    zeroSector i newSector fs = .ok (({ i with sectors := i.sectors + 1 }, some newSector),
        fs.setDevice (zeroed fs.device newSector)) := by
  have hlen : 0 + (replicate Block.sectorSize (0 : UInt8)).length ≤ Block.sectorSize := by
    rw [length_replicate, Nat.zero_add]
  have hbody : (cached newSector >>= fun _ =>
      cacheWrite newSector 0 (replicate Block.sectorSize 0)) fs.device =
      .ok ((), zeroed fs.device newSector) := by
    rw [bind_of_ok (cached_of_lt hlt), cacheWrite_of_le hlen]
    rfl
  exact bind_of_ok (withGengar_of_ok hr.gengar hbody)

def setSlot (d : Block) (i : Inode) (idx value : Nat) : Block :=
  d.set i.sector ((d.sectors i.sector).write (i.ofs + 4 * idx) (Bytes.ofWord value))

def slot (d : Block) (i : Inode) (idx : Nat) : Nat := (d.sectors i.sector).word (i.ofs + 4 * idx)

theorem setISector_run {d : Block} (hi : i.sector < d.size) (hidx : idx ≤ 6) :
    setISector i idx value d = .ok ((), setSlot d i idx value) := by
  have hle := iSectors_add_le i hidx
  rw [setISector, writeWord_of_lt hi hle, iSectors_eq i hidx]
  rfl

theorem slot_setSlot_self {d : Block} (h : value < 2 ^ 32) :
    slot (setSlot d i idx value) i idx = value := by
  rw [slot, setSlot, sectors_set_self, word_write_ofWord, mod_eq_of_lt h]

theorem slot_setSlot_of_ne {d : Block} {idx' : Nat} (h : idx' ≠ idx) :
    slot (setSlot d i idx value) i idx' = slot d i idx' := by
  rw [slot, setSlot, sectors_set_self]
  apply word_write_of_disjoint
  rw [length_ofWord]
  omega

theorem directLookup_run (hr : Ready fs) (hi : i.sector < fs.device.size)
    (hidx : idx < 6) : directLookup i idx fs = .ok (slot fs.device i idx, fs) := by
  have hle := iSectors_add_le i (show idx ≤ 6 by omega)
  have hrun := withGengar_of_ok hr.gengar (wordAt_of_lt hi hle)
  rw [iSectors_eq i (by omega)] at hrun
  unfold directLookup
  rw [if_pos (show idx < directSectors from hidx), iSectors_eq i (by omega)]
  exact hrun

theorem lookupInSector_run (hr : Ready fs) (hs : sector < fs.device.size) (hidx : idx < 128) :
    lookupInSector sector idx fs = .ok ((fs.device.sectors sector).word (4 * idx), fs) := by
  have hmod : 4 * idx % 2 ^ 32 = 4 * idx := mod_eq_of_lt (by omega)
  have hle : 4 * idx + 4 ≤ Block.sectorSize := by
    simp only [Block.sectorSize]
    omega
  unfold lookupInSector
  rw [hmod]
  exact withGengar_of_ok hr.gengar (wordAt_of_lt hs hle)

theorem layOut_direct (hr : Ready fs) (hlt : i.sectors < 6) (hi : i.sector < fs.device.size)
    (hnew : newSector < fs.device.size) :
    layOut i newSector fs =
      .ok (({ i with dirSectors := i.dirSectors + 1, sectors := i.sectors + 1 }, some newSector),
        fs.setDevice (zeroed (setSlot fs.device i i.sectors newSector) newSector)) := by
  have hset : withGengar (setISector i i.sectors newSector) fs =
      .ok ((), fs.setDevice (setSlot fs.device i i.sectors newSector)) :=
    withGengar_of_ok hr.gengar (setISector_run hi (by omega))
  have hzero := zeroSector_run (i := { i with dirSectors := i.dirSectors + 1 })
    (hr.setDevice (d := setSlot fs.device i i.sectors newSector) rfl) hnew
  unfold layOut
  rw [if_pos (show i.sectors ≤ directSectors from le_of_lt hlt),
    if_pos (show i.sectors < directSectors from hlt)]
  exact (bind_of_ok hset).trans hzero

def converted (d : Block) (i : Inode) (newInd newSector : Nat) : Block :=
  let index := ((d.sectors newInd).write 0 ((d.sectors i.sector).read i.ofs 24)).write 24
    (Bytes.ofWord newSector)
  let d := setSlot (d.set newInd index) i 0 newInd
  d.set i.sector ((d.sectors i.sector).write (i.ofs + 29) [1])

section Converted

variable {d : Block} {newInd : Nat}

theorem slot_converted (h : newInd < 2 ^ 32) : slot (converted d i newInd newSector) i 0 = newInd := by
  rw [slot, converted, sectors_set_self, word_write_of_disjoint (.inl (by omega))]
  exact slot_setSlot_self h

theorem sectors_converted (hne : newInd ≠ i.sector) :
    (converted d i newInd newSector).sectors newInd =
      ((d.sectors newInd).write 0 ((d.sectors i.sector).read i.ofs 24)).write 24
        (ofWord newSector) := by
  rw [converted, sectors_set_of_ne hne, setSlot, sectors_set_of_ne hne, sectors_set_self]

theorem word_converted (hne : newInd ≠ i.sector) (hb : b < 6) :
    ((converted d i newInd newSector).sectors newInd).word (4 * b) = slot d i b := by
  rw [sectors_converted hne, word_write_of_disjoint (.inl (by omega)), slot]
  apply word_congr
  intro j hj
  have hlt : 4 * b + j < ((d.sectors i.sector).read i.ofs 24).length := by
    rw [length_read]
    omega
  have hwrite : (d.sectors newInd).write 0 _ (0 + (4 * b + j)) = _ := write_add hlt 0
  rw [Nat.zero_add] at hwrite
  rw [hwrite, getD_read (by omega), Nat.add_assoc]

theorem word_converted_last (hne : newInd ≠ i.sector) (h : newSector < 2 ^ 32) :
    ((converted d i newInd newSector).sectors newInd).word 24 = newSector := by
  rw [sectors_converted hne, word_write_ofWord, mod_eq_of_lt h]

end Converted

theorem toIndirect_run {d : Block} {newInd : Nat} (hi : i.sector < d.size)
    (hind : newInd < d.size) (hne : newInd ≠ i.sector) :
    toIndirect i newInd newSector d = .ok ((), converted d i newInd newSector) := by
  have hofs := ofs_le i
  have hread : ((d.sectors i.sector).read (iSectors i.ofs 0) (directSectors * 4)) =
      (d.sectors i.sector).read i.ofs 24 := by
    rw [iSectors_eq i (by omega)]
    rfl
  have hfirst : 0 + ((d.sectors i.sector).read i.ofs 24).length ≤ Block.sectorSize := by
    rw [length_read]
    decide
  have hword (v start : Nat) (h : start ≤ 508) : start + (ofWord v).length ≤ Block.sectorSize := by
    rw [length_ofWord]
    simp only [Block.sectorSize]
    omega
  have hlarge : largeOfs i.ofs + [(1 : UInt8)].length ≤ Block.sectorSize := by
    simp only [largeOfs, Block.sectorSize, length_cons, length_nil]
    omega
  unfold toIndirect
  rw [bind_of_ok (cached_of_lt hi), bind_of_ok (cached_of_lt hind), hread,
    bind_of_ok (cacheWrite_of_le hfirst),
    bind_of_ok (cacheWrite_of_le (hword newSector _ (by decide))), iSectors_eq i (by omega),
    bind_of_ok (cacheWrite_of_le (hword newInd _ (by omega))), cacheWrite_of_le hlarge]
  simp only [converted, setSlot, Block.set, update_idem, update_self, update_of_ne hne.symm]
  rfl

theorem layOut_convert {newInd : Nat} (hr : Ready fs) (heq : i.sectors = 6)
    (hi : i.sector < fs.device.size) (hind : newInd < fs.device.size) (hne : newInd ≠ i.sector)
    (hnew : newSector < fs.device.size)
    (halloc : allocateSector fs = .ok (some newInd, fs.take newInd)) :
    layOut i newSector fs = .ok (({ i with
              large := true, dirSectors := 0, indSectors := i.indSectors + 1,
              sectors := i.sectors + 1 }, some newSector),
        (fs.take newInd).setDevice
          (zeroed (converted fs.device i newInd newSector) newSector)) := by
  have hconv : withGengar (toIndirect i newInd newSector) (fs.take newInd) =
      .ok ((), (fs.take newInd).setDevice (converted fs.device i newInd newSector)) :=
    withGengar_of_ok hr.gengar (toIndirect_run hi hind hne)
  have hzero := zeroSector_run
    (i := { i with large := true, dirSectors := 0, indSectors := i.indSectors + 1 })
    ((hr.take newInd).setDevice (d := converted fs.device i newInd newSector) rfl) hnew
  unfold layOut
  rw [if_pos (show i.sectors ≤ directSectors from le_of_eq heq),
    if_neg (show ¬ i.sectors < directSectors by simp [heq, directSectors])]
  unfold appendConverting
  rw [bind_of_ok halloc]
  exact (bind_of_ok hconv).trans hzero

theorem layOut_stuck (hgt : 6 < i.sectors) (hmod : i.sectors % 128 ≠ 0)
    (hdir : i.dirSectors = 0) (hind : i.indSectors ≠ 0) :
    layOut i newSector fs = .error .assertion := by
  have hlookup : directLookup i (pred i.dirSectors) fs = .error .assertion := by
    have hge : ¬ pred i.dirSectors < directSectors := by
      simp only [hdir, pred, directSectors]
      omega
    unfold directLookup
    rw [if_neg hge]
    rfl
  unfold layOut
  rw [if_neg (show ¬ i.sectors ≤ directSectors from not_le.mpr hgt),
    if_neg (show ¬ i.sectors % blocknumsPerInd = 0 from hmod)]
  have henter : enterLast i newSector fs = .error .assertion := by
    unfold enterLast
    rw [if_neg hind]
    exact bind_of_error hlookup
  exact bind_of_error henter

end Pintos.Filesys.Inodes
