import Pintos.Filesys.Inode.Append

namespace Pintos.Filesys.Inodes

open Function Lib LibKernel Devices

def NotLock (fault : Fault) : Prop := fault ≠ .alreadyHeld ∧ fault ≠ .notHeld

structure Same (fs fs' : Fs) : Prop where
  held : fs'.held = fs.held
  file : fs'.fsMap.file = fs.fsMap.file

instance : IsTrans Fs Same :=
  ⟨fun _ _ _ h h' => ⟨h'.held.trans h.held, h'.file.trans h.file⟩⟩

instance : Std.Refl Same := ⟨fun _ => ⟨rfl, rfl⟩⟩

-- A condition on the locks, and on the file of fs_map, that leaves GENGAR free.
class Quiet (P : Fs → Prop) : Prop where
  gengar {fs : Fs} : P fs → fs.held .gengar = none
  same {fs fs' : Fs} : P fs → Same fs fs' → P fs'

class MapQuiet (P : Fs → Prop) : Prop extends Quiet P where
  writable {fs : Fs} : P fs → fs.Writable

abbrev Steady {α : Type} (P : Fs → Prop) (x : M α) : Prop :=
  Keeps P Same NotLock x

-- On return the locks are as before, as is which file fs_map has, and none was taken or given
-- back wrongly. A run that stops for another reason does not return.
def Balanced {α : Type} (x : M α) (fs : Fs) : Prop :=
  match x fs with
  | .ok (_, fs') => Same fs fs'
  | .error fault => NotLock fault

variable {α : Type} {fs fs' : Fs} {i : Inode} {P : Fs → Prop}
  {n sector newSector offset newInd blockIdx size idx : Nat} {buffer : Bytes} {x : M α}

theorem Same.writable (h : Same fs fs') (hw : fs.Writable) : fs'.Writable := by
  unfold Fs.Writable
  rw [h.held, h.file]
  exact hw

def Fs.Free (fs : Fs) : Prop := fs.held .gengar = none

instance : Quiet Fs.Free := ⟨id, fun h hsame => (congrFun hsame.held _).trans h⟩

def Fs.MapFree (fs : Fs) : Prop := fs.Free ∧ fs.Writable

instance : MapQuiet Fs.MapFree where
  gengar h := h.1
  same h hsame := ⟨Quiet.same h.1 hsame, hsame.writable h.2⟩
  writable h := h.2

theorem balanced_of_steady (h : Steady P x) (hP : P fs) : Balanced x fs := by
  unfold Balanced
  match hrun : x fs with
  | .ok (a, fs') => exact (h.ok hP hrun).1
  | .error fault => exact h.error hP hrun

theorem balanced_congr {x y : M α} (h : x fs = y fs) : Balanced x fs ↔ Balanced y fs := by
  unfold Balanced
  rw [h]

theorem Balanced.of_run (h : Same fs fs') (hx : Balanced x fs') {y : M α}
    (hrun : y fs = x fs') : Balanced y fs := by
  unfold Balanced at *
  rw [hrun]
  match hx' : x fs' with
  | .ok (a, fs₁) =>
    rw [hx'] at hx
    exact IsTrans.trans _ _ _ h hx
  | .error fault =>
    rw [hx'] at hx
    exact hx

theorem Balanced.bind {β : Type} {f : α → M β} (hx : Balanced x fs)
    (hf : ∀ a fs', x fs = .ok (a, fs') → Same fs fs' → Balanced (f a) fs') :
    Balanced (x >>= f) fs := by
  unfold Balanced at hx
  match hrun : x fs with
  | .error fault =>
    rw [hrun] at hx
    unfold Balanced
    rwa [bind_of_error hrun]
  | .ok (a, fs') =>
    rw [hrun] at hx
    exact .of_run hx (hf a fs' hrun hx) (bind_of_ok hrun)

theorem not_balanced {fault : Fault} (h : x fs = .error fault) (hfault : ¬NotLock fault) :
    ¬Balanced x fs := by
  unfold Balanced
  rwa [h]

theorem balanced_withLock {lock : Lock} {mode : Mode} (hfree : fs.held lock = none) :
    Balanced (withLock lock mode x) fs ↔ Balanced x (fs.locking lock mode) := by
  unfold Balanced
  match hrun : x (fs.locking lock mode) with
  | .error fault => rw [withLock_of_error hfree hrun]
  | .ok (a, fs') =>
    by_cases hheld : fs'.held = (fs.locking lock mode).held
    · rw [withLock_of_ok hfree hrun hheld]
      exact ⟨fun h => ⟨hheld, h.file⟩, fun h => ⟨rfl, h.file⟩⟩
    · refine iff_of_false (fun h => ?_) fun h => hheld h.held
      unfold withLock at h
      rw [bind_of_ok (acquire_of_free hfree), bind_of_ok hrun] at h
      by_cases hmode : fs'.held lock = some mode
      · rw [bind_of_ok (release_of_held hmode)] at h
        have hback : update fs'.held lock none = fs.held := h.held
        apply hheld
        change fs'.held = update fs.held lock (some mode)
        rw [← hback, update_idem, ← hmode, update_eq_self]
      · rw [bind_of_error (release_of_ne hmode)] at h
        exact h.2 rfl

theorem steady_assertion : Steady P (throw .assertion : M α) := Keeps.throw ⟨nofun, nofun⟩

section Quiet

variable (P) [Quiet P]

theorem steady_withGengar (body : OnDevice α) : Steady P (withGengar body) := by
  intro fs hP
  match hrun : body fs.device with
  | .ok (a, d) =>
    rw [withGengar_of_ok (Quiet.gengar hP) hrun]
    have hsame : Same fs { fs with device := d } := ⟨rfl, rfl⟩
    exact ⟨hsame, Quiet.same hP hsame⟩
  | .error fault =>
    rw [withGengar_of_error (Quiet.gengar hP) hrun]
    exact ⟨nofun, nofun⟩

theorem steady_directLookup : Steady P (directLookup i blockIdx) := by
  unfold directLookup
  split
  · exact steady_withGengar P _
  · exact steady_assertion

theorem steady_lookupInSector : Steady P (lookupInSector sector idx) := steady_withGengar P _

theorem steady_indirectLookup : Steady P (indirectLookup sector blockIdx) := by
  unfold indirectLookup
  dsimp only
  split
  · exact steady_lookupInSector P
  · exact steady_lookupInSector P

theorem steady_inodeLookup : Steady P (inodeLookup i blockIdx) := by
  unfold inodeLookup
  dsimp only
  split
  · split
    · exact (steady_directLookup P).bind fun _ => steady_indirectLookup P
    · exact (steady_directLookup P).bind fun _ =>
        (steady_indirectLookup P).bind fun _ => steady_lookupInSector P
  · exact steady_directLookup P

theorem steady_writeSector {inodeSector chunk : Nat} :
    Steady P (writeSector buffer inodeSector i offset chunk) :=
  (steady_inodeLookup P).bind fun _ => steady_withGengar P _

theorem steady_zeroSector : Steady P (zeroSector i newSector) :=
  (steady_withGengar P _).bind fun _ => .pure

theorem steady_appendFirstOf : Steady P (appendFirstOf i newSector newInd) :=
  (steady_withGengar P _).bind fun _ => steady_zeroSector P

theorem steady_appendDoubly {newDind dindOfs : Nat} :
    Steady P (appendDoubly i newSector newInd newDind dindOfs) :=
  (steady_withGengar P _).bind fun _ => steady_appendFirstOf P

theorem steady_enterLast : Steady P (enterLast i newSector) := by
  unfold enterLast
  generalize pred i.dirSectors = last
  split
  · exact steady_withGengar P _
  · refine (steady_directLookup P).bind fun finalSector => ?_
    split
    · exact (steady_indirectLookup P).bind fun _ => steady_withGengar P _
    · exact Keeps.pure.bind fun _ => steady_withGengar P _

theorem steady_readLoop {bytesRead : Nat} :
    Steady P (readLoop i n buffer size offset bytesRead) := by
  induction n generalizing buffer size offset bytesRead with
  | zero => exact .pure
  | succ n ih =>
    rw [readLoop]
    split
    · refine (steady_inodeLookup P).bind fun sector => ?_
      dsimp only
      split
      · exact .pure
      · exact (steady_withGengar P _).bind fun _ => ih
    · exact .pure

end Quiet

section Maps

theorem allocateSector_of_writable (hgengar : fs.held .gengar = none) (hw : fs.Writable) :
    (∃ s fs', allocateSector fs = .ok (s, fs') ∧ Same fs fs' ∧ fs'.device = fs.device) ∨
      allocateSector fs = .error .assertion := by
  by_cases hstart : fs.fileBlockStart ≤ fs.fsMap.sectors.bitCnt
  · left
    match hscan : fs.fsMap.sectors.scan fs.fileBlockStart 1 false with
    | none => exact ⟨none, fs, allocateSector_of_none hstart hscan, ⟨rfl, rfl⟩, rfl⟩
    | some sector =>
      rw [allocateSector_of_some hstart hscan, bind_of_ok (writeMap_of_writable hgengar hw sector)]
      cases fs.fsMap.file.isNone || fs.fsMap.writes.headD true with
      | true => exact ⟨some sector, fs.take sector, rfl, ⟨rfl, rfl⟩, rfl⟩
      | false =>
        exact ⟨none, (fs.take sector).giveBack sector, rfl, ⟨rfl, rfl⟩, rfl⟩
  · exact .inr (if_neg hstart)

variable (P) [MapQuiet P]

theorem steady_allocateSector : Steady P allocateSector := by
  intro fs hP
  obtain ⟨s, fs', hrun, hsame, -⟩ | hrun :=
    allocateSector_of_writable (Quiet.gengar hP) (MapQuiet.writable hP)
  · rw [hrun]
    exact ⟨hsame, Quiet.same hP hsame⟩
  · rw [hrun]
    exact ⟨nofun, nofun⟩

theorem file_of_release {m m' : FreeMap} {bit : Nat} (h : m.release bit = some m') :
    m'.file = m.file := by
  unfold FreeMap.release at h
  split at h
  · cases h
    rfl
  · cases h

theorem steady_freeMapRelease {map : Fs → FreeMap} {put : Fs → FreeMap → Fs} {bit : Nat}
    (hput : ∀ {fs m}, m.file = (map fs).file → Same fs (put fs m))
    (hfree : ∀ {fs file}, P fs → (map fs).file = some file → fs.held (.sl file) = none) :
    Steady P (freeMapRelease map put bit) := by
  intro fs hP
  unfold freeMapRelease
  match hrelease : (map fs).release bit with
  | none => exact ⟨nofun, nofun⟩
  | some m =>
    have hfile := file_of_release hrelease
    have hsame := hput hfile
    dsimp only
    match hm : m.file with
    | none => exact ⟨nofun, nofun⟩
    | some file =>
      have hP' := Quiet.same hP hsame
      have hsl := hfree hP (hfile.symm.trans hm)
      rw [← hsame.held] at hsl
      rw [bitmapWrite_of_free (Quiet.gengar hP') hsl]
      exact ⟨hsame, hP'⟩

theorem steady_releaseSector : Steady P (releaseSector sector) :=
  steady_freeMapRelease P (fun hfile => ⟨rfl, hfile⟩) fun hP => MapQuiet.writable hP _

def Fs.Idle (fs : Fs) : Prop := fs.held = fun _ => none

theorem Fs.Idle.free (h : fs.Idle) (lock : Lock) : fs.held lock = none := congrFun h lock

instance : MapQuiet Fs.Idle where
  gengar h := h.free _
  same h hsame := hsame.held.trans h
  writable h := fun file _ => h.free (.sl file)

theorem steady_releaseInumber {inumber : Nat} : Steady Fs.Idle (releaseInumber inumber) :=
  steady_freeMapRelease Fs.Idle (fun _ => ⟨rfl, rfl⟩) fun hP _ => hP.free _

theorem steady_appendConverting : Steady P (appendConverting i newSector) := by
  unfold appendConverting
  refine (steady_allocateSector P).bind fun newInd => ?_
  match newInd with
  | none => exact (steady_releaseSector P).bind fun _ => .pure
  | some newInd => exact (steady_withGengar P _).bind fun _ => steady_zeroSector P

-- Past the direct slots the branch that acquires GENGAR twice is not taken.
theorem steady_appendIndirect (hdir : ¬i.dirSectors ≤ directSectors - 1) :
    Steady P (appendIndirect i newSector) := by
  unfold appendIndirect
  have hgiveUp : ∀ newInd, Steady P (do
      releaseSector newSector; releaseSector newInd; return (i, none) : M (Inode × Option Nat)) :=
    fun newInd => (steady_releaseSector P).bind fun _ => (steady_releaseSector P).bind fun _ =>
      .pure
  refine (steady_allocateSector P).bind fun newInd => ?_
  match newInd with
  | none => exact (steady_releaseSector P).bind fun _ => .pure
  | some newInd =>
    dsimp only
    rw [if_neg hdir]
    split
    · refine (steady_allocateSector P).bind fun newInd' => ?_
      match newInd' with
      | none => exact hgiveUp newInd
      | some newInd' => exact (steady_withGengar P _).bind fun _ => steady_appendDoubly P
    · split
      · exact hgiveUp newInd
      · exact (steady_withGengar P _).bind fun _ => steady_appendDoubly P

def EntersIndirect (i : Inode) : Prop :=
  directSectors < i.sectors ∧ i.sectors % blocknumsPerInd = 0 ∧ i.dirSectors ≤ directSectors - 1

theorem steady_append (h : ¬EntersIndirect i) : Steady P (inodeAppendSector i) := by
  unfold inodeAppendSector
  refine (steady_allocateSector P).bind fun newSector => ?_
  match newSector with
  | none => exact .pure
  | some newSector =>
    dsimp only
    unfold layOut
    split
    · split
      · exact (steady_withGengar P _).bind fun _ => steady_zeroSector P
      · exact steady_appendConverting P
    · rename_i hgt
      split
      · rename_i hmod
        exact steady_appendIndirect P fun hdir => h ⟨Nat.lt_of_not_le hgt, hmod, hdir⟩
      · exact (steady_enterLast P).bind fun _ => steady_zeroSector P

theorem steady_closeTree {uninit : Nat} : Steady P (inodeCloseTree i uninit) := by
  refine Keeps.forM (fun currDir => ?_) _
  refine (steady_directLookup P).bind fun delDir => ?_
  refine (Keeps.forM (fun currInd => ?_) _).bind fun _ => steady_releaseSector P
  refine (steady_lookupInSector P).bind fun delInd => ?_
  refine (Keeps.forM (fun currDind => ?_) _).bind fun _ => steady_releaseSector P
  exact (steady_lookupInSector P).bind fun _ => steady_releaseSector P

end Maps

end Pintos.Filesys.Inodes
