import Pintos.Vm.Page

namespace Pintos.Vm

open Threads

def fileReadAt (length size ofs : Nat) : Nat :=
  if length < ofs then 0 else min size (length - ofs)

theorem fileReadAt_lt_iff (length size ofs : Nat) :
    fileReadAt length size ofs < size ↔ 0 < size ∧ length < ofs + size := by
  unfold fileReadAt
  split <;> omega

theorem fileReadAt_le (length size ofs : Nat) : fileReadAt length size ofs ≤ size := by
  unfold fileReadAt
  split <;> omega

structure FileData where
  length : Nat
  byte : Nat → BitVec 8
  length_lt : length < 2 ^ 31

abbrev PageBytes := Fin 4096 → BitVec 8

def fillPage (old : PageBytes) (readBytes zeroBytes : Nat) (source : Nat → BitVec 8) : PageBytes :=
  fun i => if i < readBytes then source i else if i < readBytes + zeroBytes then 0 else old i

inductive Fetched
  | fetched
  | refused
  | exited
  | panicked
deriving DecidableEq

-- file_read_at into the new page; a null file pointer is not survived.
def fetchFile (fileLength : FileRef → Nat) (e : SpEntry) : Fetched :=
  match e.fp with
  | none => .panicked
  | some file =>
    if fileReadAt (fileLength file) e.readBytes.toNat e.ofs.toNat < e.readBytes.toNat then
      .exited
    else .fetched

def frameFetch (fileLength : FileRef → Nat) (e : SpEntry) (frame : Bool) : Fetched :=
  match e.location with
  | .unmapped => if frame then .fetched else .refused
  -- the loop of swap_read has no end, and block_read panics past the end of the device
  | .swapped => .panicked
  | .filesystem =>
    if !frame then .refused
    else if e.zeroBytes ≠ pgSize then fetchFile fileLength e
    else .fetched

def fetchBytes (files : FileRef → FileData) (e : SpEntry) (old : PageBytes) : PageBytes :=
  match e.location, e.fp with
  | .filesystem, some file =>
    if e.zeroBytes ≠ pgSize then
      fillPage old e.readBytes.toNat e.zeroBytes.toNat fun i => (files file).byte (e.ofs.toNat + i)
    else fun _ => 0
  | _, _ => fun _ => 0

def ShortFile (fileLength : FileRef → Nat) (e : SpEntry) : Prop :=
  e.location = .filesystem ∧ e.zeroBytes ≠ pgSize ∧ 0 < e.readBytes.toNat ∧
    ∃ file ∈ e.fp, fileLength file < e.ofs.toNat + e.readBytes.toNat

instance (fileLength : FileRef → Nat) (e : SpEntry) : Decidable (ShortFile fileLength e) :=
  inferInstanceAs (Decidable (_ ∧ _ ∧ _ ∧ _))

theorem frameFetch_eq_exited (fileLength : FileRef → Nat) (e : SpEntry) (frame : Bool) :
    frameFetch fileLength e frame = .exited ↔ frame = true ∧ ShortFile fileLength e := by
  have hfile : fetchFile fileLength e = .exited ↔ 0 < e.readBytes.toNat ∧
      ∃ file ∈ e.fp, fileLength file < e.ofs.toNat + e.readBytes.toNat := by
    unfold fetchFile
    cases e.fp with
    | none => simp
    | some file => simp [fileReadAt_lt_iff]
  unfold frameFetch ShortFile
  cases e.location with
  | unmapped => cases frame <;> simp
  | swapped => simp
  | filesystem =>
    cases frame with
    | false => simp
    | true =>
      by_cases hzero : e.zeroBytes = pgSize
      · simp [hzero]
      · simp [hzero, hfile]

end Pintos.Vm
