import Pintos.Filesys.Inode.Balance
import Pintos.Filesys.Inode.Lookup

namespace Pintos.Filesys.Inodes

open Function Lib LibKernel Devices List

variable {α β : Type} {fs fs' : Fs} {i : Inode} {inumber sector uninit : Nat} {buffer : Bytes}
  {size offset : Nat}

section Append

def AllocatesTwo (fs : Fs) : Prop :=
  ∃ s fs₁ t fs₂, allocateSector fs = .ok (some s, fs₁) ∧ allocateSector fs₁ = .ok (some t, fs₂)

-- GENGAR is acquired, and acquired again once the slot is written.
theorem appendIndirect_of_some {s t : Nat} (hgengar : fs'.held .gengar = none)
    (hdir : i.dirSectors ≤ directSectors - 1) (ht : allocateSector fs = .ok (some t, fs')) :
    appendIndirect i s fs =
      .error (if i.sector < fs'.device.size then .alreadyHeld else .device .pastDevice) := by
  refine (bind_of_ok ht).trans ?_
  dsimp only
  rw [if_pos hdir]
  refine (bind_of_ok (acquire_of_free hgengar)).trans ?_
  have hsector : setISector i i.dirSectors t (fs'.locking .gengar .exclusive).device = _ := rfl
  split
  · rename_i hlt
    have hset : setISector i i.dirSectors t fs'.device =
        .ok ((), setSlot fs'.device i i.dirSectors t) :=
      setISector_run hlt (hdir.trans (by decide))
    have hwrite : onDevice (setISector i i.dirSectors t) (fs'.locking .gengar .exclusive) =
        .ok ((), { fs'.locking .gengar .exclusive with
          device := setSlot fs'.device i i.dirSectors t }) := by
      rw [onDevice, Fs.locking, hset]
    refine (bind_of_ok hwrite).trans (bind_of_error (acquire_of_held ?_))
    change (fs'.locking .gengar .exclusive).held .gengar ≠ none
    simp [held_locking_self]
  · rename_i hge
    have hset : setISector i i.dirSectors t fs'.device = .error .pastDevice :=
      writeWord_of_ge (Nat.le_of_not_lt hge)
    refine bind_of_error ?_
    rw [onDevice, Fs.locking, hset]

theorem allocateSector_ok (h : fs.MapFree) {s : Option Nat}
    (hs : allocateSector fs = .ok (s, fs')) : fs'.MapFree ∧ fs'.device = fs.device := by
  refine ⟨((steady_allocateSector Fs.MapFree).ok h hs).2, ?_⟩
  obtain ⟨s', fs₁, hrun, -, hdevice⟩ | hrun := allocateSector_of_writable h.1 h.2
  · rw [hs] at hrun
    cases hrun
    exact hdevice
  · rw [hs] at hrun
    cases hrun

def EntersTwice (i : Inode) (fs : Fs) : Prop :=
  EntersIndirect i ∧ i.sector < fs.device.size ∧ AllocatesTwo fs

theorem append_stops (hfree : fs.MapFree) (h : EntersTwice i fs) :
    inodeAppendSector i fs = .error .alreadyHeld := by
  obtain ⟨⟨hgt, hmod, hdir⟩, hlt, s, fs₁, t, fs₂, hs, ht⟩ := h
  obtain ⟨hfree₁, hdev₁⟩ := allocateSector_ok hfree hs
  obtain ⟨hfree₂, hdev₂⟩ := allocateSector_ok hfree₁ ht
  rw [append_of_some hs, layOut, if_neg (Nat.not_le.mpr hgt), if_pos hmod,
    appendIndirect_of_some hfree₂.1 hdir ht, if_pos (by rwa [hdev₂, hdev₁])]

theorem balanced_appendIndirect {s : Nat} (hfree : fs.MapFree)
    (hdir : i.dirSectors ≤ directSectors - 1)
    (hnot : ∀ t fs', allocateSector fs = .ok (some t, fs') → ¬i.sector < fs.device.size) :
    Balanced (appendIndirect i s) fs := by
  by_cases hsome : ∃ t fs', allocateSector fs = .ok (some t, fs')
  · obtain ⟨t, fs', ht⟩ := hsome
    obtain ⟨hfree', hdev⟩ := allocateSector_ok hfree ht
    unfold Balanced
    rw [appendIndirect_of_some hfree'.1 hdir ht, if_neg (by rw [hdev]; exact hnot t fs' ht)]
    exact ⟨nofun, nofun⟩
  · refine (balanced_of_steady (steady_allocateSector Fs.MapFree) hfree).bind fun t fs' ht _ => ?_
    match t with
    | none =>
      exact balanced_of_steady ((steady_releaseSector Fs.MapFree).bind fun _ => .pure)
        (allocateSector_ok hfree ht).1
    | some t => exact absurd ⟨t, fs', ht⟩ hsome

theorem append_balanced (hfree : fs.MapFree) (hnot : ¬EntersTwice i fs) :
    Balanced (inodeAppendSector i) fs := by
  by_cases henters : EntersIndirect i
  · refine (balanced_of_steady (steady_allocateSector Fs.MapFree) hfree).bind fun s fs₁ hs _ => ?_
    obtain ⟨hfree₁, hdev₁⟩ := allocateSector_ok hfree hs
    match s with
    | none => exact ⟨rfl, rfl⟩
    | some s =>
      dsimp only
      rw [layOut, if_neg (Nat.not_le.mpr henters.1), if_pos henters.2.1]
      refine balanced_appendIndirect hfree₁ henters.2.2 fun t fs₂ ht hlt => ?_
      exact hnot ⟨henters, by rwa [← hdev₁], s, fs₁, t, fs₂, hs, ht⟩
  · exact balanced_of_steady (steady_append Fs.MapFree henters) hfree

theorem balanced_append_iff (hfree : fs.MapFree) :
    Balanced (inodeAppendSector i) fs ↔ ¬EntersTwice i fs :=
  ⟨fun hbalanced h => not_balanced (append_stops hfree h) (by simp [NotLock]) hbalanced,
    append_balanced hfree⟩

end Append

section Write

-- The calls of inode_append_sector that a write makes, each with the state it is made in.
abbrev Calls := List (Inode × Fs)

def callsAfter (x : M α) (calls : α → Fs → Calls) (fs : Fs) : Calls :=
  match x fs with
  | .ok (a, fs') => calls a fs'
  | .error _ => []

def growCalls (offset : Nat) : Nat → Inode → Int → Fs → Calls
  | 0, _, _, _ => []
  | fuel + 1, i, length, fs =>
    if length < offset then
      [(i, fs)] ++ callsAfter (inodeAppendSector i) (fun r fs =>
        match r with
        | (_, none) => []
        | (i, some _) => growCalls offset fuel i (length + Block.sectorSize) fs) fs
    else []

def writeLoopCalls (buffer : Bytes) (inodeSector : Nat) : Nat → Inode → Int → Nat → Nat → Fs → Calls
  | 0, _, _, _, _, _ => []
  | fuel + 1, i, length, size, offset, fs =>
    if 0 < size then
      growCalls offset 1 i length fs ++ callsAfter (growLoop offset 1 i length) (fun r fs =>
        match r with
        | (_, none) => []
        | (i, some length) =>
          let chunk := chunkSize size offset
          callsAfter (writeSector buffer inodeSector i offset chunk) (fun _ fs =>
            writeLoopCalls buffer inodeSector fuel i length (size - chunk) (offset + chunk) fs) fs) fs
    else []

def writeCalls (inodeSector : Nat) (i : Inode) (buffer : Bytes) (size offset : Nat) (fs : Fs) :
    Calls :=
  if i.denyWriteCnt ≠ 0 then []
  else
    let fuel := (offset - i.length).toNat
    growCalls offset fuel i i.length fs ++ callsAfter (growLoop offset fuel i i.length)
      (fun r fs =>
        match r with
        | (_, none) => []
        | (i, some length) => writeLoopCalls buffer inodeSector size i length size offset fs) fs

def appendCalls (i : Inode) (buffer : Bytes) (size offset : Nat) (fs : Fs) : Calls :=
  writeCalls ((inodeSectorFromInumber fs i.inumber).getD (2 ^ 32 - 1)) i buffer size offset
    (fs.locking (.sl i.inumber) .exclusive)

def NoneTwice (calls : Calls) : Prop := ∀ c ∈ calls, ¬EntersTwice c.1 c.2

-- The program is balanced if no call acquires GENGAR twice, and stops at the first one that does.
structure Traced (x : M α) (fs : Fs) (calls : Calls) : Prop where
  balanced : NoneTwice calls → Balanced x fs
  stops : ¬NoneTwice calls → x fs = .error .alreadyHeld

namespace Traced

variable {x : M α} {f : α → M β} {calls : Calls}

theorem iff (h : Traced x fs calls) : Balanced x fs ↔ NoneTwice calls :=
  ⟨fun hbalanced => by_contra fun hcalls => not_balanced (h.stops hcalls) (by simp [NotLock])
    hbalanced, h.balanced⟩

theorem of_balanced (h : Balanced x fs) : Traced x fs [] := ⟨fun _ => h, fun h => absurd nofun h⟩

theorem pure {a : α} : Traced (pure a : M α) fs [] := of_balanced ⟨rfl, rfl⟩

theorem bind {later : α → Fs → Calls} (hfree : fs.MapFree) (h : Traced x fs calls)
    (hf : ∀ a fs', fs'.MapFree → Traced (f a) fs' (later a fs')) :
    Traced (x >>= f) fs (calls ++ callsAfter x later fs) := by
  unfold callsAfter
  by_cases hcalls : NoneTwice calls
  · have hbalanced := h.balanced hcalls
    match hrun : x fs with
    | .error fault =>
      rw [append_nil]
      refine ⟨fun _ => hbalanced.bind fun a fs' hok _ => ?_, fun hnot => absurd hcalls hnot⟩
      rw [hrun] at hok
      cases hok
    | .ok (a, fs') =>
      unfold Balanced at hbalanced
      rw [hrun] at hbalanced
      have hlater := hf a fs' (Quiet.same hfree hbalanced)
      have hall : NoneTwice (calls ++ later a fs') ↔ NoneTwice (later a fs') :=
        forall_mem_append.trans (and_iff_right hcalls)
      exact ⟨fun h => .of_run hbalanced (hlater.balanced (hall.mp h)) (bind_of_ok hrun),
        fun hnot => (bind_of_ok hrun).trans (hlater.stops fun h => hnot (hall.mpr h))⟩
  · have hstop := h.stops hcalls
    rw [hstop, append_nil]
    exact ⟨fun h => absurd h hcalls, fun _ => bind_of_error hstop⟩

theorem bind_balanced (hfree : fs.MapFree) (h : Traced x fs calls)
    (hf : ∀ a fs', Balanced (f a) fs') : Traced (x >>= f) fs calls := by
  have hnil : callsAfter x (fun _ _ => []) fs = [] := by
    unfold callsAfter
    split <;> rfl
  have hbind : Traced (x >>= f) fs (calls ++ callsAfter x (fun _ _ => []) fs) :=
    h.bind hfree fun a fs' _ => of_balanced (hf a fs')
  rwa [hnil, append_nil] at hbind

end Traced

theorem traced_append (hfree : fs.MapFree) : Traced (inodeAppendSector i) fs [(i, fs)] :=
  ⟨fun h => append_balanced hfree (h _ mem_cons_self), fun h =>
    append_stops hfree (not_not.mp fun hnot => h (forall_mem_singleton.mpr hnot))⟩

theorem traced_growLoop (hfree : fs.MapFree) (n : Nat) (i : Inode) (length : Int) :
    Traced (growLoop offset n i length) fs (growCalls offset n i length fs) := by
  induction n generalizing i length fs with
  | zero => exact .pure
  | succ n ih =>
    rw [growLoop, growCalls]
    split
    · refine (traced_append hfree).bind hfree fun r fs' hfree' => ?_
      match r with
      | (_, none) => exact .pure
      | (j, some _) => exact ih hfree' j _
    · exact .pure

theorem traced_writeLoop (hfree : fs.MapFree) (inodeSector n : Nat) (i : Inode)
    (length : Int) (size offset written : Nat) :
    Traced (writeLoop buffer inodeSector n i length size offset written) fs
      (writeLoopCalls buffer inodeSector n i length size offset fs) := by
  induction n generalizing i length size offset written fs with
  | zero => exact .pure
  | succ n ih =>
    rw [writeLoop, writeLoopCalls]
    split
    · refine (traced_growLoop hfree 1 i length).bind hfree fun r fs' hfree' => ?_
      match r with
      | (_, none) => exact .pure
      | (j, some length) =>
        exact (Traced.of_balanced (balanced_of_steady (steady_writeSector Fs.MapFree) hfree')).bind hfree'
          fun _ fs₁ hfree₁ => ih hfree₁ ..
    · exact .pure

theorem traced_writeLocked (hfree : fs.MapFree) (inodeSector : Nat) :
    Traced (writeLocked inodeSector i buffer size offset) fs
      (writeCalls inodeSector i buffer size offset fs) := by
  unfold writeLocked writeCalls
  split
  · exact .pure
  · refine (traced_growLoop hfree _ i i.length).bind hfree fun r fs' hfree' => ?_
    match r with
    | (_, none) => exact .pure
    | (j, some length) =>
      refine (traced_writeLoop hfree' ..).bind_balanced hfree' fun r fs₁ => ?_
      match r with
      | (_, none, _) => exact ⟨rfl, rfl⟩
      | (_, some _, _) => exact ⟨rfl, rfl⟩

theorem balanced_writeAt_iff (hfree : fs.MapFree) (hsl : fs.held (.sl i.inumber) = none)
    (hfile : fs.fsMap.file ≠ some i.inumber) :
    Balanced (inodeWriteAt i buffer size offset) fs ↔
      NoneTwice (appendCalls i buffer size offset fs) := by
  have hfree' : (fs.locking (.sl i.inumber) .exclusive).MapFree := by
    refine ⟨(held_locking_of_ne (by simp)).trans hfree.1, fun file hf => ?_⟩
    rw [held_locking_of_ne fun h => hfile (by cases h; exact hf)]
    exact hfree.2 file hf
  have hget : (MonadState.get : M Fs) fs = .ok (fs, fs) := rfl
  unfold appendCalls
  rw [← (traced_writeLocked hfree' _).iff, ← balanced_withLock hsl]
  refine balanced_congr ?_
  unfold inodeWriteAt
  rw [bind_of_ok hget]

end Write

theorem balanced_readAt (hfree : fs.Free) (hsl : fs.held (.sl i.inumber) = none) :
    Balanced (inodeReadAt i buffer size offset) fs := by
  have hfree' : (fs.locking (.sl i.inumber) .shared).Free :=
    (held_locking_of_ne (by simp)).trans hfree
  refine (balanced_withLock hsl).mpr (balanced_of_steady (P := Fs.Free) ?_ hfree')
  split
  · exact .pure
  · exact steady_readLoop Fs.Free

section OpenInodes

theorem get_run (fs : Fs) : (MonadState.get : M Fs) fs = .ok (fs, fs) := rfl

theorem withInode_of_some {body : Inode → M (Inode × α)} {j : Inode} {a : α}
    (h : fs.inode? inumber = some i) (hbody : body i fs = .ok ((j, a), fs')) :
    withInode inumber body fs = .ok (a, fs'.putInode j) := by
  refine (bind_of_ok (get_run fs)).trans ?_
  rw [h]
  exact (bind_of_ok hbody).trans rfl

theorem reopen_run (hsl : fs.held (.sl inumber) = none) (h : fs.inode? inumber = some i) :
    inodeReopen inumber fs = .ok (inumber, fs.putInode { i with openCnt := i.openCnt + 1 }) := by
  have hbody : (return ({ i with openCnt := i.openCnt + 1 }, inumber) : M (Inode × Nat))
      (fs.locking (.sl inumber) .exclusive) = .ok (_, fs.locking (.sl inumber) .exclusive) := rfl
  have hlock := withLock_of_ok hsl hbody rfl
  exact withInode_of_some h hlock

theorem balanced_reopen (hsl : fs.held (.sl inumber) = none) :
    Balanced (inodeReopen inumber) fs := by
  unfold Balanced
  match h : fs.inode? inumber with
  | none =>
    have hrun : inodeReopen inumber fs = .error .badPointer := by
      refine (bind_of_ok (get_run fs)).trans ?_
      rw [h]
      rfl
    rw [hrun]
    exact ⟨nofun, nofun⟩
  | some i =>
    rw [reopen_run hsl h]
    exact ⟨rfl, rfl⟩

def Fs.locked (fs : Fs) : Fs := fs.locking .inodeLock .exclusive

theorem held_locked (fs : Fs) : fs.locked.held .inodeLock = some .exclusive := held_locking_self ..

theorem Fs.Idle.acquire (hidle : fs.Idle) :
    acquire .inodeLock .exclusive fs = .ok ((), fs.locked) := acquire_of_free (hidle.free _)

theorem Fs.Idle.release (hidle : fs.Idle) {fs' : Fs} (hheld : fs'.held = fs.locked.held) :
    release .inodeLock .exclusive fs' = .ok ((), { fs' with held := fs.held }) := by
  have hlock : fs'.held .inodeLock = some .exclusive := by rw [hheld, held_locked]
  rw [release_of_held hlock, hheld, Fs.locked, Fs.locking, update_idem, ← hidle.free .inodeLock,
    update_eq_self]

theorem Fs.Idle.not_locked (hidle : fs.Idle) {x : M α} {a : α}
    (hrun : x fs = .ok (a, fs')) (hheld : fs'.held = fs.locked.held) : ¬Balanced x fs := by
  unfold Balanced
  rw [hrun]
  intro h
  have hlock := congrFun (hheld.symm.trans h.held) .inodeLock
  rw [held_locked, hidle.free] at hlock
  cases hlock

theorem balanced_close_iff (hidle : fs.Idle) (h : fs.inode? inumber = some i) :
    Balanced (inodeClose uninit (some inumber)) fs ↔ i.openCnt = 1 := by
  let j := { i with openCnt := i.openCnt - 1 }
  have hcount : withInode inumber (fun i => do
      let i := { i with openCnt := i.openCnt - 1 }
      return (i, i)) fs.locked = .ok (j, fs.locked.putInode j) := withInode_of_some h rfl
  have hrun : inodeClose uninit (some inumber) fs = _ :=
    (bind_of_ok hidle.acquire).trans (bind_of_ok hcount)
  by_cases hone : i.openCnt = 1
  · refine iff_of_true ?_ hone
    rw [if_pos (show j.openCnt = 0 by simp [j, hone])] at hrun
    let kept := (fs.locked.putInode j).openInodes.filter fun j => j.inumber != inumber
    have hremove : (modify fun fs => { fs with openInodes := fs.openInodes.filter fun j =>
        j.inumber != inumber } : M Unit) (fs.locked.putInode j) =
          .ok ((), { fs.locked.putInode j with openInodes := kept }) := rfl
    have hrest := (hrun.trans (bind_of_ok hremove)).trans (bind_of_ok (hidle.release rfl))
    have hsame : Same fs { fs with openInodes := kept } := ⟨rfl, rfl⟩
    refine .of_run hsame (balanced_of_steady (P := Fs.Idle) ?_ hidle) hrest
    split
    · exact (steady_closeTree _).bind fun _ => steady_releaseInumber
    · exact .pure
  · rw [if_neg (show ¬j.openCnt = 0 by simp only [j]; omega)] at hrun
    exact iff_of_false (hidle.not_locked hrun rfl) hone

theorem openNew_run (hfree : fs.Free) (hsector : sector < fs.device.size) :
    openNew true inumber sector fs =
      (release .inodeLock .exclusive >>= fun _ => pure (some inumber) : M (Option Nat))
        (fs.push (openedInode (fs.device.sectors sector) inumber sector)) :=
  (bind_of_ok (withGengar_of_ok hfree (cached_of_lt hsector))).trans rfl

theorem open_eq (hidle : fs.Idle) (malloc : Bool)
    (hsector : inodeSectorFromInumber fs inumber = some sector) :
    inodeOpen malloc inumber fs = (findOpen inumber fs.openInodes >>= fun found =>
        if found then inodeReopen inumber >>= fun _ => pure (some inumber)
        else openNew malloc inumber sector) fs.locked := by
  unfold inodeOpen
  refine (bind_of_ok (get_run fs)).trans ?_
  rw [hsector, Option.getD_some]
  refine (bind_of_ok hidle.acquire).trans ?_
  exact (bind_of_ok (get_run fs.locked)).trans rfl

-- The loop gives up inode_lock in its first round, and in the second one it does not hold it.
theorem balanced_open_iff {malloc : Bool} (hidle : fs.Idle) (hvalid : inumber < fs.numInodes) :
    Balanced (inodeOpen malloc inumber) fs ↔ (fs.openInodes = [] ∧ malloc = true) ∨
      (∃ e rest, fs.openInodes = e :: rest ∧ e.inumber = inumber) ∨
      ∃ e, fs.openInodes = [e] ∧ e.inumber ≠ inumber ∧ malloc = false := by
  have hsector : inumber / inodesPerSector < fs.device.size := by
    have hdiv := Nat.div_le_self fs.device.size 100
    unfold Fs.numInodes Fs.fileBlockStart inodesPerSector at *
    omega
  have hrun := open_eq hidle malloc (if_neg (Nat.not_le.mpr hvalid))
  have hrelease : release .inodeLock .exclusive fs.locked = .ok ((), fs) := hidle.release rfl
  have hnot : release .inodeLock .exclusive fs = .error .notHeld :=
    release_of_ne (by simp [hidle.free])
  match hopen : fs.openInodes with
  | [] =>
    rw [hopen] at hrun
    match malloc with
    | true =>
      refine iff_of_true ?_ (.inl ⟨rfl, rfl⟩)
      have hfree : fs.locked.Free := (held_locking_of_ne (by simp)).trans (hidle.free .gengar)
      have hdone := (hrun.trans (openNew_run hfree hsector)).trans (bind_of_ok (hidle.release rfl))
      exact (balanced_congr (x := inodeOpen true inumber) (y := fun _ => _) hdone).mpr ⟨rfl, rfl⟩
    | false => exact iff_of_false (hidle.not_locked hrun rfl) (by simp)
  | e :: rest =>
    have hfind : findOpen inumber (e :: rest) fs.locked =
        (if e.inumber = inumber then pure true else findOpen inumber rest : M Bool) fs :=
      bind_of_ok hrelease
    rw [hopen] at hrun
    by_cases he : e.inumber = inumber
    · have hhead : fs.inode? inumber = some e := by
        unfold Fs.inode?
        rw [hopen]
        exact find?_cons_of_pos (by simp [he])
      rw [if_pos he] at hfind
      have hdone := (hrun.trans (bind_of_ok hfind)).trans
        (bind_of_ok (reopen_run (hidle.free _) hhead))
      refine iff_of_true ?_ (.inr (.inl ⟨e, rest, rfl, he⟩))
      unfold Balanced
      rw [hdone]
      exact ⟨rfl, rfl⟩
    · rw [if_neg he] at hfind
      match rest with
      | [] =>
        have htail := hrun.trans (bind_of_ok hfind)
        match malloc with
        | true =>
          have hfault := htail.trans ((openNew_run (hidle.free _) hsector).trans
            (bind_of_error (release_of_ne (by simp [Fs.push, hidle.free]))))
          exact iff_of_false (not_balanced hfault (by simp [NotLock])) (by simp [he])
        | false =>
          refine iff_of_true ?_ (.inr (.inr ⟨e, rfl, he, rfl⟩))
          unfold Balanced
          rw [htail]
          exact ⟨rfl, rfl⟩
      | e' :: rest =>
        have hfault := hrun.trans (bind_of_error (hfind.trans (bind_of_error hnot)))
        exact iff_of_false (not_balanced hfault (by simp [NotLock])) (by simp [he])

end OpenInodes

def busyInode : Inode := { blankInode with inumber := 2 }

-- The file of fs_map is inode 1; inode 2 is open once, and inode 3 twice.
def busyFs : Fs :=
  { blankFs with
    fsMap := { blankFs.fsMap with file := some 1 }
    openInodes := [busyInode, { blankInode with inumber := 3, openCnt := 2 }] }

end Pintos.Filesys.Inodes
