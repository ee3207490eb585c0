import Pintos.Filesys.OpenFiles
import Pintos.Userprog.Descriptors

namespace Pintos.Userprog.Fdt.Open

open Filesys.OpenFiles List State

variable {s s' : State} {held : Nat → Nat} {sector block p dir : Option Nat} {m : Allocs}
  {fdt : Fdt} {f : Nat}

-- What the allocations of the call return: for the root's inode and its struct dir, the
-- file's inode and its struct file, the descriptor, and the rehashes of the table.
structure Allocs where
  root : Option Nat
  dir : Bool
  inode : Option Nat
  file : Option Nat
  descriptor : Option Nat
  rehash : Nat → Bool

structure Fresh (s : State) (m : Allocs) : Prop where
  root : m.root.all (fun a => (s.inode a).isNone) = true
  inode : ∀ a, m.inode = some a → s.inode a = none ∧ m.root ≠ some a
  file : m.file.all (free s) = true

def rootDirInode : Nat := 1

def dirOpen (s : State) (inode : Option Nat) (dir : Bool) : Except Fault (State × Option Nat) :=
  if inode.isSome && dir then .ok (s, inode) else (s.inodeClose inode).map (·, none)

-- `sector` is what lookup finds under the name.
def dirLookup (s : State) (dir sector block : Option Nat) : Except Fault (State × Option Nat) :=
  match dir, sector with
  | some _, some n => s.inodeOpen n block
  | _, _ => .ok (s, none)

def filesysOpen (s : State) (sector : Option Nat) (m : Allocs) :
    Except Fault (State × Option Nat) := do
  let (s, root) ← s.inodeOpen rootDirInode m.root
  let (s, dir) ← dirOpen s root m.dir
  let (s, inode) ← dirLookup s dir sector m.inode
  let s ← s.inodeClose dir
  s.fileOpen inode m.file

def syscallOpen (s : State) (fdt : Fdt) (sector : Option Nat) (m : Allocs) :
    Except Fault (State × Fdt × Int) := do
  let (s, openFile) ← filesysOpen s sector m
  match openFile, m.descriptor with
  | some f, some block =>
    match fdt.fdtInsert ⟨.heap block, 0, some f⟩ m.rehash with
    | (fdt, some fd) => .ok (s, fdt, fd)
    | (fdt, none) => (s.fileClose (some f)).map (·, fdt, -1)
  | _, _ => .ok (s, fdt, -1)

def openCount (s : State) (a : Nat) : Int := (s.inode a).elim 0 (·.openCnt)

-- The new file `f` is one of the inode that the name stands for.
def Opened (s : State) (sector : Option Nat) (s' : State) (f : Nat) : Prop :=
  s.file f = none ∧ ∃ a, s'.files = ⟨f, a, false⟩ :: s.files ∧
    (s'.inode a).map (·.inumber) = sector

def Unchanged (s s' : State) : Prop :=
  s'.files = s.files ∧ ∀ a, openCount s' a = openCount s a

def Atomic (s : State) (fdt : Fdt) (sector : Option Nat) : State × Fdt × Int → Prop
  | (s', fdt', fd) =>
    (2 ≤ fd ∧ fd ∉ fdt.fds ∧ ∃ d f, fdt'.elems ~ d :: fdt.elems ∧ d.fd = fd ∧
      d.file = some f ∧ Opened s sector s' f) ∨
    (fd = -1 ∧ fdt'.elems ~ fdt.elems ∧ Unchanged s s')

theorem openCount_eq (hi : Inv held s) (a : Nat) :
    openCount s a = s.files.countP (·.inode == a) + held a := by
  unfold openCount
  cases ha : s.inode a with
  | some i => exact hi.openCnt a i ha
  | none =>
    have hheld : held a = 0 := by
      by_contra hne
      simpa [ha] using hi.reserved a (by omega)
    have hfiles : s.files.countP (·.inode == a) = 0 := by
      rw [countP_eq_zero]
      intro f hf heq
      simpa [beq_iff_eq.mp heq, ha] using hi.used f hf
    simp [hheld, hfiles]

theorem Unchanged.of_files (hi : Inv held s) (hi' : Inv held s') (h : s'.files = s.files) :
    Unchanged s s' :=
  ⟨h, fun a => by rw [openCount_eq hi, openCount_eq hi', h]⟩

theorem inodeOpen_inode {n : Nat} (h : s.inodeOpen n block = .ok (s', p)) :
    (∀ a, p = some a → (s'.inode a).map (·.inumber) = some n) ∧
      ∀ b, s.inode b = none → block ≠ some b → s'.inode b = none := by
  unfold inodeOpen at h
  cases hfind : s.openInodes.find? fun a => (s.inode a).any (·.inumber == n) with
  | some a =>
    obtain ⟨i, hi, hn⟩ : ∃ i, s.inode a = some i ∧ i.inumber = n := by
      simpa [Option.any_eq_true] using find?_some hfind
    simp only [hfind, inodeReopen, hi, Except.ok.injEq, Prod.mk.injEq] at h
    obtain ⟨rfl, rfl⟩ := h
    refine ⟨fun b hb => ?_, fun b hb _ => ?_⟩
    · cases hb
      simp [setInode, hn]
    · have hne : b ≠ a := by
        rintro rfl
        simp [hi] at hb
      simp [setInode, hne, hb]
  | none =>
    cases block with
    | none =>
      simp only [hfind, Except.ok.injEq, Prod.mk.injEq] at h
      obtain ⟨rfl, rfl⟩ := h
      exact ⟨fun a ha => (by cases ha), fun b hb _ => hb⟩
    | some a =>
      simp only [hfind, Except.ok.injEq, Prod.mk.injEq] at h
      obtain ⟨rfl, rfl⟩ := h
      refine ⟨fun b hb => ?_, fun b hb hne => ?_⟩
      · cases hb
        simp [setInode]
      · simpa [setInode, Function.update_apply, Ne.symm (by simpa using hne)] using hb

theorem inodeClose_inumber {d a : Nat} (h : s.inodeClose (some d) = .ok s')
    (ha : (s'.inode a).isSome) : (s'.inode a).map (·.inumber) = (s.inode a).map (·.inumber) := by
  simp only [inodeClose] at h
  cases hd : s.inode d with
  | none => simp [hd] at h
  | some i =>
    simp only [hd] at h
    by_cases had : a = d
    · subst had
      split_ifs at h
      · cases h
        simp at ha
      · cases h
        simp [setInode, hd]
    · split_ifs at h <;> cases h <;> simp [setInode, had]

theorem more_comm (held : Nat → Nat) (a b : Nat) : more (more held a) b = more (more held b) a := by
  by_cases hab : a = b
  · rw [hab]
  · rw [more, more_of_ne (Ne.symm hab), more, more, more_of_ne hab, more,
      Function.update_comm (Ne.symm hab)]

theorem dirOpen_spec (hi : Inv (p.elim held (more held)) s) (dir : Bool) :
    ∃ s' d, dirOpen s p dir = .ok (s', d) ∧ s'.files = s.files ∧
      Inv (d.elim held (more held)) s' ∧ (d.isSome → s' = s) := by
  cases p with
  | none => exact ⟨s, none, rfl, rfl, hi, nofun⟩
  | some a =>
    cases dir with
    | true => exact ⟨s, some a, rfl, rfl, hi, fun _ => rfl⟩
    | false =>
      obtain ⟨s', hclose, hinv, hfiles⟩ := Inv.inodeClose hi
      exact ⟨s', none, by simp [dirOpen, hclose, Except.map], hfiles, hinv, nofun⟩

theorem dirLookup_spec (sector : Option Nat) (hi : Inv held s)
    (hblock : dir.isSome → block.all (fun a => (s.inode a).isNone) = true) :
    ∃ s' q, dirLookup s dir sector block = .ok (s', q) ∧ s'.files = s.files ∧
      Inv (q.elim held (more held)) s' ∧
      ∀ a, q = some a → (s'.inode a).map (·.inumber) = sector := by
  cases dir with
  | none => exact ⟨s, none, rfl, rfl, hi, nofun⟩
  | some d =>
    cases sector with
    | none => exact ⟨s, none, rfl, rfl, hi, nofun⟩
    | some n =>
      obtain ⟨s', q, hopen, hfiles, hinv⟩ := hi.inodeOpen n (hblock rfl)
      exact ⟨s', q, hopen, hfiles, hinv, (inodeOpen_inode hopen).1⟩

theorem dirClose_spec
    (hi : Inv (p.elim (dir.elim held (more held)) (more (dir.elim held (more held)))) s) :
    ∃ s', s.inodeClose dir = .ok s' ∧ s'.files = s.files ∧ Inv (p.elim held (more held)) s' ∧
      ∀ a, p = some a → (s'.inode a).map (·.inumber) = (s.inode a).map (·.inumber) := by
  cases dir with
  | none => exact ⟨s, rfl, rfl, hi, fun _ _ => rfl⟩
  | some d =>
    have hmore : Inv (more (p.elim held (more held)) d) s := by
      cases p with
      | none => exact hi
      | some a => exact more_comm held d a ▸ hi
    obtain ⟨s', hclose, hinv, hfiles⟩ := Inv.inodeClose hmore
    refine ⟨s', hclose, hfiles, hinv, fun a ha => inodeClose_inumber hclose ?_⟩
    subst ha
    exact hinv.reserved a (by simp)

theorem filesysOpen_spec (sector : Option Nat) (hi : Inv held s) (hm : Fresh s m) :
    ∃ s' r, filesysOpen s sector m = .ok (s', r) ∧ Inv held s' ∧
      (r = none → s'.files = s.files) ∧ ∀ f, r = some f → Opened s sector s' f := by
  obtain ⟨s1, root, h1, hf1, hi1⟩ := hi.inodeOpen rootDirInode hm.root
  obtain ⟨s2, dir, h2, hf2, hi2, hsame⟩ := dirOpen_spec hi1 m.dir
  have hfresh : dir.isSome → m.inode.all (fun a => (s2.inode a).isNone) = true := by
    intro hdir
    rw [hsame hdir, Option.all_eq_true]
    intro a ha
    obtain ⟨hnone, hne⟩ := hm.inode a ha
    simp [(inodeOpen_inode h1).2 a hnone hne]
  obtain ⟨s3, inode, h3, hf3, hi3, hnum⟩ := dirLookup_spec sector hi2 hfresh
  obtain ⟨s4, h4, hf4, hi4, hkept⟩ := dirClose_spec hi3
  have hfiles : s4.files = s.files := by rw [hf4, hf3, hf2, hf1]
  obtain ⟨s5, r, h5, hi5, hnone, hsome⟩ := Inv.fileOpen hi4 (free_congr hfiles ▸ hm.file)
  refine ⟨s5, r, ?_, hi5, fun hr => (hnone hr).trans hfiles, fun f hr => ?_⟩
  · simp only [filesysOpen, h1, h2, h3, h4, h5, bind, Except.bind]
  · obtain ⟨hnew, a, ha, rfl⟩ := hsome f hr
    refine ⟨?_, a, ?_, (hkept a ha).trans (hnum a ha)⟩
    · simpa only [file, hfiles] using hnew
    · simp only [putFile, dropFile_of_none hnew, hfiles]

-- The table is full, and the file is closed again.
theorem fileClose_opened (hi : Inv held s) (hi' : Inv held s') (h : Opened s sector s' f) :
    ∃ t, s'.fileClose (some f) = .ok t ∧ Unchanged s t := by
  obtain ⟨-, a, hfiles, -⟩ := h
  have hfile : s'.file f = some ⟨f, a, false⟩ := by simp [file, hfiles]
  obtain ⟨t, hclose, hinv, hsame⟩ := Inv.inodeClose (hi'.dropFile hfile rfl)
  have hdropped : (s'.dropFile f).files = s.files := by simp [dropFile, hfiles]
  refine ⟨t, ?_, .of_files hi hinv (hsame.trans hdropped)⟩
  simp only [fileClose, fileAllowWrite, hfile, if_neg Bool.false_ne_true, hclose]

theorem insert_atomic {b : Nat} (hi : Inv held s) (hi' : Inv held s')
    (hs : fdt.Sound) (hopen : filesysOpen s sector m = .ok (s', some f))
    (h : Opened s sector s' f) (hb : m.descriptor = some b) :
    ∃ r, syscallOpen s fdt sector m = .ok r ∧ Atomic s fdt sector r := by
  have houtcome := fdtInsertFrom_outcome (int32Max - 2) 2 ⟨.heap b, 0, some f⟩ m.rehash hs.keyed
  simp only [syscallOpen, hopen, hb, fdtInsert, bind, Except.bind]
  generalize fdtInsertFrom _ _ _ _ _ = result at houtcome
  obtain ⟨fdt', assigned⟩ := result
  cases assigned with
  | some n =>
    obtain ⟨hle, hfree, -, hadd⟩ := houtcome.assigned n rfl
    exact ⟨_, rfl, .inl ⟨hle, hfree, _, f, hadd, rfl, rfl, h⟩⟩
  | none =>
    obtain ⟨t, hclose, hsame⟩ := fileClose_opened hi hi' h
    exact ⟨(t, fdt', -1), by simp only [hclose, Except.map],
      .inr ⟨rfl, (houtcome.full rfl).2, hsame⟩⟩

-- The file that filesys_open has opened stays open.
theorem not_atomic (hopen : filesysOpen s sector m = .ok (s', some f)) (h : Opened s sector s' f)
    (hb : m.descriptor = none) :
    ¬ ∃ r, syscallOpen s fdt sector m = .ok r ∧ Atomic s fdt sector r := by
  rintro ⟨r, hrun, hatomic⟩
  simp only [syscallOpen, hopen, hb, bind, Except.bind, Except.ok.injEq] at hrun
  subst hrun
  obtain ⟨hle, -⟩ | ⟨-, -, hsame, -⟩ := hatomic
  · omega
  · obtain ⟨-, a, hfiles, -⟩ := h
    rw [hfiles] at hsame
    exact absurd (congrArg List.length hsame) (by simp)

theorem open_atomic_iff (s : State) (fdt : Fdt) (sector : Option Nat) (m : Allocs)
    (held : Nat → Nat) (hi : Inv held s) (hs : fdt.Sound) (hm : Fresh s m) :
    (∃ r, syscallOpen s fdt sector m = .ok r ∧ Atomic s fdt sector r) ↔
      ¬ (m.descriptor = none ∧ ∃ s' f, filesysOpen s sector m = .ok (s', some f)) := by
  obtain ⟨s', r, hopen, hi', hnone, hsome⟩ := filesysOpen_spec sector hi hm
  cases r with
  | none =>
    refine iff_of_true ⟨(s', fdt, -1), ?_, ?_⟩ ?_
    · simp only [syscallOpen, hopen, bind, Except.bind]
    · exact .inr ⟨rfl, .refl _, .of_files hi hi' (hnone rfl)⟩
    · rintro ⟨-, t, f, hf⟩
      rw [hopen] at hf
      cases hf
  | some f =>
    cases hb : m.descriptor with
    | none => exact iff_of_false (not_atomic hopen (hsome f rfl) hb) fun h => h ⟨rfl, s', f, hopen⟩
    | some b => exact iff_of_true (insert_atomic hi hi' hs hopen (hsome f rfl) hb) (by simp)

def allocs (descriptor : Option Nat) : Allocs :=
  ⟨some 0, true, some 1, some 2, descriptor, alternate⟩

theorem allocs_fresh (descriptor : Option Nat) : Fresh Filesys.OpenFiles.start (allocs descriptor) :=
  ⟨rfl, fun a ha => ⟨rfl, by cases ha; simp [allocs]⟩, rfl⟩

theorem open_atomic_first :
    ∃ r, syscallOpen Filesys.OpenFiles.start start (some 5) (allocs (some 3)) = .ok r ∧
      Atomic Filesys.OpenFiles.start start (some 5) r :=
  (open_atomic_iff _ _ _ _ _ Inv.start Sound.start (allocs_fresh _)).mpr fun h => nomatch h.1

-- No memory for the descriptor: the file of inode 5 is open for good.
theorem open_leaks_file :
    ¬ ∃ r, syscallOpen Filesys.OpenFiles.start start (some 5) (allocs none) = .ok r ∧
      Atomic Filesys.OpenFiles.start start (some 5) r := by
  obtain ⟨s', r, hopen, -, -, hsome⟩ := filesysOpen_spec (some 5) Inv.start (allocs_fresh none)
  cases hopen
  exact not_atomic rfl (hsome 2 rfl) rfl

end Pintos.Userprog.Fdt.Open
