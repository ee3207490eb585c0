import Pintos.Lib.TransitionSystem
import Pintos.LibKernel.Hash.Keyed

namespace Pintos.Filesys.OpenFiles

open Function List Option Lib.System

structure Inode where
  inumber : Nat
  openCnt : Int
  denyWriteCnt : Int
deriving DecidableEq

structure File where
  addr : Nat
  inode : Nat
  denyWrite : Bool
deriving DecidableEq

structure State where
  inode : Nat → Option Inode
  openInodes : List Nat
  files : List File

inductive Fault
  | assertion
  | useAfterFree
deriving DecidableEq

abbrev Result := Except Fault State

namespace State

def setInode (s : State) (a : Nat) (i : Inode) : State :=
  { s with inode := update s.inode a (some i) }

def file (s : State) (a : Nat) : Option File := s.files.find? (·.addr == a)

def dropFile (s : State) (a : Nat) : State :=
  { s with files := s.files.eraseP (·.addr == a) }

def putFile (s : State) (f : File) : State :=
  { s.dropFile f.addr with files := f :: (s.dropFile f.addr).files }

def inodeReopen (s : State) (a : Nat) : Result :=
  match s.inode a with
  | none => .error .useAfterFree
  | some i => .ok (s.setInode a { i with openCnt := i.openCnt + 1 })

def inodeOpen (s : State) (inumber : Nat) (block : Option Nat) :
    Except Fault (State × Option Nat) :=
  match s.openInodes.find? fun a => (s.inode a).any (·.inumber == inumber) with
  | some a =>
    match s.inodeReopen a with
    | .ok s' => .ok (s', some a)
    | .error fault => .error fault
  | none =>
    match block with
    | none => .ok (s, none)
    | some a =>
      .ok ({ s.setInode a ⟨inumber, 1, 0⟩ with openInodes := a :: s.openInodes }, some a)

-- The blocks of a removed inode are given back here, which touches neither count.
def inodeClose (s : State) : Option Nat → Result
  | none => .ok s
  | some a =>
    match s.inode a with
    | none => .error .useAfterFree
    | some i =>
      if i.openCnt - 1 = 0 then
        .ok { s with
          inode := update s.inode a none
          openInodes := s.openInodes.erase a }
      else .ok (s.setInode a { i with openCnt := i.openCnt - 1 })

def inodeDenyWrite (s : State) (a : Nat) : Result :=
  match s.inode a with
  | none => .error .useAfterFree
  | some i =>
    if i.denyWriteCnt + 1 ≤ i.openCnt then
      .ok (s.setInode a { i with denyWriteCnt := i.denyWriteCnt + 1 })
    else .error .assertion

def inodeAllowWrite (s : State) (a : Nat) : Result :=
  match s.inode a with
  | none => .error .useAfterFree
  | some i =>
    if 0 < i.denyWriteCnt ∧ i.denyWriteCnt ≤ i.openCnt then
      .ok (s.setInode a { i with denyWriteCnt := i.denyWriteCnt - 1 })
    else .error .assertion

def inodeWriteAt (s : State) (a : Nat) (write : State → State × Nat) :
    Except Fault (State × Nat) :=
  match s.inode a with
  | none => .error .useAfterFree
  | some i => if i.denyWriteCnt ≠ 0 then .ok (s, 0) else .ok (write s)

def fileOpen (s : State) (inode : Option Nat) (block : Option Nat) :
    Except Fault (State × Option Nat) :=
  match inode, block with
  | some a, some f => .ok (s.putFile ⟨f, a, false⟩, some f)
  | _, _ =>
    match s.inodeClose inode with
    | .ok s' => .ok (s', none)
    | .error fault => .error fault

def fileReopen (s : State) (f : Nat) (block : Option Nat) : Except Fault (State × Option Nat) :=
  match s.file f with
  | none => .error .useAfterFree
  | some file =>
    match s.inodeReopen file.inode with
    | .ok s' => s'.fileOpen (some file.inode) block
    | .error fault => .error fault

def fileDenyWrite (s : State) (f : Nat) : Result :=
  match s.file f with
  | none => .error .useAfterFree
  | some file =>
    if file.denyWrite then .ok s
    else (s.putFile { file with denyWrite := true }).inodeDenyWrite file.inode

def fileAllowWrite (s : State) (f : Nat) : Result :=
  match s.file f with
  | none => .error .useAfterFree
  | some file =>
    if file.denyWrite then
      (s.putFile { file with denyWrite := false }).inodeAllowWrite file.inode
    else .ok s

def fileClose (s : State) : Option Nat → Result
  | none => .ok s
  | some f =>
    match s.fileAllowWrite f with
    | .error fault => .error fault
    | .ok s' =>
      match s'.file f with
      | none => .error .useAfterFree
      | some file => (s'.dropFile f).inodeClose (some file.inode)

end State

inductive Label
  | open (inumber : Nat) (inodeBlock fileBlock : Option Nat)
  | reopen (f : Nat) (fileBlock : Option Nat)
  | denyWrite (f : Nat)
  | allowWrite (f : Nat)
  | close (f : Nat)
deriving DecidableEq

def exec (s : State) : Label → Result
  | .open inumber inodeBlock fileBlock =>
    match s.inodeOpen inumber inodeBlock with
    | .error fault => .error fault
    | .ok (s', inode) => (s'.fileOpen inode fileBlock).map Prod.fst
  | .reopen f fileBlock => (s.fileReopen f fileBlock).map Prod.fst
  | .denyWrite f => s.fileDenyWrite f
  | .allowWrite f => s.fileAllowWrite f
  | .close f => s.fileClose (some f)

def free (s : State) (f : Nat) : Bool := (s.file f).isNone

-- A file is used until it is closed, and malloc returns only blocks that are not in use.
def enabled (s : State) : Label → Bool
  | .open _ inodeBlock fileBlock =>
    inodeBlock.all (fun a => (s.inode a).isNone) && fileBlock.all (free s)
  | .reopen f fileBlock => (s.file f).isSome && fileBlock.all (free s)
  | .denyWrite f => (s.file f).isSome
  | .allowWrite f => (s.file f).isSome
  | .close f => (s.file f).isSome

def start : State := ⟨fun _ => none, [], []⟩

def system : Lib.System State Label where
  init s := s = start
  step s label s' := enabled s label = true ∧ exec s label = .ok s'

-- `held` counts the references to an inode that are not in a file yet, or not any more.
structure Inv (held : Nat → Nat) (s : State) : Prop where
  listed : ∀ a, a ∈ s.openInodes ↔ (s.inode a).isSome
  nodup : s.openInodes.Nodup
  inumber : ∀ a b i j, s.inode a = some i → s.inode b = some j → i.inumber = j.inumber → a = b
  used : ∀ f ∈ s.files, (s.inode f.inode).isSome
  reserved : ∀ a, 0 < held a → (s.inode a).isSome
  addrs : (s.files.map File.addr).Nodup
  openCnt : ∀ a i, s.inode a = some i → i.openCnt = s.files.countP (·.inode == a) + held a
  positive : ∀ a i, s.inode a = some i → 0 < i.openCnt
  denyWriteCnt : ∀ a i, s.inode a = some i →
    i.denyWriteCnt = s.files.countP fun f => f.inode == a && f.denyWrite

def more (held : Nat → Nat) (a : Nat) : Nat → Nat := update held a (held a + 1)

@[simp] theorem more_self (held : Nat → Nat) (a : Nat) : more held a a = held a + 1 :=
  update_self ..

theorem more_of_ne {held : Nat → Nat} {a b : Nat} (h : b ≠ a) : more held a b = held b :=
  update_of_ne h ..

variable {s s' : State} {held held' : Nat → Nat} {a b : Nat} {i j : Inode} {f : File}
  {block : Option Nat}

theorem file_addr (h : s.file b = some f) : f.addr = b := by
  simpa using find?_some h

theorem files_perm (h : s.file b = some f) : s.files ~ f :: (s.dropFile b).files :=
  LibKernel.Hash.perm_cons_eraseP h

theorem free_congr (h : s'.files = s.files) : free s' = free s := by
  funext c
  simp only [free, State.file, h]

theorem file_eq_none_iff : s.file b = none ↔ b ∉ s.files.map File.addr := by
  simp only [State.file, find?_eq_none, List.mem_map, not_exists, not_and, beq_iff_eq]

theorem dropFile_of_none (h : s.file b = none) : (s.dropFile b).files = s.files := by
  apply eraseP_of_forall_not
  intro f hf
  exact find?_eq_none.mp h f hf

def refs (s : State) (a : Nat) : Nat := s.files.countP (·.inode == a)

def denials (s : State) (a : Nat) : Nat := s.files.countP fun f => f.inode == a && f.denyWrite

-- What the invariant says of one inode.
def At (held : Nat → Nat) (s : State) (a : Nat) : Prop :=
  (s.inode a = none → refs s a + held a = 0) ∧
    ∀ i, s.inode a = some i →
      i.openCnt = refs s a + held a ∧ 0 < i.openCnt ∧ i.denyWriteCnt = denials s a

namespace Inv

theorem start : Inv (fun _ => 0) start where
  listed a := by simp [OpenFiles.start]
  nodup := nodup_nil
  inumber a b i j ha := by simp [OpenFiles.start] at ha
  used f hf := by simp [OpenFiles.start] at hf
  reserved a ha := by omega
  addrs := nodup_nil
  openCnt a i ha := by simp [OpenFiles.start] at ha
  positive a i ha := by simp [OpenFiles.start] at ha
  denyWriteCnt a i ha := by simp [OpenFiles.start] at ha

theorem countP_denied_le (files : List File) (a : Nat) :
    files.countP (fun f => f.inode == a && f.denyWrite) ≤ files.countP (·.inode == a) := by
  apply countP_mono_left
  intro f _ hf
  exact (Bool.and_eq_true_iff.mp hf).1

theorem denied_le (hi : Inv held s) (ha : s.inode a = some i) :
    0 ≤ i.denyWriteCnt ∧ i.denyWriteCnt ≤ i.openCnt := by
  have hle := countP_denied_le s.files a
  have hopen := hi.openCnt a i ha
  have hdeny := hi.denyWriteCnt a i ha
  omega

theorem denied_pos (hi : Inv held s) (hmem : f ∈ s.files) (hflag : f.denyWrite = true)
    (hinode : s.inode f.inode = some i) : 0 < i.denyWriteCnt := by
  have hpos : 0 < s.files.countP (fun g => g.inode == f.inode && g.denyWrite) :=
    countP_pos_iff.mpr ⟨f, hmem, by simp [hflag]⟩
  have hdeny := hi.denyWriteCnt f.inode i hinode
  omega

theorem denied_lt (hi : Inv held s) (hf : s.file b = some f)
    (hflag : f.denyWrite = false) (hinode : s.inode f.inode = some i) :
    i.denyWriteCnt < i.openCnt := by
  have hperm := files_perm hf
  have hle := countP_denied_le (s.dropFile b).files f.inode
  have hopen := hi.openCnt f.inode i hinode
  have hdeny := hi.denyWriteCnt f.inode i hinode
  rw [hperm.countP_eq, countP_cons_of_pos (by simp)] at hopen
  rw [hperm.countP_eq, countP_cons_of_neg (by simp [hflag])] at hdeny
  omega

theorem at_inode (hi : Inv held s) (a : Nat) : At held s a := by
  refine ⟨fun hnone => ?_, fun i ha => ⟨hi.openCnt a i ha, hi.positive a i ha,
    hi.denyWriteCnt a i ha⟩⟩
  have hrefs : refs s a = 0 := by
    refine countP_eq_zero.mpr fun f hf heq => ?_
    have hused := hi.used f hf
    rw [beq_iff_eq.mp heq, hnone] at hused
    cases hused
  have hheld : held a = 0 := by
    by_contra hne
    have hres := hi.reserved a (by omega)
    rw [hnone] at hres
    cases hres
  omega

theorem of_at (hlisted : ∀ a, a ∈ s.openInodes ↔ (s.inode a).isSome) (hnodup : s.openInodes.Nodup)
    (hinumber : ∀ a b i j, s.inode a = some i → s.inode b = some j → i.inumber = j.inumber → a = b)
    (haddrs : (s.files.map File.addr).Nodup) (hat : ∀ a, At held s a) : Inv held s where
  listed := hlisted
  nodup := hnodup
  inumber := hinumber
  used f hf := by
    rw [isSome_iff_ne_none]
    intro hnone
    have hpos : 0 < refs s f.inode := countP_pos_iff.mpr ⟨f, hf, by simp⟩
    have hzero := (hat f.inode).1 hnone
    omega
  reserved a ha := by
    rw [isSome_iff_ne_none]
    intro hnone
    have hzero := (hat a).1 hnone
    omega
  addrs := haddrs
  openCnt a i ha := ((hat a).2 i ha).1
  positive a i ha := ((hat a).2 i ha).2.1
  denyWriteCnt a i ha := ((hat a).2 i ha).2.2

section

variable (hi : Inv held s)
include hi

-- The invariant after a change that concerns one inode.
theorem change (x : Option Inode) (hinode : s'.inode = update s.inode a x)
    (hlisted : ∀ b, b ∈ s'.openInodes ↔ (update s.inode a x b).isSome)
    (hnodup : s'.openInodes.Nodup)
    (hinumber : ∀ i, x = some i → ∀ b j, b ≠ a → s.inode b = some j → j.inumber ≠ i.inumber)
    (haddrs : (s'.files.map File.addr).Nodup)
    (hother : ∀ b, b ≠ a → refs s' b = refs s b ∧ denials s' b = denials s b ∧ held' b = held b)
    (hat : At held' s' a) : Inv held' s' := by
  refine of_at (hinode ▸ hlisted) hnodup (fun b c k l hk hl hkl => ?_) haddrs fun b => ?_
  · rw [hinode] at hk hl
    by_cases hb : b = a
    · by_cases hc : c = a
      · rw [hb, hc]
      · rw [hb, update_self] at hk
        rw [update_of_ne hc] at hl
        exact absurd hkl.symm (hinumber k hk c l hc hl)
    · rw [update_of_ne hb] at hk
      by_cases hc : c = a
      · rw [hc, update_self] at hl
        exact absurd hkl (hinumber l hl b k hb hk)
      · rw [update_of_ne hc] at hl
        exact hi.inumber b c k l hk hl hkl
  · by_cases hb : b = a
    · exact hb ▸ hat
    · obtain ⟨hrefs, hdenials, hheld⟩ := hother b hb
      have hold := hi.at_inode b
      unfold At at hold ⊢
      rwa [hinode, update_of_ne hb, hrefs, hdenials, hheld]

theorem inumber_ne (ha : s.inode a = some i) (hb : b ≠ a)
    (hj : s.inode b = some j) : j.inumber ≠ i.inumber :=
  fun heq => hb (hi.inumber b a j i hj ha heq)

-- An inode whose number stays, with other counts.
theorem recount (ha : s.inode a = some i)
    (hnum : j.inumber = i.inumber) (hinode : s'.inode = update s.inode a (some j))
    (hlist : s'.openInodes = s.openInodes) (haddrs : (s'.files.map File.addr).Nodup)
    (hother : ∀ b, b ≠ a → refs s' b = refs s b ∧ denials s' b = denials s b ∧ held' b = held b)
    (hopen : j.openCnt = refs s' a + held' a) (hpos : 0 < j.openCnt)
    (hdeny : j.denyWriteCnt = denials s' a) : Inv held' s' := by
  refine hi.change (some j) hinode (fun b => ?_) (hlist ▸ hi.nodup) ?_ haddrs hother ?_
  · rw [hlist, hi.listed]
    by_cases hb : b = a
    · simp [hb, ha]
    · rw [update_of_ne hb]
  · rintro _ ⟨⟩ b k hb hk
    exact hnum ▸ hi.inumber_ne ha hb hk
  · unfold At
    rw [hinode, update_self]
    exact ⟨nofun, fun _ heq => some.inj heq ▸ ⟨hopen, hpos, hdeny⟩⟩

theorem setInode (ha : s.inode a = some i)
    (hinumber : j.inumber = i.inumber) (hdeny : j.denyWriteCnt = i.denyWriteCnt)
    (hpos : 0 < j.openCnt) (hother : ∀ b, b ≠ a → held' b = held b)
    (hopen : j.openCnt - i.openCnt = (held' a : Int) - held a) : Inv held' (s.setInode a j) := by
  have hold := hi.openCnt a i ha
  refine hi.recount ha hinumber rfl rfl hi.addrs (fun b hb => ⟨rfl, rfl, hother b hb⟩) ?_ hpos
    (hdeny.trans (hi.denyWriteCnt a i ha))
  change j.openCnt = s.files.countP (·.inode == a) + held' a
  omega

theorem inodeReopen (ha : (s.inode a).isSome) :
    ∃ s', s.inodeReopen a = .ok s' ∧ Inv (more held a) s' ∧ s'.files = s.files := by
  obtain ⟨i, hinode⟩ := isSome_iff_exists.mp ha
  have hpos := hi.positive a i hinode
  have hmore : ((more held a a : Nat) : Int) = held a + 1 := by simp
  refine ⟨s.setInode a { i with openCnt := i.openCnt + 1 }, ?_, ?_, rfl⟩
  · simp only [State.inodeReopen, hinode]
  · refine hi.setInode hinode ?_ ?_ ?_ (fun b hb => more_of_ne hb) ?_
    · rfl
    · rfl
    · show 0 < i.openCnt + 1
      omega
    · show i.openCnt + 1 - i.openCnt = _
      omega

theorem addInode {inumber : Nat} (hfree : s.inode a = none)
    (hnew : ∀ b i, s.inode b = some i → i.inumber ≠ inumber) :
    Inv (more held a) { s.setInode a ⟨inumber, 1, 0⟩ with openInodes := a :: s.openInodes } := by
  have hzero := (hi.at_inode a).1 hfree
  have hmem : a ∉ s.openInodes := by
    rw [hi.listed, hfree]
    simp
  refine hi.change (some ⟨inumber, 1, 0⟩) rfl (fun b => ?_) (nodup_cons.mpr ⟨hmem, hi.nodup⟩) ?_
    hi.addrs (fun b hb => ⟨rfl, rfl, more_of_ne hb⟩) ?_
  · by_cases hb : b = a
    · simp [hb]
    · simp [hb, hi.listed b]
  · rintro _ ⟨⟩ b j - hj
    exact hnew b j hj
  · have hdeny := countP_denied_le s.files a
    unfold At refs denials at *
    simp only [State.setInode, update_self, more_self]
    refine ⟨nofun, ?_⟩
    rintro _ ⟨⟩
    simp only
    omega

theorem inodeOpen (inumber : Nat) (hblock : block.all (fun a => (s.inode a).isNone) = true) :
    ∃ s' p, s.inodeOpen inumber block = .ok (s', p) ∧ s'.files = s.files ∧
      Inv (p.elim held (more held)) s' := by
  unfold State.inodeOpen
  cases hfind : s.openInodes.find? fun a => (s.inode a).any (·.inumber == inumber) with
  | some a =>
    have hlisted : (s.inode a).isSome := (hi.listed a).mp (mem_of_find?_eq_some hfind)
    obtain ⟨s', hreopen, hinv, hfiles⟩ := hi.inodeReopen hlisted
    exact ⟨s', some a, by simp only [hreopen], hfiles, hinv⟩
  | none =>
    cases block with
    | none => exact ⟨s, none, rfl, rfl, hi⟩
    | some a =>
      refine ⟨_, some a, rfl, rfl, hi.addInode (by simpa using hblock) ?_⟩
      intro b i hb hnum
      have hmem : b ∈ s.openInodes := (hi.listed b).mpr (by simp [hb])
      have hnot := find?_eq_none.mp hfind b hmem
      simp [hb, hnum] at hnot

end

theorem inodeClose (hi : Inv (more held a) s) :
    ∃ s', s.inodeClose (some a) = .ok s' ∧ Inv held s' ∧ s'.files = s.files := by
  obtain ⟨i, hinode⟩ := isSome_iff_exists.mp (hi.reserved a (by simp))
  have hopen := hi.openCnt a i hinode
  have hpos := hi.positive a i hinode
  rw [more_self] at hopen
  push_cast at hopen
  by_cases hlast : i.openCnt - 1 = 0
  · refine ⟨{ s with inode := update s.inode a none, openInodes := s.openInodes.erase a },
      ?_, ?_, rfl⟩
    · simp only [State.inodeClose, hinode, hlast, if_true]
    · refine hi.change none rfl (fun b => ?_) (hi.nodup.erase a) nofun hi.addrs
        (fun b hb => ⟨rfl, rfl, (more_of_ne hb).symm⟩) ⟨fun _ => ?_, fun i hi => ?_⟩
      · rw [hi.nodup.mem_erase_iff, hi.listed]
        by_cases hb : b = a
        · simp [hb]
        · simp [hb]
      · change s.files.countP (·.inode == a) + held a = 0
        omega
      · simp at hi
  · refine ⟨s.setInode a { i with openCnt := i.openCnt - 1 }, ?_, ?_, rfl⟩
    · simp only [State.inodeClose, hinode, if_neg hlast]
    · refine hi.setInode hinode ?_ ?_ ?_ (fun b hb => (more_of_ne hb).symm) ?_
      · rfl
      · rfl
      · show 0 < i.openCnt - 1
        omega
      · have hmore : ((more held a a : Nat) : Int) = held a + 1 := by simp
        show i.openCnt - 1 - i.openCnt = _
        omega

theorem addFile (hi : Inv (more held a) s) (hfree : s.file b = none) :
    Inv held (s.putFile ⟨b, a, false⟩) := by
  have hfiles : (s.putFile ⟨b, a, false⟩).files = ⟨b, a, false⟩ :: s.files := by
    simp only [State.putFile, dropFile_of_none hfree]
  obtain ⟨i, hinode⟩ := isSome_iff_exists.mp (hi.reserved a (by simp))
  have hopen := hi.openCnt a i hinode
  rw [more_self] at hopen
  refine hi.recount hinode rfl (update_eq_self_iff.mpr hinode.symm).symm rfl ?_ (fun c hc => ?_) ?_
    (hi.positive a i hinode) ?_
  · rw [hfiles, map_cons, nodup_cons]
    exact ⟨file_eq_none_iff.mp hfree, hi.addrs⟩
  · simp [refs, denials, hfiles, more_of_ne hc, Ne.symm hc]
  · simp only [refs, hfiles, countP_cons, beq_self_eq_true, if_true]
    push_cast at hopen ⊢
    omega
  · simpa [denials, hfiles] using hi.denyWriteCnt a i hinode

theorem dropFile (hi : Inv held s) (hf : s.file b = some f) (hdeny : f.denyWrite = false) :
    Inv (more held f.inode) (s.dropFile b) := by
  have hperm := files_perm hf
  obtain ⟨i, hinode⟩ := isSome_iff_exists.mp (hi.used f (mem_of_find?_eq_some hf))
  have hopen := hi.openCnt f.inode i hinode
  have hcnt := hi.denyWriteCnt f.inode i hinode
  rw [hperm.countP_eq, countP_cons] at hopen hcnt
  refine hi.recount hinode rfl (update_eq_self_iff.mpr hinode.symm).symm rfl ?_ (fun c hc => ?_) ?_
    (hi.positive _ i hinode) (by simpa [denials, hdeny] using hcnt)
  · exact (nodup_cons.mp ((hperm.map File.addr).nodup_iff.mp hi.addrs)).2
  · simp [refs, denials, hperm.countP_eq, more_of_ne hc, Ne.symm hc]
  · simp only [beq_self_eq_true, if_true] at hopen
    rw [more_self]
    unfold refs
    push_cast at hopen ⊢
    omega

theorem setFlag (hi : Inv held s) (hf : s.file b = some f) (hinode : s.inode f.inode = some i)
    (flag : Bool) (n : Int) (hn : n + f.denyWrite.toNat = i.denyWriteCnt + flag.toNat) :
    Inv held ((s.putFile { f with denyWrite := flag }).setInode f.inode
      { i with denyWriteCnt := n }) := by
  have hperm := files_perm hf
  have hfiles : ((s.putFile { f with denyWrite := flag }).setInode f.inode
      { i with denyWriteCnt := n }).files =
      { f with denyWrite := flag } :: (s.dropFile b).files := by
    simp only [State.putFile, State.setInode, file_addr hf]
  have hopen := hi.openCnt _ i hinode
  have hcnt := hi.denyWriteCnt _ i hinode
  rw [hperm.countP_eq, countP_cons] at hopen hcnt
  refine hi.recount (j := { i with denyWriteCnt := n }) hinode rfl rfl rfl ?_ (fun c hc => ?_) ?_
    (hi.positive _ i hinode) ?_
  · rw [hfiles]
    exact (hperm.map File.addr).nodup_iff.mp hi.addrs
  · simp [refs, denials, hfiles, hperm.countP_eq, Ne.symm hc]
  · simpa [refs, hfiles] using hopen
  · simp only [beq_self_eq_true, Bool.true_and] at hcnt
    simp only [denials, hfiles, countP_cons, beq_self_eq_true, Bool.true_and]
    cases hold : f.denyWrite <;> cases flag <;> simp_all

theorem fileOpen {p : Option Nat} (hi : Inv (p.elim held (more held)) s)
    (hblock : block.all (free s) = true) :
    ∃ s' r, s.fileOpen p block = .ok (s', r) ∧ Inv held s' ∧ (r = none → s'.files = s.files) ∧
      ∀ b, r = some b → s.file b = none ∧ ∃ a, p = some a ∧ s' = s.putFile ⟨b, a, false⟩ := by
  cases p with
  | none =>
    exact ⟨s, none, by simp only [State.fileOpen, State.inodeClose], hi, fun _ => rfl, nofun⟩
  | some a =>
    cases block with
    | none =>
      obtain ⟨s', hclose, hinv, hfiles⟩ := inodeClose hi
      exact ⟨s', none, by simp only [State.fileOpen, hclose], hinv, fun _ => hfiles, nofun⟩
    | some b =>
      have hfree : s.file b = none := by simpa [free] using hblock
      refine ⟨_, _, rfl, addFile hi hfree, nofun, fun c hc => ?_⟩
      cases hc
      exact ⟨hfree, a, rfl, rfl⟩

theorem fileReopen (hi : Inv held s) (hf : s.file b = some f) (hblock : block.all (free s) = true) :
    ∃ s' r, s.fileReopen b block = .ok (s', r) ∧ Inv held s' := by
  have hused := hi.used f (mem_of_find?_eq_some hf)
  obtain ⟨s', hreopen, hinv, hfiles⟩ := hi.inodeReopen hused
  obtain ⟨t, r, hopen, hinv', -⟩ := fileOpen (p := some f.inode) hinv (free_congr hfiles ▸ hblock)
  exact ⟨t, r, by simpa only [State.fileReopen, hf, hreopen] using hopen, hinv'⟩

theorem fileDenyWrite (hi : Inv held s) (hf : s.file b = some f) :
    ∃ s', s.fileDenyWrite b = .ok s' ∧ Inv held s' := by
  cases hflag : f.denyWrite with
  | true => exact ⟨s, by simp only [State.fileDenyWrite, hf, hflag, if_true], hi⟩
  | false =>
    obtain ⟨i, hinode⟩ := isSome_iff_exists.mp (hi.used f (mem_of_find?_eq_some hf))
    have hroom := hi.denied_lt hf hflag hinode
    have hput : (s.putFile { f with denyWrite := true }).inode = s.inode := rfl
    refine ⟨_, ?_, hi.setFlag hf hinode true (i.denyWriteCnt + 1) (by simp [hflag])⟩
    simp only [State.fileDenyWrite, hf, hflag, State.inodeDenyWrite, hput, hinode]
    rw [if_neg Bool.false_ne_true, if_pos (by omega)]

theorem fileAllowWrite (hi : Inv held s) (hf : s.file b = some f) :
    ∃ s', s.fileAllowWrite b = .ok s' ∧ Inv held s' ∧
      s'.file b = some { f with denyWrite := false } := by
  cases hflag : f.denyWrite with
  | false =>
    refine ⟨s, by simp [State.fileAllowWrite, hf, hflag], hi, ?_⟩
    rw [hf, ← hflag]
  | true =>
    obtain ⟨i, hinode⟩ := isSome_iff_exists.mp (hi.used f (mem_of_find?_eq_some hf))
    have hpos := hi.denied_pos (mem_of_find?_eq_some hf) hflag hinode
    have hle := hi.denied_le hinode
    have hput : (s.putFile { f with denyWrite := false }).inode = s.inode := rfl
    refine ⟨_, ?_, hi.setFlag hf hinode false (i.denyWriteCnt - 1) (by simp [hflag]), ?_⟩
    · simp only [State.fileAllowWrite, hf, hflag, if_true, State.inodeAllowWrite, hput, hinode]
      rw [if_pos ⟨hpos, hle.2⟩]
    · simp [State.file, State.putFile, State.setInode, file_addr hf]

theorem fileClose (hi : Inv held s) (hf : s.file b = some f) :
    ∃ s', s.fileClose (some b) = .ok s' ∧ Inv held s' := by
  obtain ⟨t, hallow, hinv, hfile⟩ := hi.fileAllowWrite hf
  obtain ⟨s', hclose, hinv', -⟩ := inodeClose (hinv.dropFile hfile rfl)
  exact ⟨s', by simp only [State.fileClose, hallow, hfile, hclose], hinv'⟩

theorem exec (hi : Inv (fun _ => 0) s) {label : Label} (henabled : enabled s label = true) :
    ∃ s', exec s label = .ok s' ∧ Inv (fun _ => 0) s' := by
  cases label with
  | «open» inumber inodeBlock fileBlock =>
    obtain ⟨hinode, hfile⟩ := Bool.and_eq_true_iff.mp henabled
    obtain ⟨t, p, hopened, hfiles, hinv⟩ := hi.inodeOpen inumber hinode
    obtain ⟨s', r, hfileOpen, hinv', -⟩ := fileOpen hinv (free_congr hfiles ▸ hfile)
    exact ⟨s', by simp only [OpenFiles.exec, hopened, hfileOpen, Except.map], hinv'⟩
  | reopen b fileBlock =>
    obtain ⟨hopen, hfile⟩ := Bool.and_eq_true_iff.mp henabled
    obtain ⟨f, hf⟩ := isSome_iff_exists.mp hopen
    obtain ⟨s', r, hreopen, hinv⟩ := hi.fileReopen hf hfile
    exact ⟨s', by simp only [OpenFiles.exec, hreopen, Except.map], hinv⟩
  | denyWrite b =>
    obtain ⟨f, hf⟩ := isSome_iff_exists.mp henabled
    exact hi.fileDenyWrite hf
  | allowWrite b =>
    obtain ⟨f, hf⟩ := isSome_iff_exists.mp henabled
    obtain ⟨s', hallow, hinv, -⟩ := hi.fileAllowWrite hf
    exact ⟨s', hallow, hinv⟩
  | close b =>
    obtain ⟨f, hf⟩ := isSome_iff_exists.mp henabled
    exact hi.fileClose hf

theorem of_reachable (hs : system.Reachable s) : Inv (fun _ => 0) s := by
  refine hs.invariant ?_ ?_
  · rintro t rfl
    exact Inv.start
  · rintro t label t' - hi ⟨henabled, hexec⟩
    obtain ⟨t'', hexec', hi'⟩ := hi.exec henabled
    rw [hexec] at hexec'
    cases hexec'
    exact hi'

theorem writeAt_of_denied (hi : Inv held s) (hf : f ∈ s.files) (hflag : f.denyWrite = true)
    (write : State → State × Nat) : s.inodeWriteAt f.inode write = .ok (s, 0) := by
  obtain ⟨i, hinode⟩ := isSome_iff_exists.mp (hi.used f hf)
  have hpos := hi.denied_pos hf hflag hinode
  simp only [State.inodeWriteAt, hinode]
  rw [if_pos (by omega)]

end Inv

theorem denial_accounted (hs : system.Reachable s) :
    (∀ a i, s.inode a = some i →
      0 ≤ i.denyWriteCnt ∧ i.denyWriteCnt ≤ i.openCnt ∧
        i.denyWriteCnt = s.files.countP fun f => f.inode == a && f.denyWrite) ∧
    (∀ label, enabled s label = true → ∃ s', exec s label = .ok s') ∧
    (∀ a b i j, s.inode a = some i → s.inode b = some j → i.inumber = j.inumber → a = b) ∧
    ∀ f ∈ s.files, f.denyWrite = true → ∀ write, s.inodeWriteAt f.inode write = .ok (s, 0) := by
  have hi := Inv.of_reachable hs
  refine ⟨?_, ?_, hi.inumber, ?_⟩
  · intro a i ha
    obtain ⟨hnonneg, hle⟩ := hi.denied_le ha
    exact ⟨hnonneg, hle, hi.denyWriteCnt a i ha⟩
  · intro label henabled
    obtain ⟨s', hexec, -⟩ := hi.exec henabled
    exact ⟨s', hexec⟩
  · intro f hf hflag write
    exact hi.writeAt_of_denied hf hflag write

def shared : List Label :=
  [.open 7 (some 100) (some 200), .reopen 200 (some 201), .denyWrite 201, .denyWrite 201,
    .open 7 none (some 202), .denyWrite 200, .close 200]

theorem denial_accounted_shared :
    ∃ s, system.Reachable s ∧ s.inode 100 = some ⟨7, 2, 1⟩ ∧
      s.inodeWriteAt 100 (fun s => (s, 512)) = .ok (s, 0) := by
  obtain ⟨s, hr, hs⟩ := reachableVia_of_leadsTo (S := system) start
    (tryExec enabled exec) shared
    (fun s => decide (s.inode 100 = some ⟨7, 2, 1⟩ ∧ ⟨201, 100, true⟩ ∈ s.files)) rfl
    (fun _ _ _ h => ⟨trivial, tryExec_eq_some h⟩) (by decide +kernel)
  obtain ⟨hinode, hfile⟩ := of_decide_eq_true hs
  exact ⟨s, hr, hinode, (denial_accounted hr).2.2.2 _ hfile rfl _⟩

end Pintos.Filesys.OpenFiles
