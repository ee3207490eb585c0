import Mathlib.Order.Bounds.Basic
import Pintos.Lib.TransitionSystem
import Pintos.LibKernel.Hash.Keyed
import Pintos.Vm.Page

namespace Pintos.Userprog

open LibKernel Lib List Hash
open Vm (FileRef)

-- Where a descriptor lives: in a block from malloc, or in fdt_search's own frame.
inductive Place
  | stack
  | heap (block : Nat)
deriving DecidableEq

structure FileDescriptor where
  place : Place
  fd : Int
  file : Option FileRef
deriving DecidableEq

def fdtCmp (a b : FileDescriptor) : Bool := a.fd < b.fd

def fdtHash (e : FileDescriptor) : BitVec 32 := hashInt (BitVec.ofInt 32 e.fd)

abbrev Fdt := Hash FileDescriptor

namespace Fdt

-- The stack variable of fdt_search; its `file_` is never set.
def singleton (fd : Int) : FileDescriptor := ⟨.stack, fd, none⟩

-- `mem` answers the mallocs of the rehashes that the call makes, in their order.
def fdtSearch (fdt : Fdt) (fd : Int) (mem : Nat → Bool) : Fdt × Option FileDescriptor :=
  match fdt.insert (singleton fd) (mem 0) with
  | (fdt', some found) => (fdt', some found)
  | (fdt', none) => ((fdt'.delete (singleton fd) (mem 1)).1, none)

def fdtInsertFrom : Nat → Int → Fdt → FileDescriptor → (Nat → Bool) → Fdt × Option Int
  | 0, _, fdt, _, _ => (fdt, none)
  | left + 1, currFd, fdt, entry, mem =>
    match fdtSearch fdt currFd mem with
    | (fdt', none) => ((fdt'.insert { entry with fd := currFd } (mem 2)).1, some currFd)
    | (fdt', some _) => fdtInsertFrom left (currFd + 1) fdt' entry fun k => mem (k + 2)

def int32Max : Nat := 2147483647

def fdtInsert (fdt : Fdt) (entry : FileDescriptor) (mem : Nat → Bool) : Fdt × Option Int :=
  fdtInsertFrom (int32Max - 2) 2 fdt entry mem

def fdtClose (fdt : Fdt) (entry : FileDescriptor) (mem : Nat → Bool) : Fdt :=
  (fdt.delete entry (mem 0)).1

-- `file` is what filesys_open returns and `block` what malloc does.
def syscallOpen (fdt : Fdt) (file : Option FileRef) (block : Option Nat) (mem : Nat → Bool) :
    Fdt × Int :=
  match file, block with
  | some file, some block =>
    match fdt.fdtInsert ⟨.heap block, 0, some file⟩ mem with
    | (fdt', some fd) => (fdt', fd)
    | (fdt', none) => (fdt', -1)
  | _, _ => (fdt, -1)

def syscallClose (fdt : Fdt) (fd : Int) (mem : Nat → Bool) : Fdt :=
  match fdt.fdtSearch fd mem with
  | (fdt', none) => fdt'
  | (fdt', some entry) => fdt'.fdtClose entry fun k => mem (k + 2)

inductive Call
  | open (file : Option FileRef) (block : Option Nat) (mem : Nat → Bool)
  | close (fd : Int) (mem : Nat → Bool)
  | lookup (fd : Int) (mem : Nat → Bool)

-- malloc never returns a block that is in use.
def exec (fdt : Fdt) : Call → Option Fdt
  | .open file block mem =>
    if ∃ d ∈ fdt.elems, some d.place = block.map Place.heap then none
    else some (fdt.syscallOpen file block mem).1
  | .close fd mem => some (fdt.syscallClose fd mem)
  | .lookup fd mem => some (fdt.fdtSearch fd mem).1

def start : Fdt := Hash.init fdtHash fdtCmp

def machine : System Fdt Call := System.ofExec start exec

def fds (fdt : Fdt) : List Int := fdt.elems.map (·.fd)

theorem mem_fds {fdt : Fdt} {fd : Int} : fd ∈ fdt.fds ↔ ∃ d ∈ fdt.elems, d.fd = fd := mem_map

theorem start_keyedBy : start.KeyedBy FileDescriptor.fd := by
  apply Hash.KeyedBy.init
  · intro a b
    simp only [equal, init, fdtCmp, Bool.and_eq_true, Bool.not_eq_true', decide_eq_false_iff_not]
    omega
  · intro a b hab
    rw [fdtHash, fdtHash, hab]

variable {fdt fdt' : Fdt} {entry : FileDescriptor}

section

variable (hk : fdt.KeyedBy FileDescriptor.fd)
include hk

theorem fdtSearch_spec (fd : Int) (mem : Nat → Bool) :
    (fdt.fdtSearch fd mem).1.KeyedBy FileDescriptor.fd ∧
      (fdt.fdtSearch fd mem).1.elems ~ fdt.elems ∧
      (fdt.fdtSearch fd mem).2 = fdt.find (singleton fd) := by
  unfold fdtSearch
  cases hfind : fdt.find (singleton fd) with
  | some old =>
    obtain ⟨hold, hkeyed, hperm⟩ := hk.insert_of_some hfind (mem 0)
    generalize fdt.insert (singleton fd) (mem 0) = inserted at hold hkeyed hperm
    obtain ⟨fdt', result⟩ := inserted
    cases hold
    exact ⟨hkeyed, hperm, rfl⟩
  | none =>
    obtain ⟨hold, hkeyed, hperm⟩ := hk.insert_of_none hfind (mem 0)
    generalize fdt.insert (singleton fd) (mem 0) = inserted at hold hkeyed hperm
    obtain ⟨fdt', result⟩ := inserted
    cases hold
    have hprobe : fdt'.find (singleton fd) = some (singleton fd) :=
      (hkeyed.find_eq_some_iff _ _).mpr ⟨hperm.mem_iff.mpr mem_cons_self, rfl⟩
    obtain ⟨-, hkeyed', hperm'⟩ := hkeyed.delete_of_some hprobe (mem 1)
    exact ⟨hkeyed', (hperm'.symm.trans hperm).cons_inv, rfl⟩

theorem fdtSearch_eq_some_iff (fd : Int) (mem : Nat → Bool) (d : FileDescriptor) :
    (fdt.fdtSearch fd mem).2 = some d ↔ d ∈ fdt.elems ∧ d.fd = fd := by
  rw [(fdtSearch_spec hk fd mem).2.2]
  exact hk.find_eq_some_iff (singleton fd) d

theorem fdtSearch_eq_none_iff (fd : Int) (mem : Nat → Bool) :
    (fdt.fdtSearch fd mem).2 = none ↔ fd ∉ fdt.fds := by
  rw [(fdtSearch_spec hk fd mem).2.2, hk.find_eq_none_iff, mem_fds]
  simp [singleton]

end

theorem Perm.mem_fds_iff (h : fdt'.elems ~ fdt.elems) (fd : Int) : fd ∈ fdt'.fds ↔ fd ∈ fdt.fds :=
  (h.map FileDescriptor.fd).mem_iff

structure Outcome (fdt : Fdt) (entry : FileDescriptor) (currFd : Int) (left : Nat)
    (result : Fdt × Option Int) : Prop where
  keyed : result.1.KeyedBy FileDescriptor.fd
  assigned : ∀ n, result.2 = some n → currFd ≤ n ∧ n ∉ fdt.fds ∧
    (∀ m, currFd ≤ m → m < n → m ∈ fdt.fds) ∧ result.1.elems ~ { entry with fd := n } :: fdt.elems
  full : result.2 = none →
    (∀ m, currFd ≤ m → m < currFd + left → m ∈ fdt.fds) ∧ result.1.elems ~ fdt.elems

theorem Outcome.next {currFd : Int} {left : Nat}
    {result : Fdt × Option Int} (h : Outcome fdt' entry (currFd + 1) left result)
    (hperm : fdt'.elems ~ fdt.elems) (htaken : currFd ∈ fdt.fds) :
    Outcome fdt entry currFd (left + 1) result where
  keyed := h.keyed
  assigned n hn := by
    obtain ⟨hle, hfree, hbelow, hadd⟩ := h.assigned n hn
    refine ⟨by omega, ?_, ?_, hadd.trans (hperm.cons _)⟩
    · rwa [← Perm.mem_fds_iff hperm]
    · intro m hm hmn
      by_cases hfirst : m = currFd
      · rwa [hfirst]
      · rw [← Perm.mem_fds_iff hperm]
        exact hbelow m (by omega) hmn
  full hnone := by
    obtain ⟨hall, hsame⟩ := h.full hnone
    refine ⟨?_, hsame.trans hperm⟩
    intro m hm hleft
    by_cases hfirst : m = currFd
    · rwa [hfirst]
    · rw [← Perm.mem_fds_iff hperm]
      exact hall m (by omega) (by omega)

theorem fdtInsertFrom_outcome (left : Nat) (currFd : Int) (entry : FileDescriptor)
    (mem : Nat → Bool) (hk : fdt.KeyedBy FileDescriptor.fd) :
    Outcome fdt entry currFd left (fdtInsertFrom left currFd fdt entry mem) := by
  induction left generalizing currFd fdt mem with
  | zero =>
    refine ⟨hk, fun n hn => by simp [fdtInsertFrom] at hn, fun _ => ⟨?_, Perm.refl _⟩⟩
    intro m hm hlt
    omega
  | succ left ih =>
    obtain ⟨hkeyed, hperm, -⟩ := fdtSearch_spec hk currFd mem
    have hnone := fdtSearch_eq_none_iff hk currFd mem
    unfold fdtInsertFrom
    generalize fdt.fdtSearch currFd mem = searched at hkeyed hperm hnone
    obtain ⟨fdt', found⟩ := searched
    cases found with
    | some d =>
      have htaken : currFd ∈ fdt.fds := by
        by_contra hfree
        cases hnone.mpr hfree
      exact (ih (currFd + 1) _ hkeyed).next hperm htaken
    | none =>
      have hfree : currFd ∉ fdt.fds := hnone.mp rfl
      have habsent : fdt'.find { entry with fd := currFd } = none := by
        rw [hkeyed.find_eq_none_iff]
        intro d hd heq
        exact hfree (mem_fds.mpr ⟨d, hperm.mem_iff.mp hd, heq⟩)
      obtain ⟨-, hkeyed', hadd⟩ := hkeyed.insert_of_none habsent (mem 2)
      refine ⟨hkeyed', ?_, fun hfull => by cases hfull⟩
      intro n hn
      cases hn
      refine ⟨le_refl _, hfree, ?_, hadd.trans (hperm.cons _)⟩
      intro m hm hlt
      omega

structure Sound (fdt : Fdt) : Prop where
  keyed : fdt.KeyedBy FileDescriptor.fd
  heap : ∀ d ∈ fdt.elems, d.place ≠ .stack
  reserved : ∀ d ∈ fdt.elems, 2 ≤ d.fd

theorem Sound.start : Sound start where
  keyed := start_keyedBy
  heap d hd := absurd hd (by simp [Fdt.start, init, elems])
  reserved d hd := absurd hd (by simp [Fdt.start, init, elems])

section

variable (h : Sound fdt)
include h

theorem Sound.of_subset (hk : fdt'.KeyedBy FileDescriptor.fd)
    (hsub : ∀ d ∈ fdt'.elems, d ∈ fdt.elems) : Sound fdt' where
  keyed := hk
  heap d hd := h.heap d (hsub d hd)
  reserved d hd := h.reserved d (hsub d hd)

theorem Sound.fdtSearch (fd : Int) (mem : Nat → Bool) : Sound (fdt.fdtSearch fd mem).1 := by
  obtain ⟨hkeyed, hperm, -⟩ := fdtSearch_spec h.keyed fd mem
  exact h.of_subset hkeyed fun d hd => hperm.mem_iff.mp hd

theorem Sound.fdtClose (hmem : entry ∈ fdt.elems) (mem : Nat → Bool) :
    Sound (fdt.fdtClose entry mem) := by
  have hfind : fdt.find entry = some entry := (h.keyed.find_eq_some_iff _ _).mpr ⟨hmem, rfl⟩
  obtain ⟨-, hkeyed, hperm⟩ := h.keyed.delete_of_some hfind (mem 0)
  exact h.of_subset hkeyed fun d hd => hperm.mem_iff.mpr (mem_cons_of_mem _ hd)

theorem Sound.fdtInsert (entry : FileDescriptor) (hplace : entry.place ≠ .stack)
    (mem : Nat → Bool) : Sound (fdt.fdtInsert entry mem).1 := by
  have houtcome := fdtInsertFrom_outcome (int32Max - 2) 2 entry mem h.keyed
  unfold Fdt.fdtInsert
  generalize fdtInsertFrom (int32Max - 2) 2 fdt entry mem = result at houtcome
  obtain ⟨fdt', assigned⟩ := result
  cases assigned with
  | none => exact h.of_subset houtcome.keyed fun d hd => (houtcome.full rfl).2.mem_iff.mp hd
  | some n =>
    obtain ⟨hle, -, -, hadd⟩ := houtcome.assigned n rfl
    refine ⟨houtcome.keyed, ?_, ?_⟩
    · intro d hd
      rcases mem_cons.mp (hadd.mem_iff.mp hd) with rfl | hd
      · exact hplace
      · exact h.heap d hd
    · intro d hd
      rcases mem_cons.mp (hadd.mem_iff.mp hd) with rfl | hd
      · exact hle
      · exact h.reserved d hd

theorem Sound.syscallOpen (file : Option FileRef) (block : Option Nat) (mem : Nat → Bool) :
    Sound (fdt.syscallOpen file block mem).1 := by
  unfold Fdt.syscallOpen
  split
  · rename_i file block
    have hinsert := h.fdtInsert ⟨.heap block, 0, some file⟩ (by simp) mem
    split <;> simp_all
  · exact h

theorem Sound.syscallClose (fd : Int) (mem : Nat → Bool) : Sound (fdt.syscallClose fd mem) := by
  have hsearch := h.fdtSearch fd mem
  have hsome := fdtSearch_eq_some_iff h.keyed fd mem
  obtain ⟨-, hperm, -⟩ := fdtSearch_spec h.keyed fd mem
  unfold Fdt.syscallClose
  generalize fdt.fdtSearch fd mem = searched at hsearch hsome hperm
  obtain ⟨fdt', found⟩ := searched
  cases found with
  | none => exact hsearch
  | some entry =>
    have hmem : entry ∈ fdt.elems := ((hsome entry).mp rfl).1
    exact hsearch.fdtClose (hperm.mem_iff.mpr hmem) _

theorem Sound.exec {call : Call} (hexec : fdt.exec call = some fdt') : Sound fdt' := by
  cases call with
  | «open» file block mem =>
    simp only [Fdt.exec] at hexec
    split at hexec
    · cases hexec
    · cases hexec
      exact h.syscallOpen file block mem
  | close fd mem =>
    cases hexec
    exact h.syscallClose fd mem
  | lookup fd mem =>
    cases hexec
    exact h.fdtSearch fd mem

end

theorem Sound.of_reachable (h : machine.Reachable fdt) : Sound fdt := by
  apply h.invariant
  · rintro s rfl
    exact Sound.start
  · intro s call s' _ hsound hstep
    exact hsound.exec hstep

theorem descriptors_correct (h : machine.Reachable fdt) :
    fdt.fds.Nodup ∧ (∀ fd ∈ fdt.fds, 2 ≤ fd) ∧ (∀ d ∈ fdt.elems, d.place ≠ .stack) ∧
    (∀ entry mem,
      match fdt.fdtInsert entry mem with
      | (fdt', some n) => IsLeast {m | 2 ≤ m ∧ m ∉ fdt.fds} n ∧
          fdt'.elems ~ { entry with fd := n } :: fdt.elems
      | (fdt', none) => (∀ m : Int, 2 ≤ m → m < int32Max → m ∈ fdt.fds) ∧ fdt'.elems ~ fdt.elems) ∧
    (∀ fd mem d, (fdt.fdtSearch fd mem).2 = some d ↔ d ∈ fdt.elems ∧ d.fd = fd) ∧
    (∀ fd mem, (fdt.fdtSearch fd mem).2 = none ↔ fd ∉ fdt.fds) ∧
    (∀ fd mem, (fdt.fdtSearch fd mem).1.elems ~ fdt.elems) := by
  have hsound := Sound.of_reachable h
  have hk := hsound.keyed
  refine ⟨hk.nodup, ?_, hsound.heap, ?_, fdtSearch_eq_some_iff hk, fdtSearch_eq_none_iff hk,
    fun fd mem => (fdtSearch_spec hk fd mem).2.1⟩
  · intro fd hfd
    obtain ⟨d, hd, rfl⟩ := mem_fds.mp hfd
    exact hsound.reserved d hd
  · intro entry mem
    have houtcome := fdtInsertFrom_outcome (int32Max - 2) 2 entry mem hk
    unfold Fdt.fdtInsert
    generalize fdtInsertFrom (int32Max - 2) 2 fdt entry mem = result at houtcome
    obtain ⟨fdt', assigned⟩ := result
    cases assigned with
    | none =>
      obtain ⟨hall, hperm⟩ := houtcome.full rfl
      exact ⟨fun m hm hlt => hall m hm (by simpa [int32Max] using hlt), hperm⟩
    | some n =>
      obtain ⟨hle, hfree, hbelow, hadd⟩ := houtcome.assigned n rfl
      refine ⟨⟨⟨hle, hfree⟩, ?_⟩, hadd⟩
      rintro m ⟨hm, hunused⟩
      by_contra hlt
      exact hunused (hbelow m hm (by omega))

def alternate : Nat → Bool := fun k => k % 2 == 1

theorem descriptors_correct_reopened :
    ∃ fdt, machine.Reachable fdt ∧ fdt.fds = [3] ∧
      (fdt.fdtInsert ⟨.heap 2, 0, some 9⟩ alternate).2 = some 2 ∧
      (fdt.fdtSearch 3 alternate).2 = some ⟨.heap 1, 3, some 8⟩ ∧
      (fdt.fdtSearch 3 alternate).1.elems ~ fdt.elems := by
  obtain ⟨fdt, hreach, hfdt⟩ := System.exists_of_leadsTo start exec
    [.open (some 7) (some 0) alternate, .open (some 8) (some 1) alternate, .close 2 alternate]
    (fun fdt => fdt.fds == [3] && fdt.elems.contains ⟨.heap 1, 3, some 8⟩ &&
      (fdt.fdtInsert ⟨.heap 2, 0, some 9⟩ alternate).2 == some 2) (by decide +kernel)
  simp only [Bool.and_eq_true, beq_iff_eq, contains_iff_mem] at hfdt
  obtain ⟨⟨hfds, hopen⟩, hinsert⟩ := hfdt
  obtain ⟨-, -, -, -, hsome, -, hsame⟩ := descriptors_correct hreach
  exact ⟨fdt, hreach, hfds, hinsert, (hsome 3 alternate _).mpr ⟨hopen, rfl⟩, hsame 3 alternate⟩

end Fdt

end Pintos.Userprog
