import Pintos.Userprog.Pagedir
import Pintos.Vm.Page

namespace Pintos.Userprog

open Threads Vm BitVec

-- What is_valid_ptr asks about the current process: its supplementary entries under VM,
-- its page directory otherwise.
inductive AddressSpace
  | supplemental (table : SpTable) (t : UserThread)
  | paged (mem : Words) (t : UserThread)

def AddressSpace.knows (space : AddressSpace) (ptr : Addr) : Bool :=
  match space with
  | .supplemental table t => (table.pageFind t (pgRoundDown ptr)).isSome
  | .paged mem t => (pagedirGetPage mem t.pagedir ptr).isSome

def isValidPtr (space : AddressSpace) (ptr len : Addr) : Bool :=
  if !isUserVaddr ptr then false
  else if !isUserVaddr (ptr + len) then false
  -- the region cannot wrap around
  else if ptr + len < ptr then false
  else if ptr < pgSize then false
  else space.knows ptr

def syscallArg (space : AddressSpace) (esp index : Addr) : Option Addr :=
  if !isValidPtr space (esp + index * 4) 0 then none else some (esp + index * 4)

namespace AddressSpace

def KnownPage : AddressSpace → Addr → Prop
  | supplemental table t, page => ∃ e ∈ table.entries, e.upage = page ∧ e.tid = t.tid
  | paged mem t, page => Mapped mem t.pagedir page

-- The kernel may dereference a user pointer to `a`.
def Usable (space : AddressSpace) (a : Addr) : Prop :=
  pgSize ≤ a ∧ a < physBase ∧ space.KnownPage (pgRoundDown a)

def CoversPages (space : AddressSpace) (ptr len : Addr) : Prop :=
  ∀ page : Addr, pgOfs page = 0 → ptr.toNat < page.toNat → page.toNat ≤ ptr.toNat + len.toNat →
    space.KnownPage page

variable {space : AddressSpace} {ptr len a : Addr}

theorem toNat_pgSize : pgSize.toNat = 4096 := rfl

theorem toNat_physBase : physBase.toNat = 3221225472 := rfl

theorem usable_iff : space.Usable a ↔
    4096 ≤ a.toNat ∧ a.toNat < physBase.toNat ∧ space.KnownPage (pgRoundDown a) := by
  rw [Usable, le_def, lt_def, toNat_pgSize]

theorem knows_iff : space.knows ptr = true ↔ space.KnownPage (pgRoundDown ptr) := by
  cases space with
  | supplemental table t => exact table.pageFind_isSome_iff t _
  | paged mem t =>
    exact (pagedirGetPage_isSome_iff mem _ ptr).trans (mapped_pgRoundDown mem _ ptr).symm

theorem range_iff : (ptr < physBase ∧ ptr + len < physBase ∧ ¬ptr + len < ptr ∧ ¬ptr < pgSize) ↔
    4096 ≤ ptr.toNat ∧ ptr.toNat + len.toNat < physBase.toNat := by
  have hptr := ptr.isLt
  have hlen := len.isLt
  have hbase := toNat_physBase
  simp only [lt_def, toNat_add, toNat_pgSize]
  omega

theorem isValidPtr_iff : isValidPtr space ptr len = true ↔
    space.Usable ptr ∧ ptr.toNat + len.toNat < physBase.toNat := by
  have hchecks : isValidPtr space ptr len = true ↔
      (ptr < physBase ∧ ptr + len < physBase ∧ ¬ptr + len < ptr ∧ ¬ptr < pgSize) ∧
        space.knows ptr = true := by
    unfold isValidPtr isUserVaddr
    grind
  rw [hchecks, range_iff, knows_iff, usable_iff]
  constructor
  · rintro ⟨⟨hlow, hhigh⟩, hknown⟩
    exact ⟨⟨hlow, by omega, hknown⟩, hhigh⟩
  · rintro ⟨⟨hlow, -, hknown⟩, hhigh⟩
    exact ⟨⟨hlow, hhigh⟩, hknown⟩

theorem usable_region_iff (len : Addr) (hstart : space.Usable ptr)
    (hend : ptr.toNat + len.toNat < physBase.toNat) :
    (∀ a : Addr, ptr.toNat ≤ a.toNat → a.toNat ≤ ptr.toNat + len.toNat → space.Usable a) ↔
      space.CoversPages ptr len := by
  obtain ⟨hlow, -, hknown⟩ := usable_iff.mp hstart
  constructor
  · intro hall page hpage hafter hbefore
    have hround : pgRoundDown page = page :=
      (pgRoundDown_eq_iff page page hpage).mpr ⟨le_rfl, by omega⟩
    have husable := usable_iff.mp (hall page (by omega) hbefore)
    rw [hround] at husable
    exact husable.2.2
  · intro hcovers a hfrom hto
    refine usable_iff.mpr ⟨by omega, by omega, ?_⟩
    have hround := toNat_pgRoundDown a
    by_cases hfirst : (pgRoundDown a).toNat ≤ ptr.toNat
    · -- `a` is in the page of `ptr`
      have hsame : pgRoundDown ptr = pgRoundDown a :=
        (pgRoundDown_eq_iff ptr _ (pgOfs_pgRoundDown a)).mpr ⟨hfirst, by omega⟩
      rw [← hsame]
      exact hknown
    · exact hcovers _ (pgOfs_pgRoundDown a) (by omega) (by omega)

theorem isValidPtr_sound_iff : (isValidPtr space ptr len = true →
      ∀ a : Addr, ptr.toNat ≤ a.toNat → a.toNat ≤ ptr.toNat + len.toNat → space.Usable a) ↔
    (space.Usable ptr → ptr.toNat + len.toNat < physBase.toNat → space.CoversPages ptr len) := by
  rw [isValidPtr_iff]
  constructor
  · intro hsound hstart hend
    exact (usable_region_iff len hstart hend).mp (hsound ⟨hstart, hend⟩)
  · rintro hcovers ⟨hstart, hend⟩
    exact (usable_region_iff len hstart hend).mpr (hcovers hstart hend)

theorem syscallArg_eq_some {esp index arg : Addr} : syscallArg space esp index = some arg ↔
    arg = esp + index * 4 ∧ space.Usable arg := by
  have hvalid : isValidPtr space (esp + index * 4) 0 = true ↔ space.Usable (esp + index * 4) := by
    rw [isValidPtr_iff]
    exact ⟨And.left, fun h => ⟨h, (usable_iff.mp h).2.1⟩⟩
  unfold syscallArg
  grind

theorem syscallArg_sound_iff (esp index : Addr) : (∀ arg, syscallArg space esp index = some arg →
      ∀ a : Addr, arg.toNat ≤ a.toNat → a.toNat ≤ arg.toNat + 3 → space.Usable a) ↔
    (space.Usable (esp + index * 4) → (esp + index * 4).toNat + 3 < physBase.toNat ∧
      space.CoversPages (esp + index * 4) 3) := by
  simp only [syscallArg_eq_some]
  constructor
  · intro hsound hstart
    have hall := hsound _ ⟨rfl, hstart⟩
    have hend : (esp + index * 4).toNat + 3 < physBase.toNat := by
      by_contra hover
      -- the byte at PHYS_BASE would be one of the four
      have hbase := usable_iff.mp (hall physBase (usable_iff.mp hstart).2.1.le (by omega))
      omega
    exact ⟨hend, (usable_region_iff 3 hstart hend).mp hall⟩
  · rintro hcovers arg ⟨rfl, hstart⟩
    obtain ⟨hend, hpages⟩ := hcovers hstart
    exact (usable_region_iff 3 hstart hend).mpr hpages

-- is_valid_ptr looks up the first page only, and syscall_arg has it check one byte of four.
theorem pointer_checks_sound_iff (space : AddressSpace) (ptr len esp index : Addr) :
    ((isValidPtr space ptr len = true →
        ∀ a : Addr, ptr.toNat ≤ a.toNat → a.toNat ≤ ptr.toNat + len.toNat → space.Usable a) ↔
      (space.Usable ptr → ptr.toNat + len.toNat < physBase.toNat → space.CoversPages ptr len)) ∧
    ((∀ arg, syscallArg space esp index = some arg →
        ∀ a : Addr, arg.toNat ≤ a.toNat → a.toNat ≤ arg.toNat + 3 → space.Usable a) ↔
      (space.Usable (esp + index * 4) → (esp + index * 4).toNat + 3 < physBase.toNat ∧
        space.CoversPages (esp + index * 4) 3)) :=
  ⟨isValidPtr_sound_iff, syscallArg_sound_iff esp index⟩

def twoPages : AddressSpace :=
  let t : UserThread := ⟨3, 0xc0100000⟩
  .supplemental ((SpTable.pageSuppInit.insert (SpEntry.alloc t 0x08048000) true).insert
    (SpEntry.alloc t 0xbffff000) true) t

def twoMapped : AddressSpace :=
  .paged (fun a =>
    if a = 0xc0100080 then 0x00101007 else if a = 0xc0100bfc then 0x00102007
    else if a = 0xc0101120 then 0x00103007 else if a = 0xc0102ffc then 0x00104007 else 0)
    ⟨3, 0xc0100000⟩

theorem not_usable_of_knows (h : space.knows a = false) : ¬space.Usable a := by
  rintro ⟨-, -, hknown⟩
  rw [knows_iff.mpr hknown] at h
  cases h

def Overlooks (space : AddressSpace) : Prop :=
  (∃ ptr len a : Addr, isValidPtr space ptr len = true ∧ ptr.toNat ≤ a.toNat ∧
    a.toNat ≤ ptr.toNat + len.toNat ∧ ¬space.Usable a) ∧
  ∃ esp index arg a : Addr, syscallArg space esp index = some arg ∧ arg.toNat ≤ a.toNat ∧
    a.toNat ≤ arg.toNat + 3 ∧ ¬space.Usable a

theorem overlooks_of_checks (hvalid : isValidPtr space 0x08048fff 1 = true)
    (hnext : space.knows 0x08049000 = false)
    (harg : syscallArg space 0xbffffffb 1 = some 0xbfffffff) : space.Overlooks := by
  refine ⟨⟨0x08048fff, 1, 0x08049000, hvalid, by decide, by decide, not_usable_of_knows hnext⟩,
    0xbffffffb, 1, 0xbfffffff, physBase, harg, by decide, by decide, ?_⟩
  rintro ⟨-, hbelow, -⟩
  exact absurd hbelow (by decide)

theorem pointer_checks_unsound : twoPages.Overlooks ∧ twoMapped.Overlooks := by
  constructor
  · exact overlooks_of_checks (by decide +kernel) (by decide +kernel) (by decide +kernel)
  · exact overlooks_of_checks (by decide +kernel) (by decide +kernel) (by decide +kernel)

end AddressSpace

end Pintos.Userprog
