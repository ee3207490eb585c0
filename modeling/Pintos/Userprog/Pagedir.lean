import Pintos.Threads.Vaddr

namespace Pintos.Userprog

open Threads BitVec

abbrev Words := Addr → BitVec 32

def pteAddr : BitVec 32 := 0xfffff000
def pteP : BitVec 32 := 1
def pteW : BitVec 32 := 2
def pteU : BitVec 32 := 4
def pteA : BitVec 32 := 0x20
def pteD : BitVec 32 := 0x40

def ptNo (va : Addr) : Addr := (va &&& 0x3ff000) >>> 12

def pdNo (va : Addr) : Addr := va >>> 22

def pdeGetPt (pde : BitVec 32) : Addr := ptov (pde &&& pteAddr)

def pteGetPage (pte : BitVec 32) : Addr := ptov (pte &&& pteAddr)

def pdeCreate (pt : Addr) : BitVec 32 := vtop pt ||| pteU ||| pteP ||| pteW

def pteCreateKernel (page : Addr) (writable : Bool) : BitVec 32 :=
  vtop page ||| pteP ||| (if writable then pteW else 0)

def pteCreateUser (page : Addr) (writable : Bool) : BitVec 32 :=
  pteCreateKernel page writable ||| pteU

def fillWords (mem : Words) (page : Addr) (word : Addr → BitVec 32) : Words := fun a =>
  if pgRoundDown a = page then word a else mem a

def pagedirCreate (mem : Words) (initPageDir pd : Addr) : Words :=
  fillWords mem pd fun a => mem (initPageDir + (a - pd))

-- lookup_page that is not asked to create a missing page table: the address of the entry
def lookupPage (mem : Words) (pd vaddr : Addr) : Option Addr :=
  if mem (pd + pdNo vaddr * 4) = 0 then none
  else some (pdeGetPt (mem (pd + pdNo vaddr * 4)) + ptNo vaddr * 4)

def pagedirGetPage (mem : Words) (pd uaddr : Addr) : Option Addr :=
  match lookupPage mem pd uaddr with
  | some pte =>
    if mem pte &&& pteP ≠ 0 then some (pteGetPage (mem pte) + pgOfs uaddr) else none
  | none => none

-- lookup_page that is to create a missing page table; `pt` is what palloc_get_page returns,
-- zeroed, should it be called.
def lookupPageCreate (mem : Words) (pd vaddr : Addr) (pt : Option Addr) : Words × Option Addr :=
  let pde := pd + pdNo vaddr * 4
  if mem pde = 0 then
    match pt with
    | none => (mem, none)
    | some pt =>
      let mem' := Function.update (fillWords mem pt fun _ => 0) pde (pdeCreate pt)
      (mem', some (pdeGetPt (mem' pde) + ptNo vaddr * 4))
  else (mem, some (pdeGetPt (mem pde) + ptNo vaddr * 4))

def pagedirSetPage (initRamPages : Nat) (mem : Words) (pd upage kpage : Addr) (writable : Bool)
    (pt : Option Addr) : Option (Words × Bool) :=
  if pgOfs upage ≠ 0 ∨ pgOfs kpage ≠ 0 ∨ isUserVaddr upage = false ∨ isUserVaddr kpage = true ∨
      initRamPages ≤ (vtop kpage >>> 12).toNat then none
  else match lookupPageCreate mem pd upage pt with
    | (mem', some pte) =>
      if mem' pte &&& pteP ≠ 0 then none
      else some (Function.update mem' pte (pteCreateUser kpage writable), true)
    | (mem', none) => some (mem', false)

def pagedirClearPage (mem : Words) (pd upage : Addr) : Option Words :=
  if pgOfs upage ≠ 0 ∨ isUserVaddr upage = false then none
  else match lookupPage mem pd upage with
    | some pte =>
      if mem pte &&& pteP ≠ 0 then some (Function.update mem pte (mem pte &&& ~~~pteP))
      else some mem
    | none => some mem

def setFlag (flag : BitVec 32) (mem : Words) (pd vpage : Addr) (value : Bool) : Words :=
  match lookupPage mem pd vpage with
  | some pte =>
    Function.update mem pte (if value then mem pte ||| flag else mem pte &&& ~~~flag)
  | none => mem

def testFlag (flag : BitVec 32) (mem : Words) (pd vpage : Addr) : Bool :=
  match lookupPage mem pd vpage with
  | some pte => mem pte &&& flag != 0
  | none => false

def pagedirSetDirty : Words → Addr → Addr → Bool → Words := setFlag pteD
def pagedirIsDirty : Words → Addr → Addr → Bool := testFlag pteD
def pagedirSetAccessed : Words → Addr → Addr → Bool → Words := setFlag pteA
def pagedirIsAccessed : Words → Addr → Addr → Bool := testFlag pteA

section Destroy

def freePage (s : Words × List Addr) (page : Addr) : Words × List Addr :=
  (fillWords s.1 page fun _ => 0xcccccccc, s.2 ++ [page])

def freePte (s : Words × List Addr) (pte : Addr) : Words × List Addr :=
  if s.1 pte &&& pteP ≠ 0 then freePage s (pteGetPage (s.1 pte)) else s

def wordsOf (page : Addr) (cnt : Nat) : List Addr :=
  (List.range cnt).map fun i => page + BitVec.ofNat 32 i * 4

def freeTable (s : Words × List Addr) (pt : Addr) : Words × List Addr :=
  freePage ((wordsOf pt 1024).foldl freePte s) pt

def freePde (s : Words × List Addr) (pde : Addr) : Words × List Addr :=
  if s.1 pde &&& pteP ≠ 0 then freeTable s (pdeGetPt (s.1 pde)) else s

def pagedirDestroy (mem : Words) (pd : Addr) : List Addr :=
  (freePage ((wordsOf pd (pdNo physBase).toNat).foldl freePde (mem, [])) pd).2

end Destroy

def Mapped (mem : Words) (pd page : Addr) : Prop :=
  ∃ pte, lookupPage mem pd page = some pte ∧ mem pte &&& pteP ≠ 0

theorem pagedirGetPage_isSome_iff (mem : Words) (pd uaddr : Addr) :
    (pagedirGetPage mem pd uaddr).isSome ↔ Mapped mem pd uaddr := by
  unfold pagedirGetPage Mapped
  cases lookupPage mem pd uaddr with
  | none => simp
  | some pte => simp

theorem toNat_pdNo (va : Addr) : (pdNo va).toNat = va.toNat / 4194304 := by
  unfold pdNo
  rw [toNat_ushiftRight, Nat.shiftRight_eq_div_pow]

theorem toNat_ptNo (va : Addr) : (ptNo va).toNat = va.toNat / 4096 % 1024 := by
  have hmask : (0x3ff000 : BitVec 32) >>> 12 = 0x3ff := by decide
  unfold ptNo
  rw [ushiftRight_and_distrib, hmask, toNat_and, toNat_ushiftRight, Nat.shiftRight_eq_div_pow]
  exact Nat.and_two_pow_sub_one_eq_mod (va.toNat / 2 ^ 12) 10

theorem lookupPage_pgRoundDown (mem : Words) (pd va : Addr) :
    lookupPage mem pd (pgRoundDown va) = lookupPage mem pd va := by
  have hround := toNat_pgRoundDown va
  have hpd : pdNo (pgRoundDown va) = pdNo va := by
    apply eq_of_toNat_eq
    rw [toNat_pdNo, toNat_pdNo]
    omega
  have hpt : ptNo (pgRoundDown va) = ptNo va := by
    apply eq_of_toNat_eq
    rw [toNat_ptNo, toNat_ptNo]
    omega
  unfold lookupPage
  rw [hpd, hpt]

theorem mapped_pgRoundDown (mem : Words) (pd va : Addr) :
    Mapped mem pd (pgRoundDown va) ↔ Mapped mem pd va := by
  unfold Mapped
  rw [lookupPage_pgRoundDown]

end Pintos.Userprog
