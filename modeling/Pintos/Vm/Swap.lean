import Pintos.Devices.Block

namespace Pintos.Vm.Swap

open Lib Devices Block

def sectorsInPage : Nat := 8

def sectorAt (sector cur : Nat) : Nat := (sector + cur) % 2 ^ 32

def bufferAt (m : Bytes) (kpage cur : Nat) : Bytes :=
  fun i => m (kpage + cur * Block.sectorSize + i)

def writeLoop (m : Bytes) (sector kpage : Nat) : Nat → Nat → Block → Option Block
  | 0, _, b => some b
  | rounds + 1, cur, b => do
    let b ← b.write (sectorAt sector cur) (bufferAt m kpage cur)
    writeLoop m sector kpage rounds (cur + 1) b

def swapWrite (b : Block) (m : Bytes) (sector kpage : Nat) : Option Block :=
  writeLoop m sector kpage sectorsInPage 0 b

inductive Outcome
  | returned (m : Bytes)
  | panicked (m : Bytes)
  | running (m : Bytes)

-- The condition of this loop is the constant alone.
def readLoop (b : Block) (sector kpage : Nat) : Nat → Nat → Bytes → Outcome
  | 0, _, m => .running m
  | rounds + 1, cur, m =>
    if sectorsInPage = 0 then .returned m
    else
      match b.read (sectorAt sector cur) with
      | none => .panicked m
      | some data =>
        readLoop b sector kpage rounds (cur + 1)
          (m.write (kpage + cur * Block.sectorSize) (data.read 0 Block.sectorSize))

def swapRead (b : Block) (m : Bytes) (sector kpage rounds : Nat) : Outcome :=
  readLoop b sector kpage rounds 0 m

variable {b : Block} {m : Bytes} {sector kpage cur : Nat}

theorem readLoop_ne_returned (rounds : Nat) (m' : Bytes) :
    readLoop b sector kpage rounds cur m ≠ .returned m' := by
  induction rounds generalizing cur m with
  | zero => nofun
  | succ rounds ih =>
    rw [readLoop, if_neg (by decide)]
    split
    · nofun
    · exact ih

-- What was written out of a frame comes back to a frame, whatever became of the other slots.
def RoundTrip (b : Block) (m : Bytes) (sector kpage : Nat) : Prop :=
  ∃ b', swapWrite b m sector kpage = some b' ∧
    (∀ s, s < sector ∨ sector + sectorsInPage ≤ s → b'.sectors s = b.sectors s) ∧
    ∀ b2 m2 kpage2, b2.size = b'.size →
      (∀ i < sectorsInPage, b2.sectors (sector + i) = b'.sectors (sector + i)) →
      ∃ rounds m3, swapRead b2 m2 sector kpage2 rounds = .returned m3 ∧
        (∀ i < 4096, m3 (kpage2 + i) = m (kpage + i)) ∧
        ∀ a, a < kpage2 ∨ kpage2 + 4096 ≤ a → m3 a = m2 a

theorem not_roundTrip (b : Block) (m : Bytes) (sector kpage : Nat) :
    ¬ RoundTrip b m sector kpage := by
  rintro ⟨b', -, -, hback⟩
  obtain ⟨rounds, m3, hread, -⟩ := hback b' m kpage rfl fun _ _ => rfl
  exact readLoop_ne_returned rounds m3 hread

-- Slot 8 of a device of 24 sectors: the eight sectors after the slot land behind the frame.
theorem swap_read_runs_on : ∃ b b' : Block, ∃ m : Bytes, b.size = 24 ∧
    swapWrite b m 8 4096 = some b' ∧ (∀ rounds m', swapRead b' m 8 4096 rounds ≠ .returned m') ∧
    ∃ m', swapRead b' m 8 4096 17 = .panicked m' ∧ m 8192 = 1 ∧ m' 8192 = 0 := by
  exact ⟨⟨24, fun _ _ => 0⟩, _, fun _ => 1, rfl, rfl, fun rounds m' => readLoop_ne_returned rounds m',
    _, rfl, rfl, by decide +kernel⟩

end Pintos.Vm.Swap
