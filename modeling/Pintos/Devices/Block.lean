import Pintos.Lib.Bytes

namespace Pintos.Devices

open Function Lib

-- A block device. Of the bytes of a sector only the first `sectorSize` are its own.
structure Block where
  size : Nat
  sectors : Nat → Bytes

namespace Block

def sectorSize : Nat := 512

-- Access past the end of the device panics.
def read (b : Block) (sector : Nat) : Option Bytes :=
  if sector < b.size then some (b.sectors sector) else none

def set (b : Block) (sector : Nat) (buffer : Bytes) : Block :=
  { b with sectors := update b.sectors sector buffer }

def write (b : Block) (sector : Nat) (buffer : Bytes) : Option Block :=
  if sector < b.size then some (b.set sector buffer) else none

variable {b : Block} {sector s : Nat} {buffer : Bytes}

@[simp] theorem size_set : (b.set sector buffer).size = b.size := rfl

@[simp] theorem sectors_set_self : (b.set sector buffer).sectors sector = buffer := update_self ..

theorem sectors_set_of_ne (h : s ≠ sector) : (b.set sector buffer).sectors s = b.sectors s :=
  update_of_ne h ..

theorem read_of_lt (h : sector < b.size) : b.read sector = some (b.sectors sector) := if_pos h

theorem write_of_lt (h : sector < b.size) : b.write sector buffer = some (b.set sector buffer) :=
  if_pos h

end Block

end Pintos.Devices
