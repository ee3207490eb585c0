import Pintos.Lib.Bytes
import Pintos.Lib.CString

namespace Pintos.Filesys.Directory

open Lib

def nameMax : Nat := 14

structure DirEntry where
  inodeSector : UInt32
  name : List UInt8
  inUse : Bool
  size : name.length = nameMax + 1

-- sizeof (struct dir_entry)
def entrySize : Nat := 20

namespace DirEntry

def bytes (e : DirEntry) : List UInt8 :=
  Bytes.ofWord e.inodeSector.toNat ++ e.name ++ [if e.inUse then 1 else 0]

def load (m : Bytes) (ofs : Nat) : DirEntry where
  inodeSector := UInt32.ofNat (m.word ofs)
  name := m.read (ofs + 4) (nameMax + 1)
  inUse := m (ofs + 19) != 0
  size := Bytes.length_read

def nameString (e : DirEntry) : CString := CString.ofBytes e.name

-- !strcmp (name, e.name), for an entry whose name is terminated.
def named (e : DirEntry) (name : CString) : Bool := decide (name = e.nameString)

def setName (e : DirEntry) (name : CString) : DirEntry :=
  { e with
    name := CString.strlcpy e.name name (nameMax + 1)
    size := (CString.length_strlcpy (le_of_eq e.size.symm)).trans e.size }

end DirEntry

-- inode_read_at (dir->inode, &e, sizeof e, ofs): what e holds then and the value returned.
def readEntry (f : ByteFile) (e : DirEntry) (ofs : Nat) : DirEntry × Nat :=
  let data := f.readAt entrySize ofs
  (.load (Bytes.write (Bytes.write (fun _ => 0) 0 e.bytes) 0 data) 0, data.length)

def scan (f : ByteFile) (stop : DirEntry → Bool) : Nat → DirEntry → Nat → Bool × DirEntry × Nat
  | 0, e, ofs => (false, e, ofs)
  | fuel + 1, e, ofs =>
    let (e, cnt) := readEntry f e ofs
    if cnt = entrySize then
      if stop e then (true, e, ofs) else scan f stop fuel e (ofs + entrySize)
    else (false, e, ofs)

-- The number of entries bounds the number of rounds.
def rounds (f : ByteFile) : Nat := f.length / entrySize + 1

-- `e` is what the local variable holds when the function is entered.
def lookup (f : ByteFile) (e : DirEntry) (name : CString) : Option (DirEntry × Nat) :=
  match scan f (fun e => e.inUse && e.named name) (rounds f) e 0 with
  | (true, e, ofs) => some (e, ofs)
  | (false, _, _) => none

def dirLookup (f : ByteFile) (e : DirEntry) (name : CString) : Option UInt32 :=
  (lookup f e name).map fun (e, _) => e.inodeSector

def dirAdd (f : ByteFile) (e : DirEntry) (name : CString) (inodeSector : UInt32) :
    ByteFile × Bool :=
  if name.length = 0 ∨ nameMax < name.length then (f, false)
  else if (lookup f e name).isSome then (f, false)
  else
    let (_, e, ofs) := scan f (fun e => !e.inUse) (rounds f) e 0
    let e := { e with inUse := true }
    let e := e.setName name
    let e := { e with inodeSector := inodeSector }
    (f.writeAt e.bytes ofs, true)

def dirRemove (f : ByteFile) (e : DirEntry) (name : CString) : ByteFile × Bool :=
  match lookup f e name with
  | none => (f, false)
  | some (e, ofs) => (f.writeAt { e with inUse := false }.bytes ofs, true)

def dirReaddir (f : ByteFile) (e : DirEntry) (pos : Nat) : Option CString × Nat :=
  match scan f (·.inUse) (rounds f) e pos with
  | (true, e, ofs) =>
    (some (.ofBytes (CString.strlcpy (List.replicate (nameMax + 1) 0) e.nameString
      (nameMax + 1))), ofs + entrySize)
  | (false, _, ofs) => (none, ofs)

end Pintos.Filesys.Directory
