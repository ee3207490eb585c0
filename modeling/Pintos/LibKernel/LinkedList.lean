import Mathlib.Logic.Function.Basic

namespace Pintos.LibKernel.LinkedList

-- The prev and next fields of every struct list_elem, by address. NULL is `none`.
structure Heap (ι : Type) where
  prev : ι → Option ι
  next : ι → Option ι

structure Header (ι : Type) where
  head : ι
  tail : ι

inductive Fault
  | assertion
  | nullDereference
  | outOfFuel
deriving DecidableEq

abbrev Result (α : Type) := Except Fault α

variable {ι : Type}

def assert (b : Bool) : Result Unit := if b then .ok () else .error .assertion

def deref : Option ι → Result ι
  | none => .error .nullDereference
  | some a => .ok a

def getPrev (h : Heap ι) (p : Option ι) : Result (Option ι) := do
  let a ← deref p
  return h.prev a

def getNext (h : Heap ι) (p : Option ι) : Result (Option ι) := do
  let a ← deref p
  return h.next a

def isHead (h : Heap ι) : Option ι → Bool
  | none => false
  | some a => (h.prev a).isNone && (h.next a).isSome

def isInterior (h : Heap ι) : Option ι → Bool
  | none => false
  | some a => (h.prev a).isSome && (h.next a).isSome

def isTail (h : Heap ι) : Option ι → Bool
  | none => false
  | some a => (h.prev a).isSome && (h.next a).isNone

def listBegin (h : Heap ι) (list : Header ι) : Option ι := h.next list.head

def listEnd (list : Header ι) : Option ι := some list.tail

def listNext (h : Heap ι) (elem : Option ι) : Result (Option ι) := do
  assert (isHead h elem || isInterior h elem)
  getNext h elem

def listPrev (h : Heap ι) (elem : Option ι) : Result (Option ι) := do
  assert (isInterior h elem || isTail h elem)
  getPrev h elem

variable [DecidableEq ι]

def setPrev (h : Heap ι) (p q : Option ι) : Result (Heap ι) := do
  let a ← deref p
  return { h with prev := Function.update h.prev a q }

def setNext (h : Heap ι) (p q : Option ι) : Result (Heap ι) := do
  let a ← deref p
  return { h with next := Function.update h.next a q }

def listInit (h : Heap ι) (list : Header ι) : Heap ι where
  prev := Function.update (Function.update h.prev list.head none) list.tail (some list.head)
  next := Function.update (Function.update h.next list.head (some list.tail)) list.tail none

def listEmpty (h : Heap ι) (list : Header ι) : Bool := listBegin h list == listEnd list

def listInsert (h : Heap ι) (before elem : Option ι) : Result (Heap ι) := do
  assert (isInterior h before || isTail h before)
  assert elem.isSome
  let h ← setPrev h elem (← getPrev h before)
  let h ← setNext h elem before
  let h ← setNext h (← getPrev h before) elem
  setPrev h before elem

def listSplice (h : Heap ι) (before first last : Option ι) : Result (Heap ι) := do
  assert (isInterior h before || isTail h before)
  if first = last then
    return h
  else
    let last ← listPrev h last
    assert (isInterior h first)
    assert (isInterior h last)
    -- Cleanly remove FIRST...LAST from its current list.
    let h ← setNext h (← getPrev h first) (← getNext h last)
    let h ← setPrev h (← getNext h last) (← getPrev h first)
    -- Splice FIRST...LAST into new list.
    let h ← setPrev h first (← getPrev h before)
    let h ← setNext h last before
    let h ← setNext h (← getPrev h before) first
    setPrev h before last

def listPushFront (h : Heap ι) (list : Header ι) (elem : Option ι) : Result (Heap ι) :=
  listInsert h (listBegin h list) elem

def listPushBack (h : Heap ι) (list : Header ι) (elem : Option ι) : Result (Heap ι) :=
  listInsert h (listEnd list) elem

def listRemove (h : Heap ι) (elem : Option ι) : Result (Heap ι × Option ι) := do
  assert (isInterior h elem)
  let h ← setNext h (← getPrev h elem) (← getNext h elem)
  let h ← setPrev h (← getNext h elem) (← getPrev h elem)
  return (h, ← getNext h elem)

def listFront (h : Heap ι) (list : Header ι) : Result (Option ι) := do
  assert (!listEmpty h list)
  return h.next list.head

def listBack (h : Heap ι) (list : Header ι) : Result (Option ι) := do
  assert (!listEmpty h list)
  return h.prev list.tail

def listPopFront (h : Heap ι) (list : Header ι) : Result (Heap ι × Option ι) := do
  let front ← listFront h list
  let (h, _) ← listRemove h front
  return (h, front)

def listPopBack (h : Heap ι) (list : Header ι) : Result (Heap ι × Option ι) := do
  let back ← listBack h list
  let (h, _) ← listRemove h back
  return (h, back)

-- The loops take the number of rounds they may run. A round more than the list has
-- elements is always enough.
def reverseLoop (tail : Option ι) : Nat → Heap ι → Option ι → Result (Heap ι)
  | 0, _, _ => .error .outOfFuel
  | fuel + 1, h, e =>
    if e = tail then .ok h
    else do
      let prev ← getPrev h e
      let next ← getNext h e
      let h ← setPrev h e next
      let h ← setNext h e prev
      reverseLoop tail fuel h (← getPrev h e)

def swapEnds (h : Heap ι) (list : Header ι) : Result (Heap ι) := do
  let next := h.next list.head
  let prev := h.prev list.tail
  let h ← setNext h (some list.head) prev
  let h ← setPrev h (some list.tail) next
  let front := h.next list.head
  let back := h.prev list.tail
  let frontPrev ← getPrev h front
  let backNext ← getNext h back
  let h ← setPrev h front backNext
  setNext h back frontPrev

def listReverse (fuel : Nat) (h : Heap ι) (list : Header ι) : Result (Heap ι) :=
  if listEmpty h list then .ok h
  else do
    let h ← reverseLoop (listEnd list) fuel h (listBegin h list)
    swapEnds h list

-- `less` compares the structures that the elements are embedded in.
def orderedLoop (less : ι → ι → Bool) (h : Heap ι) (tail elem : Option ι) :
    Nat → Option ι → Result (Option ι)
  | 0, _ => .error .outOfFuel
  | fuel + 1, e =>
    if e = tail then .ok e
    else do
      if less (← deref elem) (← deref e) then return e
      else orderedLoop less h tail elem fuel (← listNext h e)

def listInsertOrdered (less : ι → ι → Bool) (fuel : Nat) (h : Heap ι) (list : Header ι)
    (elem : Option ι) : Result (Heap ι) := do
  assert elem.isSome
  let e ← orderedLoop less h (listEnd list) elem fuel (listBegin h list)
  listInsert h e elem

def uniqueLoop (less : ι → ι → Bool) (tail : Option ι) (duplicates : Option (Header ι)) :
    Nat → Heap ι → Option ι → Result (Heap ι)
  | 0, _, _ => .error .outOfFuel
  | fuel + 1, h, elem => do
      let next ← listNext h elem
      if next = tail then .ok h
      else do
        let a ← deref elem
        let b ← deref next
        if !less a b && !less b a then
          let (h, _) ← listRemove h next
          match duplicates with
          | none => uniqueLoop less tail duplicates fuel h elem
          | some list => do
              let h ← listPushBack h list next
              uniqueLoop less tail duplicates fuel h elem
        else uniqueLoop less tail duplicates fuel h next

def listUnique (less : ι → ι → Bool) (fuel : Nat) (h : Heap ι) (list : Header ι)
    (duplicates : Option (Header ι)) : Result (Heap ι) :=
  if listEmpty h list then .ok h
  else uniqueLoop less (listEnd list) duplicates fuel h (listBegin h list)

end Pintos.LibKernel.LinkedList
