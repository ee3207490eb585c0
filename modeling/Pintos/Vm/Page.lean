import Mathlib.Data.List.Nodup
import Pintos.LibKernel.Hash
import Pintos.Threads.Vaddr

namespace Pintos.Vm

open Threads LibKernel List Hash

abbrev FileRef := Nat

inductive CacheFlag
  | unmapped
  | swapped
  | filesystem
deriving DecidableEq

structure SpEntry where
  fp : Option FileRef
  idx : BitVec 32
  location : CacheFlag
  readBytes : BitVec 32
  zeroBytes : BitVec 32
  ofs : BitVec 32
  writable : Bool
  upage : Addr
  tid : Int
  pagedir : Addr
  sector : BitVec 32
deriving DecidableEq

structure UserThread where
  tid : Int
  pagedir : Addr
deriving DecidableEq

def pageHash (e : SpEntry) : BitVec 32 := hashInt e.upage

def pageCmp (a b : SpEntry) : Bool := a.upage < b.upage || a.tid < b.tid

structure SpTable where
  ptHash : Hash SpEntry
  hash_eq : ptHash.hash = pageHash
  less_eq : ptHash.less = pageCmp
  placed : ptHash.Placed

namespace SpTable

def pageSuppInit : SpTable where
  ptHash := Hash.init pageHash pageCmp
  hash_eq := rfl
  less_eq := rfl
  placed := Hash.Placed.init _ _

def entries (table : SpTable) : List SpEntry := table.ptHash.elems

end SpTable

-- The entry that page_supp_alloc makes, before its caller sets any field.
def SpEntry.alloc (t : UserThread) (upage : Addr) : SpEntry where
  fp := none
  idx := BitVec.allOnes 32
  location := .unmapped
  readBytes := 0
  zeroBytes := 0
  ofs := 0
  writable := true
  upage := upage
  tid := t.tid
  pagedir := t.pagedir
  sector := BitVec.allOnes 32

namespace SpTable

-- page_supp_alloc, with the fields that its caller sets in the entry it returns. The
-- caller never changes the key, and nobody else looks up this key meanwhile.
def insert (table : SpTable) (e : SpEntry) (mem : Bool) : SpTable where
  ptHash := (table.ptHash.insert e mem).1
  hash_eq := (table.ptHash.insert_same e mem).1.trans table.hash_eq
  less_eq := (table.ptHash.insert_same e mem).2.trans table.less_eq
  placed := table.placed.insert e mem

def insertAll (table : SpTable) : List SpEntry → (Nat → Bool) → SpTable
  | [], _ => table
  | e :: es, mem => (table.insert e (mem 0)).insertAll es fun k => mem (k + 1)

def pageFind (table : SpTable) (t : UserThread) (vaddr : Addr) : Option SpEntry :=
  table.ptHash.find (SpEntry.alloc t vaddr)

-- The two ways to be less are not exclusive, but two entries of which neither is less
-- have the same page and the same owner.
theorem equal_iff (table : SpTable) (a b : SpEntry) :
    table.ptHash.equal a b ↔ a.upage = b.upage ∧ a.tid = b.tid := by
  simp only [equal, table.less_eq, pageCmp, Bool.and_eq_true, Bool.not_eq_true',
    Bool.or_eq_false_iff, decide_eq_false_iff_not]
  rw [← BitVec.toNat_inj]
  simp only [BitVec.lt_def]
  omega

theorem pageFind_isSome_iff (table : SpTable) (t : UserThread) (page : Addr) :
    (table.pageFind t page).isSome ↔ ∃ e ∈ table.entries, e.upage = page ∧ e.tid = t.tid := by
  have hhash : ∀ a b, table.ptHash.equal a b → table.ptHash.hash a = table.ptHash.hash b := by
    intro a b hab
    rw [table.hash_eq, pageHash, pageHash, ((table.equal_iff a b).mp hab).1]
  rw [pageFind, table.placed.find_isSome_iff hhash]
  simp only [equal_iff, entries]
  exact Iff.rfl

theorem pageFind_eq_some {table : SpTable} {t : UserThread} {page : Addr} {e : SpEntry}
    (h : table.pageFind t page = some e) :
    e ∈ table.entries ∧ e.upage = page ∧ e.tid = t.tid := by
  obtain ⟨hmem, hequal⟩ := table.placed.find_eq_some h
  exact ⟨hmem, (table.equal_iff e _).mp hequal⟩

theorem mem_entries_insert (table : SpTable) (e : SpEntry) (mem : Bool) (x : SpEntry) :
    x ∈ (table.insert e mem).entries ↔
      x ∈ table.entries ∨ x = e ∧ ∀ y ∈ table.entries, y.upage = e.upage → y.tid ≠ e.tid := by
  have hfind : table.ptHash.find e = none ↔
      ∀ y ∈ table.entries, y.upage = e.upage → y.tid ≠ e.tid := by
    have hiff := table.pageFind_isSome_iff ⟨e.tid, e.pagedir⟩ e.upage
    have hsame : table.pageFind ⟨e.tid, e.pagedir⟩ e.upage = table.ptHash.find e := by
      simp [pageFind, find, findElem, findBucket, bucketIdx, equal,
        table.less_eq, table.hash_eq, pageCmp, pageHash, SpEntry.alloc]
    rw [hsame] at hiff
    rw [← Option.not_isSome_iff_eq_none, hiff]
    push Not
    exact Iff.rfl
  show x ∈ (table.ptHash.insert e mem).1.elems ↔ _
  rw [table.placed.mem_insert, hfind, and_comm]
  exact Iff.rfl

theorem mem_entries_insertAll (table : SpTable) (es : List SpEntry) (mem : Nat → Bool)
    (t : UserThread) (htid : ∀ e ∈ es, e.tid = t.tid) (hnodup : (es.map (·.upage)).Nodup)
    (hfresh : ∀ e ∈ es, ∀ y ∈ table.entries, y.upage = e.upage → y.tid ≠ t.tid) (x : SpEntry) :
    x ∈ (table.insertAll es mem).entries ↔ x ∈ table.entries ∨ x ∈ es := by
  induction es generalizing table mem with
  | nil => simp [insertAll]
  | cons e es ih =>
    obtain ⟨hnew, hnodup⟩ := nodup_cons.mp hnodup
    have htid' : e.tid = t.tid := htid e mem_cons_self
    have hinsert : ∀ y, y ∈ (table.insert e (mem 0)).entries ↔ y ∈ table.entries ∨ y = e := by
      intro y
      rw [mem_entries_insert, htid', and_iff_left (hfresh e mem_cons_self)]
    rw [insertAll, ih _ _ (fun e he => htid e (mem_cons_of_mem _ he)) hnodup, hinsert,
      mem_cons, or_assoc]
    intro e' he' y hy hpage
    rcases (hinsert y).mp hy with hy | rfl
    · exact hfresh e' (mem_cons_of_mem _ he') y hy hpage
    · exact absurd (mem_map.mpr ⟨e', he', hpage.symm⟩) hnew

theorem pageFind_insertAll (table : SpTable) (es : List SpEntry) (mem : Nat → Bool)
    (t : UserThread) (htid : ∀ e ∈ es, e.tid = t.tid) (hnodup : (es.map (·.upage)).Nodup)
    (hfresh : ∀ y ∈ table.entries, y.tid ≠ t.tid) (page : Addr) :
    (table.insertAll es mem).pageFind t page = es.find? (·.upage = page) := by
  have hmem := table.mem_entries_insertAll es mem t htid hnodup fun _ _ y hy _ => hfresh y hy
  cases hfind : (table.insertAll es mem).pageFind t page with
  | none =>
    symm
    rw [find?_eq_none]
    intro e he hpage
    have hsome := (pageFind_isSome_iff (table.insertAll es mem) t page).mpr
      ⟨e, (hmem e).mpr (.inr he), by simpa using hpage, htid e he⟩
    simp [hfind] at hsome
  | some e =>
    obtain ⟨hentry, hpage, howner⟩ := pageFind_eq_some hfind
    have hes : e ∈ es := ((hmem e).mp hentry).resolve_left fun hold => hfresh e hold howner
    symm
    obtain ⟨e', hfind'⟩ : ∃ e', es.find? (·.upage = page) = some e' := by
      rw [← Option.isSome_iff_exists, find?_isSome]
      exact ⟨e, hes, by simpa using hpage⟩
    have hpage' : e'.upage = page := by simpa using find?_some hfind'
    rw [hfind', inj_on_of_nodup_map hnodup (mem_of_find?_eq_some hfind') hes
      (hpage'.trans hpage.symm)]

end SpTable

end Pintos.Vm
