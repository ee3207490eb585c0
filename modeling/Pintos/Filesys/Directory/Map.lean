import Mathlib.Data.List.Nodup
import Pintos.Filesys.Directory

namespace Pintos.Filesys.Directory

open Function Lib Bytes List Option Nat CString

namespace DirEntry

@[simp] theorem length_bytes (e : DirEntry) : e.bytes.length = entrySize := by
  simp [bytes, e.size, nameMax, entrySize]

theorem load_congr {m m' : Bytes} {a b : Nat} (h : ∀ i < entrySize, m (a + i) = m' (b + i)) :
    load m a = load m' b := by
  have hword : m.word a = m'.word b := word_congr fun i hi => h i (by unfold entrySize; omega)
  have hname : m.read (a + 4) (nameMax + 1) = m'.read (b + 4) (nameMax + 1) := by
    apply map_congr_left
    intro i hi
    have hlt := mem_range.mp hi
    rw [Nat.add_assoc, Nat.add_assoc]
    exact h (4 + i) (by unfold nameMax at hlt; unfold entrySize; omega)
  have huse := h 19 (by decide)
  simp only [load, hword, hname, huse]

theorem load_write_of_disjoint {m : Bytes} {a ofs : Nat} {data : List UInt8}
    (h : a + entrySize ≤ ofs ∨ ofs + data.length ≤ a) :
    load (m.write ofs data) a = load m a := by
  apply load_congr
  intro i hi
  rcases h with h | h
  · exact write_of_lt (by omega)
  · exact write_of_ge (by omega)

theorem load_write (m : Bytes) (ofs : Nat) (e : DirEntry) : load (m.write ofs e.bytes) ofs = e := by
  have hsize := e.size
  have hsplit : m.write ofs e.bytes =
      ((m.write ofs (ofWord e.inodeSector.toNat)).write (ofs + 4) e.name).write (ofs + 19)
        [if e.inUse then 1 else 0] := by
    rw [bytes, write_append, write_append, length_append, length_ofWord, hsize]
    rfl
  have hword : (m.write ofs e.bytes).word ofs = e.inodeSector.toNat := by
    rw [hsplit, word_write_of_disjoint (.inl (by omega)),
      word_write_of_disjoint (.inl (by omega)), word_write_ofWord]
    exact mod_eq_of_lt e.inodeSector.toNat_lt
  have hname : (m.write ofs e.bytes).read (ofs + 4) (nameMax + 1) = e.name := by
    rw [hsplit, read_write_of_disjoint (.inl (by unfold nameMax; omega)), ← hsize, read_write]
  have huse : m.write ofs e.bytes (ofs + 19) = if e.inUse then 1 else 0 := by
    rw [hsplit]
    exact write_add (i := 0) (by simp) 0
  cases e with
  | mk inodeSector name inUse size =>
    simp only [load, hword, hname, huse, UInt32.ofNat_toNat, DirEntry.mk.injEq, true_and]
    cases inUse <;> simp

end DirEntry

def slots (f : ByteFile) : Nat := f.length / entrySize

def entry (f : ByteFile) (k : Nat) : DirEntry := .load f.bytes (k * entrySize)

variable {f : ByteFile} {e : DirEntry} {stop : DirEntry → Bool} {k ofs j : Nat} {name : CString}

theorem readEntry_of_full (h : ofs + entrySize ≤ f.length) :
    readEntry f e ofs = (.load f.bytes ofs, entrySize) := by
  have hlen : (f.readAt entrySize ofs).length = entrySize := by
    rw [ByteFile.length_readAt]
    omega
  simp only [readEntry, hlen, Prod.mk.injEq, and_true]
  apply DirEntry.load_congr
  intro i hi
  rw [write_add (by omega) 0]
  exact getD_read (by omega) 0

theorem readEntry_of_short (h : f.length < ofs + entrySize) :
    (readEntry f e ofs).2 ≠ entrySize := by
  have hlen := f.length_readAt entrySize ofs
  simp only [readEntry]
  unfold entrySize at *
  omega

theorem scan_spec (fuel : Nat) (hk : k ≤ slots f) (hfuel : slots f - k < fuel) :
    (∃ j, k ≤ j ∧ j < slots f ∧ stop (entry f j) = true ∧
      (∀ i, k ≤ i → i < j → stop (entry f i) = false) ∧
      scan f stop fuel e (k * entrySize) = (true, entry f j, j * entrySize)) ∨
    ((∀ i, k ≤ i → i < slots f → stop (entry f i) = false) ∧
      ∃ e', scan f stop fuel e (k * entrySize) = (false, e', slots f * entrySize)) := by
  induction fuel generalizing k e with
  | zero => omega
  | succ fuel ih =>
    have hlength := div_add_mod f.length entrySize
    have hmod := mod_lt f.length (show 0 < entrySize by decide)
    rw [← slots] at hlength
    by_cases hlast : k = slots f
    · subst hlast
      right
      refine ⟨fun i hki hi => by omega, ?_⟩
      have hshort : (readEntry f e (slots f * entrySize)).2 ≠ entrySize :=
        readEntry_of_short (by rw [Nat.mul_comm]; omega)
      exact ⟨_, by rw [scan]; exact if_neg hshort⟩
    · have hle : (k + 1) * entrySize ≤ slots f * entrySize := mul_le_mul_right _ (by omega)
      have hfull : readEntry f e (k * entrySize) = (entry f k, entrySize) := by
        apply readEntry_of_full
        rw [succ_mul] at hle
        rw [Nat.mul_comm] at hlength
        omega
      have hround : scan f stop (fuel + 1) e (k * entrySize) =
          if stop (entry f k) then (true, entry f k, k * entrySize)
          else scan f stop fuel (entry f k) ((k + 1) * entrySize) := by
        rw [scan, hfull, succ_mul]
        simp
      rw [hround]
      cases hstop : stop (entry f k) with
      | true =>
        left
        exact ⟨k, le_refl k, by omega, hstop, fun i _ _ => by omega, by simp⟩
      | false =>
        have hnext := ih (k := k + 1) (e := entry f k) (by omega) (by omega)
        have hextend : ∀ j, (∀ i, k + 1 ≤ i → i < j → stop (entry f i) = false) →
            ∀ i, k ≤ i → i < j → stop (entry f i) = false := by
          intro j hj i hki hi
          by_cases hik : i = k
          · rw [hik, hstop]
          · exact hj i (by omega) hi
        simp only [Bool.false_eq_true, if_false]
        rcases hnext with ⟨j, hkj, hj, hjstop, hbefore, hscan⟩ | ⟨hnone, hscan⟩
        · exact .inl ⟨j, by omega, hj, hjstop, hextend j hbefore, hscan⟩
        · exact .inr ⟨hextend _ hnone, hscan⟩

theorem scan_rounds (stop : DirEntry → Bool) (e : DirEntry) (hk : k ≤ slots f) :
    (∃ j, k ≤ j ∧ j < slots f ∧ stop (entry f j) = true ∧
      (∀ i, k ≤ i → i < j → stop (entry f i) = false) ∧
      scan f stop (rounds f) e (k * entrySize) = (true, entry f j, j * entrySize)) ∨
    ((∀ i, k ≤ i → i < slots f → stop (entry f i) = false) ∧
      ∃ e', scan f stop (rounds f) e (k * entrySize) = (false, e', slots f * entrySize)) := by
  apply scan_spec _ hk
  show slots f - k < slots f + 1
  omega

def Holds (f : ByteFile) (j : Nat) (name : CString) : Prop :=
  j < slots f ∧ (entry f j).inUse = true ∧ (entry f j).nameString = name

theorem lookup_spec (f : ByteFile) (e : DirEntry) (name : CString) :
    (∃ j, Holds f j name ∧ lookup f e name = some (entry f j, j * entrySize)) ∨
    ((∀ j, ¬Holds f j name) ∧ lookup f e name = none) := by
  have hscan := scan_rounds (fun e => e.inUse && e.named name) e (Nat.zero_le (slots f))
  rw [Nat.zero_mul] at hscan
  rcases hscan with ⟨j, -, hj, hstop, -, heq⟩ | ⟨hnone, e', heq⟩
  · left
    simp only [DirEntry.named, Bool.and_eq_true, decide_eq_true_eq] at hstop
    exact ⟨j, ⟨hj, hstop.1, hstop.2.symm⟩, by simp only [lookup, heq]⟩
  · right
    refine ⟨?_, by simp only [lookup, heq]⟩
    rintro j ⟨hj, huse, hname⟩
    have hstop := hnone j (Nat.zero_le j) hj
    simp [huse, DirEntry.named, hname] at hstop

theorem slots_writeAt (e : DirEntry) (hk : k ≤ slots f) :
    slots (f.writeAt e.bytes (k * entrySize)) = max (slots f) (k + 1) := by
  have hlen := e.length_bytes
  simp only [slots, ByteFile.writeAt, hlen] at *
  unfold entrySize at *
  omega

theorem length_writeAt (e : DirEntry) (hk : k < slots f) :
    (f.writeAt e.bytes (k * entrySize)).length = f.length := by
  have hlen := e.length_bytes
  simp only [slots, ByteFile.writeAt, hlen] at *
  unfold entrySize at *
  omega

theorem entry_writeAt_self : entry (f.writeAt e.bytes (k * entrySize)) k = e :=
  DirEntry.load_write ..

theorem entry_writeAt_of_ne (h : j ≠ k) :
    entry (f.writeAt e.bytes (k * entrySize)) j = entry f j := by
  apply DirEntry.load_write_of_disjoint
  rw [e.length_bytes]
  unfold entrySize
  omega

theorem holds_writeAt (e : DirEntry) (j : Nat) (name : CString) (hk : k ≤ slots f) :
    Holds (f.writeAt e.bytes (k * entrySize)) j name ↔
      (j = k ∧ e.inUse = true ∧ e.nameString = name) ∨ (j ≠ k ∧ Holds f j name) := by
  unfold Holds
  rw [slots_writeAt e hk]
  by_cases hj : j = k
  · subst hj
    rw [entry_writeAt_self]
    constructor
    · rintro ⟨-, huse, hname⟩
      exact .inl ⟨rfl, huse, hname⟩
    · rintro (⟨-, huse, hname⟩ | ⟨hne, -⟩)
      · exact ⟨by omega, huse, hname⟩
      · exact absurd rfl hne
  · rw [entry_writeAt_of_ne hj]
    constructor
    · rintro ⟨hlt, huse, hname⟩
      exact .inr ⟨hj, by omega, huse, hname⟩
    · rintro (⟨heq, -⟩ | ⟨-, hlt, huse, hname⟩)
      · exact absurd heq hj
      · exact ⟨by omega, huse, hname⟩

structure Represents (f : ByteFile) (m : CString → Option UInt32) : Prop where
  terminated : ∀ j < slots f, (entry f j).inUse = true → 0 ∈ (entry f j).name
  unique : ∀ i j name, Holds f i name → Holds f j name → i = j
  maps : ∀ name v, m name = some v ↔ ∃ j, Holds f j name ∧ (entry f j).inodeSector = v

namespace Represents

variable {m : CString → Option UInt32}

theorem zeros (length : Nat) : Represents (ByteFile.zeros length) fun _ => none := by
  have huse : ∀ j, (entry (ByteFile.zeros length) j).inUse = false := by
    intro j
    simp [entry, DirEntry.load, ByteFile.zeros]
  constructor
  · intro j hj hinUse
    rw [huse] at hinUse
    cases hinUse
  · rintro i j name ⟨-, hinUse, -⟩
    rw [huse] at hinUse
    cases hinUse
  · intro name v
    constructor
    · intro h
      cases h
    · rintro ⟨j, ⟨-, hinUse, -⟩, -⟩
      rw [huse] at hinUse
      cases hinUse

section

variable (h : Represents f m)
include h

theorem isSome_iff : (m name).isSome = true ↔ ∃ j, Holds f j name := by
  constructor
  · intro hsome
    obtain ⟨v, hv⟩ := isSome_iff_exists.mp hsome
    obtain ⟨j, hj, -⟩ := (h.maps name v).mp hv
    exact ⟨j, hj⟩
  · rintro ⟨j, hj⟩
    rw [(h.maps name _).mpr ⟨j, hj, rfl⟩]
    rfl

theorem lookup (e : DirEntry) (name : CString) :
    (∃ j, Holds f j name ∧ m name = some (entry f j).inodeSector ∧
      lookup f e name = some (entry f j, j * entrySize)) ∨
    (m name = none ∧ lookup f e name = none) := by
  rcases lookup_spec f e name with ⟨j, hj, heq⟩ | ⟨hnone, heq⟩
  · exact .inl ⟨j, hj, (h.maps name _).mpr ⟨j, hj, rfl⟩, heq⟩
  · right
    refine ⟨?_, heq⟩
    rw [eq_none_iff_forall_ne_some]
    intro v hv
    obtain ⟨j, hj, -⟩ := (h.maps name v).mp hv
    exact hnone j hj

theorem dirLookup_eq (e : DirEntry) (name : CString) : dirLookup f e name = m name := by
  rcases h.lookup e name with ⟨j, -, hm, heq⟩ | ⟨hm, heq⟩
  · simp only [dirLookup, heq, hm, map_some]
  · simp only [dirLookup, heq, hm, map_none]

theorem terminated_writeAt (hk : k ≤ slots f) (he : e.inUse = true → 0 ∈ e.name) :
    ∀ j < slots (f.writeAt e.bytes (k * entrySize)),
      (entry (f.writeAt e.bytes (k * entrySize)) j).inUse = true →
      0 ∈ (entry (f.writeAt e.bytes (k * entrySize)) j).name := by
  intro j hj huse
  rw [slots_writeAt e hk] at hj
  by_cases hjk : j = k
  · subst hjk
    rw [entry_writeAt_self] at huse ⊢
    exact he huse
  · rw [entry_writeAt_of_ne hjk] at huse ⊢
    exact h.terminated j (by omega) huse

theorem put (hk : k ≤ slots f) (hfree : k < slots f → (entry f k).inUse = false)
    (huse : e.inUse = true) (hterm : 0 ∈ e.name) (habsent : m e.nameString = none) :
    Represents (f.writeAt e.bytes (k * entrySize))
      (update m e.nameString (some e.inodeSector)) := by
  have hholds := fun j name => holds_writeAt e j name hk
  have hnew : ∀ j, ¬Holds f j e.nameString := by
    intro j hj
    have hsome := h.isSome_iff.mpr ⟨j, hj⟩
    rw [habsent] at hsome
    cases hsome
  have hnotk : ∀ name, ¬Holds f k name := by
    rintro name ⟨hlt, hused, -⟩
    rw [hfree hlt] at hused
    cases hused
  refine ⟨h.terminated_writeAt hk fun _ => hterm, ?_, ?_⟩
  · intro i j name hi hj
    rcases (hholds i name).mp hi with ⟨rfl, -, rfl⟩ | ⟨-, hi'⟩
    · rcases (hholds j _).mp hj with ⟨rfl, -⟩ | ⟨-, hj'⟩
      · rfl
      · exact absurd hj' (hnew j)
    · rcases (hholds j name).mp hj with ⟨rfl, -, rfl⟩ | ⟨-, hj'⟩
      · exact absurd hi' (hnew i)
      · exact h.unique i j name hi' hj'
  · intro name v
    by_cases hname : name = e.nameString
    · subst hname
      rw [update_self]
      constructor
      · intro hv
        refine ⟨k, (hholds k _).mpr (.inl ⟨rfl, huse, rfl⟩), ?_⟩
        rw [entry_writeAt_self]
        exact some.inj hv
      · rintro ⟨j, hj, rfl⟩
        rcases (hholds j _).mp hj with ⟨rfl, -⟩ | ⟨-, hj⟩
        · rw [entry_writeAt_self]
        · exact absurd hj (hnew j)
    · rw [update_of_ne hname, h.maps]
      constructor
      · rintro ⟨j, hj, hv⟩
        have hjk : j ≠ k := by
          rintro rfl
          exact hnotk name hj
        exact ⟨j, (hholds j name).mpr (.inr ⟨hjk, hj⟩), by rwa [entry_writeAt_of_ne hjk]⟩
      · rintro ⟨j, hj, hv⟩
        rcases (hholds j name).mp hj with ⟨-, -, heq⟩ | ⟨hjk, hj⟩
        · exact absurd heq.symm hname
        · rw [entry_writeAt_of_ne hjk] at hv
          exact ⟨j, hj, hv⟩

theorem erase (hk : Holds f k name) (huse : e.inUse = false) :
    Represents (f.writeAt e.bytes (k * entrySize)) (update m name none) := by
  have hholds := fun j n => holds_writeAt e j n (le_of_lt hk.1)
  have hother : ∀ j n, Holds (f.writeAt e.bytes (k * entrySize)) j n ↔ j ≠ k ∧ Holds f j n := by
    intro j n
    rw [hholds, huse]
    simp
  refine ⟨h.terminated_writeAt (le_of_lt hk.1) ?_, ?_, ?_⟩
  · intro hused
    rw [huse] at hused
    cases hused
  · intro i j n hi hj
    exact h.unique i j n ((hother i n).mp hi).2 ((hother j n).mp hj).2
  · intro n v
    by_cases hn : n = name
    · subst hn
      rw [update_self]
      constructor
      · intro hv
        cases hv
      · rintro ⟨j, hj, -⟩
        obtain ⟨hjk, hj⟩ := (hother j n).mp hj
        exact absurd (h.unique j k n hj hk) hjk
    · rw [update_of_ne hn, h.maps]
      constructor
      · rintro ⟨j, hj, hv⟩
        have hjk : j ≠ k := by
          rintro rfl
          exact hn (hj.2.2.symm.trans hk.2.2)
        exact ⟨j, (hother j n).mpr ⟨hjk, hj⟩, by rwa [entry_writeAt_of_ne hjk]⟩
      · rintro ⟨j, hj, hv⟩
        obtain ⟨hjk, hj⟩ := (hother j n).mp hj
        rw [entry_writeAt_of_ne hjk] at hv
        exact ⟨j, hj, hv⟩

end

end Represents

inductive Call
  | add (e : DirEntry) (name : CString) (inodeSector : UInt32)
  | remove (e : DirEntry) (name : CString)

def call (f : ByteFile) : Call → ByteFile × Bool
  | .add e name inodeSector => dirAdd f e name inodeSector
  | .remove e name => dirRemove f e name

def valid (name : CString) : Prop := name.length ≠ 0 ∧ name.length ≤ nameMax

instance : DecidablePred valid := fun _ => inferInstanceAs (Decidable (_ ∧ _))

def mapCall (m : CString → Option UInt32) : Call → (CString → Option UInt32) × Bool
  | .add _ name inodeSector =>
    if valid name ∧ m name = none then (update m name (some inodeSector), true)
    else (m, false)
  | .remove _ name =>
    if (m name).isSome then (update m name none, true) else (m, false)

def callAll {σ : Type} (call : σ → Call → σ × Bool) (s : σ) : List Call → σ × List Bool
  | [] => (s, [])
  | c :: calls =>
    let (s', answer) := call s c
    let (s'', answers) := callAll call s' calls
    (s'', answer :: answers)

namespace Represents

variable {m : CString → Option UInt32}

theorem freeSlot (f : ByteFile) (e : DirEntry) :
    ∃ k found e', k ≤ slots f ∧ (k < slots f → (entry f k).inUse = false) ∧
      ((∃ j < slots f, (entry f j).inUse = false) → k < slots f) ∧
      scan f (fun e => !e.inUse) (rounds f) e 0 = (found, e', k * entrySize) := by
  have hscan := scan_rounds (fun e => !e.inUse) e (Nat.zero_le (slots f))
  rw [Nat.zero_mul] at hscan
  rcases hscan with ⟨j, -, hj, hstop, -, heq⟩ | ⟨hnone, e', heq⟩
  · exact ⟨j, true, entry f j, le_of_lt hj, fun _ => by simpa using hstop, fun _ => hj, heq⟩
  · refine ⟨slots f, false, e', le_refl _, fun hlt => absurd hlt (lt_irrefl _), ?_, heq⟩
    rintro ⟨j, hj, huse⟩
    have hstop := hnone j (Nat.zero_le j) hj
    simp [huse] at hstop

section

variable (h : Represents f m)
include h

theorem dirAdd_of_valid (e : DirEntry) (inodeSector : UInt32) (hvalid : valid name)
    (habsent : m name = none) :
    ∃ f', dirAdd f e name inodeSector = (f', true) ∧
      Represents f' (update m name (some inodeSector)) ∧
      ((∃ j < slots f, (entry f j).inUse = false) → f'.length = f.length) := by
  obtain ⟨k, found, e', hk, hfree, hreuse, hscan⟩ := freeSlot f e
  have hlookup : Directory.lookup f e name = none := by
    rcases h.lookup e name with ⟨j, -, hm, -⟩ | ⟨-, heq⟩
    · rw [habsent] at hm
      cases hm
    · exact heq
  have hname : (e'.setName name).nameString = name := ofBytes_strlcpy (lt_succ_of_le hvalid.2)
  have hterm : 0 ∈ (e'.setName name).name := zero_mem_strlcpy (succ_pos _)
  refine ⟨f.writeAt { e'.setName name with inUse := true, inodeSector := inodeSector }.bytes
    (k * entrySize), ?_, ?_, ?_⟩
  · unfold dirAdd
    rw [if_neg (by unfold valid at hvalid; omega), hlookup, hscan]
    rfl
  · have hput := h.put (e := { e'.setName name with inUse := true, inodeSector := inodeSector }) hk
      hfree rfl hterm (by rw [← hname] at habsent; exact habsent)
    change Represents _ (update m (e'.setName name).nameString (some inodeSector)) at hput
    rw [hname] at hput
    exact hput
  · intro hslot
    exact length_writeAt _ (hreuse hslot)

theorem dirAdd_of_not (e : DirEntry) (inodeSector : UInt32) (hnot : ¬(valid name ∧ m name = none)) :
    dirAdd f e name inodeSector = (f, false) := by
  unfold dirAdd
  by_cases hvalid : valid name
  · have hsome : (Directory.lookup f e name).isSome := by
      rcases h.lookup e name with ⟨j, -, -, heq⟩ | ⟨hm, -⟩
      · rw [heq]
        rfl
      · exact absurd ⟨hvalid, hm⟩ hnot
    rw [if_neg (by unfold valid at hvalid; omega), if_pos hsome]
  · rw [if_pos (by unfold valid at hvalid; omega)]

theorem dirRemove (e : DirEntry) (name : CString) :
    (m name = none ∧ dirRemove f e name = (f, false)) ∨
    ((m name).isSome = true ∧ ∃ f', dirRemove f e name = (f', true) ∧
      Represents f' (update m name none)) := by
  rcases h.lookup e name with ⟨j, hj, hm, heq⟩ | ⟨hm, heq⟩
  · right
    refine ⟨by rw [hm]; rfl, f.writeAt { entry f j with inUse := false }.bytes (j * entrySize),
      by simp only [Directory.dirRemove, heq], ?_⟩
    exact h.erase hj rfl
  · left
    exact ⟨hm, by simp only [Directory.dirRemove, heq]⟩

theorem call (c : Call) :
    Represents (call f c).1 (mapCall m c).1 ∧ (Directory.call f c).2 = (mapCall m c).2 := by
  cases c with
  | add e name inodeSector =>
    simp only [Directory.call, mapCall]
    by_cases hok : valid name ∧ m name = none
    · obtain ⟨f', heq, hrep, -⟩ := h.dirAdd_of_valid e inodeSector hok.1 hok.2
      rw [heq, if_pos hok]
      exact ⟨hrep, rfl⟩
    · rw [h.dirAdd_of_not e inodeSector hok, if_neg hok]
      exact ⟨h, rfl⟩
  | remove e name =>
    simp only [Directory.call, mapCall]
    rcases h.dirRemove e name with ⟨hm, heq⟩ | ⟨hm, f', heq, hrep⟩
    · rw [heq, hm]
      exact ⟨h, rfl⟩
    · rw [heq, if_pos hm]
      exact ⟨hrep, rfl⟩

theorem callAll (calls : List Call) :
    Represents (callAll Directory.call f calls).1 (callAll mapCall m calls).1 ∧
      (Directory.callAll Directory.call f calls).2 = (Directory.callAll mapCall m calls).2 := by
  induction calls generalizing f m with
  | nil => exact ⟨h, rfl⟩
  | cons c calls ih =>
    obtain ⟨hrep, hanswer⟩ := h.call c
    obtain ⟨hreps, hanswers⟩ := ih hrep
    refine ⟨hreps, ?_⟩
    simp only [Directory.callAll]
    rw [hanswer, hanswers]

theorem length_nameString_lt (hj : j < slots f) (huse : (entry f j).inUse = true) :
    (entry f j).nameString.length < nameMax + 1 := by
  have hlt := length_ofBytes_lt (h.terminated j hj huse)
  rwa [(entry f j).size] at hlt

theorem dirReaddir (e : DirEntry) (hk : k ≤ slots f) :
    (∃ j, k ≤ j ∧ j < slots f ∧ (entry f j).inUse = true ∧
      (∀ i, k ≤ i → i < j → (entry f i).inUse = false) ∧
      dirReaddir f e (k * entrySize) = (some (entry f j).nameString, (j + 1) * entrySize)) ∨
    ((∀ i, k ≤ i → i < slots f → (entry f i).inUse = false) ∧
      dirReaddir f e (k * entrySize) = (none, slots f * entrySize)) := by
  rcases scan_rounds (·.inUse) e hk with ⟨j, hkj, hj, huse, hbefore, heq⟩ | ⟨hnone, e', heq⟩
  · left
    have hname : ofBytes (strlcpy (replicate (nameMax + 1) 0)
        (entry f j).nameString (nameMax + 1)) = (entry f j).nameString :=
      ofBytes_strlcpy (h.length_nameString_lt hj huse)
    refine ⟨j, hkj, hj, huse, hbefore, ?_⟩
    simp only [Directory.dirReaddir, heq, hname, succ_mul]
  · right
    exact ⟨hnone, by simp only [Directory.dirReaddir, heq]⟩

end

end Represents

inductive Listing (f : ByteFile) : Nat → List CString → Prop
  | done {pos pos' : Nat} (h : ∀ e, dirReaddir f e pos = (none, pos')) : Listing f pos []
  | more {pos pos' : Nat} {name : CString} {names : List CString}
      (h : ∀ e, dirReaddir f e pos = (some name, pos')) (rest : Listing f pos' names) :
      Listing f pos (name :: names)

namespace Represents

variable {m : CString → Option UInt32}

theorem listing_from (h : Represents f m) (k : Nat) (hk : k ≤ slots f) :
    ∃ js : List Nat, js.Pairwise (· < ·) ∧
      (∀ j, j ∈ js ↔ k ≤ j ∧ j < slots f ∧ (entry f j).inUse = true) ∧
      Listing f (k * entrySize) (js.map fun j => (entry f j).nameString) := by
  obtain ⟨n, hn⟩ : ∃ n, n = slots f - k := ⟨_, rfl⟩
  induction n using Nat.strong_induction_on generalizing k with
  | _ n ih =>
  rcases h.dirReaddir (entry f k) hk with ⟨j, hkj, hj, huse, hbefore, -⟩ | ⟨hnone, -⟩
  · obtain ⟨js, hsorted, hmem, hlist⟩ := ih (slots f - (j + 1)) (by omega) (j + 1) (by omega) rfl
    refine ⟨j :: js, ?_, ?_, ?_⟩
    · refine pairwise_cons.mpr ⟨?_, hsorted⟩
      intro i hi
      have hlt := ((hmem i).mp hi).1
      omega
    · intro i
      rw [mem_cons, hmem]
      constructor
      · rintro (rfl | ⟨hlt, hi, hiuse⟩)
        · exact ⟨hkj, hj, huse⟩
        · exact ⟨by omega, hi, hiuse⟩
      · rintro ⟨hki, hi, hiuse⟩
        by_cases hij : i < j
        · rw [hbefore i hki hij] at hiuse
          cases hiuse
        · by_cases heq : i = j
          · exact .inl heq
          · exact .inr ⟨by omega, hi, hiuse⟩
    · refine .more (fun e => ?_) hlist
      rcases h.dirReaddir e hk with ⟨i, hki, hi, hiuse, hfirst, heq⟩ | ⟨hnone, -⟩
      · -- both are the first slot in use
        have hij : i = j := by
          rcases lt_trichotomy i j with hlt | heq | hgt
          · rw [hbefore i hki hlt] at hiuse
            cases hiuse
          · exact heq
          · rw [hfirst j hkj hgt] at huse
            cases huse
        rw [← hij, heq]
      · rw [hnone j hkj hj] at huse
        cases huse
  · have hend : ∀ e, Directory.dirReaddir f e (k * entrySize) = (none, slots f * entrySize) := by
      intro e
      rcases h.dirReaddir e hk with ⟨i, hki, hi, hiuse, -, -⟩ | ⟨-, heq⟩
      · rw [hnone i hki hi] at hiuse
        cases hiuse
      · exact heq
    refine ⟨[], List.Pairwise.nil, ?_, .done hend⟩
    intro j
    constructor
    · intro hmem
      cases hmem
    · rintro ⟨hkj, hj, huse⟩
      rw [hnone j hkj hj] at huse
      cases huse

theorem listing (h : Represents f m) :
    ∃ names, names.Nodup ∧ (∀ name, name ∈ names ↔ (m name).isSome = true) ∧ Listing f 0 names := by
  obtain ⟨js, hsorted, hmem, hlist⟩ := h.listing_from 0 (Nat.zero_le _)
  rw [Nat.zero_mul] at hlist
  refine ⟨_, ?_, ?_, hlist⟩
  · refine List.Nodup.map_on ?_ (hsorted.imp fun hlt => Nat.ne_of_lt hlt)
    intro i hi j hj hname
    obtain ⟨-, hilt, hiuse⟩ := (hmem i).mp hi
    obtain ⟨-, hjlt, hjuse⟩ := (hmem j).mp hj
    exact h.unique i j _ ⟨hilt, hiuse, hname⟩ ⟨hjlt, hjuse, rfl⟩
  · intro name
    rw [h.isSome_iff, List.mem_map]
    constructor
    · rintro ⟨j, hj, hname⟩
      obtain ⟨-, hlt, huse⟩ := (hmem j).mp hj
      exact ⟨j, hlt, huse, hname⟩
    · rintro ⟨j, hlt, huse, hname⟩
      exact ⟨j, (hmem j).mpr ⟨Nat.zero_le j, hlt, huse⟩, hname⟩

end Represents

-- A directory starts as an array of zeros; `calls` is what was done with it since.
theorem directory_refines_map (length : Nat) (calls : List Call) :
    let f := (callAll call (ByteFile.zeros length) calls).1
    let m := (callAll mapCall (fun _ => none) calls).1
    (callAll call (ByteFile.zeros length) calls).2 = (callAll mapCall (fun _ => none) calls).2 ∧
    (∀ i j, i < slots f → j < slots f → (entry f i).inUse = true → (entry f j).inUse = true →
      (entry f i).nameString = (entry f j).nameString → i = j) ∧
    (∀ e name inodeSector, (dirAdd f e name inodeSector).2 = true ↔
      name.length ≠ 0 ∧ name.length ≤ nameMax ∧ m name = none) ∧
    (∀ e name, dirLookup f e name = m name) ∧
    (∀ e name inodeSector, (∃ j < slots f, (entry f j).inUse = false) →
      (dirAdd f e name inodeSector).1.length = f.length) ∧
    ∃ names, names.Nodup ∧ (∀ name, name ∈ names ↔ (m name).isSome = true) ∧ Listing f 0 names := by
  intro f m
  obtain ⟨hrep, hanswers⟩ := (Represents.zeros length).callAll calls
  change Represents f m at hrep
  refine ⟨hanswers, ?_, ?_, fun e name => hrep.dirLookup_eq e name, ?_, hrep.listing⟩
  · intro i j hi hj hiuse hjuse hname
    exact hrep.unique i j _ ⟨hi, hiuse, hname⟩ ⟨hj, hjuse, rfl⟩
  · intro e name inodeSector
    rw [← and_assoc]
    by_cases hok : valid name ∧ m name = none
    · obtain ⟨f', heq, -⟩ := hrep.dirAdd_of_valid e inodeSector hok.1 hok.2
      exact iff_of_true (by rw [heq]) hok
    · rw [hrep.dirAdd_of_not e inodeSector hok]
      exact iff_of_false Bool.false_ne_true hok
  · intro e name inodeSector hfree
    by_cases hok : valid name ∧ m name = none
    · obtain ⟨f', heq, -, hlength⟩ := hrep.dirAdd_of_valid e inodeSector hok.1 hok.2
      rw [heq]
      exact hlength hfree
    · rw [hrep.dirAdd_of_not e inodeSector hok]

end Pintos.Filesys.Directory
