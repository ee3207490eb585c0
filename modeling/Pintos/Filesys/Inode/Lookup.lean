import Mathlib.Order.Interval.Finset.Nat
import Pintos.Filesys.Inode.Append

namespace Pintos.Filesys.Inodes

open Lib LibKernel Devices List Nat

variable {fs : Fs} {i : Inode} {l : List Nat} {newInd idx j k n s b : Nat}

structure Direct (fs : Fs) (i : Inode) (l : List Nat) : Prop where
  home : i.sector < fs.fileBlockStart
  sectors : i.sectors = l.length
  dir : i.dirSectors = l.length
  ind : i.indSectors = 0
  small : i.large = false
  le : l.length ≤ 6
  slots : ∀ b < l.length, l[b]? = some (slot fs.device i b)
  data : ∀ s ∈ l,
    fs.fileBlockStart ≤ s ∧ s < fs.device.size ∧ fs.fsMap.sectors.bits s = true
  zero : ∀ s ∈ l, ∀ b < Block.sectorSize, fs.device.sectors s b = 0
  nodup : l.Nodup

structure Indirect (fs : Fs) (i : Inode) (l : List Nat) (newInd : Nat) : Prop where
  home : i.sector < fs.fileBlockStart
  sectors : i.sectors = 7
  dir : i.dirSectors = 0
  ind : i.indSectors = 1
  large : i.large = true
  length : l.length = 7
  index : slot fs.device i 0 = newInd
  index_lt : newInd < fs.device.size
  index_taken : fs.fsMap.sectors.bits newInd = true
  not_mem : newInd ∉ l
  words : ∀ b < 7, l[b]? = some ((fs.device.sectors newInd).word (4 * b))
  nodup : l.Nodup

theorem home_lt (h : i.sector < fs.fileBlockStart) : i.sector < fs.device.size :=
  h.trans_le (Nat.div_le_self ..)

theorem bits_set_self (b : Bitmap) (idx : Nat) (value : Bool) :
    (b.set idx value).bits idx = value := Function.update_self ..

theorem bits_set_of_ne (b : Bitmap) (value : Bool) (h : j ≠ idx) :
    (b.set idx value).bits j = b.bits j := Function.update_of_ne h ..

theorem bits_set_true {b : Bitmap} (h : b.bits j = true) : (b.set idx true).bits j = true := by
  by_cases hj : j = idx
  · rw [hj]
    exact bits_set_self ..
  · rwa [bits_set_of_ne _ _ hj]

namespace Direct

theorem not_mem (h : Direct fs i l) {s : Nat} (hs : fs.fsMap.sectors.bits s = false) : s ∉ l := by
  intro hmem
  rw [(h.data s hmem).2.2] at hs
  cases hs

theorem append (h : Direct fs i l) (hr : Ready fs) (hlt : l.length < 6) (hav : fs.Available) :
    ∃ s d, fs.fsMap.sectors.bits s = false ∧ fs.fileBlockStart ≤ s ∧ s < fs.device.size ∧
      d.size = fs.device.size ∧
      inodeAppendSector i fs =
        .ok (({ i with dirSectors := i.dirSectors + 1, sectors := i.sectors + 1 }, some s),
          ((fs.take s).setDevice d)) ∧
      Direct ((fs.take s).setDevice d)
        { i with dirSectors := i.dirSectors + 1, sectors := i.sectors + 1 } (l ++ [s]) := by
  obtain ⟨s, hge, hs, hbit, halloc⟩ := allocateSector_of_available hr hav
  have hi := home_lt h.home
  have hne : i.sector ≠ s := by
    have := h.home
    omega
  have hsec := h.sectors
  have hrun := layOut_direct (hr.take s) (i := i) (by omega) hi hs
  refine ⟨s, zeroed (setSlot fs.device i i.sectors s) s, hbit, hge, hs, rfl,
    (append_of_some halloc).trans hrun, ?_⟩
  have hslot : ∀ b, slot (zeroed (setSlot fs.device i i.sectors s) s) i b =
      slot (setSlot fs.device i i.sectors s) i b := by
    intro b
    rw [slot, zeroed_of_ne _ hne, slot]
  constructor
  case home => exact h.home
  case sectors => simp [h.sectors]
  case dir => simp [h.dir]
  case ind => exact h.ind
  case small => exact h.small
  case le => simp only [length_append, length_singleton]; omega
  case slots =>
    intro b hb
    refine Eq.trans ?_ (congrArg some (hslot b)).symm
    rw [length_append, length_singleton] at hb
    by_cases hlast : b = l.length
    · rw [hlast, getElem?_concat_length, ← h.sectors, slot_setSlot_self (hs.trans hr.size_lt)]
    · rw [getElem?_append_left (by omega), slot_setSlot_of_ne (by omega)]
      exact h.slots b (by omega)
  case data =>
    intro t ht
    rw [mem_append, mem_singleton] at ht
    rcases ht with ht | rfl
    · obtain ⟨hdata, htl, hset⟩ := h.data t ht
      exact ⟨hdata, htl, bits_set_true hset⟩
    · exact ⟨hge, hs, bits_set_self ..⟩
  case zero =>
    intro t ht b hb
    by_cases hts : t = s
    · rw [hts]
      exact zeroed_self _ hb
    · have hmem : t ∈ l := by
        rw [mem_append, mem_singleton] at ht
        exact ht.resolve_right hts
      have hhome : t ≠ i.sector := by
        have := (h.data t hmem).1
        have := h.home
        omega
      exact (congrFun ((zeroed_of_ne _ hts).trans (Block.sectors_set_of_ne hhome)) b).trans
        (h.zero t hmem b hb)
  case nodup =>
    exact nodup_append.mpr ⟨h.nodup, nodup_singleton s, fun a ha b hb hab =>
      h.not_mem hbit (mem_singleton.mp hb ▸ hab ▸ ha)⟩

theorem convert (h : Direct fs i l) (hr : Ready fs) (hlen : l.length = 6) (hav : fs.Available)
    (hav' : ∀ s, fs.fileBlockStart ≤ s → s < fs.device.size → fs.fsMap.sectors.bits s = false →
      (fs.take s).Available) :
    ∃ s newInd i' d, fs.fsMap.sectors.bits s = false ∧ fs.fileBlockStart ≤ s ∧
      s < fs.device.size ∧ (fs.take s).fsMap.sectors.bits newInd = false ∧
      fs.fileBlockStart ≤ newInd ∧ d.size = fs.device.size ∧
      i' = { i with
        large := true, dirSectors := 0, indSectors := i.indSectors + 1,
        sectors := i.sectors + 1 } ∧
      inodeAppendSector i fs = .ok ((i', some s), (((fs.take s).take newInd).setDevice d)) ∧
      Indirect (((fs.take s).take newInd).setDevice d) i' (l ++ [s]) newInd := by
  obtain ⟨s, hge, hs, hbit, halloc⟩ := allocateSector_of_available hr hav
  obtain ⟨newInd, hge', hs', hbit', halloc'⟩ :=
    allocateSector_of_available (hr.take s) (hav' s hge hs hbit)
  change fs.fileBlockStart ≤ newInd at hge'
  change newInd < fs.device.size at hs'
  have hi := home_lt h.home
  have hhome := h.home
  have hne : newInd ≠ i.sector := by omega
  have hnes : newInd ≠ s := by
    rintro rfl
    rw [Fs.take, bits_set_self] at hbit'
    cases hbit'
  have hsec : i.sectors = 6 := h.sectors.trans hlen
  have hfree : fs.fsMap.sectors.bits newInd = false := by
    rwa [Fs.take, bits_set_of_ne _ _ hnes] at hbit'
  have hrun := layOut_convert (hr.take s) hsec hi hs' hne hs halloc'
  refine ⟨s, newInd, _, zeroed (converted fs.device i newInd s) s, hbit, hge, hs, hbit', hge', rfl, rfl,
    (append_of_some halloc).trans hrun, ?_⟩
  have hindex : (zeroed (converted fs.device i newInd s) s).sectors newInd =
      (converted fs.device i newInd s).sectors newInd := zeroed_of_ne _ hnes
  constructor
  case home => exact h.home
  case sectors => exact congrArg (· + 1) hsec
  case dir => rfl
  case ind => exact congrArg (· + 1) h.ind
  case large => rfl
  case length => simp [hlen]
  case index =>
    have hsame : (zeroed (converted fs.device i newInd s) s).sectors i.sector =
        (converted fs.device i newInd s).sectors i.sector := zeroed_of_ne _ (by omega)
    refine (congrArg (Bytes.word · (i.ofs + 4 * 0)) hsame).trans ?_
    exact slot_converted (hs'.trans hr.size_lt)
  case index_lt => exact hs'
  case index_taken => exact bits_set_self ..
  case not_mem =>
    rw [mem_append, mem_singleton, not_or]
    exact ⟨h.not_mem hfree, hnes⟩
  case words =>
    intro b hb
    refine Eq.trans ?_ (congrArg (fun m => some (Bytes.word m (4 * b))) hindex).symm
    by_cases hlast : b = 6
    · rw [hlast, ← hlen, getElem?_concat_length, hlen,
        word_converted_last hne (hs.trans hr.size_lt)]
    · rw [getElem?_append_left (by omega), word_converted hne (by omega)]
      exact h.slots b (by omega)
  case nodup =>
    exact nodup_append.mpr ⟨h.nodup, nodup_singleton s, fun a ha b hb hab =>
      h.not_mem hbit (mem_singleton.mp hb ▸ hab ▸ ha)⟩

end Direct

theorem Indirect.stuck (h : Indirect fs i l newInd) (hr : Ready fs) (hav : fs.Available) :
    inodeAppendSector i fs = .error .assertion := by
  obtain ⟨s, -, -, -, halloc⟩ := allocateSector_of_available hr hav
  rw [append_of_some halloc]
  have hsec := h.sectors
  exact layOut_stuck (by omega) (by omega) h.dir (by rw [h.ind]; decide)

def Fs.free (fs : Fs) : Finset Nat :=
  (Finset.Ico fs.fileBlockStart fs.device.size).filter fun s => fs.fsMap.sectors.bits s = false

structure Room (fs : Fs) (n : Nat) : Prop where
  free : n ≤ fs.free.card
  writes : ∀ w ∈ fs.fsMap.writes.take n, w = true

theorem Room.available (hr : Ready fs) (h : Room fs (n + 1)) : fs.Available := by
  refine ⟨fun hnone => ?_, ?_⟩
  · obtain ⟨s, hs⟩ := Finset.card_pos.mp (lt_of_lt_of_le n.succ_pos h.free)
    obtain ⟨hin, hbit⟩ := Finset.mem_filter.mp hs
    obtain ⟨hge, hlt⟩ := Finset.mem_Ico.mp hin
    have hset := Bitmap.scan_one_eq_none hnone s hge (hr.bitCnt ▸ hlt)
    rw [hbit] at hset
    cases hset
  · match hw : fs.fsMap.writes with
    | [] => rfl
    | w :: rest =>
      have hfirst := h.writes w
      rw [hw] at hfirst
      exact hfirst mem_cons_self

theorem Room.take (h : Room fs (n + 1)) (s : Nat) {d : Block} (hd : d.size = fs.device.size) :
    Room ((fs.take s).setDevice d) n := by
  have hsub : fs.free.erase s ⊆ ((fs.take s).setDevice d).free := by
    intro t ht
    obtain ⟨hne, ht⟩ := Finset.mem_erase.mp ht
    obtain ⟨hin, hbit⟩ := Finset.mem_filter.mp ht
    refine Finset.mem_filter.mpr ⟨?_, (bits_set_of_ne _ _ hne).trans hbit⟩
    change t ∈ Finset.Ico (d.size / 100) d.size
    rw [hd]
    exact hin
  constructor
  case free =>
    have hcard := Finset.card_le_card hsub
    have herase := Finset.pred_card_le_card_erase (s := fs.free) (a := s)
    have hfree := h.free
    omega
  case writes =>
    intro w hw
    refine h.writes w ?_
    change w ∈ fs.fsMap.writes.tail.take n at hw
    match hws : fs.fsMap.writes with
    | [] =>
      rw [hws] at hw
      simp at hw
    | first :: rest =>
      rw [hws] at hw
      exact mem_cons_of_mem _ hw

theorem Room.mono {m : Nat} (h : Room fs n) (hle : m ≤ n) : Room fs m :=
  ⟨hle.trans h.free, fun w hw => h.writes w ((take_subset_take_left _ hle) hw)⟩

def appendMany (i : Inode) : Nat → M (Option (Inode × List Nat))
  | 0 => return some (i, [])
  | k + 1 => do
      match ← appendMany i k with
      | none => return none
      | some (i, l) =>
        match ← inodeAppendSector i with
        | (_, none) => return none
        | (i, some s) => return some (i, l ++ [s])

def lookupPath (i : Inode) (blockIdx : Nat) : M (List Nat) := do
  if i.large then
    let directIdx := blockIdx / blocknumsPerInd
    if directIdx < doubindSector then
      let indirectSector ← directLookup i directIdx
      return [indirectSector]
    else
      let indirectSector ← directLookup i doubindSector
      let dindirectSector ← indirectLookup indirectSector blockIdx
      return [indirectSector, dindirectSector]
  else return []

def sectorsNeeded (k : Nat) : Nat :=
  if k ≤ directSectors then k
  else if k ≤ (directSectors - 1) * blocknumsPerInd then k + (k + 127) / blocknumsPerInd
  else k + (k + 127) / blocknumsPerInd + 1

def AppendsAgree (fs : Fs) (i : Inode) (k : Nat) : Prop :=
  ∃ i' l fs', appendMany i k fs = .ok (some (i', l), fs') ∧ l.length = k ∧ l.Nodup ∧
    ∀ b < k, ∃ s path, l[b]? = some s ∧ inodeLookup i' b fs' = .ok (s, fs') ∧
      lookupPath i' b fs' = .ok (path, fs') ∧ ∀ t ∈ path, t ∉ l

structure Fresh (fs : Fs) (i : Inode) : Prop where
  home : inodeSectorFromInumber fs i.inumber = some i.sector
  sectors : i.sectors = 0
  dir : i.dirSectors = 0
  ind : i.indSectors = 0
  dind : i.dindSectors = 0
  small : i.large = false

theorem Fresh.direct (h : Fresh fs i) : Direct fs i [] := by
  have hhome : i.sector < fs.fileBlockStart := by
    have heq := h.home
    unfold inodeSectorFromInumber at heq
    split at heq
    · cases heq
    · rename_i hlt
      have hsector := Option.some.inj heq
      unfold Fs.numInodes inodesPerSector at *
      omega
  exact ⟨hhome, h.sectors, h.dir, h.ind, h.small, zero_le _, fun b hb => absurd hb (not_lt_zero b),
    fun s hs => absurd hs not_mem_nil, fun s hs => absurd hs not_mem_nil, nodup_nil⟩

theorem appendMany_succ {i' i'' : Inode} {fs' fs'' : Fs}
    (hmany : appendMany i k fs = .ok (some (i', l), fs'))
    (hnext : inodeAppendSector i' fs' = .ok ((i'', some s), fs'')) :
    appendMany i (k + 1) fs = .ok (some (i'', l ++ [s]), fs'') := by
  rw [appendMany]
  refine (bind_of_ok hmany).trans ?_
  exact (bind_of_ok hnext).trans rfl

theorem appendMany_error {fault : Fault} (h : appendMany i k fs = .error fault) (hle : k ≤ n) :
    appendMany i n fs = .error fault := by
  induction n with
  | zero =>
    obtain rfl := le_zero.mp hle
    exact h
  | succ n ih =>
    by_cases heq : k = n + 1
    · rw [← heq]
      exact h
    · rw [appendMany]
      exact bind_of_error (ih (by omega))

section

variable (hr : Ready fs) (hi : Fresh fs i)
include hr hi

theorem appendMany_direct (hk : k ≤ 6) (hroom : Room fs (k + n)) :
    ∃ i' l fs', appendMany i k fs = .ok (some (i', l), fs') ∧ l.length = k ∧
      Ready fs' ∧ Direct fs' i' l ∧ Room fs' n := by
  induction k generalizing n with
  | zero =>
    rw [zero_add] at hroom
    exact ⟨i, [], fs, rfl, rfl, hr, hi.direct, hroom⟩
  | succ k ih =>
    rw [add_right_comm, add_assoc] at hroom
    obtain ⟨i', l, fs', hmany, hlen, hr', hdirect, hroom'⟩ := ih (by omega) hroom
    obtain ⟨s, d, -, -, -, hd, hnext, hdirect'⟩ :=
      hdirect.append hr' (by omega) (hroom'.available hr')
    refine ⟨_, l ++ [s], _, appendMany_succ hmany hnext, by simp [hlen], ?_, hdirect',
      hroom'.take s hd⟩
    exact (hr'.take s).setDevice hd

theorem appendMany_seven (hroom : Room fs (8 + n)) :
    ∃ i' l newInd fs', appendMany i 7 fs = .ok (some (i', l), fs') ∧
      Ready fs' ∧ Indirect fs' i' l newInd ∧ Room fs' n := by
  obtain ⟨i', l, fs', hmany, hlen, hr', hdirect, hroom'⟩ :=
    appendMany_direct hr hi (k := 6) (n := n + 1 + 1) le_rfl (hroom.mono (by omega))
  obtain ⟨s, newInd, i'', d, -, -, -, -, -, hd, -, hnext, hindirect⟩ :=
    hdirect.convert hr' hlen (hroom'.available hr') fun s _ _ _ =>
      (hroom'.take s (d := fs'.device) rfl).available (hr'.take s)
  have hroom₁ : Room (fs'.take s) (n + 1) := hroom'.take s (d := fs'.device) rfl
  exact ⟨i'', l ++ [s], newInd, _, appendMany_succ hmany hnext,
    ((hr'.take s).take newInd).setDevice hd, hindirect, hroom₁.take newInd hd⟩

theorem appendMany_eight (hroom : Room fs 9) : appendMany i 8 fs = .error .assertion := by
  obtain ⟨i', l, newInd, fs', hmany, hr', hindirect, hroom'⟩ :=
    appendMany_seven (n := 0 + 1) hr hi hroom
  rw [appendMany]
  refine (bind_of_ok hmany).trans ?_
  exact bind_of_error (hindirect.stuck hr' (hroom'.available hr'))

end

theorem Direct.agree (h : Direct fs i l) (hr : Ready fs) (hb : b < l.length) :
    ∃ s path, l[b]? = some s ∧ inodeLookup i b fs = .ok (s, fs) ∧
      lookupPath i b fs = .ok (path, fs) ∧ ∀ t ∈ path, t ∉ l := by
  have hle := h.le
  have hlookup := directLookup_run (i := i) hr (home_lt h.home) (show b < 6 by omega)
  refine ⟨_, [], h.slots b hb, ?_, ?_, fun t ht => absurd ht not_mem_nil⟩
  · unfold inodeLookup
    rw [h.small]
    exact hlookup
  · unfold lookupPath
    rw [h.small]
    rfl

theorem Indirect.agree (h : Indirect fs i l newInd) (hr : Ready fs) (hb : b < 7) :
    ∃ s path, l[b]? = some s ∧ inodeLookup i b fs = .ok (s, fs) ∧
      lookupPath i b fs = .ok (path, fs) ∧ ∀ t ∈ path, t ∉ l := by
  have hzero : b / blocknumsPerInd = 0 := div_eq_of_lt (show b < 128 by omega)
  have hmod : b % blocknumsPerInd = b := mod_eq_of_lt (show b < 128 by omega)
  have hdirect : directLookup i (b / blocknumsPerInd) fs = .ok (newInd, fs) := by
    rw [hzero, directLookup_run hr (home_lt h.home) (show 0 < 6 by omega), h.index]
  have hword : indirectLookup newInd b fs = .ok ((fs.device.sectors newInd).word (4 * b), fs) := by
    unfold indirectLookup
    rw [hzero, hmod]
    exact lookupInSector_run hr h.index_lt (by omega)
  have hfirst : b / blocknumsPerInd < doubindSector := by
    rw [hzero]
    decide
  refine ⟨_, [newInd], h.words b hb, ?_, ?_, fun t ht => mem_singleton.mp ht ▸ h.not_mem⟩
  · unfold inodeLookup
    rw [h.large, if_pos rfl, if_pos hfirst]
    exact (bind_of_ok hdirect).trans hword
  · unfold lookupPath
    rw [h.large, if_pos rfl, if_pos hfirst]
    exact (bind_of_ok hdirect).trans rfl

theorem le_sectorsNeeded (hk : 7 ≤ k) : k + 1 ≤ sectorsNeeded k := by
  have hind : 1 ≤ (k + 127) / blocknumsPerInd := by
    unfold blocknumsPerInd
    omega
  unfold sectorsNeeded
  rw [if_neg (by unfold directSectors; omega)]
  split <;> omega

-- With enough free sectors, appends and lookups agree just up to the seventh append.
theorem append_lookup_agree_iff (fs : Fs) (i : Inode) (k : Nat) (hr : Ready fs) (hi : Fresh fs i)
    (hroom : Room fs (sectorsNeeded k)) : AppendsAgree fs i k ↔ k ≤ 7 := by
  constructor
  · rintro ⟨i', l, fs', hmany, -⟩
    by_contra hk
    have hneed := le_sectorsNeeded (k := k) (by omega)
    have heighth := appendMany_eight hr hi (hroom.mono (by omega))
    rw [appendMany_error heighth (show 8 ≤ k by omega)] at hmany
    cases hmany
  · intro hk
    by_cases h7 : k = 7
    · subst h7
      have hneed := le_sectorsNeeded (k := 7) le_rfl
      obtain ⟨i', l, newInd, fs', hmany, hr', hindirect, -⟩ :=
        appendMany_seven (n := 0) hr hi (hroom.mono (by omega))
      exact ⟨i', l, fs', hmany, hindirect.length, hindirect.nodup,
        fun b hb => hindirect.agree hr' hb⟩
    · have hneed : sectorsNeeded k = k := if_pos (show k ≤ 6 by omega)
      obtain ⟨i', l, fs', hmany, hlen, hr', hdirect, -⟩ :=
        appendMany_direct (n := 0) hr hi (show k ≤ 6 by omega) (hroom.mono (by omega))
      exact ⟨i', l, fs', hmany, hlen, hdirect.nodup, fun b hb => hdirect.agree hr' (by omega)⟩

def blankFs : Fs where
  device := ⟨100, fun _ _ => 0⟩
  fsMap := ⟨⟨100, fun _ => false⟩, none, []⟩
  inodeMap := ⟨⟨16, fun _ => false⟩, none, []⟩
  held := fun _ => none
  openInodes := []

def blankInode : Inode where
  sectors := 0
  dirSectors := 0
  indSectors := 0
  dindSectors := 0
  length := 0
  large := false
  inumber := 0
  sector := 0
  openCnt := 1
  removed := false
  denyWriteCnt := 0

theorem ready_blankFs : Ready blankFs := ⟨rfl, nofun, rfl, by decide⟩

theorem fresh_blankInode : Fresh blankFs blankInode := ⟨by decide, rfl, rfl, rfl, rfl, rfl⟩

theorem room_blankFs : Room blankFs 9 := ⟨by decide +kernel, fun w hw => absurd hw not_mem_nil⟩

theorem append_lookup_agree_seven : AppendsAgree blankFs blankInode 7 :=
  (append_lookup_agree_iff blankFs blankInode 7 ready_blankFs fresh_blankInode
    (room_blankFs.mono (by decide))).mpr le_rfl

theorem append_eighth_fails : Room blankFs (sectorsNeeded 8) ∧
    appendMany blankInode 8 blankFs = .error .assertion :=
  ⟨room_blankFs, appendMany_eight ready_blankFs fresh_blankInode room_blankFs⟩

end Pintos.Filesys.Inodes
