import Mathlib.Data.Finset.Card
import Pintos.Devices.Partition

namespace Pintos.Devices.Partition

open Lib List Option

def ownParts (es : List Entry) : List Listed :=
  (es.filter fun e => !e.isEmpty && !e.isExtended).map fun e => ⟨e.type, e.offset, e.size⟩

def links (sector primary : Nat) (es : List Entry) : List Nat :=
  (es.filter fun e => !e.isEmpty && e.isExtended).map (link sector primary)

def NoLinks (table : Bytes) : Prop := ∀ e ∈ entries table, e.isEmpty ∨ ¬e.isExtended

variable {block : Block} {es : List Entry} {e : Entry} {sector primary depth : Nat}
  {found found' : Found} {w w' : Walk} {t : UInt8}

theorem mem_entries {table : Bytes} (he : e ∈ entries table) :
    e.offset < 2 ^ 32 ∧ e.size < 2 ^ 32 := by
  obtain ⟨i, -, rfl⟩ := mem_map.mp he
  exact ⟨Bytes.word_lt .., Bytes.word_lt ..⟩

theorem devices_cons (block : Block) (n : Nat) (p : Listed) (parts : List Listed) :
    devices block n (p :: parts) = devices block n [p] ++ devices block (n + 1) parts := by
  simp only [devices]
  split <;> rfl

theorem mem_devices {p : Listed} {parts : List Listed} (n : Nat) (hp : p ∈ parts)
    (hfits : p.start + p.size ≤ block.size) :
    ∃ r ∈ devices block n parts, r.partType = p.partType := by
  induction parts generalizing n with
  | nil => cases hp
  | cons q rest ih =>
    rw [devices_cons]
    obtain rfl | hrest := mem_cons.mp hp
    · rw [devices, if_pos hfits]
      exact ⟨_, mem_append_left _ mem_cons_self, rfl⟩
    · obtain ⟨r, hr, htype⟩ := ih (n + 1) hrest
      exact ⟨r, mem_append_right _ hr, htype⟩

theorem foundPartition_eq (hblock : block.size < 2 ^ 32) (p : Listed) (hpos : p.size ≠ 0)
    (hsize : p.size < 2 ^ 32) (n : Nat) (registered : List Registered) :
    foundPartition block p.partType p.start p.size ⟨n + 1, registered⟩ =
      ⟨n + 1, registered ++ devices block n [p]⟩ := by
  unfold foundPartition devices
  by_cases hstart : p.start ≥ block.size
  · have hout : ¬p.start + p.size ≤ block.size := by omega
    rw [if_pos hstart, if_neg hout, devices, append_nil]
  · rw [if_neg hstart]
    by_cases hfits : p.start + p.size ≤ block.size
    · have hin : ¬((p.start + p.size) % 2 ^ 32 < p.start ∨
          (p.start + p.size) % 2 ^ 32 > block.size) := by omega
      rw [if_neg hin, if_pos hfits, devices]
    · have hout : (p.start + p.size) % 2 ^ 32 < p.start ∨
          (p.start + p.size) % 2 ^ 32 > block.size := by omega
      rw [if_pos hout, if_neg hfits, devices, append_nil]

section NoLinks

variable (hes : ∀ e ∈ es, e.isEmpty ∨ ¬e.isExtended)
include hes

theorem foldlM_scanEntry_of_noLinks (hblock : block.size < 2 ^ 32)
    (hwords : ∀ e ∈ es, e.offset < 2 ^ 32 ∧ e.size < 2 ^ 32)
    (recurse : Nat → Nat → Found → Option Found) (found : Found) :
    es.foldlM (scanEntry block 0 primary recurse) found = some ⟨found.partNr + (ownParts es).length,
        found.registered ++ devices block found.partNr (ownParts es)⟩ := by
  induction es generalizing found with
  | nil => simp [ownParts, devices]
  | cons e rest ih =>
    have ih := ih (fun e' he' => hes e' (mem_cons_of_mem _ he'))
      (fun e' he' => hwords e' (mem_cons_of_mem _ he'))
    have hword := hwords e mem_cons_self
    rw [foldlM_cons]
    by_cases hempty : e.isEmpty
    · have hstep : scanEntry block 0 primary recurse found e = some found := if_pos hempty
      have hown : ownParts (e :: rest) = ownParts rest := by simp [ownParts, hempty]
      rw [hstep, hown]
      exact ih found
    · have hext : ¬e.isExtended := (hes e mem_cons_self).resolve_left hempty
      have hpos : e.size ≠ 0 := by
        intro h
        exact hempty (by simp [Entry.isEmpty, h])
      have hown : ownParts (e :: rest) = ⟨e.type, e.offset, e.size⟩ :: ownParts rest := by
        simp [ownParts, hempty, hext]
      have hstep : scanEntry block 0 primary recurse found e =
          some ⟨found.partNr + 1, found.registered ++
            devices block found.partNr [⟨e.type, e.offset, e.size⟩]⟩ := by
        have hstart : (e.offset + 0) % 2 ^ 32 = e.offset := Nat.mod_eq_of_lt hword.1
        unfold scanEntry
        rw [if_neg hempty, if_neg hext, hstart]
        exact congrArg some (foundPartition_eq hblock ⟨e.type, e.offset, e.size⟩ hpos hword.2 ..)
      have hdevices := devices_cons block found.partNr ⟨e.type, e.offset, e.size⟩ (ownParts rest)
      rw [hstep, hown, hdevices, ← append_assoc, length_cons]
      refine (ih _).trans ?_
      rw [Nat.add_right_comm]
      rfl

theorem foldlM_walkEntry_of_noLinks (follow : Nat → Nat → Option Walk) (w : Walk) :
    es.foldlM (walkEntry 0 primary follow) w = some ⟨w.tables, w.parts ++ ownParts es⟩ := by
  induction es generalizing w with
  | nil => simp [ownParts]
  | cons e rest ih =>
    have ih := ih fun e' he' => hes e' (mem_cons_of_mem _ he')
    rw [foldlM_cons]
    by_cases hempty : e.isEmpty
    · have hown : ownParts (e :: rest) = ownParts rest := by simp [ownParts, hempty]
      rw [walkEntry, if_pos hempty, hown]
      exact ih w
    · have hext : ¬e.isExtended := (hes e mem_cons_self).resolve_left hempty
      have hown : ownParts (e :: rest) = ⟨e.type, e.offset, e.size⟩ :: ownParts rest := by
        simp [ownParts, hempty, hext]
      rw [walkEntry, if_neg hempty, if_neg hext, hown]
      refine (ih _).trans ?_
      simp [Walk.append]

end NoLinks

theorem scanRight_of_noLinks (hwf : WellFormed block) (hlinks : NoLinks (block.sectors 0)) :
    ScanRight block := by
  have hwalk : ∀ depth w, walk block depth 0 0 = some w →
      w = ⟨[0], ownParts (entries (block.sectors 0))⟩ := by
    intro depth w hw
    cases depth with
    | zero => cases hw
    | succ depth =>
      rw [walk, foldlM_walkEntry_of_noLinks hlinks] at hw
      exact (some.inj hw).symm
  obtain ⟨depth, w, hw, -, hvalid⟩ := hwf.chains
  have hzero := hvalid 0 (by rw [hwalk depth w hw]; exact mem_cons_self)
  have hscan : partitionScan block 1 = some ⟨0 + (ownParts (entries (block.sectors 0))).length,
      [] ++ devices block 0 (ownParts (entries (block.sectors 0)))⟩ := by
    rw [partitionScan, readPartitionTable, if_neg (by omega), if_neg (not_not.mpr hzero.2)]
    exact foldlM_scanEntry_of_noLinks hlinks hwf.size_lt (fun e he => mem_entries he) _ _
  refine ⟨1, _, hscan, fun depth' w' hw' => ?_⟩
  rw [hwalk depth' w' hw', nil_append]

def TypesOfFirst (block : Block) (found : Found) : Prop :=
  ∀ r ∈ found.registered, ∃ e ∈ entries (block.sectors 0), r.partType = e.type

theorem TypesOfFirst.foundPartition (htypes : TypesOfFirst block found)
    (he : e ∈ entries (block.sectors 0)) (start : Nat) :
    TypesOfFirst block (foundPartition block e.type start e.size found) := by
  unfold Partition.foundPartition
  split
  · exact htypes
  · split
    · exact htypes
    · intro r hr
      obtain hr | hr := mem_append.mp hr
      · exact htypes r hr
      · obtain rfl := mem_singleton.mp hr
        exact ⟨e, he, rfl⟩

theorem TypesOfFirst.foldlM_scanEntry {recurse : Nat → Nat → Found → Option Found}
    (hrecurse : ∀ s p found found', TypesOfFirst block found → recurse s p found = some found' →
      TypesOfFirst block found')
    (hes : ∀ e ∈ es, e ∈ entries (block.sectors 0)) (htypes : TypesOfFirst block found)
    (h : es.foldlM (scanEntry block sector primary recurse) found = some found') :
    TypesOfFirst block found' := by
  induction es generalizing found with
  | nil =>
    obtain rfl := some.inj h
    exact htypes
  | cons e rest ih =>
    rw [foldlM_cons] at h
    obtain ⟨next, hnext, hrest⟩ := bind_eq_some_iff.mp h
    refine ih (fun e' he' => hes e' (mem_cons_of_mem _ he')) ?_ hrest
    unfold scanEntry at hnext
    split at hnext
    · obtain rfl := some.inj hnext
      exact htypes
    · split at hnext
      · split at hnext
        · exact hrecurse _ _ _ _ htypes hnext
        · exact hrecurse _ _ _ _ htypes hnext
      · obtain rfl := some.inj hnext
        have hnumbered : TypesOfFirst block ⟨found.partNr + 1, found.registered⟩ := htypes
        exact hnumbered.foundPartition (hes e mem_cons_self) _

theorem TypesOfFirst.readPartitionTable (htypes : TypesOfFirst block found)
    (h : readPartitionTable block depth sector primary found = some found') :
    TypesOfFirst block found' := by
  induction depth generalizing sector primary found found' with
  | zero => cases h
  | succ depth ih =>
    rw [Partition.readPartitionTable] at h
    split at h
    · obtain rfl := some.inj h
      exact htypes
    · dsimp only at h
      split at h
      · obtain rfl := some.inj h
        exact htypes
      · exact htypes.foldlM_scanEntry (fun s p found found' => ih) (fun e he => he) h

theorem not_scanRight {p : Listed} (hw : walk block depth 0 0 = some w) (hp : p ∈ w.parts)
    (hfits : p.start + p.size ≤ block.size)
    (htype : ∀ e ∈ entries (block.sectors 0), e.type ≠ p.partType) : ¬ScanRight block := by
  rintro ⟨depth', found, hscan, hright⟩
  have hfirst : TypesOfFirst block found :=
    TypesOfFirst.readPartitionTable (fun r hr => absurd hr not_mem_nil) hscan
  obtain ⟨r, hr, hrtype⟩ := mem_devices 0 hp hfits
  obtain ⟨e, he, hetype⟩ := hfirst r (by rwa [hright depth w hw])
  exact htype e he (hetype.symm.trans hrtype)

theorem sublist_foldlM_walkEntry {follow : Nat → Nat → Option Walk}
    (hfollow : ∀ s p w, follow s p = some w → s ∈ w.tables)
    (h : es.foldlM (walkEntry sector primary follow) w = some w') :
    (w.tables ++ links sector primary es).Sublist w'.tables := by
  induction es generalizing w with
  | nil =>
    obtain rfl := some.inj h
    simp [links]
  | cons e rest ih =>
    rw [foldlM_cons] at h
    obtain ⟨next, hnext, hrest⟩ := bind_eq_some_iff.mp h
    have hsub := ih hrest
    unfold walkEntry at hnext
    split at hnext
    · rename_i hempty
      obtain rfl := some.inj hnext
      simpa [links, hempty] using hsub
    · rename_i hempty
      split at hnext
      · rename_i hext
        obtain ⟨sub, hsub', rfl⟩ := map_eq_some_iff.mp hnext
        have hmem : [link sector primary e].Sublist sub.tables :=
          singleton_sublist.mpr (hfollow _ _ _ hsub')
        have hlinks : links sector primary (e :: rest) =
            [link sector primary e] ++ links sector primary rest := by
          simp [links, hempty, hext]
        rw [hlinks, ← append_assoc]
        exact ((hmem.append_left _).append_right _).trans hsub
      · rename_i hext
        obtain rfl := some.inj hnext
        simpa [links, hempty, hext, Walk.append] using hsub

theorem sublist_tables_walk (h : walk block depth sector primary = some w) :
    (sector :: links sector primary (entries (block.sectors sector))).Sublist w.tables := by
  induction depth generalizing sector primary w with
  | zero => cases h
  | succ depth ih =>
    exact sublist_foldlM_walkEntry (fun s p w hw => (ih hw).subset mem_cons_self) h

def leafTable (t : UInt8) : Bytes := fun i =>
  if i = 450 then t else if i = 458 then 1 else if i = 510 then 0x55 else if i = 511 then 0xaa
  else 0

def withLeaves (block : Block) (t : UInt8) : Block :=
  { block with sectors := fun s => if s = 0 then block.sectors 0 else leafTable t }

theorem entries_leafTable (t : UInt8) :
    entries (leafTable t) = [⟨t, 0, 1⟩, ⟨0, 0, 0⟩, ⟨0, 0, 0⟩, ⟨0, 0, 0⟩] := rfl

theorem signature_leafTable (t : UInt8) : signature (leafTable t) = 0xaa55 := by
  simp [signature, leafTable]

theorem walk_leaf (ht : t ≠ 0) (hext : ¬(⟨t, 0, 1⟩ : Entry).isExtended) (hsector : sector ≠ 0) :
    walk (withLeaves block t) 1 sector primary = some ⟨[sector], [⟨t, sector, 1⟩]⟩ := by
  have htable : (withLeaves block t).sectors sector = leafTable t := if_neg hsector
  have hempty : ¬(⟨t, 0, 1⟩ : Entry).isEmpty := by simp [Entry.isEmpty, ht]
  rw [walk, htable, entries_leafTable, foldlM_cons, walkEntry, if_neg hempty, if_neg hext]
  rfl

theorem foldlM_walkEntry_withLeaves (block : Block) (ht : t ≠ 0)
    (hext : ¬(⟨t, 0, 1⟩ : Entry).isExtended)
    (hes : 0 ∉ links 0 0 es) :
    ∃ parts, es.foldlM (walkEntry 0 0 (walk (withLeaves block t) 1)) w =
        some ⟨w.tables ++ links 0 0 es, parts⟩ ∧
      w.parts ⊆ parts ∧ ∀ s ∈ links 0 0 es, ⟨t, s, 1⟩ ∈ parts := by
  induction es generalizing w with
  | nil => exact ⟨w.parts, by simp [links], fun p hp => hp, fun s hs => nomatch hs⟩
  | cons e rest ih =>
    rw [foldlM_cons, walkEntry]
    by_cases hempty : e.isEmpty
    · have hlinks : links 0 0 (e :: rest) = links 0 0 rest := by simp [links, hempty]
      rw [hlinks] at hes ⊢
      rw [if_pos hempty]
      exact ih hes
    · rw [if_neg hempty]
      by_cases hlink : e.isExtended
      · have hlinks : links 0 0 (e :: rest) = e.offset :: links 0 0 rest := by
          simp [links, hempty, hlink, link]
        rw [hlinks] at hes ⊢
        rw [mem_cons, not_or] at hes
        have hleaf : walk (withLeaves block t) 1 (link 0 0 e) (primaryOf 0 0 e) =
            some ⟨[e.offset], [⟨t, e.offset, 1⟩]⟩ := walk_leaf ht hext (Ne.symm hes.1)
        obtain ⟨parts, hfold, hkept, hfound⟩ :=
          ih (w := w.append ⟨[e.offset], [⟨t, e.offset, 1⟩]⟩) hes.2
        refine ⟨parts, ?_, fun p hp => hkept (mem_append_left _ hp), fun s hs => ?_⟩
        · rw [if_pos hlink, hleaf]
          refine hfold.trans ?_
          simp [Walk.append]
        · obtain rfl | hs := mem_cons.mp hs
          · exact hkept (mem_append_right _ mem_cons_self)
          · exact hfound s hs
      · have hlinks : links 0 0 (e :: rest) = links 0 0 rest := by simp [links, hlink]
        rw [hlinks] at hes ⊢
        obtain ⟨parts, hfold, hkept, hfound⟩ :=
          ih (w := w.append ⟨[], [⟨e.type, 0 + e.offset, e.size⟩]⟩) hes
        refine ⟨parts, ?_, fun p hp => hkept (mem_append_left _ hp), hfound⟩
        rw [if_neg hlink]
        refine hfold.trans ?_
        simp [Walk.append]

theorem exists_unlisted_type (table : Bytes) :
    ∃ t : UInt8, t ≠ 0 ∧ ¬(⟨t, 0, 1⟩ : Entry).isExtended ∧ ∀ e ∈ entries table, e.type ≠ t := by
  have hcard : ((entries table).map Entry.type).toFinset.card <
      ({0x10, 0x11, 0x12, 0x13, 0x14} : Finset UInt8).card :=
    (toFinset_card_le _).trans_lt (show 4 < 5 by decide)
  obtain ⟨t, ht, hfree⟩ := Finset.exists_mem_notMem_of_card_lt_card hcard
  have hplain : ∀ t ∈ ({0x10, 0x11, 0x12, 0x13, 0x14} : Finset UInt8),
      t ≠ 0 ∧ ¬(⟨t, 0, 1⟩ : Entry).isExtended := by
    intro t ht
    simp only [Finset.mem_insert, Finset.mem_singleton] at ht
    obtain rfl | rfl | rfl | rfl | rfl := ht <;> decide
  refine ⟨t, (hplain t ht).1, (hplain t ht).2, fun e he htype => hfree ?_⟩
  exact mem_toFinset.mpr (mem_map.mpr ⟨e, he, htype⟩)

theorem exists_not_scanRight (hwf : WellFormed block) (he : e ∈ entries (block.sectors 0))
    (hempty : ¬e.isEmpty) (hext : e.isExtended) :
    ∃ block', WellFormed block' ∧ block'.size = block.size ∧
      block'.sectors 0 = block.sectors 0 ∧ ¬ScanRight block' := by
  obtain ⟨depth, w, hw, hnodup, hvalid⟩ := hwf.chains
  have hsub := sublist_tables_walk hw
  obtain ⟨hzero, hnodup⟩ := nodup_cons.mp (hsub.nodup hnodup)
  obtain ⟨t, ht, htext, hfree⟩ := exists_unlisted_type (block.sectors 0)
  obtain ⟨parts, hfold, -, hleaves⟩ :=
    foldlM_walkEntry_withLeaves block (w := ⟨[0], []⟩) ht htext hzero
  have hwalk : walk (withLeaves block t) 2 0 0 =
      some ⟨0 :: links 0 0 (entries (block.sectors 0)), parts⟩ := hfold
  have hlink : e.offset ∈ links 0 0 (entries (block.sectors 0)) :=
    mem_map.mpr ⟨e, mem_filter.mpr ⟨he, by simp [hempty, hext]⟩, rfl⟩
  have hin := (hvalid _ (hsub.subset (mem_cons_of_mem _ hlink))).1
  refine ⟨withLeaves block t, ⟨hwf.size_lt, 2, _, hwalk, nodup_cons.mpr ⟨hzero, hnodup⟩, ?_⟩,
    rfl, rfl, not_scanRight hwalk (hleaves _ hlink) (by exact hin) hfree⟩
  intro s hs
  refine ⟨(hvalid s (hsub.subset hs)).1, ?_⟩
  by_cases hs0 : s = 0
  · rw [hs0]
    exact (hvalid 0 (hsub.subset mem_cons_self)).2
  · have htable : (withLeaves block t).sectors s = leafTable t := if_neg hs0
    rw [htable, signature_leafTable]

-- Given the first table, the scan is right whatever the other sectors hold just when that
-- table has no extended entry.
theorem partition_scan_right_iff (hwf : WellFormed block) :
    (∀ block', WellFormed block' → block'.size = block.size →
        block'.sectors 0 = block.sectors 0 → ScanRight block') ↔
      ∀ e ∈ entries (block.sectors 0), e.isEmpty ∨ ¬e.isExtended := by
  constructor
  · intro hright e he
    by_contra hlink
    obtain ⟨hempty, hext⟩ := not_or.mp hlink
    obtain ⟨block', hwf', hsize, htable, hwrong⟩ :=
      exists_not_scanRight hwf he hempty (not_not.mp hext)
    exact hwrong (hright block' hwf' hsize htable)
  · intro hlinks block' hwf' _ htable
    refine scanRight_of_noLinks hwf' ?_
    rw [htable]
    exact hlinks

def plainDisk : Block := ⟨2, fun _ => leafTable 0x20⟩

theorem partition_scan_right_plain : WellFormed plainDisk ∧ ScanRight plainDisk := by
  have hwf : WellFormed plainDisk := ⟨by decide, 1, ⟨[0], [⟨0x20, 0, 1⟩]⟩, by decide, by decide,
    by decide⟩
  exact ⟨hwf, (partition_scan_right_iff hwf).mpr (by decide) plainDisk hwf rfl rfl⟩

def extendedDisk : Block :=
  ⟨2, fun s => if s = 0 then (leafTable 0x05).write 454 [1] else leafTable 0x20⟩

theorem partition_scan_misses_chain : WellFormed extendedDisk ∧ ¬ScanRight extendedDisk := by
  have hwalk : walk extendedDisk 2 0 0 = some ⟨[0, 1], [⟨0x20, 1, 1⟩]⟩ := by decide
  exact ⟨⟨by decide, 2, _, hwalk, by decide, by decide⟩,
    not_scanRight hwalk mem_cons_self (by decide) (by decide)⟩

end Pintos.Devices.Partition
