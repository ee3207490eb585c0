import Pintos.Filesys.Cache.Refinement

namespace Pintos.Filesys.Cache

open Lib Devices

variable {c : Cache} {disk : Nat → Bytes} {mem : Bool}

theorem Wound.wait_inj (h : Wound c) {p q : Nat} (hp : p < cacheMax) (hq : q < cacheMax)
    (heq : c.wait p = c.wait q) : p = q := by
  have hhand := h.evictingHand
  unfold wait distance cacheMax at *
  split_ifs at heq <;> omega

-- A block of which a client still has the pointer, when another sector is fetched.
theorem block_kept_iff (device : Block) {c : Cache} {disk : Nat → Bytes}
    (hr : (system device).Reachable (c, disk)) (pos : Nat) (hpos : Cached c pos)
    (sector : Nat) (type : SectorType) (mem mem' : Bool)
    (henabled : enabled c (.fetch sector type mem mem') = true) :
    (∃ c' pos', c.cacheFetch sector type mem mem' = some (c', pos') ∧ Cached c' pos ∧
      (c'.cacheFrames pos).sector = (c.cacheFrames pos).sector) ↔
    (∃ p < cacheMax, c.usedBlocks.bits p = false) ∨ ∃ q < cacheMax, c.wait q < c.wait pos := by
  have hi : Inv c disk := Inv.of_reachable hr
  obtain ⟨hfind, hsector⟩ := Bool.and_eq_true_iff.mp henabled
  rcases hi.indexed.cacheFindSector_cases sector with ⟨-, hnone⟩ | ⟨q, -, -, heq⟩
  · obtain ⟨c', pos', hfetch, -, -, hnew, hothers, hlt, hchosen⟩ := hi.cacheFetch type mem mem' hnone
      (of_decide_eq_true hsector)
    constructor
    · rintro ⟨c1, pos1, hfetch1, -, hsame⟩
      rw [hfetch] at hfetch1
      cases hfetch1
      by_contra hno
      obtain ⟨hnofree, hnoless⟩ := not_or.mp hno
      rcases hchosen with hfree | ⟨-, hleast⟩
      · exact hnofree ⟨pos', hlt, hfree⟩
      · -- no frame has less time left than the block, which is then the one that was evicted
        have hle : c.wait pos ≤ c.wait pos' := not_lt.mp fun hless => hnoless ⟨pos', hlt, hless⟩
        have heq := hi.wound.wait_inj hpos.1 hlt (le_antisymm hle (hleast pos hpos.1))
        rw [← heq, hsame] at hnew
        exact hnone pos hpos hnew
    · intro h
      have hne : pos ≠ pos' := by
        rintro rfl
        rcases hchosen with hfree | ⟨hfull, hleast⟩
        · rw [hpos.2.1] at hfree
          cases hfree
        · rcases h with ⟨p, hp, hfree⟩ | ⟨q, hq, hless⟩
          · rw [hfull p hp] at hfree
            cases hfree
          · exact absurd (hleast q hq) (not_le.mpr hless)
      exact ⟨c', pos', hfetch, (hothers pos hne).1.mpr hpos, (hothers pos hne).2⟩
  · rw [heq] at hfind
    cases hfind

def fillUp : List Label :=
  (List.range 63).map fun sector => .fetch sector .inodeMetadata false false

-- All frames are in use. Another block than the first is evicted.
theorem block_kept_full : ∃ c disk, (system ⟨65, fun _ _ => 0⟩).Reachable (c, disk) ∧
    (∀ p < cacheMax, c.usedBlocks.bits p = true) ∧ Cached c 0 ∧
    ∃ c' pos', c.cacheFetch 64 .inodeData false false = some (c', pos') ∧ Cached c' 0 ∧
      (c'.cacheFrames 0).sector = (c.cacheFrames 0).sector := by
  obtain ⟨⟨c, disk⟩, hr, hs⟩ := System.reachableVia_of_leadsTo (S := system ⟨65, fun _ _ => 0⟩)
    (cacheInit ⟨65, fun _ _ => 0⟩, fun _ _ => 0) attempt
    (fillUp ++ [.fetch 63 .fileData false false])
    (fun s => decide ((∀ p < cacheMax, s.1.usedBlocks.bits p = true) ∧
      (s.1.cacheFrames 0).removed = false ∧ s.1.wait 63 < s.1.wait 0 ∧
      enabled s.1 (.fetch 64 .inodeData false false) = true)) rfl
    (fun _ _ _ h => ⟨trivial, step_of_attempt _ h⟩) (by decide +kernel)
  obtain ⟨hfull, hremoved, hless, henabled⟩ := of_decide_eq_true hs
  have hcached : Cached c 0 := ⟨by decide, hfull 0 (by decide), hremoved⟩
  exact ⟨c, disk, hr, hfull, hcached, (block_kept_iff _ hr 0 hcached 64 .inodeData false false
    henabled).mpr (.inr ⟨63, by decide, hless⟩)⟩

def recycles (c : Cache) : Bool :=
  match c.cacheFetch 63 .fileData false false with
  | none => false
  | some (c1, pos) => pos == 63 && enabled c1 (.fetch 64 .inodeData false false) &&
    match c1.cacheFetch 64 .inodeData false false with
    | none => false
    | some (c2, pos2) => pos2 == 63 && (c2.cacheFrames 63).sector == 64

theorem block_recycled : ∃ c disk, (system ⟨65, fun _ _ => 0⟩).Reachable (c, disk) ∧
    enabled c (.fetch 63 .fileData false false) = true ∧
    ∃ c1 c2, c.cacheFetch 63 .fileData false false = some (c1, 63) ∧
      enabled c1 (.fetch 64 .inodeData false false) = true ∧
      c1.cacheFetch 64 .inodeData false false = some (c2, 63) ∧ (c2.cacheFrames 63).sector = 64 := by
  obtain ⟨⟨c, disk⟩, hr, hs⟩ := System.reachableVia_of_leadsTo (S := system ⟨65, fun _ _ => 0⟩)
    (cacheInit ⟨65, fun _ _ => 0⟩, fun _ _ => 0) attempt fillUp
    (fun s => enabled s.1 (.fetch 63 .fileData false false) && recycles s.1) rfl
    (fun _ _ _ h => ⟨trivial, step_of_attempt _ h⟩) (by decide +kernel)
  obtain ⟨henabled, hrecycles⟩ := Bool.and_eq_true_iff.mp hs
  refine ⟨c, disk, hr, henabled, ?_⟩
  unfold recycles at hrecycles
  split at hrecycles
  · cases hrecycles
  · rename_i c1 pos hfirst
    simp only [Bool.and_eq_true, beq_iff_eq] at hrecycles
    obtain ⟨⟨rfl, hnext⟩, hsecond⟩ := hrecycles
    split at hsecond
    · cases hsecond
    · rename_i c2 pos2 hfetch
      simp only [Bool.and_eq_true, beq_iff_eq] at hsecond
      obtain ⟨rfl, hsector⟩ := hsecond
      exact ⟨c1, c2, hfirst, hnext, hfetch, hsector⟩

-- How far the cursor is ahead of the evicting hand.
def gap (c : Cache) : Nat := (c.cursor + cacheMax - c.evictingHand) % cacheMax

structure HandsIn (c : Cache) : Prop where
  cursor : c.cursor < cacheMax
  evictingHand : c.evictingHand < cacheMax

-- Within `n` rounds the cursor has passed every frame as often as the frame was accessed.
def ColdIn (c : Cache) (n : Nat) : Prop :=
  ∀ p < cacheMax, (c.cacheFrames p).accessed = 0 ∨
    (p + cacheMax - c.cursor) % cacheMax + cacheMax * ((c.cacheFrames p).accessed - 1) < n

theorem cool_cursor (c : Cache) : c.cool.cursor = c.cursor := by
  rw [cool_eq]
  rfl

theorem HandsIn.next (h : HandsIn c) : HandsIn c.cool.advance ∧ c.cool.advance.gap = c.gap := by
  obtain ⟨hcursor, hhand⟩ := h
  refine ⟨⟨Nat.mod_lt _ (by decide), Nat.mod_lt _ (by decide)⟩, ?_⟩
  simp only [gap, advance, cool_cursor, cool_evictingHand]
  unfold cacheMax at *
  omega

theorem ColdIn.next {n : Nat} (h : ColdIn c (n + 1)) (hcursor : c.cursor < cacheMax) :
    ColdIn c.cool.advance n := by
  intro p hp
  have haccessed : (c.cool.advance.cacheFrames p).accessed = _ := accessed_cool c p
  have hnext : c.cool.advance.cursor = (c.cursor + 1) % cacheMax := by
    rw [advance, cool_cursor]
  have hp' := h p hp
  rw [haccessed, hnext]
  unfold cacheMax at *
  split_ifs <;> omega

theorem SameBlocks.trans {c₁ c₂ : Cache} (h : SameBlocks c c₁) (h' : SameBlocks c₁ c₂) :
    SameBlocks c c₂ where
  segment := h'.segment.trans h.segment
  used := h'.used.trans h.used
  device := h'.device.trans h.device
  sector p := (h'.sector p).trans (h.sector p)
  removed p := (h'.removed p).trans (h.removed p)
  dirty p := (h'.dirty p).trans (h.dirty p)
  data p := (h'.data p).trans (h.data p)

theorem cacheDelete_hands {pos : Nat} (mem : Bool) (h : (c.cacheFrames pos).dirty = true →
      (c.cacheFrames pos).sector < c.device.size) :
    ∃ c', c.cacheDelete pos mem = some c' ∧ c'.cursor = c.cursor ∧
      c'.evictingHand = c.evictingHand := by
  simp only [cacheDelete]
  split_ifs with hremoved hdirty
  · exact ⟨c, rfl, rfl, rfl⟩
  · exact ⟨_, congrArg (Option.map _) (Block.write_of_lt (h hdirty)), rfl, rfl⟩
  · exact ⟨_, rfl, rfl, rfl⟩

-- After at most `n` rounds without success the hand stands, in `c₁`, at the block that is to go.
structure Stops (c : Cache) (mem : Bool) (n : Nat) (c₁ : Cache) : Prop where
  hands : HandsIn c₁
  gap : c₁.gap = c.gap
  same : SameBlocks c c₁
  block : (c₁.cacheFrames c₁.evictingHand).removed = true ∨
    (c₁.cacheFrames c₁.evictingHand).accessed = 0
  evict : ∀ rounds, n < rounds → cacheEvict rounds c mem =
    (c₁.cacheDelete c₁.evictingHand mem).map fun c' => (c', c₁.evictingHand)

theorem Stops.now (hhands : HandsIn c) (n : Nat)
    (hcold : (c.cool.cacheFrames c.cool.evictingHand).removed = true ∨
      (c.cool.cacheFrames c.cool.evictingHand).accessed = 0) : Stops c mem n c.cool where
  hands := ⟨cool_cursor c ▸ hhands.cursor, cool_evictingHand c ▸ hhands.evictingHand⟩
  gap := by rw [Cache.gap, cool_cursor, cool_evictingHand, Cache.gap]
  same := cool_sameBlocks c
  block := hcold
  evict rounds hrounds := by
    obtain ⟨rounds, rfl⟩ := Nat.exists_eq_add_of_lt hrounds
    rw [cacheEvict_succ, if_pos hcold]

theorem exists_stops (n : Nat) (hhands : HandsIn c) (hcold : ColdIn c n) (mem : Bool) :
    ∃ c₁, Stops c mem n c₁ := by
  induction n generalizing c with
  | zero =>
    have hhand := hcold _ hhands.evictingHand
    refine ⟨_, Stops.now hhands 0 (.inr ?_)⟩
    rw [cool_evictingHand, accessed_cool]
    split_ifs <;> omega
  | succ n ih =>
    by_cases hnow : (c.cool.cacheFrames c.cool.evictingHand).removed = true ∨
        (c.cool.cacheFrames c.cool.evictingHand).accessed = 0
    · exact ⟨_, Stops.now hhands (n + 1) hnow⟩
    · obtain ⟨hnext, hgap⟩ := hhands.next
      obtain ⟨c₁, hstops⟩ := ih hnext (hcold.next hhands.cursor)
      have hsame := (cool_sameBlocks c).trans (advance_sameBlocks c.cool)
      refine ⟨c₁, hstops.hands, hstops.gap.trans hgap, hsame.trans hstops.same, hstops.block,
        fun rounds hrounds => ?_⟩
      obtain ⟨rounds, rfl⟩ := Nat.exists_eq_add_of_lt hrounds
      rw [cacheEvict_succ, if_neg hnow]
      exact hstops.evict _ (by omega)

-- Only the device can keep the call from returning, when it is to take back a sector that it
-- does not have.
theorem eviction_terminates (c : Cache) (mem : Bool) (hcursor : c.cursor < cacheMax)
    (hhand : c.evictingHand < cacheMax)
    (haccessed : ∀ p < cacheMax, (c.cacheFrames p).accessed ≤ 3) :
    ∃ (c₁ : Cache) (pos : Nat), pos < cacheMax ∧ SameBlocks c c₁ ∧
      ((c₁.cacheFrames pos).removed = true ∨ (c₁.cacheFrames pos).accessed = 0) ∧
      (∀ rounds, 4 * cacheMax ≤ rounds →
        cacheEvict rounds c mem = (c₁.cacheDelete pos mem).map fun c' => (c', pos)) ∧
      (((c.cacheFrames pos).dirty = true → (c.cacheFrames pos).sector < c.device.size) →
        ∃ c', c₁.cacheDelete pos mem = some c' ∧ c'.cursor < cacheMax ∧
          c'.evictingHand < cacheMax ∧ c'.gap = c.gap) := by
  have hcold : ColdIn c (3 * cacheMax) := by
    intro p hp
    have hle := haccessed p hp
    unfold cacheMax at *
    omega
  obtain ⟨c₁, hstops⟩ := exists_stops _ ⟨hcursor, hhand⟩ hcold mem
  have hsame := hstops.same
  refine ⟨c₁, c₁.evictingHand, hstops.hands.evictingHand, hsame, hstops.block,
    fun rounds hrounds => hstops.evict rounds (lt_of_lt_of_le (by decide) hrounds), fun hwrite => ?_⟩
  rw [← hsame.dirty, ← hsame.sector, ← hsame.device] at hwrite
  obtain ⟨c', hdelete, hcursor', hhand'⟩ := cacheDelete_hands mem hwrite
  refine ⟨c', hdelete, ?_⟩
  rw [← hstops.gap, gap, gap, hcursor', hhand']
  exact ⟨hstops.hands.cursor, hstops.hands.evictingHand, rfl⟩

-- Every block has been accessed three times; one of them is counted down to zero.
theorem eviction_terminates_hot : ∃ (c c₁ c' : Cache) (pos : Nat),
    (∀ p, (c.cacheFrames p).accessed = 3 ∧ (c.cacheFrames p).removed = false) ∧ pos < cacheMax ∧
    (c₁.cacheFrames pos).accessed = 0 ∧ c₁.cacheDelete pos true = some c' ∧
    cacheEvict (4 * cacheMax) c true = some (c', pos) ∧ c'.cursor < cacheMax ∧
    c'.evictingHand < cacheMax ∧ c'.gap = c.gap := by
  let c : Cache := { cacheInit ⟨64, fun _ _ => 0⟩ with
    cacheFrames := fun p => ⟨p, 3, false, false, .inodeMetadata, fun _ => 0⟩ }
  obtain ⟨c₁, pos, hpos, hsame, hblock, hevict, hhands⟩ :=
    eviction_terminates c true (by decide) (by decide) fun _ _ => le_rfl
  obtain ⟨c', hdelete, hkept⟩ := hhands nofun
  have hcold : (c₁.cacheFrames pos).accessed = 0 := by
    refine hblock.resolve_left fun hremoved => ?_
    rw [hsame.removed] at hremoved
    cases hremoved
  refine ⟨c, c₁, c', pos, fun _ => ⟨rfl, rfl⟩, hpos, hcold, hdelete, ?_, hkept⟩
  rw [hevict _ le_rfl, hdelete]
  rfl

end Pintos.Filesys.Cache
