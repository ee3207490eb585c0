import Mathlib.Data.Finset.Max
import Pintos.Filesys.Cache
import Pintos.Lib.WriteBack
import Pintos.LibKernel.Hash.Keyed

namespace Pintos.Filesys.Cache

open Function Lib Devices LibKernel List Bitmap Option Bool

-- What the cache holds of a sector.
def held (c : Cache) (sector : Nat) : Option (Bool × Bytes) :=
  (c.cacheSegment.find ⟨0, sector⟩).map fun e =>
    ((c.cacheFrames e.pos).dirty, (c.cacheFrames e.pos).data)

def Cached (c : Cache) (pos : Nat) : Prop :=
  pos < cacheMax ∧ c.usedBlocks.bits pos = true ∧ (c.cacheFrames pos).removed = false

structure Indexed (c : Cache) : Prop where
  keyed : c.cacheSegment.KeyedBy CacheElem.sector
  cached : ∀ e, e ∈ c.cacheSegment.elems ↔
    Cached c e.pos ∧ (c.cacheFrames e.pos).sector = e.sector
  bounded : ∀ e ∈ c.cacheSegment.elems, e.sector < c.device.size

structure Wound (c : Cache) : Prop where
  frames : c.usedBlocks.bitCnt = cacheMax
  cursor : c.cursor = (c.evictingHand + 17) % cacheMax
  evictingHand : c.evictingHand < cacheMax
  accessed : ∀ pos, (c.cacheFrames pos).accessed ≤ 3

structure Inv (c : Cache) (disk : Nat → Bytes) : Prop where
  indexed : Indexed c
  wound : Wound c
  holds : WriteBack.Represents (held c) c.device.sectors disk

variable {c c' c1 : Cache} {disk : Nat → Bytes} {pos sector p : Nat} {mem : Bool} {label : Label}
  {s : Cache × (Nat → Bytes)}

theorem SectorType.value_le (type : SectorType) : type.value ≤ 3 := by
  cases type <;> decide

theorem Indexed.find_eq_some (h : Indexed c) (hpos : Cached c pos)
    (hsector : (c.cacheFrames pos).sector = sector) (e : CacheElem) (he : e.sector = sector) :
    c.cacheSegment.find e = some ⟨pos, sector⟩ := by
  rw [h.keyed.find_eq_some_iff]
  exact ⟨(h.cached _).mpr ⟨hpos, hsector⟩, he.symm⟩

theorem Indexed.find_cases (h : Indexed c) (sector : Nat) :
    (c.cacheSegment.find ⟨0, sector⟩ = none ∧
      ∀ pos, Cached c pos → (c.cacheFrames pos).sector ≠ sector) ∨
    ∃ pos, c.cacheSegment.find ⟨0, sector⟩ = some ⟨pos, sector⟩ ∧ Cached c pos ∧
      (c.cacheFrames pos).sector = sector := by
  cases hfind : c.cacheSegment.find ⟨0, sector⟩ with
  | none =>
    left
    refine ⟨rfl, ?_⟩
    intro pos hpos hsector
    have hmem := (h.cached ⟨pos, sector⟩).mpr ⟨hpos, hsector⟩
    exact (h.keyed.find_eq_none_iff _).mp hfind _ hmem rfl
  | some e =>
    right
    obtain ⟨hmem, hkey⟩ := (h.keyed.find_eq_some_iff _ _).mp hfind
    obtain ⟨hpos, hsector⟩ := (h.cached e).mp hmem
    obtain ⟨pos, sector'⟩ := e
    cases hkey
    exact ⟨pos, rfl, hpos, hsector⟩

theorem Indexed.held_of_cached (h : Indexed c) (hpos : Cached c pos) :
    held c (c.cacheFrames pos).sector =
      some ((c.cacheFrames pos).dirty, (c.cacheFrames pos).data) := by
  unfold held
  rw [h.find_eq_some hpos rfl _ rfl]
  rfl

theorem Indexed.unique (h : Indexed c) {q : Nat} (hp : Cached c p) (hq : Cached c q)
    (hsame : (c.cacheFrames p).sector = (c.cacheFrames q).sector) : p = q := by
  have hfind := h.find_eq_some hp hsame ⟨0, (c.cacheFrames q).sector⟩ rfl
  rw [h.find_eq_some hq rfl _ rfl] at hfind
  have heq := some.inj hfind
  exact (congrArg CacheElem.pos heq).symm

structure SameBlocks (c c' : Cache) : Prop where
  segment : c'.cacheSegment = c.cacheSegment
  used : c'.usedBlocks = c.usedBlocks
  device : c'.device = c.device
  sector : ∀ pos, (c'.cacheFrames pos).sector = (c.cacheFrames pos).sector
  removed : ∀ pos, (c'.cacheFrames pos).removed = (c.cacheFrames pos).removed
  dirty : ∀ pos, (c'.cacheFrames pos).dirty = (c.cacheFrames pos).dirty
  data : ∀ pos, (c'.cacheFrames pos).data = (c.cacheFrames pos).data

theorem SameBlocks.cached_iff (h : SameBlocks c c') (pos : Nat) : Cached c' pos ↔ Cached c pos := by
  unfold Cached
  rw [h.used, h.removed]

theorem Inv.sameBlocks (hi : Inv c disk) (h : SameBlocks c c') (hwound : Wound c') :
    Inv c' disk := by
  have hcached := h.cached_iff
  have hheld : held c' = held c := by
    funext s
    unfold held
    rw [h.segment]
    congr 1
    funext e
    rw [h.dirty, h.data]
  refine ⟨⟨?_, ?_, ?_⟩, hwound, ?_⟩
  · rw [h.segment]
    exact hi.indexed.keyed
  · intro e
    rw [h.segment, hcached, h.sector]
    exact hi.indexed.cached e
  · rw [h.segment, h.device]
    exact hi.indexed.bounded
  · rw [hheld, h.device]
    exact hi.holds

theorem sameBlocks_setAccessed (c : Cache) (pos accessed : Nat) :
    SameBlocks c (c.setFrame pos { c.cacheFrames pos with accessed := accessed }) := by
  have hframe : ∀ q, (c.setFrame pos { c.cacheFrames pos with accessed := accessed }).cacheFrames q =
      { c.cacheFrames q with accessed :=
        if q = pos then accessed else (c.cacheFrames q).accessed } := by
    intro q
    by_cases hq : q = pos
    · subst hq
      simp [setFrame]
    · simp [setFrame, hq]
  constructor
  · rfl
  · rfl
  · rfl
  all_goals
    intro q
    rw [hframe]

theorem Inv.setAccessed (hi : Inv c disk) (pos : Nat) {accessed : Nat} (haccessed : accessed ≤ 3) :
    Inv (c.setFrame pos { c.cacheFrames pos with accessed := accessed }) disk := by
  apply hi.sameBlocks (sameBlocks_setAccessed c pos accessed)
  refine ⟨hi.wound.frames, hi.wound.cursor, hi.wound.evictingHand, ?_⟩
  intro q
  by_cases hq : q = pos
  · subst hq
    simpa [setFrame] using haccessed
  · simpa [setFrame, hq] using hi.wound.accessed q

theorem Indexed.cacheFindSector_cases (h : Indexed c) (sector : Nat) :
    (c.cacheFindSector sector = (c, none) ∧
      ∀ pos, Cached c pos → (c.cacheFrames pos).sector ≠ sector) ∨
    ∃ pos, Cached c pos ∧ (c.cacheFrames pos).sector = sector ∧
      c.cacheFindSector sector = (c.setFrame pos
        { c.cacheFrames pos with accessed := (c.cacheFrames pos).type.value }, some pos) := by
  rcases h.find_cases sector with ⟨hfind, hnone⟩ | ⟨pos, hfind, hpos, hsector⟩
  · exact .inl ⟨by simp only [cacheFindSector, hfind], hnone⟩
  · exact .inr ⟨pos, hpos, hsector, by simp only [cacheFindSector, hfind]⟩

theorem Inv.data_eq (hi : Inv c disk) (hpos : Cached c pos) :
    (c.cacheFrames pos).data = disk (c.cacheFrames pos).sector :=
  (hi.holds.of_some (hi.indexed.held_of_cached hpos)).1

theorem Inv.cacheFindSector (hi : Inv c disk) (sector : Nat) :
    Inv (c.cacheFindSector sector).1 disk := by
  rcases hi.indexed.cacheFindSector_cases sector with ⟨heq, -⟩ | ⟨pos, -, -, heq⟩
  · rw [heq]
    exact hi
  · rw [heq]
    exact hi.setAccessed pos (SectorType.value_le _)

structure ChangesAt (pos : Nat) (c c' : Cache) : Prop where
  frame : ∀ p, p ≠ pos → c'.cacheFrames p = c.cacheFrames p
  used : ∀ p, p ≠ pos → c'.usedBlocks.bits p = c.usedBlocks.bits p

theorem ChangesAt.cached_iff (h : ChangesAt pos c c') (hp : p ≠ pos) :
    Cached c' p ↔ Cached c p := by
  unfold Cached
  rw [h.frame p hp, h.used p hp]

theorem Indexed.held_eq_none (h : Indexed c)
    (hnone : ∀ p, Cached c p → (c.cacheFrames p).sector ≠ sector) : held c sector = none := by
  rcases h.find_cases sector with ⟨hfind, -⟩ | ⟨p, -, hp, hsector⟩
  · unfold held
    rw [hfind]
    rfl
  · exact absurd hsector (hnone p hp)

theorem ChangesAt.held_eq (h : ChangesAt pos c c') (hc : Indexed c) (hc' : Indexed c')
    (hold : Cached c pos → (c.cacheFrames pos).sector ≠ sector)
    (hnew : Cached c' pos → (c'.cacheFrames pos).sector ≠ sector) :
    held c' sector = held c sector := by
  rcases hc.find_cases sector with ⟨-, hnone⟩ | ⟨p, -, hp, rfl⟩
  · rw [hc.held_eq_none hnone, hc'.held_eq_none]
    intro p hp
    by_cases hpos : p = pos
    · subst hpos
      exact hnew hp
    · rw [h.frame p hpos]
      exact hnone p ((h.cached_iff hpos).mp hp)
  · have hne : p ≠ pos := by
      rintro rfl
      exact hold hp rfl
    have hheld := hc'.held_of_cached ((h.cached_iff hne).mpr hp)
    rw [h.frame p hne] at hheld
    rw [hheld, hc.held_of_cached hp]

theorem ChangesAt.held_update (h : ChangesAt pos c c') (hc : Indexed c) (hc' : Indexed c')
    (hold : Cached c pos → (c.cacheFrames pos).sector = sector)
    (hnew : Cached c' pos → (c'.cacheFrames pos).sector = sector) :
    held c' = update (held c) sector (held c' sector) := by
  funext s
  by_cases hs : s = sector
  · rw [hs, update_self]
  · rw [update_of_ne hs]
    exact h.held_eq hc hc' (fun hp heq => hs (heq.symm.trans (hold hp)))
      fun hp heq => hs (heq.symm.trans (hnew hp))

theorem ChangesAt.wound (h : ChangesAt pos c c') (hw : Wound c)
    (hframes : c'.usedBlocks.bitCnt = cacheMax) (hcursor : c'.cursor = c.cursor)
    (hhand : c'.evictingHand = c.evictingHand) (hpos : (c'.cacheFrames pos).accessed ≤ 3) :
    Wound c' := by
  refine ⟨hframes, by rw [hcursor, hhand, hw.cursor], hhand ▸ hw.evictingHand, fun p => ?_⟩
  by_cases hp : p = pos
  · exact hp ▸ hpos
  · rw [h.frame p hp]
    exact hw.accessed p

theorem Indexed.elems_nodup (h : Indexed c) : c.cacheSegment.elems.Nodup :=
  List.Nodup.of_map _ h.keyed.nodup

def dropped (c : Cache) (pos : Nat) (mem : Bool) : Cache :=
  { c.setFrame pos { c.cacheFrames pos with removed := true } with
    cacheSegment := (c.cacheSegment.delete ⟨pos, (c.cacheFrames pos).sector⟩ mem).1
    device := if (c.cacheFrames pos).dirty
      then c.device.set (c.cacheFrames pos).sector (c.cacheFrames pos).data else c.device }

theorem Indexed.sector_lt (h : Indexed c) (hpos : Cached c pos) :
    (c.cacheFrames pos).sector < c.device.size :=
  h.bounded ⟨pos, _⟩ ((h.cached _).mpr ⟨hpos, rfl⟩)

theorem Indexed.cacheDelete_eq (h : Indexed c) (hpos : Cached c pos) (mem : Bool) :
    c.cacheDelete pos mem = some (dropped c pos mem) := by
  have hlt := h.sector_lt hpos
  unfold cacheDelete dropped
  simp only [hpos.2.2, false_eq_true, if_false]
  cases hdirty : (c.cacheFrames pos).dirty with
  | false => rfl
  | true =>
    show Option.map _ (c.device.write _ _) = _
    rw [Block.write_of_lt hlt]
    rfl

theorem dropped_changesAt (c : Cache) (pos : Nat) (mem : Bool) :
    ChangesAt pos c (dropped c pos mem) where
  frame _ hp := update_of_ne hp ..
  used _ _ := rfl

theorem not_cached_dropped (c : Cache) (pos : Nat) (mem : Bool) : ¬Cached (dropped c pos mem) pos := by
  rintro ⟨-, -, hremoved⟩
  simp [dropped, setFrame] at hremoved

@[simp] theorem dropped_device_size : (dropped c pos mem).device.size = c.device.size := by
  unfold dropped
  dsimp only
  split <;> rfl

theorem dropped_sectors : (dropped c pos mem).device.sectors =
    if (c.cacheFrames pos).dirty then update c.device.sectors (c.cacheFrames pos).sector
      (c.cacheFrames pos).data else c.device.sectors := by
  unfold dropped
  dsimp only
  split <;> rfl

theorem Indexed.mem_dropped (h : Indexed c) (hpos : Cached c pos) (mem : Bool) (e : CacheElem) :
    e ∈ (dropped c pos mem).cacheSegment.elems ↔ e ∈ c.cacheSegment.elems ∧ e.pos ≠ pos := by
  have hfind := h.find_eq_some hpos rfl ⟨pos, (c.cacheFrames pos).sector⟩ rfl
  obtain ⟨-, -, hperm⟩ := h.keyed.delete_of_some hfind mem
  have hnodup := nodup_cons.mp (hperm.nodup_iff.mp h.elems_nodup)
  change e ∈ (c.cacheSegment.delete _ mem).1.elems ↔ _
  rw [hperm.mem_iff, mem_cons]
  constructor
  · intro he
    refine ⟨.inr he, ?_⟩
    rintro rfl
    -- an element for the same frame is the same element
    have hsector := ((h.cached e).mp (hperm.mem_iff.mpr (mem_cons_of_mem _ he))).2
    rw [hsector] at hnodup he
    exact hnodup.1 he
  · rintro ⟨heq | he, hne⟩
    · rw [heq] at hne
      exact absurd rfl hne
    · exact he

theorem Indexed.dropped (h : Indexed c) (hpos : Cached c pos) (mem : Bool) :
    Indexed (dropped c pos mem) := by
  have hfind := h.find_eq_some hpos rfl ⟨pos, (c.cacheFrames pos).sector⟩ rfl
  have hat := dropped_changesAt c pos mem
  refine ⟨(h.keyed.delete_of_some hfind mem).2.1, ?_, ?_⟩
  · intro e
    rw [h.mem_dropped hpos, h.cached]
    by_cases he : e.pos = pos
    · rw [he]
      have hnot := not_cached_dropped c pos mem
      simp [hnot]
    · rw [hat.cached_iff he, hat.frame _ he]
      simp [he]
  · intro e he
    rw [dropped_device_size]
    exact h.bounded e ((h.mem_dropped hpos mem e).mp he).1

theorem Inv.dropped (hi : Inv c disk) (hpos : Cached c pos) (mem : Bool) :
    Inv (dropped c pos mem) disk := by
  have hindexed := hi.indexed.dropped hpos mem
  have hnot := not_cached_dropped c pos mem
  have hat := dropped_changesAt c pos mem
  have hnone : held (Cache.dropped c pos mem) (c.cacheFrames pos).sector = none := by
    refine hindexed.held_eq_none fun p hp hsame => ?_
    have hne : p ≠ pos := by
      rintro rfl
      exact hnot hp
    rw [hat.frame p hne] at hsame
    exact hne (hi.indexed.unique ((hat.cached_iff hne).mp hp) hpos hsame)
  refine ⟨hindexed, hat.wound hi.wound hi.wound.frames rfl rfl ?_, ?_⟩
  · simpa [Cache.dropped, setFrame] using hi.wound.accessed pos
  · rw [hat.held_update hi.indexed hindexed (fun _ => rfl) (fun hp => absurd hp hnot), hnone,
      dropped_sectors]
    exact hi.holds.drop (hi.indexed.held_of_cached hpos)

def distance (c : Cache) (pos : Nat) : Nat := (pos + cacheMax - c.evictingHand) % cacheMax

-- The rounds of cache_evict before the hand comes to the frame and finds it cold. The cursor
-- passes the frame before the hand does if the frame is at least 17 ahead.
def wait (c : Cache) (pos : Nat) : Nat :=
  if (c.cacheFrames pos).removed then c.distance pos
  else c.distance pos +
    cacheMax * ((c.cacheFrames pos).accessed - if 17 ≤ c.distance pos then 1 else 0)

theorem cool_eq (c : Cache) : c.cool = c.setFrame c.cursor
    { c.cacheFrames c.cursor with accessed := (c.cacheFrames c.cursor).accessed - 1 } := by
  simp only [cool]
  split
  · rfl
  · rename_i hcold
    have hsame : (c.cacheFrames c.cursor).accessed - 1 = (c.cacheFrames c.cursor).accessed := by
      omega
    rw [hsame]
    simp [setFrame]

theorem Inv.cool (hi : Inv c disk) : Inv c.cool disk := by
  rw [cool_eq]
  have hle := hi.wound.accessed c.cursor
  exact hi.setAccessed c.cursor (by omega)

theorem cool_sameBlocks (c : Cache) : SameBlocks c c.cool := by
  rw [cool_eq]
  exact sameBlocks_setAccessed ..

theorem accessed_cool (c : Cache) (p : Nat) : (c.cool.cacheFrames p).accessed =
    if p = c.cursor then (c.cacheFrames p).accessed - 1 else (c.cacheFrames p).accessed := by
  rw [cool_eq]
  by_cases hp : p = c.cursor
  · subst hp
    simp [setFrame]
  · simp [setFrame, hp]

def advance (c : Cache) : Cache :=
  { c with
    cursor := (c.cursor + 1) % cacheMax
    evictingHand := (c.evictingHand + 1) % cacheMax }

theorem advance_sameBlocks (c : Cache) : SameBlocks c c.advance :=
  ⟨rfl, rfl, rfl, fun _ => rfl, fun _ => rfl, fun _ => rfl, fun _ => rfl⟩

theorem Inv.advance (hi : Inv c disk) : Inv c.advance disk :=
  hi.sameBlocks (advance_sameBlocks c)
    ⟨hi.wound.frames, by
      have hcursor := hi.wound.cursor
      simp only [Cache.advance, hcursor, cacheMax]
      omega, Nat.mod_lt _ (by decide), hi.wound.accessed⟩

theorem cacheEvict_succ (rounds : Nat) (c : Cache) (mem : Bool) : cacheEvict (rounds + 1) c mem =
      if (c.cool.cacheFrames c.cool.evictingHand).removed = true ∨
          (c.cool.cacheFrames c.cool.evictingHand).accessed = 0 then
        (c.cool.cacheDelete c.cool.evictingHand mem).map fun c' => (c', c.cool.evictingHand)
      else cacheEvict rounds c.cool.advance mem := rfl

def Others (pos : Nat) (c c' : Cache) : Prop :=
  ∀ p, p ≠ pos → (Cached c' p ↔ Cached c p) ∧ (c'.cacheFrames p).sector = (c.cacheFrames p).sector

theorem Others.trans (h : Others pos c c1) (h' : Others pos c1 c') : Others pos c c' :=
  fun p hp => ⟨(h' p hp).1.trans (h p hp).1, (h' p hp).2.trans (h p hp).2⟩

theorem ChangesAt.others (h : ChangesAt pos c c') : Others pos c c' :=
  fun p hp => ⟨h.cached_iff hp, by rw [h.frame p hp]⟩

structure Evicted (c : Cache) (disk : Nat → Bytes) (c' : Cache) (pos : Nat) : Prop where
  inv : Inv c' disk
  pos_lt : pos < cacheMax
  free : ¬Cached c' pos
  others : Others pos c c'
  used : c'.usedBlocks = c.usedBlocks
  size : c'.device.size = c.device.size

theorem Evicted.of_sameBlocks (h : Evicted c1 disk c' pos) (hsame : SameBlocks c c1) :
    Evicted c disk c' pos where
  inv := h.inv
  pos_lt := h.pos_lt
  free := h.free
  others := Others.trans (fun p _ => ⟨hsame.cached_iff p, hsame.sector p⟩) h.others
  used := h.used.trans hsame.used
  size := by rw [h.size, hsame.device]

theorem evict_at_hand (hi : Inv c disk) (hfull : ∀ p < cacheMax, c.usedBlocks.bits p = true)
    (mem : Bool) :
    ∃ c', c.cacheDelete c.evictingHand mem = some c' ∧ Evicted c disk c' c.evictingHand := by
  cases hremoved : (c.cacheFrames c.evictingHand).removed with
  | true =>
    refine ⟨c, by simp only [cacheDelete, hremoved, if_true], hi, hi.wound.evictingHand, ?_,
      fun _ _ => ⟨Iff.rfl, rfl⟩, rfl, rfl⟩
    rintro ⟨-, -, hnot⟩
    rw [hremoved] at hnot
    cases hnot
  | false =>
    have hcached : Cached c c.evictingHand :=
      ⟨hi.wound.evictingHand, hfull _ hi.wound.evictingHand, hremoved⟩
    exact ⟨_, hi.indexed.cacheDelete_eq hcached mem, hi.dropped hcached mem, hi.wound.evictingHand,
      not_cached_dropped c c.evictingHand mem, (dropped_changesAt ..).others, rfl,
      dropped_device_size⟩

theorem cool_evictingHand (c : Cache) : c.cool.evictingHand = c.evictingHand := by
  rw [cool_eq]
  rfl

theorem distance_hand (c : Cache) : c.distance c.evictingHand = 0 := by
  unfold distance
  rw [Nat.add_sub_cancel_left]
  rfl

theorem Wound.cold_iff (h : Wound c) : (c.cool.cacheFrames c.cool.evictingHand).removed = true ∨
      (c.cool.cacheFrames c.cool.evictingHand).accessed = 0 ↔ c.wait c.evictingHand = 0 := by
  have hcursor := h.cursor
  have hhand := h.evictingHand
  have hne : c.evictingHand ≠ c.cursor := by
    unfold cacheMax at *
    omega
  rw [cool_evictingHand, (cool_sameBlocks c).removed, accessed_cool, if_neg hne, wait, distance_hand]
  unfold cacheMax
  cases (c.cacheFrames c.evictingHand).removed with
  | true => simp
  | false =>
    rw [if_neg Bool.false_ne_true, or_iff_right Bool.false_ne_true, if_neg (by decide)]
    omega

-- A round that evicts nothing brings every frame one round closer to its end.
theorem Wound.wait_next (h : Wound c) (hpos : pos < cacheMax) (hwait : 0 < c.wait pos) :
    c.cool.advance.wait pos + 1 = c.wait pos := by
  have hcursor := h.cursor
  have hhand := h.evictingHand
  have hdistance : c.cool.advance.distance pos =
      (pos + cacheMax - (c.evictingHand + 1) % cacheMax) % cacheMax := by
    rw [← cool_evictingHand]
    rfl
  have hat : pos = c.cursor ↔ c.distance pos = 17 := by
    unfold distance cacheMax at *
    omega
  have hremoved : (c.cool.advance.cacheFrames pos).removed = (c.cacheFrames pos).removed :=
    (cool_sameBlocks c).removed pos
  have haccessed : (c.cool.advance.cacheFrames pos).accessed = _ := accessed_cool c pos
  rw [wait, hremoved, haccessed, hdistance]
  simp only [hat]
  unfold wait at hwait ⊢
  unfold distance cacheMax at *
  split_ifs at hwait ⊢ <;> omega

theorem Wound.wait_lt (h : Wound c) (pos : Nat) : c.wait pos < 4 * cacheMax := by
  have haccessed := h.accessed pos
  have hlt : c.distance pos < cacheMax := Nat.mod_lt _ (by decide)
  unfold wait cacheMax at *
  split_ifs <;> omega

-- The frame that is left with no rounds first is the one that is evicted.
theorem cacheEvict_spec (n : Nat) (hi : Inv c disk)
    (hfull : ∀ p < cacheMax, c.usedBlocks.bits p = true) (hpos : pos < cacheMax)
    (hwait : c.wait pos = n) (hleast : ∀ q < cacheMax, n ≤ c.wait q) {rounds : Nat}
    (hrounds : n < rounds) :
    ∃ c', cacheEvict rounds c mem = some (c', pos) ∧ Evicted c disk c' pos := by
  induction n generalizing c rounds with
  | zero =>
    obtain ⟨rounds, rfl⟩ := Nat.exists_eq_add_of_lt hrounds
    have hhand := hi.wound.evictingHand
    have hpos : pos = c.evictingHand := by
      unfold wait distance cacheMax at *
      split_ifs at hwait <;> omega
    have hsame := cool_sameBlocks c
    obtain ⟨c', hdelete, hevicted⟩ := evict_at_hand hi.cool (hsame.used ▸ hfull) mem
    rw [cacheEvict_succ, if_pos (hi.wound.cold_iff.mpr (hpos ▸ hwait)), hdelete]
    rw [cool_evictingHand, ← hpos] at hevicted ⊢
    exact ⟨c', rfl, hevicted.of_sameBlocks hsame⟩
  | succ n ih =>
    obtain ⟨rounds, rfl⟩ := Nat.exists_eq_add_of_lt hrounds
    have hsame := cool_sameBlocks c
    have hhand := hleast _ hi.wound.evictingHand
    have hnext : ∀ q < cacheMax, c.cool.advance.wait q + 1 = c.wait q := fun q hq =>
      hi.wound.wait_next hq (by have hle := hleast q hq; omega)
    obtain ⟨c', hevict, hevicted⟩ := ih hi.cool.advance (fun p hp => hsame.used ▸ hfull p hp)
      (by have heq := hnext pos hpos; omega)
      (fun q hq => by have hle := hleast q hq; have heq := hnext q hq; omega)
      (show n < n + 1 + rounds by omega)
    rw [cacheEvict_succ, if_neg (by rw [hi.wound.cold_iff]; omega)]
    exact ⟨c', hevict, hevicted.of_sameBlocks ⟨hsame.segment, hsame.used, hsame.device,
      hsame.sector, hsame.removed, hsame.dirty, hsame.data⟩⟩

theorem cacheEvict_evictRounds (hi : Inv c disk) (mem : Bool)
    (hfull : ∀ p < cacheMax, c.usedBlocks.bits p = true) :
    ∃ c' pos, cacheEvict evictRounds c mem = some (c', pos) ∧ Evicted c disk c' pos ∧
      ∀ q < cacheMax, c.wait pos ≤ c.wait q := by
  obtain ⟨pos, hpos, hleast⟩ := Finset.exists_min_image (Finset.range cacheMax) c.wait
    ⟨0, Finset.mem_range.mpr (by decide)⟩
  have hleast : ∀ q < cacheMax, c.wait pos ≤ c.wait q :=
    fun q hq => hleast q (Finset.mem_range.mpr hq)
  have hlt := hi.wound.wait_lt pos
  obtain ⟨c', hevict, hevicted⟩ := cacheEvict_spec (c.wait pos) hi hfull
    (Finset.mem_range.mp hpos) rfl hleast (show c.wait pos < evictRounds from
      hlt.trans (by decide))
  exact ⟨c', pos, hevict, hevicted, hleast⟩

def Chosen (c : Cache) (pos : Nat) : Prop :=
  pos < cacheMax ∧ (c.usedBlocks.bits pos = false ∨
    (∀ p < cacheMax, c.usedBlocks.bits p = true) ∧ ∀ q < cacheMax, c.wait pos ≤ c.wait q)

theorem Inv.claim (hi : Inv c disk) (mem : Bool) :
    ∃ c' pos used, c.claim mem = some ({ c' with usedBlocks := used }, pos) ∧ Inv c' disk ∧
      ¬Cached c' pos ∧ Others pos c c' ∧ pos < cacheMax ∧ used.bitCnt = cacheMax ∧
      used.bits pos = true ∧ (∀ p, p ≠ pos → used.bits p = c'.usedBlocks.bits p) ∧
      c'.device.size = c.device.size ∧ Chosen c pos := by
  cases hscan : c.usedBlocks.scan 0 1 false with
  | some pos =>
    obtain ⟨-, hlt, hfree⟩ := scan_eq_some hscan
    have hbit := hfree pos (by rw [Run.has_iff]; simp)
    rw [hi.wound.frames] at hlt
    refine ⟨c, pos, c.usedBlocks.setMultiple pos 1 true, ?_, hi, ?_,
      fun _ _ => ⟨Iff.rfl, rfl⟩, by omega, ?_, ?_, ?_, rfl, by omega, .inl hbit⟩
    · simp only [Cache.claim, scanAndFlip, hscan, Bool.not_false]
    · rintro ⟨-, hused, -⟩
      rw [hbit] at hused
      cases hused
    · rw [setMultiple_bitCnt, hi.wound.frames]
    · rw [setMultiple_bits, if_pos (by rw [Run.has_iff]; simp)]
    · intro p hp
      rw [setMultiple_bits, if_neg]
      rw [Run.has_iff]
      simp only
      omega
  | none =>
    have hfull : ∀ p < cacheMax, c.usedBlocks.bits p = true := by
      intro p hp
      exact scan_one_eq_none hscan p (Nat.zero_le p) (by rw [hi.wound.frames]; exact hp)
    obtain ⟨c', pos, hevict, he, hleast⟩ := cacheEvict_evictRounds hi mem hfull
    refine ⟨c', pos, c'.usedBlocks, ?_, he.inv, he.free, he.others, he.pos_lt, he.inv.wound.frames, ?_,
      fun _ _ => rfl, he.size, he.pos_lt, .inr ⟨hfull, hleast⟩⟩
    · simp only [Cache.claim, scanAndFlip, hscan, hevict]
    · rw [he.used]
      exact hfull pos he.pos_lt

def filled (c : Cache) (used : Bitmap) (pos sector : Nat) (type : SectorType) (mem : Bool) : Cache :=
  { c.setFrame pos ⟨sector, type.value, false, false, type, c.device.sectors sector⟩ with
    usedBlocks := used
    cacheSegment := (c.cacheSegment.insert ⟨pos, sector⟩ mem).1 }

section Filled

variable {used : Bitmap} {type : SectorType}

theorem frame_filled : (filled c used pos sector type mem).cacheFrames pos =
    ⟨sector, type.value, false, false, type, c.device.sectors sector⟩ :=
  update_self ..

theorem filled_changesAt (hused : ∀ p, p ≠ pos → used.bits p = c.usedBlocks.bits p) :
    ChangesAt pos c (filled c used pos sector type mem) where
  frame _ hp := update_of_ne hp ..
  used p hp := hused p hp

theorem Indexed.filled (h : Indexed c) (hfree : ¬Cached c pos) (hpos : pos < cacheMax)
    (hbit : used.bits pos = true) (hused : ∀ p, p ≠ pos → used.bits p = c.usedBlocks.bits p)
    (hnone : ∀ p, Cached c p → (c.cacheFrames p).sector ≠ sector)
    (hsector : sector < c.device.size) : Indexed (filled c used pos sector type mem) := by
  have hat : ChangesAt pos c (Cache.filled c used pos sector type mem) := filled_changesAt hused
  have hfind : c.cacheSegment.find ⟨pos, sector⟩ = none := by
    rw [h.keyed.find_eq_none_iff]
    intro e he hkey
    obtain ⟨hcached, hs⟩ := (h.cached e).mp he
    exact hnone e.pos hcached (hs.trans hkey)
  obtain ⟨-, hkeyed, hperm⟩ := h.keyed.insert_of_none hfind mem
  have hcached : Cached (Cache.filled c used pos sector type mem) pos := by
    refine ⟨hpos, hbit, ?_⟩
    rw [frame_filled]
  refine ⟨hkeyed, ?_, ?_⟩
  · intro e
    change e ∈ (c.cacheSegment.insert _ mem).1.elems ↔ _
    rw [hperm.mem_iff, mem_cons]
    by_cases he : e.pos = pos
    · have hout : e ∉ c.cacheSegment.elems := by
        intro hmem
        exact hfree (he ▸ ((h.cached e).mp hmem).1)
      rw [he, frame_filled]
      obtain ⟨p, s⟩ := e
      cases he
      constructor
      · rintro (heq | hmem)
        · cases heq
          exact ⟨hcached, rfl⟩
        · exact absurd hmem hout
      · rintro ⟨-, rfl⟩
        exact .inl rfl
    · rw [hat.cached_iff he, hat.frame _ he, ← h.cached]
      constructor
      · rintro (heq | hmem)
        · rw [heq] at he
          exact absurd rfl he
        · exact hmem
      · exact .inr
  · intro e he
    change e ∈ (c.cacheSegment.insert _ mem).1.elems at he
    rcases mem_cons.mp (hperm.mem_iff.mp he) with heq | hmem
    · rw [heq]
      exact hsector
    · exact h.bounded e hmem

theorem Inv.filled (hi : Inv c disk) (hfree : ¬Cached c pos) (hpos : pos < cacheMax)
    (hcnt : used.bitCnt = cacheMax) (hbit : used.bits pos = true)
    (hused : ∀ p, p ≠ pos → used.bits p = c.usedBlocks.bits p)
    (hnone : ∀ p, Cached c p → (c.cacheFrames p).sector ≠ sector)
    (hsector : sector < c.device.size) : Inv (filled c used pos sector type mem) disk := by
  have hindexed : Indexed (Cache.filled c used pos sector type mem) :=
    hi.indexed.filled hfree hpos hbit hused hnone hsector
  have hat : ChangesAt pos c (Cache.filled c used pos sector type mem) := filled_changesAt hused
  have hcached : Cached (Cache.filled c used pos sector type mem) pos := by
    refine ⟨hpos, hbit, ?_⟩
    rw [frame_filled]
  have hheld := hindexed.held_of_cached hcached
  rw [frame_filled] at hheld
  refine ⟨hindexed, hat.wound hi.wound hcnt rfl rfl ?_, ?_⟩
  · rw [frame_filled]
    exact SectorType.value_le type
  · rw [hat.held_update hi.indexed hindexed (fun hp => absurd hp hfree)
      (fun _ => by rw [frame_filled]), hheld]
    exact hi.holds.fetch (hi.indexed.held_eq_none hnone)

end Filled

theorem Inv.cacheFetch (hi : Inv c disk) (type : SectorType) (mem mem' : Bool)
    (hnone : ∀ p, Cached c p → (c.cacheFrames p).sector ≠ sector)
    (hsector : sector < c.device.size) :
    ∃ c' pos, c.cacheFetch sector type mem mem' = some (c', pos) ∧ Inv c' disk ∧
      (c'.cacheFrames pos).data = disk sector ∧ (c'.cacheFrames pos).sector = sector ∧
      Others pos c c' ∧ Chosen c pos := by
  obtain ⟨c1, pos, used, hclaim, hi1, hfree, hothers, hpos, hcnt, hbit, hused, hsize, hchosen⟩ :=
    hi.claim mem
  have hnone1 : ∀ p, Cached c1 p → (c1.cacheFrames p).sector ≠ sector := by
    intro p hp
    obtain ⟨hold, hsame⟩ := hothers p fun heq => hfree (heq ▸ hp)
    rw [hsame]
    exact hnone p (hold.mp hp)
  have hsector1 : sector < c1.device.size := hsize ▸ hsector
  refine ⟨Cache.filled c1 used pos sector type mem', pos, ?_,
    hi1.filled hfree hpos hcnt hbit hused hnone1 hsector1, ?_, by rw [frame_filled],
    hothers.trans (filled_changesAt hused).others, hchosen⟩
  · simp only [Cache.cacheFetch, hclaim, bind_eq_bind, bind_some, Block.read_of_lt hsector1]
    rfl
  · rw [frame_filled]
    exact hi1.holds.of_none (hi1.indexed.held_eq_none hnone1)

theorem Inv.cacheWrite (hi : Inv c disk) (hpos : Cached c pos) (buf : List UInt8) (start : Nat) :
    Inv (c.cacheWrite pos buf start)
      (update disk (c.cacheFrames pos).sector
        ((disk (c.cacheFrames pos).sector).write start buf)) := by
  have hframe : (c.cacheWrite pos buf start).cacheFrames pos = { c.cacheFrames pos with
        dirty := true, data := (c.cacheFrames pos).data.write start buf } := update_self ..
  have hat : ChangesAt pos c (c.cacheWrite pos buf start) :=
    ⟨fun _ hp => update_of_ne hp .., fun _ _ => rfl⟩
  have hsame : ∀ p, (Cached (c.cacheWrite pos buf start) p ↔ Cached c p) ∧
      ((c.cacheWrite pos buf start).cacheFrames p).sector = (c.cacheFrames p).sector := by
    intro p
    by_cases hp : p = pos
    · subst hp
      unfold Cached
      rw [hframe]
      exact ⟨Iff.rfl, rfl⟩
    · rw [hat.cached_iff hp, hat.frame p hp]
      exact ⟨Iff.rfl, rfl⟩
  have hindexed : Indexed (c.cacheWrite pos buf start) := by
    refine ⟨hi.indexed.keyed, ?_, hi.indexed.bounded⟩
    intro e
    rw [(hsame e.pos).1, (hsame e.pos).2]
    exact hi.indexed.cached e
  have hheld := hindexed.held_of_cached ((hsame pos).1.mpr hpos)
  rw [(hsame pos).2, hframe] at hheld
  refine ⟨hindexed, hat.wound hi.wound hi.wound.frames rfl rfl ?_, ?_⟩
  · rw [hframe]
    exact hi.wound.accessed pos
  · rw [hat.held_update hi.indexed hindexed (fun _ => rfl) (fun _ => (hsame pos).2), hheld]
    exact hi.holds.write (hi.indexed.held_of_cached hpos) (·.write start buf)

theorem Indexed.elemCnt_dropped (h : Indexed c) (hpos : Cached c pos) (mem : Bool) :
    (Cache.dropped c pos mem).cacheSegment.elemCnt + 1 = c.cacheSegment.elemCnt := by
  have hfind := h.find_eq_some hpos rfl ⟨pos, (c.cacheFrames pos).sector⟩ rfl
  obtain ⟨-, -, hperm⟩ := h.keyed.delete_of_some hfind mem
  rw [h.keyed.counted, (h.dropped hpos mem).keyed.counted, hperm.length_eq]
  rfl

theorem Inv.flushRounds (rounds : Nat) (hi : Inv c disk)
    (hrounds : c.cacheSegment.elemCnt ≤ rounds) (mem : Nat → Bool) :
    ∃ c', flushRounds rounds c mem = some c' ∧ Inv c' disk ∧ c'.cacheSegment.elemCnt = 0 := by
  induction rounds generalizing c with
  | zero =>
    have hzero : c.cacheSegment.elemCnt = 0 := by omega
    exact ⟨c, by simp [Cache.flushRounds, Hash.isEmpty, hzero], hi, hzero⟩
  | succ rounds ih =>
    by_cases hzero : c.cacheSegment.elemCnt = 0
    · exact ⟨c, by simp [Cache.flushRounds, Hash.isEmpty, hzero], hi, hzero⟩
    · have hcounted := hi.indexed.keyed.counted
      cases helems : c.cacheSegment.elems with
      | nil =>
        rw [helems] at hcounted
        exact absurd hcounted hzero
      | cons e rest =>
        have hmem : e ∈ c.cacheSegment.elems := by
          rw [helems]
          exact mem_cons_self
        have hcached := ((hi.indexed.cached e).mp hmem).1
        have hcnt := hi.indexed.elemCnt_dropped hcached (mem rounds)
        obtain ⟨c', hflush, hi', hempty⟩ := ih (hi.dropped hcached (mem rounds)) (by omega)
        refine ⟨c', ?_, hi', hempty⟩
        have hnot : c.cacheSegment.isEmpty = false := by simp [Hash.isEmpty, hzero]
        simp only [Cache.flushRounds, hnot, false_eq_true, if_false, helems,
          head?_cons, bind_eq_bind, bind_some,
          hi.indexed.cacheDelete_eq hcached, hflush]

theorem Inv.cacheFlush (hi : Inv c disk) (mem : Nat → Bool) :
    ∃ c', c.cacheFlush mem = some c' ∧ Inv c' disk ∧ c'.device.sectors = disk := by
  obtain ⟨c', hflush, hi', hempty⟩ := hi.flushRounds c.cacheSegment.elemCnt (le_refl _) mem
  refine ⟨c', hflush, hi', funext fun s => ?_⟩
  have hnil : c'.cacheSegment.elems = [] := by
    rw [hi'.indexed.keyed.counted] at hempty
    exact eq_nil_of_length_eq_zero hempty
  apply hi'.holds.of_none
  apply hi'.indexed.held_eq_none
  intro p hp
  have hmem := (hi'.indexed.cached ⟨p, (c'.cacheFrames p).sector⟩).mpr ⟨hp, rfl⟩
  rw [hnil] at hmem
  cases hmem

theorem Inv.cacheInit (device : Block) : Inv (cacheInit device) device.sectors := by
  have hnone : ∀ pos, ¬Cached (Cache.cacheInit device) pos := by
    rintro pos ⟨-, hused, -⟩
    cases hused
  have hempty : (Cache.cacheInit device).cacheSegment.elems = [] := by
    simp [Cache.cacheInit, Hash.elems, Hash.init]
  have hindexed : Indexed (Cache.cacheInit device) := by
    refine ⟨?_, ?_, ?_⟩
    · apply Hash.KeyedBy.init
      · intro a b
        simp only [Hash.equal, Hash.init, cacheCmp, and_eq_true, not_eq_true',
          decide_eq_false_iff_not]
        omega
      · intro a b hab
        unfold cacheHash
        rw [hab]
    · intro e
      rw [hempty]
      exact iff_of_false not_mem_nil fun h => hnone _ h.1
    · intro e he
      rw [hempty] at he
      cases he
  refine ⟨hindexed, ⟨rfl, rfl, show 0 < cacheMax by decide, fun _ => Nat.zero_le _⟩, ?_⟩
  have hheld : held (Cache.cacheInit device) = fun _ => none := by
    funext s
    exact hindexed.held_eq_none fun p hp => absurd hp (hnone p)
  rw [hheld]
  exact WriteBack.Represents.empty _

theorem Inv.exec (hi : Inv c disk) (henabled : enabled c label = true) :
    ∃ c', exec c label = some c' ∧ Inv c' (written c disk label) := by
  cases label with
  | find sector => exact ⟨_, rfl, hi.cacheFindSector sector⟩
  | fetch sector type mem mem' =>
    obtain ⟨hfind, hsector⟩ := and_eq_true_iff.mp henabled
    rcases hi.indexed.cacheFindSector_cases sector with ⟨-, hnone⟩ | ⟨pos, -, -, heq⟩
    · obtain ⟨c', pos, hfetch, hi', -⟩ := hi.cacheFetch type mem mem' hnone
        (of_decide_eq_true hsector)
      exact ⟨c', by simp only [Cache.exec, hfetch, map_some], hi'⟩
    · rw [heq] at hfind
      cases hfind
  | write pos buf start =>
    obtain ⟨hany, -⟩ := and_eq_true_iff.mp henabled
    obtain ⟨e, he, hpos⟩ := any_eq_true.mp hany
    have hcached := ((hi.indexed.cached e).mp he).1
    rw [beq_iff_eq.mp hpos] at hcached
    exact ⟨_, rfl, hi.cacheWrite hcached buf start⟩
  | flush mem =>
    obtain ⟨c', hflush, hi', -⟩ := hi.cacheFlush mem
    exact ⟨c', hflush, hi'⟩

theorem Inv.of_reachable {device : Block} (hr : (system device).Reachable s) : Inv s.1 s.2 := by
  refine System.Reachable.invariant (P := fun s => Inv s.1 s.2) hr ?_ ?_
  · rintro t rfl
    exact Inv.cacheInit device
  · rintro ⟨c, disk⟩ label ⟨c', disk'⟩ - hi ⟨henabled, hexec, hwritten⟩
    obtain ⟨c'', hexec', hi'⟩ := hi.exec henabled
    dsimp only at hexec hwritten ⊢
    rw [hexec] at hexec'
    cases hexec'
    rw [hwritten]
    exact hi'

theorem cache_refines_disk (device : Block) {c : Cache} {disk : Nat → Bytes}
    (hr : (system device).Reachable (c, disk)) :
    (∀ sector c' pos, c.cacheFindSector sector = (c', some pos) →
      (c'.cacheFrames pos).data = disk sector) ∧
    (∀ sector type mem mem' c' pos, enabled c (.fetch sector type mem mem') = true →
      c.cacheFetch sector type mem mem' = some (c', pos) →
      (c'.cacheFrames pos).data = disk sector) ∧
    (∀ p q, Cached c p → Cached c q → (c.cacheFrames p).sector = (c.cacheFrames q).sector → p = q) ∧
    (∀ mem c', c.cacheFlush mem = some c' → ∀ sector, c'.device.sectors sector = disk sector) ∧
    ∀ label, enabled c label = true → ∃ c', exec c label = some c' := by
  have hi : Inv c disk := Inv.of_reachable hr
  refine ⟨?_, ?_, fun p q hp hq => hi.indexed.unique hp hq, ?_, ?_⟩
  · intro sector c' pos hfind
    rcases hi.indexed.cacheFindSector_cases sector with ⟨heq, -⟩ | ⟨q, hq, hsector, heq⟩
    · rw [heq] at hfind
      cases hfind
    · rw [heq] at hfind
      cases hfind
      have hdata := hi.data_eq hq
      rw [hsector] at hdata
      rw [← hdata]
      simp [setFrame]
  · intro sector type mem mem' c' pos henabled hfetch
    obtain ⟨hfind, hsector⟩ := and_eq_true_iff.mp henabled
    rcases hi.indexed.cacheFindSector_cases sector with ⟨-, hnone⟩ | ⟨q, -, -, heq⟩
    · obtain ⟨c1, pos1, hfetch1, -, hdata, -⟩ := hi.cacheFetch type mem mem' hnone
        (of_decide_eq_true hsector)
      rw [hfetch] at hfetch1
      cases hfetch1
      exact hdata
    · rw [heq] at hfind
      cases hfind
  · intro mem c' hflush sector
    obtain ⟨c1, hflush1, -, hdevice⟩ := hi.cacheFlush mem
    rw [hflush] at hflush1
    cases hflush1
    rw [hdevice]
  · intro label henabled
    obtain ⟨c', hexec, -⟩ := hi.exec henabled
    exact ⟨c', hexec⟩

def attempt (s : Cache × (Nat → Bytes)) (label : Label) : Option (Cache × (Nat → Bytes)) :=
  if enabled s.1 label then (exec s.1 label).map fun c => (c, written s.1 s.2 label) else none

theorem step_of_attempt (device : Block) {s' : Cache × (Nat → Bytes)}
    (h : attempt s label = some s') : (system device).step s label s' := by
  unfold attempt at h
  split at h
  · rename_i henabled
    obtain ⟨c, hexec, rfl⟩ := map_eq_some_iff.mp h
    exact ⟨henabled, hexec, rfl⟩
  · cases h

theorem cache_refines_disk_written :
    ∃ c disk, (system ⟨8, fun _ _ => 0⟩).Reachable (c, disk) ∧ disk 3 0 = 7 ∧
      ∀ mem c', c.cacheFlush mem = some c' → c'.device.sectors 3 0 = 7 := by
  obtain ⟨⟨c, disk⟩, hr, hs⟩ := System.reachableVia_of_leadsTo (S := system ⟨8, fun _ _ => 0⟩)
    (cacheInit ⟨8, fun _ _ => 0⟩, fun _ _ => 0) attempt
    [.fetch 3 .fileData true true, .write 0 [7] 0, .fetch 5 .inodeData true false]
    (fun s => decide (s.2 3 0 = 7)) rfl
    (fun _ _ _ h => ⟨trivial, step_of_attempt _ h⟩) (by decide +kernel)
  refine ⟨c, disk, hr, of_decide_eq_true hs, fun mem c' hflush => ?_⟩
  rw [(cache_refines_disk _ hr).2.2.2.1 mem c' hflush 3]
  exact of_decide_eq_true hs

end Pintos.Filesys.Cache
