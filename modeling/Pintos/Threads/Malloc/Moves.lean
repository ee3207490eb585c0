import Pintos.Threads.Malloc

namespace Pintos.Threads.Malloc

open Books Nat List Arena Function

variable {k k' : Books} {a a' : Arena} {d d' : DescId} {page page' b b' cnt p : Nat}
  {live : Finset Nat}

namespace Arena

def blocks (a : Arena) (page : Nat) : List Nat :=
  match a.desc with
  | some d => arenaBlocks page d
  | none => [pgSize * page + arenaSize]

def span (a : Arena) : Nat :=
  match a.desc with
  | some _ => 1
  | none => a.freeCnt

def size (a : Arena) : Nat :=
  match a.desc with
  | some d => d.blockSize
  | none => pgSize * a.freeCnt - arenaSize

end Arena

theorem DescId.fits (d : DescId) : 16 ≤ d.blockSize ∧ 0 < d.blocksPerArena ∧
    d.blocksPerArena < 2 ^ 31 ∧ arenaSize + d.blocksPerArena * d.blockSize ≤ pgSize := by
  have hall : ∀ d : DescId, 16 ≤ d.blockSize ∧ 0 < d.blocksPerArena ∧
      d.blocksPerArena < 2 ^ 31 ∧ arenaSize + d.blocksPerArena * d.blockSize ≤ pgSize := by
    decide +kernel
  exact hall d

theorem mem_arenaBlocks : b ∈ arenaBlocks page d ↔
    ∃ i < d.blocksPerArena, arenaToBlock page d i = b := by
  simp [arenaBlocks]

theorem length_arenaBlocks (page : Nat) (d : DescId) :
    (arenaBlocks page d).length = d.blocksPerArena := by
  simp [arenaBlocks]

theorem nodup_arenaBlocks (page : Nat) (d : DescId) : (arenaBlocks page d).Nodup := by
  refine List.Nodup.map (fun i j h => ?_) nodup_range
  have hpos := d.fits.1
  have hmul : i * d.blockSize = j * d.blockSize := by
    unfold arenaToBlock at h
    omega
  exact eq_of_mul_eq_mul_right (by omega) hmul

theorem arenaToBlock_inside (page : Nat) {i : Nat} (hi : i < d.blocksPerArena) :
    pgNo (arenaToBlock page d i) = page ∧
      pgOfs (arenaToBlock page d i) = arenaSize + i * d.blockSize ∧
      arenaToBlock page d i + d.blockSize ≤ pgSize * (page + 1) := by
  have hend : i * d.blockSize + d.blockSize ≤ d.blocksPerArena * d.blockSize := by
    rw [← succ_mul]
    exact mul_le_mul_right _ hi
  have hfits := d.fits
  unfold pgNo pgOfs arenaToBlock pgSize arenaSize at *
  omega

theorem small_inside (hb : b ∈ arenaBlocks page d) : pgNo b = page := by
  obtain ⟨i, hi, rfl⟩ := mem_arenaBlocks.mp hb
  exact (arenaToBlock_inside page hi).1

theorem Arena.pgNo_of_mem (a : Arena) (hb : b ∈ a.blocks page) : pgNo b = page := by
  unfold blocks at hb
  match hd : a.desc with
  | some d =>
    rw [hd] at hb
    exact small_inside hb
  | none =>
    rw [hd] at hb
    rw [mem_singleton.mp hb]
    unfold pgNo pgSize arenaSize
    omega

theorem Arena.block_inside (hspan : 0 < a.span) (hb : b ∈ a.blocks page) :
    pgNo b = page ∧ arenaSize ≤ pgOfs b ∧ b + a.size ≤ pgSize * (page + a.span) := by
  unfold blocks Arena.size span at *
  match hd : a.desc with
  | some d =>
    rw [hd] at hb
    obtain ⟨i, hi, rfl⟩ := mem_arenaBlocks.mp hb
    obtain ⟨hpage, hofs, hend⟩ := arenaToBlock_inside page hi
    exact ⟨hpage, by omega, hend⟩
  | none =>
    rw [hd] at hb hspan
    obtain rfl := mem_singleton.mp hb
    unfold pgNo pgOfs pgSize arenaSize at *
    dsimp only at *
    omega

theorem Arena.size_pos (hspan : 0 < a.span) : elemSize ≤ a.size := by
  unfold Arena.size span at *
  match hd : a.desc with
  | some d =>
    have hfits := d.fits.1
    unfold elemSize
    dsimp only
    omega
  | none =>
    rw [hd] at hspan
    unfold elemSize pgSize arenaSize
    dsimp only at *
    omega

theorem Arena.blocks_apart (hb : b ∈ a.blocks page) (hb' : b' ∈ a.blocks page) (hne : b ≠ b') :
    b + a.size ≤ b' ∨ b' + a.size ≤ b := by
  unfold blocks Arena.size at *
  match hd : a.desc with
  | some d =>
    rw [hd] at hb hb'
    obtain ⟨i, hi, rfl⟩ := mem_arenaBlocks.mp hb
    obtain ⟨j, hj, rfl⟩ := mem_arenaBlocks.mp hb'
    have hij : i ≠ j := fun h => hne (by rw [h])
    unfold arenaToBlock
    dsimp only
    rcases lt_or_gt_of_ne hij with hlt | hlt
    · have hstep := mul_le_mul_right d.blockSize hlt
      rw [succ_mul] at hstep
      omega
    · have hstep := mul_le_mul_right d.blockSize hlt
      rw [succ_mul] at hstep
      omega
  | none =>
    rw [hd] at hb hb'
    exact absurd ((mem_singleton.mp hb).trans (mem_singleton.mp hb').symm) hne

theorem pgOfs_arenaSize (page : Nat) : pgOfs (pgSize * page + arenaSize) = arenaSize := by
  unfold pgOfs pgSize arenaSize
  omega

theorem blockToArena_eq (ha : k.arenas page = some a) (hspan : 0 < a.span)
    (hb : b ∈ a.blocks page) : k.blockToArena b = some a := by
  have hpage := (block_inside hspan hb).1
  unfold blockToArena
  rw [hpage, ha]
  unfold blocks at hb
  match hd : a.desc with
  | some d =>
    rw [hd] at hb
    obtain ⟨i, hi, rfl⟩ := mem_arenaBlocks.mp hb
    obtain ⟨-, hofs, -⟩ := arenaToBlock_inside page hi
    have hlt : pgOfs (arenaToBlock page d i) < pgSize := mod_lt _ (by decide)
    have hword : (pgOfs (arenaToBlock page d i) + 2 ^ 32 - arenaSize) % 2 ^ 32 =
        i * d.blockSize := by
      unfold pgSize arenaSize at *
      omega
    simp only [hd]
    rw [hword, mul_mod_left, if_pos rfl]
  | none =>
    rw [hd] at hb
    obtain rfl := mem_singleton.mp hb
    simp only [hd]
    rw [if_pos (pgOfs_arenaSize page)]

theorem blockSize_eq (ha : k.arenas page = some a) (hspan : 0 < a.span)
    (hb : b ∈ a.blocks page) : k.blockSize b = some a.size := by
  unfold Books.blockSize Arena.size
  rw [blockToArena_eq ha hspan hb]
  unfold blocks at hb
  match hd : a.desc with
  | some d => simp [hd]
  | none =>
    rw [hd] at hb
    obtain rfl := mem_singleton.mp hb
    simp [hd, pgOfs_arenaSize]

structure Layout (k : Books) : Prop where
  page_pos : ∀ {page a}, k.arenas page = some a → 0 < page
  span_pos : ∀ {page a}, k.arenas page = some a → 0 < a.span
  held : ∀ {page a}, k.arenas page = some a → ∀ i < a.span, k.held (page + i)
  apart : ∀ {page page' a a'}, k.arenas page = some a → k.arenas page' = some a' → page < page' →
    page + a.span ≤ page'

structure Split (k : Books) (live : Finset Nat) : Prop where
  live_block : ∀ {b}, b ∈ live → ∃ a, k.arenas (pgNo b) = some a ∧ b ∈ a.blocks (pgNo b)
  free_block : ∀ {b d}, b ∈ k.freeList d →
    ∃ cnt, k.arenas (pgNo b) = some ⟨some d, cnt⟩ ∧ b ∈ arenaBlocks (pgNo b) d
  covered : ∀ {page a b}, k.arenas page = some a → b ∈ a.blocks page →
    b ∈ live ∨ ∃ d, a.desc = some d ∧ b ∈ k.freeList d
  not_live : ∀ {b d}, b ∈ k.freeList d → b ∉ live
  nodup : ∀ d, (k.freeList d).Nodup
  count : ∀ {page d cnt}, k.arenas page = some ⟨some d, cnt⟩ →
    cnt = ((k.freeList d).filter fun b => pgNo b = page).length

structure Inv (k : Books) (live : Finset Nat) : Prop where
  layout : Layout k
  split : Split k live
  busy : ∀ {page d cnt}, k.arenas page = some ⟨some d, cnt⟩ → ∃ b ∈ live, pgNo b = page

theorem inRun_iff : inRun page cnt p = true ↔ page ≤ p ∧ p < page + cnt := by
  simp [inRun]

namespace Layout

theorem sub (hl : Layout k)
    (hspans : ∀ {p x}, k'.arenas p = some x → ∃ y, k.arenas p = some y ∧ x.span = y.span)
    (hheld : ∀ {p x}, k'.arenas p = some x → ∀ i < x.span, k.held (p + i) → k'.held (p + i)) :
    Layout k' where
  page_pos hx := by
    obtain ⟨y, hy, -⟩ := hspans hx
    exact hl.page_pos hy
  span_pos hx := by
    obtain ⟨y, hy, hspan⟩ := hspans hx
    rw [hspan]
    exact hl.span_pos hy
  held hx i hi := by
    obtain ⟨y, hy, hspan⟩ := hspans hx
    exact hheld hx i hi (hl.held hy i (hspan ▸ hi))
  apart hx hx' hlt := by
    obtain ⟨y, hy, hspan⟩ := hspans hx
    obtain ⟨y', hy', -⟩ := hspans hx'
    rw [hspan]
    exact hl.apart hy hy' hlt

theorem add (hl : Layout k) (hpos : 0 < page) (hspan : 0 < a.span)
    (hfresh : ∀ i < a.span, ¬k.held (page + i))
    (harenas : k'.arenas = update k.arenas page (some a))
    (hheld : k'.held = fun p => k.held p || inRun page a.span p) : Layout k' := by
  have hcases : ∀ {p x}, k'.arenas p = some x → (p = page ∧ x = a) ∨ k.arenas p = some x := by
    intro p x hx
    rw [harenas] at hx
    by_cases hp : p = page
    · subst hp
      rw [update_self] at hx
      exact .inl ⟨rfl, (Option.some.inj hx).symm⟩
    · rw [update_of_ne hp] at hx
      exact .inr hx
  refine ⟨fun hx => ?_, fun hx => ?_, fun hx i hi => ?_, fun {p p' x x'} hx hx' hlt => ?_⟩
  · obtain ⟨rfl, -⟩ | hx := hcases hx
    · exact hpos
    · exact hl.page_pos hx
  · obtain ⟨-, rfl⟩ | hx := hcases hx
    · exact hspan
    · exact hl.span_pos hx
  · rw [hheld, Bool.or_eq_true]
    obtain ⟨rfl, rfl⟩ | hx := hcases hx
    · exact .inr (inRun_iff.mpr (by omega))
    · exact .inl (hl.held hx i hi)
  · obtain ⟨rfl, rfl⟩ | hx := hcases hx
    · obtain ⟨rfl, -⟩ | hx' := hcases hx'
      · omega
      · -- a page of the new run is not the first one of another arena
        by_contra hover
        have hheld' := hl.held hx' 0 (hl.span_pos hx')
        have hin := hfresh (p' - p) (by omega)
        rw [Nat.add_sub_of_le hlt.le] at hin
        exact hin hheld'
    · obtain ⟨rfl, -⟩ | hx' := hcases hx'
      · by_contra hover
        have hheld' := hl.held hx (p' - p) (by omega)
        rw [Nat.add_sub_of_le hlt.le] at hheld'
        exact hfresh 0 hspan hheld'
      · exact hl.apart hx hx' hlt

theorem arenas_of_not_held (hl : Layout k) (h : ¬k.held page) : k.arenas page = none := by
  match ha : k.arenas page with
  | none => rfl
  | some a => exact absurd (hl.held ha 0 (hl.span_pos ha)) h

end Layout

namespace Split

theorem free_mem (hs : Split k live) (hb : b ∈ k.freeList d) (hpage : pgNo b = page) :
    b ∈ arenaBlocks page d := by
  obtain ⟨cnt', -, hmem⟩ := hs.free_block hb
  rwa [hpage] at hmem

theorem free_subperm (hs : Split k live) (page : Nat) (d : DescId) :
    ((k.freeList d).filter fun b => pgNo b = page).Subperm (arenaBlocks page d) := by
  refine List.Nodup.subperm ((hs.nodup d).filter _) fun b hb => ?_
  obtain ⟨hb, hpage⟩ := mem_filter.mp hb
  exact hs.free_mem hb (of_decide_eq_true hpage)

section

variable (hs : Split k live) (ha : k.arenas page = some ⟨some d, cnt⟩)
include hs ha

theorem count_le : cnt ≤ d.blocksPerArena := by
  rw [hs.count ha, ← length_arenaBlocks page d]
  exact (hs.free_subperm page d).length_le

theorem all_free (hcnt : d.blocksPerArena ≤ cnt) : ∀ b ∈ arenaBlocks page d, b ∈ k.freeList d := by
  intro b hb
  have hlen : (arenaBlocks page d).length ≤
      ((k.freeList d).filter fun b => pgNo b = page).length := by
    rwa [length_arenaBlocks, ← hs.count ha]
  have hperm := (hs.free_subperm page d).perm_of_length_le hlen
  exact (mem_filter.mp (hperm.mem_iff.mpr hb)).1

theorem exists_live (hcnt : cnt < d.blocksPerArena) : ∃ b ∈ live, pgNo b = page := by
  by_contra hnone
  have hsub : arenaBlocks page d ⊆ (k.freeList d).filter fun b => pgNo b = page := by
    intro b hb
    have hpage := small_inside hb
    obtain hlive | ⟨d', hd', hfree⟩ := hs.covered ha hb
    · exact absurd ⟨b, hlive, hpage⟩ hnone
    · obtain rfl := Option.some.inj hd'
      exact mem_filter.mpr ⟨hfree, decide_eq_true hpage⟩
  have hlen := (List.Nodup.subperm (nodup_arenaBlocks page d) hsub).length_le
  rw [length_arenaBlocks, ← hs.count ha] at hlen
  omega

end

theorem update_cases {arenas : Nat → Option Arena} {x : Option Arena} {y : Arena}
    (h : update arenas page x p = some y) :
    (p = page ∧ x = some y) ∨ (p ≠ page ∧ arenas p = some y) := by
  by_cases hp : p = page
  · subst hp
    rw [update_self] at h
    exact .inl ⟨rfl, h⟩
  · rw [update_of_ne hp] at h
    exact .inr ⟨hp, h⟩

theorem arenas_kept {x a : Arena} (hnew : k.arenas page = none)
    (harenas : k'.arenas = update k.arenas page (some x)) (ha : k.arenas p = some a) :
    p ≠ page ∧ k'.arenas p = some a := by
  have hp : p ≠ page := by
    rintro rfl
    rw [hnew] at ha
    cases ha
  exact ⟨hp, by rw [harenas, update_of_ne hp, ha]⟩

theorem grow (hs : Split k live) (hnew : k.arenas page = none)
    (harenas : k'.arenas = update k.arenas page (some ⟨some d, d.blocksPerArena⟩))
    (hfree : k'.freeList = update k.freeList d (k.freeList d ++ arenaBlocks page d)) :
    Split k' live := by
  have hold : ∀ {p x}, k.arenas p = some x → p ≠ page ∧ k'.arenas p = some x :=
    arenas_kept hnew harenas
  have hself : k'.freeList d = k.freeList d ++ arenaBlocks page d := by
    rw [hfree, update_self]
  have hmem : ∀ d' b', b' ∈ k'.freeList d' ↔
      b' ∈ k.freeList d' ∨ d' = d ∧ b' ∈ arenaBlocks page d := by
    intro d' b'
    by_cases hd : d' = d
    · subst hd
      rw [hself, mem_append]
      simp
    · rw [hfree, update_of_ne hd]
      simp [hd]
  have hfar : ∀ b' d', b' ∈ k.freeList d' → pgNo b' ≠ page := by
    intro b' d' hb'
    obtain ⟨cnt, ha, -⟩ := hs.free_block hb'
    exact (hold ha).1
  refine ⟨fun {b'} hb' => ?_, fun {b' d'} hb' => ?_, fun {p x b'} hx hb' => ?_, fun {b' d'} hb' => ?_,
    fun d' => ?_, fun {p d' cnt} hx => ?_⟩
  · obtain ⟨x, hx, hmem⟩ := hs.live_block hb'
    exact ⟨x, (hold hx).2, hmem⟩
  · obtain hb' | ⟨rfl, hb'⟩ := (hmem d' b').mp hb'
    · obtain ⟨cnt, hx, hmem⟩ := hs.free_block hb'
      exact ⟨cnt, (hold hx).2, hmem⟩
    · have hpage := small_inside hb'
      rw [hpage]
      exact ⟨d'.blocksPerArena, by rw [harenas, update_self], hb'⟩
  · rw [harenas] at hx
    obtain ⟨rfl, heq⟩ | ⟨-, hx⟩ := update_cases hx
    · obtain rfl := Option.some.inj heq
      exact .inr ⟨d, rfl, (hmem d b').mpr (.inr ⟨rfl, hb'⟩)⟩
    · obtain hlive | ⟨d', hd', hfree'⟩ := hs.covered hx hb'
      · exact .inl hlive
      · exact .inr ⟨d', hd', (hmem d' b').mpr (.inl hfree')⟩
  · obtain hb' | ⟨-, hb'⟩ := (hmem d' b').mp hb'
    · exact hs.not_live hb'
    · intro hlive
      obtain ⟨x, hx, -⟩ := hs.live_block hlive
      exact (hold hx).1 (small_inside hb')
  · by_cases hd : d' = d
    · subst hd
      rw [hself]
      refine List.Nodup.append (hs.nodup d') (nodup_arenaBlocks page d') fun b' hb' hnew' => ?_
      exact hfar b' d' hb' (small_inside hnew')
    · rw [hfree, update_of_ne hd]
      exact hs.nodup d'
  · rw [harenas] at hx
    obtain ⟨rfl, heq⟩ | ⟨hp, hx⟩ := update_cases hx
    · obtain ⟨rfl, rfl⟩ : d = d' ∧ d.blocksPerArena = cnt := by simpa using heq
      have hnone : (k.freeList d).filter (fun b => pgNo b = p) = [] :=
        filter_eq_nil_iff.mpr fun b' hb' h => hfar b' d hb' (of_decide_eq_true h)
      have hall : (arenaBlocks p d).filter (fun b => pgNo b = p) = arenaBlocks p d :=
        filter_eq_self.mpr fun b' hb' => decide_eq_true (small_inside hb')
      rw [hself, filter_append, hnone, hall, nil_append, length_arenaBlocks]
    · rw [hs.count hx]
      by_cases hd : d' = d
      · subst hd
        have hnone : (arenaBlocks page d').filter (fun b => pgNo b = p) = [] :=
          filter_eq_nil_iff.mpr fun b' hb' h =>
            hp ((of_decide_eq_true h).symm.trans (small_inside hb'))
        rw [hself, filter_append, hnone, append_nil]
      · rw [hfree, update_of_ne hd]

theorem growBig (hs : Split k live) (hnew : k.arenas page = none)
    (harenas : k'.arenas = update k.arenas page (some ⟨none, cnt⟩))
    (hfree : k'.freeList = k.freeList) :
    Split k' (insert (pgSize * page + arenaSize) live) := by
  have hpage : pgNo (pgSize * page + arenaSize) = page := by
    unfold pgNo pgSize arenaSize
    omega
  have hold : ∀ {p x}, k.arenas p = some x → p ≠ page ∧ k'.arenas p = some x :=
    arenas_kept hnew harenas
  refine ⟨fun {b'} hb' => ?_, fun {b' d'} hb' => ?_, fun {p x b'} hx hb' => ?_, fun {b' d'} hb' => ?_,
    fun d' => ?_, fun {p d' cnt'} hx => ?_⟩
  · obtain rfl | hb' := Finset.mem_insert.mp hb'
    · rw [hpage]
      exact ⟨⟨none, cnt⟩, by rw [harenas, update_self], mem_cons_self⟩
    · obtain ⟨x, hx, hmem⟩ := hs.live_block hb'
      exact ⟨x, (hold hx).2, hmem⟩
  · rw [hfree] at hb'
    obtain ⟨cnt', hx, hmem⟩ := hs.free_block hb'
    exact ⟨cnt', (hold hx).2, hmem⟩
  · rw [harenas] at hx
    obtain ⟨rfl, heq⟩ | ⟨-, hx⟩ := update_cases hx
    · obtain rfl := Option.some.inj heq
      obtain rfl := mem_singleton.mp hb'
      exact .inl (Finset.mem_insert_self ..)
    · rw [hfree]
      exact (hs.covered hx hb').imp_left Finset.mem_insert_of_mem
  · rw [hfree] at hb'
    obtain ⟨cnt', hx, -⟩ := hs.free_block hb'
    intro hlive
    obtain rfl | hlive := Finset.mem_insert.mp hlive
    · exact (hold hx).1 hpage
    · exact hs.not_live hb' hlive
  · rw [hfree]
    exact hs.nodup d'
  · rw [harenas] at hx
    obtain ⟨-, hx⟩ | ⟨-, hx⟩ := update_cases hx
    · cases hx
    · rw [hfree]
      exact hs.count hx

theorem move {live' : Finset Nat} {cnt' : Nat} (hs : Split k live)
    (ha : k.arenas (pgNo b) = some ⟨some d, cnt⟩) (hb : b ∈ arenaBlocks (pgNo b) d)
    (harenas : k'.arenas = update k.arenas (pgNo b) (some ⟨some d, cnt'⟩))
    (hlive : ∀ b' ≠ b, b' ∈ live' ↔ b' ∈ live)
    (hfree : ∀ b' ≠ b, ∀ d', b' ∈ k'.freeList d' ↔ b' ∈ k.freeList d')
    (hself : (b ∈ live' ∧ ∀ d', b ∉ k'.freeList d') ∨
      (b ∉ live' ∧ b ∈ k'.freeList d ∧ ∀ d', b ∈ k'.freeList d' → d' = d))
    (hnodup : ∀ d', (k'.freeList d').Nodup)
    (hcnt : cnt' = ((k'.freeList d).filter fun b' => pgNo b' = pgNo b).length) :
    Split k' live' := by
  have hkept : ∀ {p x}, k.arenas p = some x → ∃ y, k'.arenas p = some y ∧ y.desc = x.desc := by
    intro p x hx
    by_cases hp : p = pgNo b
    · rw [hp, ha] at hx
      obtain rfl := Option.some.inj hx
      exact ⟨⟨some d, cnt'⟩, by rw [harenas, hp, update_self], rfl⟩
    · exact ⟨x, by rw [harenas, update_of_ne hp, hx], rfl⟩
  have hblocks : ∀ {x y : Arena} (p : Nat), y.desc = x.desc → y.blocks p = x.blocks p := by
    intro x y p hdesc
    unfold Arena.blocks
    rw [hdesc]
  have hnew : k'.arenas (pgNo b) = some ⟨some d, cnt'⟩ := by rw [harenas, update_self]
  refine ⟨fun {b'} hb' => ?_, fun {b' d'} hb' => ?_, fun {p x b'} hx hb' => ?_, fun {b' d'} hb' => ?_,
    hnodup, fun {p d' c} hx => ?_⟩
  · by_cases hne : b' = b
    · subst hne
      exact ⟨_, hnew, hb⟩
    · obtain ⟨x, hx, hmem⟩ := hs.live_block ((hlive b' hne).mp hb')
      obtain ⟨y, hy, hdesc⟩ := hkept hx
      exact ⟨y, hy, by rwa [hblocks _ hdesc]⟩
  · by_cases hne : b' = b
    · subst hne
      obtain ⟨-, hnot⟩ | ⟨-, -, honly⟩ := hself
      · exact absurd hb' (hnot d')
      · obtain rfl := honly d' hb'
        exact ⟨cnt', hnew, hb⟩
    · obtain ⟨c, hx, hmem⟩ := hs.free_block ((hfree b' hne d').mp hb')
      obtain ⟨⟨desc, c'⟩, hy, hdesc⟩ := hkept hx
      obtain rfl : desc = some d' := hdesc
      exact ⟨c', hy, hmem⟩
  · have hold : ∃ y, k.arenas p = some y ∧ x.desc = y.desc := by
      rw [harenas] at hx
      obtain ⟨rfl, heq⟩ | ⟨-, hx⟩ := update_cases hx
      · exact ⟨_, ha, by rw [← Option.some.inj heq]⟩
      · exact ⟨x, hx, rfl⟩
    obtain ⟨y, hy, hdesc⟩ := hold
    by_cases hne : b' = b
    · subst hne
      obtain ⟨hlive', -⟩ | ⟨-, hfree', -⟩ := hself
      · exact .inl hlive'
      · obtain rfl := x.pgNo_of_mem hb'
        rw [ha] at hy
        obtain rfl := Option.some.inj hy
        exact .inr ⟨d, hdesc, hfree'⟩
    · rw [hblocks _ hdesc] at hb'
      obtain h | ⟨d', hd', hfree'⟩ := hs.covered hy hb'
      · exact .inl ((hlive b' hne).mpr h)
      · exact .inr ⟨d', hdesc.trans hd', (hfree b' hne d').mpr hfree'⟩
  · by_cases hne : b' = b
    · subst hne
      obtain ⟨-, hnot⟩ | ⟨hnot, -⟩ := hself
      · exact absurd hb' (hnot d')
      · exact hnot
    · intro h
      exact hs.not_live ((hfree b' hne d').mp hb') ((hlive b' hne).mp h)
  · rw [harenas] at hx
    obtain ⟨rfl, heq⟩ | ⟨hp, hx⟩ := update_cases hx
    · obtain ⟨rfl, rfl⟩ : d = d' ∧ cnt' = c := by simpa using heq
      exact hcnt
    · -- the lists differ in one block of another page
      rw [hs.count hx]
      refine List.Perm.length_eq ((perm_ext_iff_of_nodup ((hs.nodup d').filter _)
        ((hnodup d').filter _)).mpr fun b' => ?_)
      rw [mem_filter, mem_filter]
      refine and_congr_left fun hpage => (hfree b' ?_ d').symm
      rintro rfl
      exact hp (of_decide_eq_true hpage).symm

theorem length_filter_own (b : Nat) (l : List Nat) :
    ((b :: l).filter fun b' => pgNo b' = pgNo b).length =
      (l.filter fun b' => pgNo b' = pgNo b).length + 1 := by simp

section OneBlock

variable {rest : List Nat} (hs : Split k live)
include hs

theorem desc_unique (ha : k.arenas (pgNo b) = some ⟨some d, cnt⟩) (hb : b ∈ k.freeList d') :
    d' = d := by
  obtain ⟨cnt', ha', -⟩ := hs.free_block hb
  rw [ha] at ha'
  have heq := Option.some.inj (congrArg Arena.desc (Option.some.inj ha'))
  exact heq.symm

theorem take (hl : k.freeList d = b :: rest) (ha : k.arenas (pgNo b) = some ⟨some d, cnt⟩)
    (harenas : k'.arenas = update k.arenas (pgNo b) (some ⟨some d, cnt - 1⟩))
    (hfree : k'.freeList = update k.freeList d rest) : Split k' (insert b live) := by
  have hfirst : b ∈ k.freeList d := by
    rw [hl]
    exact mem_cons_self
  have hrest : k'.freeList d = rest := by rw [hfree, update_self]
  have hnodup := hs.nodup d
  rw [hl, nodup_cons] at hnodup
  have hmem : ∀ d' b', b' ∈ k'.freeList d' ↔ b' ∈ k.freeList d' ∧ b' ≠ b := by
    intro d' b'
    by_cases hd : d' = d
    · subst hd
      rw [hrest, hl, mem_cons]
      constructor
      · intro hb'
        exact ⟨.inr hb', fun h => hnodup.1 (h ▸ hb')⟩
      · rintro ⟨hb', hne⟩
        exact hb'.resolve_left hne
    · rw [hfree, update_of_ne hd]
      refine ⟨fun hb' => ⟨hb', ?_⟩, And.left⟩
      rintro rfl
      exact hd (hs.desc_unique ha hb')
  refine hs.move ha (hs.free_mem hfirst rfl) harenas (fun b' hne => ?_) (fun b' hne d' => ?_)
    (.inl ⟨Finset.mem_insert_self .., fun d' hb' => ((hmem d' b).mp hb').2 rfl⟩)
    (fun d' => ?_) ?_
  · rw [Finset.mem_insert, or_iff_right hne]
  · rw [hmem, and_iff_left hne]
  · by_cases hd : d' = d
    · rw [hd, hrest]
      exact hnodup.2
    · rw [hfree, update_of_ne hd]
      exact hs.nodup d'
  · have hcount := hs.count ha
    rw [hl, length_filter_own] at hcount
    rw [hrest]
    omega

theorem give (hb : b ∈ live) (ha : k.arenas (pgNo b) = some ⟨some d, cnt⟩)
    (harenas : k'.arenas = update k.arenas (pgNo b) (some ⟨some d, cnt + 1⟩))
    (hfree : k'.freeList = update k.freeList d (b :: k.freeList d)) :
    Split k' (live.erase b) := by
  have hself : k'.freeList d = b :: k.freeList d := by rw [hfree, update_self]
  have hmem : ∀ d' b', b' ∈ k'.freeList d' ↔ b' ∈ k.freeList d' ∨ b' = b ∧ d' = d := by
    intro d' b'
    by_cases hd : d' = d
    · subst hd
      rw [hself, mem_cons, or_comm]
      simp
    · rw [hfree, update_of_ne hd]
      simp [hd]
  have hblock : b ∈ arenaBlocks (pgNo b) d := by
    obtain ⟨x, hx, hmem⟩ := hs.live_block hb
    rw [ha] at hx
    obtain rfl := Option.some.inj hx
    exact hmem
  refine hs.move ha hblock harenas (fun b' hne => ?_) (fun b' hne d' => ?_)
    (.inr ⟨Finset.notMem_erase b live, (hmem d b).mpr (.inr ⟨rfl, rfl⟩), fun d' hb' => ?_⟩)
    (fun d' => ?_) ?_
  · rw [Finset.mem_erase, and_iff_right hne]
  · rw [hmem, or_iff_left fun h => hne h.1]
  · obtain hb' | ⟨-, hd⟩ := (hmem d' b).mp hb'
    · exact absurd hb (hs.not_live hb')
    · exact hd
  · by_cases hd : d' = d
    · rw [hd, hself]
      exact nodup_cons.mpr ⟨fun h => hs.not_live h hb, hs.nodup d⟩
    · rw [hfree, update_of_ne hd]
      exact hs.nodup d'
  · rw [hself, length_filter_own, ← hs.count ha]

theorem remove (harenas : k'.arenas = update k.arenas page none)
    (hfree : ∀ d, k'.freeList d = (k.freeList d).filter fun b => pgNo b ≠ page) :
    Split k' (live.filter fun b => pgNo b ≠ page) := by
  have hold : ∀ {p x}, k'.arenas p = some x ↔ p ≠ page ∧ k.arenas p = some x := by
    intro p x
    rw [harenas]
    constructor
    · intro hx
      obtain ⟨-, h⟩ | h := update_cases hx
      · cases h
      · exact h
    · rintro ⟨hp, hx⟩
      rw [update_of_ne hp, hx]
  have hmem : ∀ {d b'}, b' ∈ k'.freeList d ↔ b' ∈ k.freeList d ∧ pgNo b' ≠ page := by
    intro d b'
    rw [hfree, mem_filter, decide_eq_true_iff]
  refine ⟨fun {b'} hb' => ?_, fun {b' d'} hb' => ?_, fun {p x b'} hx hb' => ?_, fun {b' d'} hb' => ?_,
    fun d' => ?_, fun {p d' c} hx => ?_⟩
  · obtain ⟨hb', hp⟩ := Finset.mem_filter.mp hb'
    obtain ⟨x, hx, hblock⟩ := hs.live_block hb'
    exact ⟨x, hold.mpr ⟨hp, hx⟩, hblock⟩
  · obtain ⟨hb', hp⟩ := hmem.mp hb'
    obtain ⟨c, hx, hblock⟩ := hs.free_block hb'
    exact ⟨c, hold.mpr ⟨hp, hx⟩, hblock⟩
  · obtain ⟨hp, hx⟩ := hold.mp hx
    have hpage : pgNo b' ≠ page := by rwa [x.pgNo_of_mem hb']
    obtain h | ⟨d', hd', h⟩ := hs.covered hx hb'
    · exact .inl (Finset.mem_filter.mpr ⟨h, hpage⟩)
    · exact .inr ⟨d', hd', hmem.mpr ⟨h, hpage⟩⟩
  · intro h
    exact hs.not_live (hmem.mp hb').1 (Finset.mem_filter.mp h).1
  · rw [hfree]
    exact (hs.nodup d').filter _
  · obtain ⟨hp, hx⟩ := hold.mp hx
    rw [hs.count hx, hfree, filter_filter]
    congr 1
    refine filter_congr fun b' _ => ?_
    by_cases h : pgNo b' = p
    · simp [h, hp]
    · simp [h]

end OneBlock

end Split

end Pintos.Threads.Malloc
