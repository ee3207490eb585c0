import Pintos.Threads.Malloc.Moves

namespace Pintos.Threads.Malloc

open Function Lib Books Finset Nat Option Heap

variable {k k' : Books} {a a' : Arena} {d d' : DescId} {page page' b b' cnt addr p size cnt' : Nat}
  {live : Finset Nat} {h h' : Heap} {answer : Option Nat} {rest : List Nat}

theorem pallocGetMultiple_eq (hget : k.pallocGetMultiple answer cnt = some (page, k')) :
    0 < cnt ∧ 0 < page ∧ (∀ i < cnt, ¬k.held (page + i)) ∧
      k' = { k with held := fun p => k.held p || inRun page cnt p } := by
  unfold pallocGetMultiple at hget
  match answer with
  | none => cases hget
  | some proposed =>
    dsimp only at hget
    split at hget
    · rename_i hfresh
      obtain ⟨rfl, rfl⟩ := Prod.mk.inj (some.inj hget)
      exact ⟨hfresh.1, hfresh.2.1, hfresh.2.2.2, rfl⟩
    · cases hget

theorem Layout.pallocFreeMultiple (hl : Layout k) (ha : k.arenas page = some a) :
    ∃ k', k.pallocFreeMultiple page a.span = some k' ∧
      k'.arenas = update k.arenas page none ∧ k'.freeList = k.freeList ∧
      k'.held = fun p => k.held p && !inRun page a.span p := by
  refine ⟨_, if_pos (hl.held ha), ?_, rfl, rfl⟩
  funext q
  by_cases hq : q = page
  · have hin : inRun page a.span q = true := inRun_iff.mpr (by have := hl.span_pos ha; omega)
    subst hq
    rw [update_self]
    exact if_pos hin
  · rw [update_of_ne hq]
    dsimp only
    split
    · rename_i hin
      have hin := inRun_iff.mp hin
      match hx : k.arenas q with
      | none => rfl
      | some x =>
        have hapart := hl.apart ha hx (by omega)
        omega
    · rfl

theorem Layout.remove (hl : Layout k) (ha : k.arenas page = some a)
    (harenas : k'.arenas = update k.arenas page none)
    (hheld : k'.held = fun p => k.held p && !inRun page a.span p) : Layout k' := by
  have hold : ∀ {q x}, k'.arenas q = some x → q ≠ page ∧ k.arenas q = some x := by
    intro q x hx
    rw [harenas] at hx
    obtain ⟨-, hnone⟩ | hx := Split.update_cases hx
    · cases hnone
    · exact hx
  refine hl.sub (fun hx => ⟨_, (hold hx).2, rfl⟩) fun {q x} hx i hi hin => ?_
  obtain ⟨hq, hx⟩ := hold hx
  have hout : ¬inRun page a.span (q + i) = true := by
    rw [inRun_iff]
    rcases lt_or_gt_of_ne hq with hlt | hlt
    · have hapart := hl.apart hx ha hlt
      omega
    · have hapart := hl.apart ha hx hlt
      omega
  rw [hheld]
  simp [hin, hout]

theorem removeBlocks_eq {l blocks : List Nat} (hl : l.Nodup) (hblocks : blocks.Nodup)
    (hsub : ∀ b ∈ blocks, b ∈ l) :
    removeBlocks l blocks = some (l.filter fun b => b ∉ blocks) := by
  induction blocks generalizing l with
  | nil =>
    have hall : l.filter (fun b => b ∉ ([] : List Nat)) = l :=
      List.filter_eq_self.mpr fun b _ => by simp
    rw [hall]
    rfl
  | cons b rest ih =>
    obtain ⟨hb, hrest⟩ := List.nodup_cons.mp hblocks
    have hstep : removeBlocks l (b :: rest) = removeBlocks (l.erase b) rest := by
      unfold removeBlocks
      rw [List.foldlM_cons, if_pos (hsub b List.mem_cons_self)]
      rfl
    have hsub' : ∀ b' ∈ rest, b' ∈ l.erase b := by
      intro b' hb'
      have hne : b' ≠ b := fun heq => hb (heq ▸ hb')
      exact (List.mem_erase_of_ne hne).mpr (hsub b' (List.mem_cons_of_mem _ hb'))
    rw [hstep, ih (hl.erase b) hrest hsub', hl.erase_eq_filter, List.filter_filter]
    refine congrArg some (List.filter_congr fun b' _ => ?_)
    by_cases hne : b' = b
    · simp [hne]
    · simp [hne]

theorem take_eq (hl : Layout k) (hs : Split k live) (hfree : k.freeList d = b :: rest) :
    ∃ cnt k', k.arenas (pgNo b) = some ⟨some d, cnt⟩ ∧ k.take d = some (b, k') ∧
      k'.arenas = update k.arenas (pgNo b) (some ⟨some d, cnt - 1⟩) ∧
      k'.freeList = update k.freeList d rest ∧ k'.held = k.held := by
  have hmem : b ∈ k.freeList d := by
    rw [hfree]
    exact List.mem_cons_self
  obtain ⟨cnt, ha, hblock⟩ := hs.free_block hmem
  have hcount := hs.count ha
  rw [hfree, Split.length_filter_own] at hcount
  have hle := hs.count_le ha
  have hfits := d.fits
  have hword : (cnt + 2 ^ 32 - 1) % 2 ^ 32 = cnt - 1 := by omega
  have harena : (k.setFreeList d rest).blockToArena b = some ⟨some d, cnt⟩ :=
    blockToArena_eq (k := k.setFreeList d rest) ha (hl.span_pos ha) hblock
  have htake : k.take d = some (b, (k.setFreeList d rest).setArena (pgNo b)
      (some ⟨some d, (cnt + 2 ^ 32 - 1) % 2 ^ 32⟩)) := by
    unfold take
    rw [hfree]
    dsimp only
    rw [harena]
    rfl
  rw [hword] at htake
  exact ⟨cnt, _, ha, htake, rfl, rfl, rfl⟩

def Owns (k : Books) (b addr : Nat) : Prop :=
  ∃ size, k.blockSize b = some size ∧ b ≤ addr ∧ addr < b + size

theorem owns_congr (h : k'.blockSize b = k.blockSize b) : Owns k' b addr ↔ Owns k b addr := by
  unfold Owns
  rw [h]

def IsBlock (k : Books) (b : Nat) : Prop :=
  ∃ a, k.arenas (pgNo b) = some a ∧ b ∈ a.blocks (pgNo b)

namespace Layout

variable (hl : Layout k)
include hl

theorem owns_iff (ha : k.arenas (pgNo b) = some a) (hb : b ∈ a.blocks (pgNo b)) :
    Owns k b addr ↔ b ≤ addr ∧ addr < b + a.size := by
  unfold Owns
  rw [blockSize_eq ha (hl.span_pos ha) hb]
  simp

theorem owns_page (ha : k.arenas (pgNo b) = some a) (hb : b ∈ a.blocks (pgNo b))
    (ho : Owns k b addr) : pgNo b ≤ pgNo addr ∧ pgNo addr < pgNo b + a.span ∧
      (pgNo addr = pgNo b → arenaSize ≤ pgOfs addr) := by
  obtain ⟨hlow, hhigh⟩ := (hl.owns_iff ha hb).mp ho
  obtain ⟨-, hofs, hend⟩ := Arena.block_inside (hl.span_pos ha) hb
  unfold pgNo pgOfs pgSize at *
  omega

theorem owns_held (hb : IsBlock k b) (ho : Owns k b addr) : k.held (pgNo addr) := by
  obtain ⟨a, ha, hb⟩ := hb
  obtain ⟨hlow, hhigh, -⟩ := hl.owns_page ha hb ho
  have hin := hl.held ha (pgNo addr - pgNo b) (by omega)
  rwa [add_sub_of_le hlow] at hin

theorem owns_apart (hb : IsBlock k b) (hb' : IsBlock k b') (hne : b ≠ b') (ho : Owns k b addr) :
    ¬Owns k b' addr := by
  obtain ⟨a, ha, hb⟩ := hb
  obtain ⟨a', ha', hb'⟩ := hb'
  intro ho'
  by_cases hpage : pgNo b = pgNo b'
  · have heq : a = a' := by
      rw [hpage, ha'] at ha
      exact (some.inj ha).symm
    subst heq
    have hapart := Arena.blocks_apart hb (hpage ▸ hb') hne
    obtain ⟨hlow, hhigh⟩ := (hl.owns_iff ha hb).mp ho
    obtain ⟨hlow', hhigh'⟩ := (hl.owns_iff ha' hb').mp ho'
    omega
  · obtain ⟨hlow, hhigh, -⟩ := hl.owns_page ha hb ho
    obtain ⟨hlow', hhigh', -⟩ := hl.owns_page ha' hb' ho'
    rcases lt_or_gt_of_ne hpage with hlt | hlt
    · have hapart := hl.apart ha ha' hlt
      omega
    · have hapart := hl.apart ha' ha hlt
      omega

end Layout

theorem Split.isBlock_of_live (hs : Split k live) (hb : b ∈ live) : IsBlock k b := hs.live_block hb

theorem not_isMetadata (hl : Layout k) (hs : Split k live) (hb : b ∈ live) (ho : Owns k b addr) :
    ¬isMetadata k addr := by
  have hblock := hs.isBlock_of_live hb
  obtain ⟨a, ha, hmem⟩ := hblock
  obtain ⟨hlow, hhigh, hofs⟩ := hl.owns_page ha hmem ho
  unfold isMetadata
  simp only [Bool.or_eq_true, Bool.and_eq_true, isSome_iff_exists, decide_eq_true_eq,
    List.any_eq_true, not_or, not_and, not_exists]
  constructor
  · rintro ⟨x, hx⟩ hheader
    by_cases hpage : pgNo addr = pgNo b
    · have hge := hofs hpage
      omega
    · have hapart := hl.apart ha hx (by omega)
      omega
  · intro d _ b' hb' hge
    obtain ⟨cnt, ha', hmem'⟩ := hs.free_block hb'
    have hne : b ≠ b' := fun heq => hs.not_live hb' (heq ▸ hb)
    have hapart := hl.owns_apart ⟨a, ha, hmem⟩ ⟨_, ha', hmem'⟩ hne ho
    rw [hl.owns_iff ha' hmem'] at hapart
    have hsize := Arena.size_pos (hl.span_pos ha')
    omega

structure Kept (h h' : Heap) (live : Finset Nat) : Prop where
  size : ∀ {b}, b ∈ live → h'.books.blockSize b = h.books.blockSize b
  bytes : ∀ {b addr}, b ∈ live → Owns h.books b addr → h'.mem addr = h.mem addr

theorem Kept.owns (hk : Kept h h' live) (hb : b ∈ live) :
    Owns h'.books b addr ↔ Owns h.books b addr := owns_congr (hk.size hb)

theorem Kept.trans {h₁ h₂ h₃ : Heap} (hk : Kept h₁ h₂ live) (hk' : Kept h₂ h₃ live) :
    Kept h₁ h₃ live :=
  ⟨fun hb => (hk'.size hb).trans (hk.size hb),
    fun hb ho => (hk'.bytes hb ((hk.owns hb).mpr ho)).trans (hk.bytes hb ho)⟩

def Stays (k k' : Books) (page : Nat) : Prop :=
  ∀ {a}, k.arenas page = some a →
    ∃ a', k'.arenas page = some a' ∧ a'.desc = a.desc ∧ a'.size = a.size

theorem blockSize_stays (hl : Layout k) (hl' : Layout k') (hb : IsBlock k b)
    (hstays : Stays k k' (pgNo b)) : k'.blockSize b = k.blockSize b := by
  obtain ⟨a, ha, hmem⟩ := hb
  obtain ⟨a', ha', hdesc, hsize⟩ := hstays ha
  have hmem' : b ∈ a'.blocks (pgNo b) := by
    unfold Arena.blocks at *
    rwa [hdesc]
  rw [blockSize_eq ha (hl.span_pos ha) hmem, blockSize_eq ha' (hl'.span_pos ha') hmem', hsize]

theorem stays_update {x : Arena} (hnew : k.arenas page = none)
    (harenas : k'.arenas = update k.arenas page (some x)) (q : Nat) : Stays k k' q := by
  intro a ha
  exact ⟨a, (Split.arenas_kept hnew harenas ha).2, rfl, rfl⟩

theorem stays_trans {k₁ k₂ k₃ : Books} (h : Stays k₁ k₂ page) (h' : Stays k₂ k₃ page) :
    Stays k₁ k₃ page := by
  intro a ha
  obtain ⟨a₂, ha₂, hdesc, hsize⟩ := h ha
  obtain ⟨a₃, ha₃, hdesc', hsize'⟩ := h' ha₂
  exact ⟨a₃, ha₃, hdesc'.trans hdesc, hsize'.trans hsize⟩

theorem stays_count (ha : k.arenas page = some ⟨some d, cnt⟩)
    (harenas : k'.arenas = update k.arenas page (some ⟨some d, cnt'⟩)) (q : Nat) :
    Stays k k' q := by
  intro a hq
  by_cases heq : q = page
  · rw [heq, ha] at hq
    obtain rfl := some.inj hq
    exact ⟨⟨some d, cnt'⟩, by rw [harenas, heq, update_self], rfl, rfl⟩
  · exact ⟨a, by rw [harenas, update_of_ne heq, hq], rfl, rfl⟩

theorem Layout.count (hl : Layout k) (ha : k.arenas page = some ⟨some d, cnt⟩)
    (harenas : k'.arenas = update k.arenas page (some ⟨some d, cnt'⟩))
    (hheld : k'.held = k.held) : Layout k' := by
  refine hl.sub (fun {q x} hx => ?_) fun _ i _ hin => by rwa [hheld]
  rw [harenas] at hx
  obtain ⟨rfl, heq⟩ | ⟨-, hx⟩ := Split.update_cases hx
  · obtain rfl := some.inj heq
    exact ⟨_, ha, rfl⟩
  · exact ⟨x, hx, rfl⟩

theorem take_inv (hl : Layout k) (hs : Split k live)
    (hfree : k.freeList d = b :: rest)
    (hbusy : ∀ {page d cnt}, k.arenas page = some ⟨some d, cnt⟩ → page ≠ pgNo b →
      ∃ b' ∈ live, pgNo b' = page) :
    ∃ k', k.take d = some (b, k') ∧ Inv k' (insert b live) ∧ b ∉ live ∧
      k'.blockSize b = some d.blockSize ∧ ∀ page, Stays k k' page := by
  obtain ⟨cnt, k', ha, htake, harenas, hlist, hheld⟩ := take_eq hl hs hfree
  have hmem : b ∈ k.freeList d := by
    rw [hfree]
    exact List.mem_cons_self
  have hl' := hl.count ha harenas hheld
  have hs' := hs.take hfree ha harenas hlist
  have hnew : k'.arenas (pgNo b) = some ⟨some d, cnt - 1⟩ := by
    rw [harenas, update_self]
  refine ⟨k', htake, ⟨hl', hs', fun {page d' cnt'} hx => ?_⟩, hs.not_live hmem,
    blockSize_eq hnew (hl'.span_pos hnew) (hs.free_mem hmem rfl), stays_count ha harenas⟩
  by_cases hpage : page = pgNo b
  · exact ⟨b, mem_insert_self .., hpage.symm⟩
  · rw [harenas, update_of_ne hpage] at hx
    obtain ⟨b', hb', hpage'⟩ := hbusy hx hpage
    exact ⟨b', mem_insert_of_mem hb', hpage'⟩

structure Grants (h h' : Heap) (live : Finset Nat) (size p : Nat) : Prop where
  pos : p ≠ 0
  fresh : p ∉ live
  inv : Inv h'.books (insert p live)
  kept : Kept h h' live
  room : ∃ n, h'.books.blockSize p = some n ∧ size ≤ n
  stays : ∀ page, Stays h.books h'.books page

theorem Inv.pos (hinv : Inv k live) (hb : b ∈ live) : b ≠ 0 := by
  obtain ⟨a, ha, hmem⟩ := hinv.split.live_block hb
  have hpos := hinv.layout.page_pos ha
  rintro rfl
  unfold pgNo pgSize at hpos
  omega

theorem kept_scribble {region : Nat → Bool} {garbage : Bytes} (hl : Layout h.books)
    (hl' : Layout k') (hblocks : ∀ {b}, b ∈ live → IsBlock h.books b)
    (hstays : ∀ {b}, b ∈ live → Stays h.books k' (pgNo b))
    (hout : ∀ {b addr}, b ∈ live → Owns h.books b addr → ¬region addr) :
    Kept h ({ h with books := k' }.scribble region garbage) live :=
  ⟨fun hb => blockSize_stays hl hl' (hblocks hb) (hstays hb), fun hb ho => if_neg (hout hb ho)⟩

theorem not_inPages (hinv : Inv k live) (hfresh : ∀ i < cnt, ¬k.held (page + i)) (hb : b ∈ live)
    (ho : Owns k b addr) : ¬inPages page cnt addr := by
  intro hin
  obtain ⟨hlow, hhigh⟩ := inRun_iff.mp hin
  have hnot := hfresh (pgNo addr - page) (by omega)
  rw [add_sub_of_le hlow] at hnot
  exact hnot (hinv.layout.owns_held (hinv.split.isBlock_of_live hb) ho)

theorem mallocBig_spec (hinv : Inv h.books live) (size : Nat) (env : Env) (n : Nat)
    (hn : (size + arenaSize + pgSize - 1) % 2 ^ 32 / pgSize = n) :
    h.mallocBig size env = (0, h) ∧ h.books.pallocGetMultiple env.page n = none ∨
      ∃ p h', h.mallocBig size env = (p, h') ∧ Grants h h' live (pgSize * n - arenaSize) p ∧
        h'.books.blockSize p = some (pgSize * n - arenaSize) ∧ 0 < n ∧
        h.books.pallocGetMultiple env.page n ≠ none := by
  unfold mallocBig
  dsimp only
  rw [hn]
  match hget : h.books.pallocGetMultiple env.page n with
  | none => exact .inl ⟨rfl, rfl⟩
  | some (page, k) =>
    obtain ⟨hcnt, hpos, hfresh, rfl⟩ := pallocGetMultiple_eq hget
    let k' : Books := { h.books with
      arenas := update h.books.arenas page (some ⟨none, n⟩)
      held := fun p => h.books.held p || inRun page n p }
    have hnone : h.books.arenas page = none := hinv.layout.arenas_of_not_held (hfresh 0 hcnt)
    have hl' : Layout k' := hinv.layout.add (a := ⟨none, n⟩) hpos hcnt hfresh rfl rfl
    have hs' : Split k' (insert (pgSize * page + arenaSize) live) :=
      hinv.split.growBig hnone rfl rfl
    have hstays : ∀ q, Stays h.books k' q := stays_update hnone rfl
    have hpage : pgNo (pgSize * page + arenaSize) = page := by
      unfold pgNo pgSize arenaSize
      omega
    have hself : k'.arenas page = some ⟨none, n⟩ := update_self ..
    have hnew : k'.blockSize (pgSize * page + arenaSize) = some (pgSize * n - arenaSize) :=
      blockSize_eq hself hcnt List.mem_cons_self
    refine .inr ⟨_, _, rfl, ⟨?_, fun hmem => ?_, ⟨hl', hs', fun {q d cnt} hx => ?_⟩,
      kept_scribble hinv.layout hl' hinv.split.isBlock_of_live (fun _ => hstays _)
        (not_inPages hinv hfresh), ⟨_, hnew, le_rfl⟩, hstays⟩, hnew, hcnt, nofun⟩
    · unfold arenaSize
      omega
    · obtain ⟨x, hx, -⟩ := hinv.split.live_block hmem
      rw [hpage, hnone] at hx
      cases hx
    · obtain ⟨-, heq⟩ | ⟨-, hx⟩ := Split.update_cases hx
      · cases heq
      · obtain ⟨b, hb, hq⟩ := hinv.busy hx
        exact ⟨b, mem_insert_of_mem hb, hq⟩

theorem grow_spec (hinv : Inv k live) (hempty : k.freeList d = [])
    (hgrow : k.grow d answer = some (page, k')) :
    (∀ i < 1, ¬k.held (page + i)) ∧ k.arenas page = none ∧ Layout k' ∧ Split k' live ∧
      k'.arenas = update k.arenas page (some ⟨some d, d.blocksPerArena⟩) ∧
      ∃ b rest, k'.freeList d = b :: rest ∧ pgNo b = page := by
  unfold grow at hgrow
  obtain ⟨⟨page', k₁⟩, hget, heq⟩ := map_eq_some_iff.mp hgrow
  obtain ⟨rfl, rfl⟩ := Prod.mk.inj heq
  obtain ⟨-, hpos, hfresh, rfl⟩ := pallocGetMultiple_eq hget
  have hnone := hinv.layout.arenas_of_not_held (hfresh 0 one_pos)
  refine ⟨hfresh, hnone, hinv.layout.add (a := ⟨some d, d.blocksPerArena⟩) hpos one_pos hfresh
    rfl rfl, hinv.split.grow hnone rfl rfl, rfl, ?_⟩
  obtain ⟨n, hn⟩ := exists_eq_add_one.mpr d.fits.2.1
  have hlist : update k.freeList d (k.freeList d ++ arenaBlocks page' d) d =
      arenaToBlock page' d 0 :: ((List.range n).map succ).map (arenaToBlock page' d) := by
    rw [update_self, hempty, List.nil_append, arenaBlocks, hn, List.range_succ_eq_map,
      List.map_cons]
  exact ⟨_, _, hlist, (arenaToBlock_inside page' d.fits.2.1).1⟩

theorem mallocSmall_spec (hinv : Inv h.books live) (d : DescId) (env : Env) :
    h.mallocSmall d env = some (0, h) ∨
      ∃ p h', h.mallocSmall d env = some (p, h') ∧ Grants h h' live d.blockSize p ∧
        h'.books.blockSize p = some d.blockSize := by
  unfold mallocSmall
  by_cases hempty : h.books.freeList d = []
  · rw [if_pos hempty]
    match hgrow : h.books.grow d env.page with
    | none => exact .inl rfl
    | some (page, k₁) =>
      obtain ⟨hfresh, hnone, hl₁, hs₁, harenas, b, rest, hfree, hpage⟩ :=
        grow_spec hinv hempty hgrow
      obtain ⟨k', htake, hinv', hnew, hroom, hstays⟩ :=
        take_inv hl₁ hs₁ hfree fun {q d' cnt} hx hq => by
          rw [harenas, update_of_ne (hpage ▸ hq)] at hx
          exact hinv.busy hx
      have hstays' : ∀ q, Stays h.books k' q := fun q =>
        stays_trans (stays_update hnone harenas q) (hstays q)
      refine .inr ⟨b, _, by dsimp only; rw [htake]; rfl, ⟨hinv'.pos (mem_insert_self ..),
        hnew, hinv', ?_, ⟨_, hroom, le_rfl⟩, hstays'⟩, hroom⟩
      exact kept_scribble hinv.layout hinv'.layout hinv.split.isBlock_of_live
        (fun _ => hstays' _) (not_inPages hinv hfresh)
  · rw [if_neg hempty]
    obtain ⟨b, rest, hfree⟩ := List.exists_cons_of_ne_nil hempty
    obtain ⟨k', htake, hinv', hnew, hroom, hstays⟩ :=
      take_inv hinv.layout hinv.split hfree fun hx _ => hinv.busy hx
    refine .inr ⟨b, _, by rw [htake]; rfl, ⟨hinv'.pos (mem_insert_self ..), hnew, hinv',
      kept_scribble hinv.layout hinv'.layout hinv.split.isBlock_of_live (fun _ => hstays _)
        fun {b' addr} hb' ho => ?_, ⟨_, hroom, le_rfl⟩, hstays⟩, hroom⟩
    have hsame := blockSize_stays hinv.layout hinv'.layout (hinv.split.isBlock_of_live hb')
      (hstays _)
    exact not_isMetadata hinv'.layout hinv'.split (mem_insert_of_mem hb')
      ((owns_congr hsame).mpr ho)

-- Above 2^32 - 12 bytes the sum wraps to the count of one page; in the 4096 sizes below that it
-- wraps to no page.
theorem malloc_room (hinv : Inv h.books live) (hsize : size < 2 ^ 32) (env : Env) :
    h.malloc size env = some (0, h) ∧
        (size < 2 ^ 32 - 11 ∨ h.books.pallocGetMultiple env.page 1 = none) ∨
      ∃ p h' room, h.malloc size env = some (p, h') ∧ Grants h h' live room p ∧
        h'.books.blockSize p = some room ∧ room < 2 ^ 32 ∧
        (size ≤ room ↔ size < 2 ^ 32 - 11) ∧
        (h.books.pallocGetMultiple env.page 1 = none → size < 2 ^ 32 - 11) := by
  unfold malloc
  split
  · exact .inl ⟨rfl, .inl (by omega)⟩
  · match hdesc : descFor size with
    | none =>
      have hone (hbig : ¬size < 2 ^ 32 - 11) :
          (size + arenaSize + pgSize - 1) % 2 ^ 32 / pgSize = 1 := by
        unfold arenaSize pgSize
        omega
      obtain ⟨hnull, hpalloc⟩ | ⟨p, h', heq, hg, hroom, hpos, hpalloc⟩ :=
        mallocBig_spec hinv size env _ rfl
      · refine .inl ⟨congrArg some hnull, or_iff_not_imp_left.mpr fun hbig => ?_⟩
        rwa [hone hbig] at hpalloc
      · refine .inr ⟨p, h', _, congrArg some heq, hg, hroom, ?_, ?_, fun hnone => ?_⟩
        · unfold arenaSize pgSize
          omega
        · unfold arenaSize pgSize at hpos ⊢
          omega
        · by_contra hbig
          rw [hone hbig] at hpalloc
          exact hpalloc hnone
    | some d =>
      have hle : size ≤ d.blockSize := by
        have hfound := List.find?_some hdesc
        simpa using hfound
      have hsmall : ∀ d : DescId, d.blockSize ≤ 1024 := by decide
      have hroom := hsmall d
      have hlow : size < 2 ^ 32 - 11 := by omega
      obtain hnull | ⟨p, h', heq, hg, hsize'⟩ := mallocSmall_spec hinv d env
      · exact .inl ⟨hnull, .inl hlow⟩
      · exact .inr ⟨p, h', _, heq, hg, hsize', by omega, iff_of_true hle hlow, fun _ => hlow⟩

theorem Grants.mono {room : Nat} (hg : Grants h h' live room p) (hle : size ≤ room) :
    Grants h h' live size p :=
  { hg with room := hg.room.imp fun _ hn => ⟨hn.1, hle.trans hn.2⟩ }

theorem malloc_spec (hinv : Inv h.books live) (hsize : size < 2 ^ 31) (env : Env) :
    h.malloc size env = some (0, h) ∨
      ∃ p h', h.malloc size env = some (p, h') ∧ Grants h h' live size p := by
  obtain ⟨hnull, -⟩ | ⟨p, h', room, heq, hg, -, -, hroom, -⟩ :=
    malloc_room hinv (show size < 2 ^ 32 by omega) env
  · exact .inl hnull
  · exact .inr ⟨p, h', heq, hg.mono (hroom.mpr (by omega))⟩

theorem Inv.live_of_small (hinv : Inv k live) (hb : b ∈ live)
    (ha : k.arenas (pgNo b) = some ⟨some d, cnt⟩) : b ∈ arenaBlocks (pgNo b) d := by
  obtain ⟨a, ha', hmem⟩ := hinv.split.live_block hb
  rw [ha] at ha'
  obtain rfl := some.inj ha'
  exact hmem

theorem kept_memset {value : UInt8}
    (hout : ∀ {b addr}, b ∈ live → Owns h.books b addr → addr < p ∨ p + size ≤ addr) :
    Kept h (h.memset p value size) live := by
  refine ⟨fun _ => rfl, fun {b addr} hb ho => ?_⟩
  rcases hout hb ho with hlt | hge
  · exact Bytes.write_of_lt hlt
  · exact Bytes.write_of_ge (by rwa [List.length_replicate])

theorem Inv.not_owned (hinv : Inv k live) (hp : p ∈ live)
    (hsize : k.blockSize p = some size) (hb : b ∈ live) (hne : b ≠ p) (ho : Owns k b addr) :
    addr < p ∨ p + size ≤ addr := by
  have hapart := hinv.layout.owns_apart (hinv.split.isBlock_of_live hb)
    (hinv.split.isBlock_of_live hp) hne ho
  by_contra hin
  exact hapart ⟨size, hsize, by omega, by omega⟩

def GivenBack (k' : Books) (page : Nat) : Prop :=
  ∃ k : Books, k.held page ∧ (∀ d, ∀ b ∈ k.freeList d, pgNo b ≠ page) ∧
    k.pallocFreeMultiple page 1 = some k'

structure Frees (h h' : Heap) (live : Finset Nat) (p : Nat) : Prop where
  inv : Inv h'.books (live.erase p)
  kept : Kept h h' (live.erase p)
  stays : ∀ {page}, page ≠ pgNo p → Stays h.books h'.books page
  last : ∀ {d cnt}, h.books.arenas (pgNo p) = some ⟨some d, cnt⟩ →
    Stays h.books h'.books (pgNo p) ∨
      ¬h'.books.held (pgNo p) ∧ GivenBack h'.books (pgNo p)

theorem dropArena_eq (hl : Layout k) (hs : Split k live)
    (ha : k.arenas page = some ⟨some d, cnt⟩) (hcnt : d.blocksPerArena ≤ cnt) :
    ∃ k', k.dropArena d page = some k' ∧ k'.arenas = update k.arenas page none ∧
      (∀ d', k'.freeList d' = (k.freeList d').filter fun b => pgNo b ≠ page) ∧
      (k'.held = fun p => k.held p && !inRun page 1 p) ∧
      GivenBack k' page := by
  have hremove := removeBlocks_eq (hs.nodup d) (nodup_arenaBlocks page d)
    (hs.all_free ha hcnt)
  have hfilter : ((k.freeList d).filter fun b => b ∉ arenaBlocks page d) =
      (k.freeList d).filter fun b => pgNo b ≠ page := by
    refine List.filter_congr fun b hb => ?_
    have hiff : b ∉ arenaBlocks page d ↔ pgNo b ≠ page := not_congr ⟨small_inside, hs.free_mem hb⟩
    simp only [hiff]
  rw [hfilter] at hremove
  have hl₁ : Layout (k.setFreeList d ((k.freeList d).filter fun b => pgNo b ≠ page)) :=
    hl.sub (fun hx => ⟨_, hx, rfl⟩) fun _ _ _ hin => hin
  obtain ⟨k', hfree, harenas, hlist, hheld⟩ := hl₁.pallocFreeMultiple ha
  have hlists : ∀ d', k'.freeList d' = (k.freeList d').filter fun b => pgNo b ≠ page := by
    intro d'
    rw [hlist]
    change update k.freeList d _ d' = _
    by_cases hd : d' = d
    · subst hd
      rw [update_self]
    · rw [update_of_ne hd]
      refine (List.filter_eq_self.mpr fun b hb => ?_).symm
      have hfar : pgNo b ≠ page := fun hpage => hd (hs.desc_unique (hpage ▸ ha) hb)
      exact decide_eq_true hfar
  refine ⟨k', ?_, harenas, hlists, hheld, _, hl₁.held ha 0 one_pos, fun d' b hb => ?_, hfree⟩
  · unfold dropArena
    rw [hremove]
    exact hfree
  · rw [← hlist, hlists] at hb
    exact of_decide_eq_true (List.mem_filter.mp hb).2

theorem stays_of_ne {x : Option Arena} (harenas : k'.arenas = update k.arenas page x)
    (hne : page' ≠ page) : Stays k k' page' := by
  intro a ha
  exact ⟨a, by rw [harenas, update_of_ne hne, ha], rfl, rfl⟩

theorem not_inPages_of_freed (hl : Layout k')
    (hheld : k'.held = fun p => k.held p && !inRun page cnt p) (hb : IsBlock k' b)
    (ho : Owns k' b addr) : ¬inPages page cnt addr := by
  have hin := hl.owns_held hb ho
  rw [hheld, Bool.and_eq_true] at hin
  simpa [inPages] using hin.2

section

variable (hinv : Inv h.books live) (hp : p ∈ live)
include hinv hp

theorem Inv.freeSmall (ha : h.books.arenas (pgNo p) = some ⟨some d, cnt⟩) (garbage : Bytes) :
    ∃ h', h.freeSmall p ⟨some d, cnt⟩ d garbage = some h' ∧ Frees h h' live p := by
  have hmem := hinv.live_of_small hp ha
  have hcnt := hinv.split.count_le ha
  have hfits := d.fits
  have hword : (cnt + 1) % 2 ^ 32 = cnt + 1 := by omega
  have hsize : h.books.blockSize p = some d.blockSize := blockSize_eq ha one_pos hmem
  have hpage : ∀ {b q}, pgNo b = q → q ≠ pgNo p → b ≠ p := by
    rintro b q rfl hq rfl
    exact hq rfl
  -- the block is put back
  generalize hk₁ : h.books.give d p ⟨some d, cnt⟩ = k₁
  have harenas : k₁.arenas = update h.books.arenas (pgNo p) (some ⟨some d, cnt + 1⟩) := by
    rw [← hk₁, ← hword]
    rfl
  have ha₁ : k₁.arenas (pgNo p) = some ⟨some d, cnt + 1⟩ := by rw [harenas, update_self]
  have hl₁ : Layout k₁ := hinv.layout.count ha harenas (by rw [← hk₁]; rfl)
  have hs₁ : Split k₁ (live.erase p) := hinv.split.give hp ha harenas (by rw [← hk₁]; rfl)
  have hstays₁ : ∀ q, Stays h.books k₁ q := stays_count ha harenas
  have hblocks : ∀ {b}, b ∈ live.erase p → IsBlock h.books b := fun hb =>
    hinv.split.isBlock_of_live (mem_of_mem_erase hb)
  have hset : Kept h (h.memset p 0xcc d.blockSize) (live.erase p) := kept_memset fun hb ho =>
    hinv.not_owned hp hsize (mem_of_mem_erase hb) (ne_of_mem_erase hb) ho
  have hkept₁ : Kept h ({ h.memset p 0xcc d.blockSize with books := k₁ }.scribble
      (isMetadata k₁) garbage) (live.erase p) :=
    hset.trans (kept_scribble (h := h.memset p 0xcc d.blockSize) hinv.layout hl₁ hblocks
      (fun _ => hstays₁ _) fun {b addr} hb ho => by
        have hsame := blockSize_stays hinv.layout hl₁ (hblocks hb) (hstays₁ _)
        exact not_isMetadata hl₁ hs₁ hb ((owns_congr hsame).mpr ho))
  have hbusy₁ : ∀ {q d' cnt'}, k₁.arenas q = some ⟨some d', cnt'⟩ → q ≠ pgNo p →
      ∃ b ∈ live.erase p, pgNo b = q := by
    intro q d' cnt' hx hq
    rw [harenas, update_of_ne hq] at hx
    obtain ⟨b, hb, hbq⟩ := hinv.busy hx
    exact ⟨b, mem_erase.mpr ⟨hpage hbq hq, hb⟩, hbq⟩
  have hgive : (h.memset p 0xcc d.blockSize).books.give d p ⟨some d, cnt⟩ = k₁ := hk₁
  unfold Heap.freeSmall
  simp only [hword, hgive]
  by_cases hall : cnt + 1 ≥ d.blocksPerArena
  · -- the arena goes too
    have hle₁ := hs₁.count_le ha₁
    obtain ⟨k₂, hdrop, harenas₂, hlists₂, hheld₂, hback⟩ := dropArena_eq hl₁ hs₁ ha₁ hall
    have hl₂ : Layout k₂ := hl₁.remove ha₁ harenas₂ hheld₂
    have hgone : ∀ {b}, b ∈ live.erase p → pgNo b ≠ pgNo p := by
      intro b hb hq
      obtain ⟨x, hx, hbx⟩ := hs₁.live_block hb
      rw [hq, ha₁] at hx
      obtain rfl := some.inj hx
      rw [hq] at hbx
      exact hs₁.not_live (hs₁.all_free ha₁ hall b hbx) hb
    have hlive : (live.erase p).filter (fun b => pgNo b ≠ pgNo p) = live.erase p :=
      filter_true_of_mem fun b hb => hgone hb
    have hs₂ := hs₁.remove harenas₂ hlists₂
    rw [hlive] at hs₂
    have hstays₂ : ∀ {q}, q ≠ pgNo p → Stays k₁ k₂ q := stays_of_ne harenas₂
    have hunheld : ¬k₂.held (pgNo p) := by
      rw [hheld₂]
      simp [inRun]
    have hinv₂ : Inv k₂ (live.erase p) := ⟨hl₂, hs₂, fun {q d' cnt'} hx => by
      rw [harenas₂] at hx
      obtain ⟨-, hnone⟩ | ⟨hq, hx⟩ := Split.update_cases hx
      · cases hnone
      · exact hbusy₁ hx hq⟩
    refine ⟨_, by rw [if_pos hall, if_pos (by omega), hdrop]; rfl, hinv₂, ?_,
      fun hq => stays_trans (hstays₁ _) (hstays₂ hq), fun _ => .inr ⟨hunheld, hback⟩⟩
    · refine hkept₁.trans (kept_scribble (h := { h.memset p 0xcc d.blockSize with
        books := k₁ }.scribble (isMetadata k₁) garbage) hl₁ hl₂ hs₁.isBlock_of_live
        (fun hb => hstays₂ (hgone hb)) fun {b addr} hb ho => ?_)
      have hsame := blockSize_stays hl₁ hl₂ (hs₁.isBlock_of_live hb) (hstays₂ (hgone hb))
      exact not_inPages_of_freed hl₂ hheld₂ (hs₂.isBlock_of_live hb) ((owns_congr hsame).mpr ho)
  · refine ⟨_, by rw [if_neg hall], ⟨hl₁, hs₁, fun {q d' cnt'} hx => ?_⟩, hkept₁,
      fun _ => hstays₁ _, fun _ => .inl (hstays₁ _)⟩
    by_cases hq : q = pgNo p
    · rw [hq]
      exact hs₁.exists_live ha₁ (by omega)
    · exact hbusy₁ hx hq

theorem Inv.freeBig (ha : h.books.arenas (pgNo p) = some ⟨none, cnt⟩) :
    ∃ k', h.books.pallocFreeMultiple (pgNo p) cnt = some k' ∧
      Frees h ({ h with books := k' }.scribble (inPages (pgNo p) cnt) fun _ => 0xcc) live p := by
  obtain ⟨k', hfree, harenas, hlist, hheld⟩ := hinv.layout.pallocFreeMultiple ha
  change h.books.pallocFreeMultiple (pgNo p) cnt = some k' at hfree
  change k'.held = fun q => h.books.held q && !inRun (pgNo p) cnt q at hheld
  have hl' : Layout k' := hinv.layout.remove ha harenas hheld
  -- the big block is alone on its pages
  have honly : ∀ {b}, b ∈ live → (b ∈ live.erase p ↔ pgNo b ≠ pgNo p) := by
    intro b hb
    rw [mem_erase, and_iff_left hb]
    refine ⟨fun hne hq => hne ?_, fun hq heq => hq (by rw [heq])⟩
    obtain ⟨x, hx, hbx⟩ := hinv.split.live_block hb
    obtain ⟨y, hy, hpy⟩ := hinv.split.live_block hp
    rw [hq, ha] at hx
    rw [ha] at hy
    obtain rfl := some.inj hx
    obtain rfl := some.inj hy
    rw [hq] at hbx
    exact (List.mem_singleton.mp hbx).trans (List.mem_singleton.mp hpy).symm
  have hlive : live.filter (fun b => pgNo b ≠ pgNo p) = live.erase p := by
    ext b
    rw [mem_filter]
    refine ⟨fun hb => (honly hb.1).mpr hb.2, fun hb => ?_⟩
    have hmem := mem_of_mem_erase hb
    exact ⟨hmem, (honly hmem).mp hb⟩
  have hs' : Split k' (live.erase p) := by
    rw [← hlive]
    refine hinv.split.remove harenas fun d => ?_
    rw [hlist]
    refine (List.filter_eq_self.mpr fun b hb => ?_).symm
    have hfar : pgNo b ≠ pgNo p := by
      intro hq
      obtain ⟨c, hx, -⟩ := hinv.split.free_block hb
      rw [hq, ha] at hx
      cases hx
    exact decide_eq_true hfar
  have hstays : ∀ {b}, b ∈ live.erase p → Stays h.books k' (pgNo b) := fun hb =>
    stays_of_ne harenas ((honly (mem_of_mem_erase hb)).mp hb)
  have hblocks : ∀ {b}, b ∈ live.erase p → IsBlock h.books b := fun hb =>
    hinv.split.isBlock_of_live (mem_of_mem_erase hb)
  have hinv' : Inv k' (live.erase p) := ⟨hl', hs', fun {q d cnt'} hx => by
    rw [harenas] at hx
    obtain ⟨-, hnone⟩ | ⟨hq, hx⟩ := Split.update_cases hx
    · cases hnone
    · obtain ⟨b, hb, rfl⟩ := hinv.busy hx
      exact ⟨b, (honly hb).mpr hq, rfl⟩⟩
  refine ⟨k', hfree, hinv', kept_scribble hinv.layout hl' hblocks hstays fun {b addr} hb ho => ?_,
    stays_of_ne harenas, fun hsmall => ?_⟩
  · have hsame := blockSize_stays hinv.layout hl' (hblocks hb) (hstays hb)
    exact not_inPages_of_freed hl' hheld (hs'.isBlock_of_live hb) ((owns_congr hsame).mpr ho)
  · rw [ha] at hsmall
    cases hsmall

theorem free_spec (garbage : Bytes) : ∃ h', h.free p garbage = some h' ∧ Frees h h' live p := by
  obtain ⟨⟨desc, cnt⟩, ha, hmem⟩ := hinv.split.live_block hp
  have hto := blockToArena_eq ha (hinv.layout.span_pos ha) hmem
  unfold free
  rw [if_neg (hinv.pos hp), hto]
  match desc with
  | some d => exact hinv.freeSmall hp ha garbage
  | none =>
    obtain ⟨k', hfree, hfrees⟩ := hinv.freeBig hp ha
    refine ⟨_, ?_, hfrees⟩
    change Option.map _ (h.books.pallocFreeMultiple (pgNo p) cnt) = _
    rw [hfree]
    rfl

end

end Pintos.Threads.Malloc
