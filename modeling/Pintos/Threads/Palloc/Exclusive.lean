import Pintos.Threads.Palloc

namespace Pintos.Threads.Palloc

open Lib LibKernel List Bitmap

variable {a a' : Allocator} {s s' : State} {user : Bool} {act : Act} {initRamPages limit : Nat}
  {memory : Nat → UInt8} {g : Grant} {flags : Flags}

structure Layout (initRamPages : Nat) (a : Allocator) : Prop where
  kernelMap : a.kernelPool.usedMapAddr = freeStart
  mapFits : ∀ user, (a.pool user).usedMapAddr + bitmapBufSize (a.pool user).usedMap.bitCnt ≤
    (a.pool user).base
  aligned : ∀ user, (a.pool user).base % pgSize = 0
  adjacent : a.kernelPool.base + pgSize * a.kernelPool.usedMap.bitCnt = a.userPool.usedMapAddr
  ends : a.userPool.base + pgSize * a.userPool.usedMap.bitCnt = initRamPages * pgSize

theorem le_divRoundUp_mul (x : Nat) : x ≤ divRoundUp x pgSize * pgSize := by
  unfold divRoundUp pgSize
  omega

theorem bitmapBufSize_mono {m n : Nat} (h : m ≤ n) : bitmapBufSize m ≤ bitmapBufSize n := by
  unfold bitmapBufSize divRoundUp
  omega

theorem initPool_ok {base pageCnt : Nat} {p : Pool} (h : initPool base pageCnt = .ok p) :
    p.usedMapAddr = base ∧ (∀ i, p.usedMap.bits i = false) ∧
      p.usedMapAddr + bitmapBufSize p.usedMap.bitCnt ≤ p.base ∧
      p.base + pgSize * p.usedMap.bitCnt = base + pageCnt * pgSize ∧
      ∃ bmPages, p.base = base + bmPages * pgSize := by
  have hround := le_divRoundUp_mul (bitmapBufSize pageCnt)
  unfold initPool at h
  simp only at h
  generalize divRoundUp (bitmapBufSize pageCnt) pgSize = bmPages at h hround
  split_ifs at h with hle
  obtain ⟨usedMap, hmap, heq⟩ := bind_ok_iff.mp h
  obtain ⟨-, -, hmap⟩ := bind_ok_iff.mp hmap
  cases heq
  cases hmap
  have hmono := bitmapBufSize_mono (Nat.sub_le pageCnt bmPages)
  have hle : bmPages ≤ pageCnt := not_lt.mp hle
  refine ⟨rfl, fun _ => rfl, ?_, ?_, bmPages, rfl⟩
  · change base + bitmapBufSize (pageCnt - bmPages) ≤ base + bmPages * pgSize
    omega
  · change base + bmPages * pgSize + pgSize * (pageCnt - bmPages) = base + pageCnt * pgSize
    unfold pgSize
    omega

theorem pallocInit_ok (hram : 256 < initRamPages) (hmax : initRamPages ≤ 2 ^ 18)
    (h : pallocInit initRamPages limit memory = .ok a) :
    Layout initRamPages a ∧ ∀ user i, (a.pool user).usedMap.bits i = false := by
  unfold pallocInit at h
  simp only at h
  generalize hfree : (initRamPages * pgSize % 2 ^ 32 - freeStart) / pgSize = freePages at h
  obtain ⟨kernelPool, hk, h⟩ := bind_ok_iff.mp h
  obtain ⟨userPool, hu, h⟩ := bind_ok_iff.mp h
  cases h
  obtain ⟨hkaddr, hkbits, hkfits, hkend, kpages, hkbase⟩ := initPool_ok hk
  obtain ⟨huaddr, hubits, hufits, huend, upages, hubase⟩ := initPool_ok hu
  have hfreeStart : freeStart = 256 * pgSize := rfl
  refine ⟨⟨hkaddr, ?_, ?_, ?_, ?_⟩, ?_⟩
  · rintro (_ | _)
    · exact hkfits
    · exact hufits
  · rintro (_ | _)
    · change kernelPool.base % pgSize = 0
      rw [hkbase, hfreeStart, ← Nat.add_mul, Nat.mul_mod_left]
    · change userPool.base % pgSize = 0
      rw [hubase, hfreeStart, ← Nat.add_mul, ← Nat.add_mul, Nat.mul_mod_left]
  · change kernelPool.base + pgSize * kernelPool.usedMap.bitCnt = userPool.usedMapAddr
    rw [hkend, huaddr]
  · change userPool.base + pgSize * userPool.usedMap.bitCnt = initRamPages * pgSize
    rw [huend]
    unfold freeStart pgSize at *
    omega
  · rintro (_ | _)
    · exact hkbits
    · exact hubits

theorem setUsedMap_pool_self (a : Allocator) (user : Bool) (usedMap : Bitmap) :
    (a.setUsedMap user usedMap).pool user = { a.pool user with usedMap := usedMap } := by
  cases user <;> rfl

theorem setUsedMap_pool_of_ne (a : Allocator) {user other : Bool} (usedMap : Bitmap)
    (h : other ≠ user) : (a.setUsedMap user usedMap).pool other = a.pool other := by
  cases user <;> cases other <;> first | rfl | exact absurd rfl h

theorem Layout.setUsedMap {usedMap : Bitmap} (h : Layout initRamPages a)
    (hcnt : usedMap.bitCnt = (a.pool user).usedMap.bitCnt) :
    Layout initRamPages (a.setUsedMap user usedMap) := by
  cases user with
  | false =>
    refine ⟨h.kernelMap, ?_, ?_, ?_, h.ends⟩
    · rintro (_ | _)
      · exact hcnt ▸ h.mapFits false
      · exact h.mapFits true
    · rintro (_ | _)
      · exact h.aligned false
      · exact h.aligned true
    · exact hcnt ▸ h.adjacent
  | true =>
    refine ⟨h.kernelMap, ?_, ?_, h.adjacent, ?_⟩
    · rintro (_ | _)
      · exact h.mapFits false
      · exact hcnt ▸ h.mapFits true
    · rintro (_ | _)
      · exact h.aligned false
      · exact h.aligned true
    · exact hcnt ▸ h.ends

theorem Layout.congr (h : Layout initRamPages a) (hk : a'.kernelPool = a.kernelPool)
    (hu : a'.userPool = a.userPool) : Layout initRamPages a' := by
  have hpool : ∀ user, a'.pool user = a.pool user := by
    rintro (_ | _)
    · exact hk
    · exact hu
  refine ⟨hk ▸ h.kernelMap, fun user => ?_, fun user => ?_, hk ▸ hu ▸ h.adjacent, hu ▸ h.ends⟩
  · rw [hpool]
    exact h.mapFits user
  · rw [hpool]
    exact h.aligned user

def runOf (a : Allocator) (g : Grant) : Run := ⟨pgNo g.pages - pgNo (a.pool g.user).base, g.cnt⟩

def owned (s : State) (user : Bool) : List Run :=
  (s.live.filter (·.user == user)).map (runOf s.alloc)

structure Grant.Inside (a : Allocator) (g : Grant) : Prop where
  pos : 0 < g.cnt
  pages : g.pages = (a.pool g.user).base + pgSize * (runOf a g).first
  fits : (runOf a g).first + g.cnt ≤ (a.pool g.user).usedMap.bitCnt

structure Inv (initRamPages : Nat) (s : State) : Prop where
  layout : Layout initRamPages s.alloc
  covered : ∀ user, Covered (fun _ => false) (s.alloc.pool user).usedMap.bits (owned s user)
  inside : ∀ g ∈ s.live, g.Inside s.alloc

theorem runOf_grant (h : Layout initRamPages a) (user : Bool) (pageIdx cnt : Nat) :
    runOf a ⟨user, (a.pool user).base + pgSize * pageIdx, cnt⟩ = ⟨pageIdx, cnt⟩ := by
  have haligned := h.aligned user
  have hidx : pgNo ((a.pool user).base + pgSize * pageIdx) - pgNo (a.pool user).base = pageIdx := by
    unfold pgNo pgSize at *
    omega
  exact congrArg (Run.mk · cnt) hidx

structure Marks (a a' : Allocator) (user : Bool) (usedMap : Bitmap) : Prop where
  kernelPool : a'.kernelPool = (a.setUsedMap user usedMap).kernelPool
  userPool : a'.userPool = (a.setUsedMap user usedMap).userPool
  bitCnt : usedMap.bitCnt = (a.pool user).usedMap.bitCnt

namespace Marks

variable {usedMap : Bitmap}

section

variable (hm : Marks a a' user usedMap)
include hm

theorem layout (h : Layout initRamPages a) : Layout initRamPages a' :=
  (h.setUsedMap hm.bitCnt).congr hm.kernelPool hm.userPool

theorem pool (other : Bool) : a'.pool other = (a.setUsedMap user usedMap).pool other := by
  cases other
  · exact hm.kernelPool
  · exact hm.userPool

theorem bits_self : (a'.pool user).usedMap = usedMap := by
  rw [hm.pool, setUsedMap_pool_self]

theorem pool_of_ne {other : Bool} (h : other ≠ user) : a'.pool other = a.pool other := by
  rw [hm.pool, setUsedMap_pool_of_ne _ _ h]

theorem base (other : Bool) : (a'.pool other).base = (a.pool other).base := by
  by_cases h : other = user
  · subst h
    rw [hm.pool, setUsedMap_pool_self]
  · rw [hm.pool_of_ne h]

theorem cnt (other : Bool) : (a'.pool other).usedMap.bitCnt = (a.pool other).usedMap.bitCnt := by
  by_cases h : other = user
  · subst h
    rw [hm.bits_self, hm.bitCnt]
  · rw [hm.pool_of_ne h]

theorem runOf (g : Grant) : runOf a' g = runOf a g := by
  unfold Palloc.runOf
  rw [hm.base]

theorem inside (h : g.Inside a) : g.Inside a' := by
  refine ⟨h.pos, ?_, ?_⟩
  · rw [hm.base, hm.runOf]
    exact h.pages
  · rw [hm.cnt, hm.runOf]
    exact h.fits

theorem owned (live : List Grant) (other : Bool) : owned ⟨a', live⟩ other = owned ⟨a, live⟩ other :=
  map_congr_left fun g _ => hm.runOf g

end

end Marks

theorem get_some {cnt pages : Nat} (h : a.pallocGetMultiple flags cnt = .ok (some pages, a')) :
    0 < cnt ∧ ∃ pageIdx, (a.pool flags.palUser).usedMap.scan 0 cnt false = some pageIdx ∧
      pages = (a.pool flags.palUser).base + pgSize * pageIdx ∧
      Marks a a' flags.palUser ((a.pool flags.palUser).usedMap.setMultiple pageIdx cnt true) := by
  unfold Allocator.pallocGetMultiple scanAndFlip at h
  by_cases hzero : cnt = 0
  · rw [if_pos hzero] at h
    cases h
  · rw [if_neg hzero] at h
    refine ⟨Nat.pos_of_ne_zero hzero, ?_⟩
    match hscan : (a.pool flags.palUser).usedMap.scan 0 cnt false with
    | none =>
      rw [hscan] at h
      by_cases hassert : flags.palAssert = true <;> simp [hassert] at h
    | some pageIdx =>
      rw [hscan] at h
      simp only [Bool.not_false, Except.ok.injEq, Prod.mk.injEq, Option.some.injEq] at h
      obtain ⟨rfl, rfl⟩ := h
      refine ⟨pageIdx, rfl, rfl, ?_, ?_, setMultiple_bitCnt ..⟩
      · split_ifs <;> rfl
      · split_ifs <;> rfl

theorem get_not_some {cnt : Nat}
    (h : ∀ pages a', a.pallocGetMultiple flags cnt ≠ .ok (some pages, a')) :
    cnt = 0 ∨ (a.pool flags.palUser).usedMap.scan 0 cnt false = none := by
  by_cases hzero : cnt = 0
  · exact .inl hzero
  · refine .inr ?_
    match hscan : (a.pool flags.palUser).usedMap.scan 0 cnt false with
    | none => rfl
    | some pageIdx =>
      exfalso
      unfold Allocator.pallocGetMultiple scanAndFlip at h
      rw [if_neg hzero, hscan] at h
      exact h _ _ rfl

theorem get_none {cnt : Nat} (h : a.pallocGetMultiple flags cnt = .ok (none, a')) : a' = a := by
  unfold Allocator.pallocGetMultiple at h
  by_cases hzero : cnt = 0
  · rw [if_pos hzero] at h
    cases h
    rfl
  · rw [if_neg hzero] at h
    split at h
    · cases h
    · split_ifs at h
      cases h
      rfl

theorem Inv.get {cnt pages : Nat} (h : Inv initRamPages s)
    (hg : s.alloc.pallocGetMultiple flags cnt = .ok (some pages, a')) :
    Inv initRamPages ⟨a', ⟨flags.palUser, pages, cnt⟩ :: s.live⟩ := by
  obtain ⟨hpos, pageIdx, hscan, rfl, hm⟩ := get_some hg
  obtain ⟨-, hfits, hfree⟩ := scan_eq_some hscan
  have hrun := runOf_grant h.layout flags.palUser pageIdx cnt
  refine ⟨hm.layout h.layout, fun user => ?_, fun g hg => ?_⟩
  · rw [hm.owned]
    by_cases hu : user = flags.palUser
    · subst hu
      rw [owned, filter_cons_of_pos (by simp), map_cons, hrun]
      refine (h.covered flags.palUser).mark hfree fun i => ?_
      rw [hm.bits_self, setMultiple_bits]
      cases (Run.mk pageIdx cnt).has i <;> simp
    · rw [owned, filter_cons_of_neg (by simpa using Ne.symm hu), hm.pool_of_ne hu]
      exact h.covered user
  · rcases mem_cons.mp hg with rfl | hg
    · refine hm.inside ⟨hpos, ?_, ?_⟩
      · rw [hrun]
      · rw [hrun]
        simpa using hfits
    · exact hm.inside (h.inside g hg)

theorem poolOf_inside (h : Layout initRamPages a) (hg : g.Inside a) :
    a.poolOf g.pages = some g.user := by
  have hpos := hg.pos
  have hpages := hg.pages
  have hfits := hg.fits
  have hkaligned := h.aligned false
  have hualigned := h.aligned true
  have hadjacent := h.adjacent
  have hmap := h.mapFits true
  have hk : a.pool false = a.kernelPool := rfl
  have hu : a.pool true = a.userPool := rfl
  rw [hk] at hkaligned
  rw [hu] at hualigned hmap
  unfold Allocator.poolOf Allocator.pageFromPool
  match huser : g.user with
  | false =>
    rw [huser, hk] at hpages hfits
    rw [if_pos]
    simp only [ge_iff_le, Bool.and_eq_true, decide_eq_true_eq]
    unfold pgNo pgSize at *
    omega
  | true =>
    rw [huser, hu] at hpages hfits
    rw [if_neg, if_pos]
    · simp only [ge_iff_le, Bool.and_eq_true, decide_eq_true_eq]
      unfold pgNo pgSize at *
      omega
    · simp only [ge_iff_le, Bool.and_eq_true, decide_eq_true_eq]
      unfold pgNo pgSize at *
      omega

theorem mem_owned (hg : g ∈ s.live) : runOf s.alloc g ∈ owned s g.user :=
  mem_map_of_mem (mem_filter.mpr ⟨hg, by simp⟩)

theorem free_ok (h : Inv initRamPages s) (hg : g ∈ s.live) :
    ∃ a', s.alloc.pallocFreeMultiple (some g.pages) g.cnt = .ok a' ∧
      Marks s.alloc a' g.user ((s.alloc.pool g.user).usedMap.setMultiple
        (runOf s.alloc g).first g.cnt false) := by
  have hin := h.inside g hg
  have hne : g.cnt ≠ 0 := Nat.pos_iff_ne_zero.mp hin.pos
  have hpages := hin.pages
  have haligned := h.layout.aligned g.user
  have hofs : decide (pgOfs g.pages = 0) = true := by
    refine decide_eq_true ?_
    rw [hpages]
    unfold pgOfs pgSize at *
    omega
  have hall : (s.alloc.pool g.user).usedMap.all (runOf s.alloc g).first g.cnt = true := by
    rw [all_iff]
    exact fun i hi => (h.covered g.user).marked (mem_owned hg) hi
  have hkept : ∀ b, ((s.alloc.memset g.pages 0xcc (pgSize * g.cnt)).pool b) = s.alloc.pool b :=
    fun b => by cases b <;> rfl
  have hset : ∀ b m, ((s.alloc.memset g.pages 0xcc (pgSize * g.cnt)).setUsedMap b m).kernelPool =
        (s.alloc.setUsedMap b m).kernelPool ∧
      ((s.alloc.memset g.pages 0xcc (pgSize * g.cnt)).setUsedMap b m).userPool =
        (s.alloc.setUsedMap b m).userPool :=
    fun b m => by cases b <;> exact ⟨rfl, rfl⟩
  unfold Allocator.pallocFreeMultiple
  simp only [hofs, assert, if_true, bind, Except.bind, if_neg hne, poolOf_inside h.layout hin,
    hkept]
  rw [show (s.alloc.pool g.user).usedMap.all (pgNo g.pages - pgNo (s.alloc.pool g.user).base) g.cnt
    = true from hall]
  exact ⟨_, rfl, (hset g.user _).1, (hset g.user _).2, setMultiple_bitCnt ..⟩

theorem Inv.free (h : Inv initRamPages s) (hg : g ∈ s.live)
    (hf : s.alloc.pallocFreeMultiple (some g.pages) g.cnt = .ok a') :
    Inv initRamPages ⟨a', s.live.erase g⟩ := by
  obtain ⟨a'', hf', hm⟩ := free_ok h hg
  rw [hf] at hf'
  obtain rfl := Except.ok.inj hf'
  refine ⟨hm.layout h.layout, fun user => ?_,
    fun g' hg' => hm.inside (h.inside g' (mem_of_mem_erase hg'))⟩
  have hperm : s.live.Perm (g :: s.live.erase g) := perm_cons_erase hg
  rw [hm.owned]
  by_cases hu : user = g.user
  · subst hu
    have hsplit : (owned s g.user).Perm
        (runOf s.alloc g :: owned ⟨s.alloc, s.live.erase g⟩ g.user) := by
      have hmap := (hperm.filter (·.user == g.user)).map (runOf s.alloc)
      rwa [filter_cons_of_pos (by simp), map_cons] at hmap
    refine ((h.covered g.user).of_perm hsplit).unmark fun i => ?_
    rw [hm.bits_self, setMultiple_bits]
    change (if (runOf s.alloc g).has i = true then _ else _) = _
    cases (runOf s.alloc g).has i <;> simp
  · rw [hm.pool_of_ne hu]
    have hsame : (owned s user).Perm (owned ⟨s.alloc, s.live.erase g⟩ user) := by
      have hmap := (hperm.filter (·.user == user)).map (runOf s.alloc)
      rwa [filter_cons_of_neg (by simpa using Ne.symm hu)] at hmap
    exact (h.covered user).of_perm hsame

theorem Inv.exec (h : Inv initRamPages s) (hx : exec s act = some s') : Inv initRamPages s' := by
  cases act with
  | get flags cnt =>
    unfold Palloc.exec at hx
    simp only at hx
    split at hx
    · rename_i pages a' hg
      cases hx
      exact h.get hg
    · rename_i a' hg
      cases hx
      obtain rfl := get_none hg
      exact h
    · cases hx
  | free g =>
    unfold Palloc.exec at hx
    simp only at hx
    split_ifs at hx with hg
    split at hx
    · rename_i a' hf
      cases hx
      exact h.free hg hf
    · cases hx

theorem inv_of_reachable (hl : Layout initRamPages a)
    (hbits : ∀ user i, (a.pool user).usedMap.bits i = false) (h : (system a).Reachable s) :
    Inv initRamPages s := by
  apply h.invariant
  · rintro s rfl
    refine ⟨hl, fun user i => ?_, nofun⟩
    rw [hbits user i]
    rfl
  · intro s act s' _ hinv hx
    exact hinv.exec hx

def Grant.Has (g : Grant) (addr : Nat) : Prop :=
  g.pages ≤ addr ∧ addr < g.pages + pgSize * g.cnt

def Pool.MapHas (p : Pool) (addr : Nat) : Prop :=
  p.usedMapAddr ≤ addr ∧ addr < p.usedMapAddr + bitmapBufSize p.usedMap.bitCnt

theorem Grant.Inside.has {addr : Nat} (h : g.Inside a) (hg : g.Has addr) :
    (runOf a g).has ((addr - (a.pool g.user).base) / pgSize) = true ∧ (a.pool g.user).base ≤ addr ∧
      addr < (a.pool g.user).base + pgSize * (a.pool g.user).usedMap.bitCnt := by
  have hpages := h.pages
  have hfits := h.fits
  obtain ⟨hle, hlt⟩ := hg
  rw [Run.has_iff]
  change (_ ∧ _ < _ + g.cnt) ∧ _
  unfold pgSize at *
  omega

theorem Layout.pages {addr : Nat} (h : Layout initRamPages a) (hle : (a.pool user).base ≤ addr)
    (hlt : addr < (a.pool user).base + pgSize * (a.pool user).usedMap.bitCnt) :
    freeStart ≤ addr ∧ addr < initRamPages * pgSize ∧ (∀ other, ¬ (a.pool other).MapHas addr) ∧
      ∀ other, other ≠ user → ¬ ((a.pool other).base ≤ addr ∧
        addr < (a.pool other).base + pgSize * (a.pool other).usedMap.bitCnt) := by
  have hk := h.kernelMap
  have hkfits : a.kernelPool.usedMapAddr + bitmapBufSize a.kernelPool.usedMap.bitCnt ≤
    a.kernelPool.base := h.mapFits false
  have hufits : a.userPool.usedMapAddr + bitmapBufSize a.userPool.usedMap.bitCnt ≤
    a.userPool.base := h.mapFits true
  have hadjacent := h.adjacent
  have hends := h.ends
  have hkernel : a.pool false = a.kernelPool := rfl
  have huser : a.pool true = a.userPool := rfl
  cases user
  all_goals
    simp only [hkernel, huser] at hle hlt
    refine ⟨by omega, by omega, ?_, ?_⟩
    · rintro other ⟨hlow, hhigh⟩
      cases other <;> simp only [hkernel, huser] at hlow hhigh <;> omega
    · rintro other hne ⟨hlow, hhigh⟩
      cases other
      all_goals
        simp only [hkernel, huser, ne_eq, not_true_eq_false] at hne hlow hhigh
      all_goals omega

theorem Inv.disjoint (h : Inv initRamPages s) :
    s.live.Pairwise fun g g' => ∀ addr, ¬ (g.Has addr ∧ g'.Has addr) := by
  have hpool : ∀ user, s.live.Pairwise fun g g' => g.user = user → g'.user = user →
      (runOf s.alloc g).Disjoint (runOf s.alloc g') := by
    intro user
    have hruns := (h.covered user).pairwise
    rw [owned, pairwise_map, pairwise_filter] at hruns
    exact hruns.imp fun hr hg hg' => hr (by simp [hg]) (by simp [hg'])
  refine ((hpool false).and (hpool true)).imp_of_mem fun {g g'} hg hg' hr addr => ?_
  rintro ⟨haddr, haddr'⟩
  obtain ⟨hhas, hle, hlt⟩ := (h.inside g hg).has haddr
  obtain ⟨hhas', hle', hlt'⟩ := (h.inside g' hg').has haddr'
  by_cases hu : g'.user = g.user
  · have hdisjoint : (runOf s.alloc g).Disjoint (runOf s.alloc g') := by
      cases huser : g.user with
      | false => exact hr.1 huser (hu.trans huser)
      | true => exact hr.2 huser (hu.trans huser)
    rw [hu] at hhas'
    exact hdisjoint _ ⟨hhas, hhas'⟩
  · exact (h.layout.pages hle hlt).2.2.2 _ hu ⟨hle', hlt'⟩

theorem palloc_exclusive (initRamPages limit : Nat) (memory : Nat → UInt8) (a : Allocator)
    (s : State) (hram : 256 < initRamPages) (hmax : initRamPages ≤ 2 ^ 18)
    (hinit : pallocInit initRamPages limit memory = .ok a) (h : (system a).Reachable s) :
    (s.live.Pairwise fun g g' => ∀ addr, ¬ (g.Has addr ∧ g'.Has addr)) ∧
    (∀ g ∈ s.live, g.pages % pgSize = 0 ∧ s.alloc.poolOf g.pages = some g.user ∧
      (∃ a', s.alloc.pallocFreeMultiple (some g.pages) g.cnt = .ok a') ∧
      ∀ addr, g.Has addr → freeStart ≤ addr ∧ addr < initRamPages * pgSize ∧
        (s.alloc.pool g.user).base ≤ addr ∧
        addr < (s.alloc.pool g.user).base + pgSize * (s.alloc.pool g.user).usedMap.bitCnt ∧
        ∀ user, ¬ (s.alloc.pool user).MapHas addr) ∧
    ∀ flags cnt, 1 ≤ cnt → (∀ pages a', s.alloc.pallocGetMultiple flags cnt ≠ .ok (some pages, a')) →
      ∀ first, first + cnt ≤ (s.alloc.pool flags.palUser).usedMap.bitCnt →
        ∃ i, first ≤ i ∧ i < first + cnt ∧ ∃ g ∈ s.live, g.user = flags.palUser ∧
          g.Has ((s.alloc.pool flags.palUser).base + pgSize * i) := by
  obtain ⟨hlayout, hbits⟩ := pallocInit_ok hram hmax hinit
  have hinv := inv_of_reachable hlayout hbits h
  refine ⟨hinv.disjoint, fun g hg => ?_, fun flags cnt hcnt hnull first hfirst => ?_⟩
  · have hin := hinv.inside g hg
    have haligned := hinv.layout.aligned g.user
    refine ⟨?_, poolOf_inside hinv.layout hin, (free_ok hinv hg).imp fun _ hf => hf.1,
      fun addr haddr => ?_⟩
    · rw [hin.pages]
      unfold pgSize at *
      omega
    · obtain ⟨-, hle, hlt⟩ := hin.has haddr
      obtain ⟨hstart, hend, hmaps, -⟩ := hinv.layout.pages hle hlt
      exact ⟨hstart, hend, hle, hlt, hmaps⟩
  · rcases get_not_some hnull with hzero | hscan
    · omega
    · obtain ⟨i, hi, hbit⟩ := scan_eq_none hscan hfirst
      obtain ⟨hlow, hhigh⟩ := Run.has_iff.mp hi
      rcases ((hinv.covered flags.palUser).marks_iff i).mp hbit with hstart | ⟨r, hr, hhas⟩
      · cases hstart
      · obtain ⟨g, hg, rfl⟩ := mem_map.mp hr
        obtain ⟨hg, huser⟩ := mem_filter.mp hg
        have huser : g.user = flags.palUser := by simpa using huser
        refine ⟨i, hlow, hhigh, g, hg, huser, ?_⟩
        have hpages := (hinv.inside g hg).pages
        obtain ⟨hrlow, hrhigh⟩ := Run.has_iff.mp hhas
        change i < (runOf s.alloc g).first + g.cnt at hrhigh
        rw [huser] at hpages
        unfold Grant.Has pgSize at *
        omega

theorem exists_two_grants : ∃ a s, pallocInit 260 2 (fun _ => 0) = .ok a ∧ (system a).Reachable s ∧
    s.live = [⟨true, 259 * 4096, 1⟩, ⟨false, 257 * 4096, 1⟩] := by
  match hinit : pallocInit 260 2 fun _ => 0 with
  | .error fault =>
    have hok : (pallocInit 260 2 fun _ => 0).toOption.isSome = true := by decide +kernel
    rw [hinit] at hok
    cases hok
  | .ok a =>
    obtain ⟨s, hr, hs⟩ := Lib.System.exists_of_leadsTo ⟨a, []⟩ exec
      [.get ⟨false, false, false⟩ 1, .get ⟨false, true, true⟩ 1]
      (fun s => decide (s.live = [⟨true, 259 * 4096, 1⟩, ⟨false, 257 * 4096, 1⟩])) (by
        have hrun : (match pallocInit 260 2 fun _ => 0 with
            | .error _ => false
            | .ok a => Lib.System.leadsTo ⟨a, []⟩ exec
                [.get ⟨false, false, false⟩ 1, .get ⟨false, true, true⟩ 1]
                (fun s => decide (s.live = [⟨true, 259 * 4096, 1⟩, ⟨false, 257 * 4096, 1⟩]))) =
              true := by decide +kernel
        rw [hinit] at hrun
        exact hrun)
    exact ⟨a, s, rfl, hr, of_decide_eq_true hs⟩

theorem palloc_exclusive_two_grants :
    ∃ a s, pallocInit 260 2 (fun _ => 0) = .ok a ∧ (system a).Reachable s ∧
      s.live = [⟨true, 259 * 4096, 1⟩, ⟨false, 257 * 4096, 1⟩] ∧
      s.live.Pairwise fun g g' => ∀ addr, ¬ (g.Has addr ∧ g'.Has addr) := by
  obtain ⟨a, s, hinit, hr, hlive⟩ := exists_two_grants
  exact ⟨a, s, hinit, hr, hlive, (palloc_exclusive 260 2 _ a s (by decide) (by decide) hinit hr).1⟩

end Pintos.Threads.Palloc
