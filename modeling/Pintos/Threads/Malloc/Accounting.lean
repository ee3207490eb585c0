import Pintos.Threads.Malloc.Calls

namespace Pintos.Threads.Malloc

open Lib Books Finset Option

variable {k k' : Books} {d : DescId} {page b cnt addr p newSize oldBlock : Nat} {live : Finset Nat}
  {h h' : Heap} {s s' : State} {op : Op}

def PageStep (k k' : Books) : Prop :=
  ∀ {page d cnt}, k.arenas page = some ⟨some d, cnt⟩ →
    (∃ cnt', k'.arenas page = some ⟨some d, cnt'⟩) ∨ ¬k'.held page ∧ GivenBack k' page

theorem small_of_stays (hstays : Stays k k' page) (ha : k.arenas page = some ⟨some d, cnt⟩) :
    ∃ cnt', k'.arenas page = some ⟨some d, cnt'⟩ := by
  obtain ⟨⟨desc, cnt'⟩, ha', hdesc, -⟩ := hstays ha
  obtain rfl : desc = some d := hdesc
  exact ⟨cnt', ha'⟩

theorem PageStep.refl (k : Books) : PageStep k k := fun ha => .inl ⟨_, ha⟩

theorem Grants.pageStep {size : Nat} (hg : Grants h h' live size p) : PageStep h.books h'.books :=
  fun ha => .inl (small_of_stays (hg.stays _) ha)

theorem Frees.pageStep (hf : Frees h h' live p) : PageStep h.books h'.books := by
  intro page d cnt ha
  by_cases hpage : page = pgNo p
  · subst hpage
    obtain hstays | hback := hf.last ha
    · exact .inl (small_of_stays hstays ha)
    · exact .inr hback
  · exact .inl (small_of_stays (hf.stays hpage) ha)

def reallocLive (live : Finset Nat) (oldBlock newSize r : Nat) : Finset Nat :=
  if newSize = 0 ∨ r ≠ 0 then
    if r = 0 then live.erase oldBlock else insert r (live.erase oldBlock)
  else live

def ReallocKeeps (h h' : Heap) (oldBlock newSize r : Nat) : Prop :=
  r ≠ 0 → oldBlock ≠ 0 → ∃ oldSize, h.books.blockSize oldBlock = some oldSize ∧
    ∀ i < min newSize oldSize, h'.mem (r + i) = h.mem (oldBlock + i)

theorem Inv.zero_not_live (hinv : Inv k live) : 0 ∉ live := fun hmem => hinv.pos hmem rfl

theorem Inv.blockSize (hinv : Inv k live) (hb : b ∈ live) :
    ∃ size, k.blockSize b = some size ∧ 0 < size := by
  obtain ⟨a, ha, hmem⟩ := hinv.split.live_block hb
  have hspan := hinv.layout.span_pos ha
  have hsize := Arena.size_pos hspan
  unfold elemSize at hsize
  exact ⟨a.size, blockSize_eq ha hspan hmem, by omega⟩

theorem copy_spec {r : Nat} (hg : Grants h h' live newSize r) (hold : oldBlock ∈ live)
    {oldSize : Nat} (hsize : h.books.blockSize oldBlock = some oldSize) (garbage : Bytes) :
    ∃ h'', (h'.memcpy r oldBlock (min newSize oldSize)).free oldBlock garbage = some h'' ∧
      Inv h''.books (insert r (live.erase oldBlock)) ∧ PageStep h.books h''.books ∧
      ∀ i < min newSize oldSize, h''.mem (r + i) = h.mem (oldBlock + i) := by
  have hne : r ≠ oldBlock := fun heq => hg.fresh (heq ▸ hold)
  have hinv₂ : Inv (h'.memcpy r oldBlock (min newSize oldSize)).books (insert r live) := hg.inv
  obtain ⟨h'', hfree, hfrees⟩ := free_spec hinv₂ (mem_insert_of_mem hold) garbage
  have hlive : (insert r live).erase oldBlock = insert r (live.erase oldBlock) :=
    erase_insert_of_ne hne
  have hinv₃ := hfrees.inv
  rw [hlive] at hinv₃
  refine ⟨h'', hfree, hinv₃, fun {page d cnt} ha => ?_, fun i hi => ?_⟩
  · obtain ⟨cnt', ha'⟩ := small_of_stays (hg.stays page) ha
    exact hfrees.pageStep ha'
  · obtain ⟨n, hn, hroom⟩ := hg.room
    have hmin : min newSize oldSize ≤ newSize := Nat.min_le_left ..
    have hmin' : min newSize oldSize ≤ oldSize := Nat.min_le_right ..
    have hown : Owns h'.books r (r + i) := ⟨n, hn, by omega, by omega⟩
    have hown' : Owns h.books oldBlock (oldBlock + i) := ⟨oldSize, hsize, by omega, by omega⟩
    calc h''.mem (r + i) = (h'.memcpy r oldBlock (min newSize oldSize)).mem (r + i) :=
          hfrees.kept.bytes (mem_erase.mpr ⟨hne, mem_insert_self ..⟩) hown
      _ = h'.mem (oldBlock + i) := by
          change h'.mem.write r (h'.mem.read oldBlock (min newSize oldSize)) (r + i) = _
          rw [Bytes.write_add (by rwa [Bytes.length_read]) 0, Bytes.getD_read hi]
      _ = h.mem (oldBlock + i) := hg.kept.bytes hold hown'

theorem realloc_spec (hinv : Inv h.books live) (hold : oldBlock = 0 ∨ oldBlock ∈ live)
    (hsize : newSize < 2 ^ 31) (env : Env) (garbage : Bytes) :
    ∃ r h', h.realloc oldBlock newSize env garbage = some (r, h') ∧
      Inv h'.books (reallocLive live oldBlock newSize r) ∧ PageStep h.books h'.books ∧
      ReallocKeeps h h' oldBlock newSize r := by
  unfold Heap.realloc
  by_cases hzero : newSize = 0
  · rw [if_pos hzero]
    have hlive : reallocLive live oldBlock newSize 0 = live.erase oldBlock := by
      simp [reallocLive, hzero]
    obtain rfl | hold := hold
    · refine ⟨0, h, rfl, ?_, PageStep.refl _, fun hr => absurd rfl hr⟩
      rwa [hlive, erase_eq_of_notMem hinv.zero_not_live]
    · obtain ⟨h', hfree, hfrees⟩ := free_spec hinv hold garbage
      refine ⟨0, h', by rw [hfree]; rfl, ?_, hfrees.pageStep, fun hr => absurd rfl hr⟩
      rw [hlive]
      exact hfrees.inv
  · rw [if_neg hzero]
    obtain hnull | ⟨r, h₁, hmalloc, hg⟩ := malloc_spec hinv hsize env
    · refine ⟨0, h, ?_, ?_, PageStep.refl _, fun hr => absurd rfl hr⟩
      · rw [hnull]
        exact if_neg fun hboth => hboth.2 rfl
      · simpa [reallocLive, hzero] using hinv
    · have hlive : reallocLive live oldBlock newSize r = insert r (live.erase oldBlock) := by
        simp [reallocLive, hg.pos]
      rw [hmalloc]
      obtain rfl | hold := hold
      · refine ⟨r, h₁, ?_, ?_, hg.pageStep, fun _ hne => absurd rfl hne⟩
        · simp
        · rw [hlive, erase_eq_of_notMem hinv.zero_not_live]
          exact hg.inv
      · obtain ⟨oldSize, hsize', -⟩ := hinv.blockSize hold
        obtain ⟨h', hfree, hinv', hstep, hbytes⟩ := copy_spec hg hold hsize' garbage
        refine ⟨r, h', ?_, hlive ▸ hinv', hstep, fun _ _ => ⟨oldSize, hsize', hbytes⟩⟩
        refine (if_pos ⟨hinv.pos hold, hg.pos⟩).trans ?_
        rw [hg.kept.size hold, hsize']
        change (Heap.free _ oldBlock garbage >>= _) = _
        rw [hfree]
        rfl

theorem calloc_spec {x y : Nat} (hinv : Inv h.books live) (hsize : x * y % 2 ^ 32 < 2 ^ 31)
    (env : Env) :
    ∃ r h', h.calloc x y env = some (r, h') ∧
      Inv h'.books (if r = 0 then live else insert r live) ∧ PageStep h.books h'.books := by
  unfold Heap.calloc
  by_cases hwrap : x * y % 2 ^ 32 < x ∨ x * y % 2 ^ 32 < y
  · exact ⟨0, h, if_pos hwrap, hinv, PageStep.refl _⟩
  · obtain hnull | ⟨r, h₁, hmalloc, hg⟩ := malloc_spec hinv hsize env
    · refine ⟨0, h, ?_, hinv, PageStep.refl _⟩
      refine (if_neg hwrap).trans ?_
      rw [hnull]
      rfl
    · refine ⟨r, h₁.memset r 0 (x * y % 2 ^ 32), ?_, ?_, hg.pageStep⟩
      · refine (if_neg hwrap).trans ?_
        rw [hmalloc]
        change some (r, if r = 0 then h₁ else _) = _
        rw [if_neg hg.pos]
      · rw [if_neg hg.pos]
        exact hg.inv

theorem exec_spec (hinv : Inv s.heap.books s.live) (hop : Allowed s op) :
    ∃ s', exec s op = some s' ∧ Inv s'.heap.books s'.live ∧
      PageStep s.heap.books s'.heap.books := by
  cases op with
  | malloc size env =>
    obtain hnull | ⟨r, h', hmalloc, hg⟩ := malloc_spec hinv hop env
    · exact ⟨s, by rw [exec, hnull]; rfl, hinv, PageStep.refl _⟩
    · refine ⟨s.got r h', by rw [exec, hmalloc]; rfl, ?_, hg.pageStep⟩
      unfold State.got
      rw [if_neg hg.pos]
      exact hg.inv
  | calloc x y env =>
    obtain ⟨r, h', hcalloc, hinv', hstep⟩ := calloc_spec hinv hop env
    exact ⟨s.got r h', by rw [exec, hcalloc]; rfl, hinv', hstep⟩
  | realloc oldBlock newSize env garbage =>
    obtain ⟨r, h', hrealloc, hinv', hstep, -⟩ := realloc_spec hinv hop.1 hop.2 env garbage
    refine ⟨⟨h', reallocLive s.live oldBlock newSize r⟩, ?_, hinv', hstep⟩
    rw [exec, hrealloc]
    unfold reallocLive State.got
    dsimp only [map_some]
    by_cases hdone : newSize = 0 ∨ r ≠ 0
    · rw [if_pos hdone, if_pos hdone]
    · rw [if_neg hdone, if_neg hdone]
  | free p garbage =>
    obtain rfl | hp := hop
    · refine ⟨s, ?_, hinv, PageStep.refl _⟩
      change some (⟨s.heap, s.live.erase 0⟩ : State) = _
      rw [erase_eq_of_notMem hinv.zero_not_live]
    · obtain ⟨h', hfree, hfrees⟩ := free_spec hinv hp garbage
      exact ⟨⟨h', s.live.erase p⟩, by rw [exec, hfree]; rfl, hfrees.inv, hfrees.pageStep⟩
  | store p i value => exact ⟨_, rfl, hinv, PageStep.refl _⟩

theorem inv_of_reachable (hr : system.Reachable s) : Inv s.heap.books s.live := by
  refine Lib.System.Reachable.invariant (P := fun s => Inv s.heap.books s.live) hr ?_ ?_
  · rintro s ⟨mem, rfl⟩
    refine ⟨⟨nofun, nofun, nofun, nofun⟩, ⟨fun hb => ?_, fun hb => ?_, nofun, fun hb => ?_,
      fun _ => List.nodup_nil, nofun⟩, nofun⟩
    · exact absurd hb (notMem_empty _)
    · exact absurd hb List.not_mem_nil
    · exact absurd hb List.not_mem_nil
  · rintro s op s' - hinv ⟨hop, hx⟩
    obtain ⟨s₁, hx₁, hinv₁, -⟩ := exec_spec hinv hop
    rw [hx] at hx₁
    obtain rfl := some.inj hx₁
    exact hinv₁

theorem PageStep.held_iff (hstep : PageStep k k') (hinv' : Inv k' live)
    (ha : k.arenas page = some ⟨some d, cnt⟩) :
    (¬k'.held page ↔ ∀ b ∈ live, pgNo b ≠ page) ∧ (¬k'.held page → GivenBack k' page) := by
  obtain ⟨cnt', ha'⟩ | ⟨hheld, hback⟩ := hstep ha
  · have hheld : k'.held page := hinv'.layout.held ha' 0 Nat.one_pos
    obtain ⟨b, hb, hpage⟩ := hinv'.busy ha'
    exact ⟨⟨fun hnot => absurd hheld hnot, fun hnone => absurd hpage (hnone b hb)⟩,
      fun hnot => absurd hheld hnot⟩
  · refine ⟨⟨fun _ b hb hpage => hheld ?_, fun _ => hheld⟩, fun _ => hback⟩
    obtain ⟨a, hb', -⟩ := hinv'.split.live_block hb
    rw [← hpage]
    exact hinv'.layout.held hb' 0 (hinv'.layout.span_pos hb')

def HasBlock (k : Books) (d : DescId) (b : Nat) : Prop :=
  ∃ page cnt, k.arenas page = some ⟨some d, cnt⟩ ∧ b ∈ arenaBlocks page d

theorem Split.hasBlock_iff (hs : Split k live) :
    HasBlock k d b ↔ b ∈ k.freeList d ∨ b ∈ live ∧ HasBlock k d b := by
  constructor
  · rintro ⟨page, cnt, ha, hb⟩
    obtain hlive | ⟨d', hd', hfree⟩ := hs.covered ha hb
    · exact .inr ⟨hlive, page, cnt, ha, hb⟩
    · obtain rfl := some.inj hd'
      exact .inl hfree
  · rintro (hfree | ⟨-, hhas⟩)
    · obtain ⟨cnt, ha, hb⟩ := hs.free_block hfree
      exact ⟨_, cnt, ha, hb⟩
    · exact hhas

-- Any sequence of calls keeps the accounts, and none fails an assertion.
theorem malloc_accounting (s : State) (hr : system.Reachable s) :
    (∀ p ∈ s.live, (∃ addr, Owns s.heap.books p addr) ∧
      ∀ addr, Owns s.heap.books p addr → s.heap.books.held (pgNo addr)) ∧
    (∀ p ∈ s.live, ∀ p' ∈ s.live, p ≠ p' → ∀ addr,
      ¬(Owns s.heap.books p addr ∧ Owns s.heap.books p' addr)) ∧
    (∀ d, (s.heap.books.freeList d).Nodup ∧
      ∀ b, (HasBlock s.heap.books d b ↔
          b ∈ s.heap.books.freeList d ∨ b ∈ s.live ∧ HasBlock s.heap.books d b) ∧
        ¬(b ∈ s.heap.books.freeList d ∧ b ∈ s.live)) ∧
    (∀ page d cnt, s.heap.books.arenas page = some ⟨some d, cnt⟩ →
      cnt = ((s.heap.books.freeList d).filter fun b => pgNo b = page).length) ∧
    ∀ op, Allowed s op → ∃ s', exec s op = some s' ∧
      (∀ page d cnt, s.heap.books.arenas page = some ⟨some d, cnt⟩ →
        (¬s'.heap.books.held page ↔ ∀ b ∈ s'.live, pgNo b ≠ page) ∧
        (¬s'.heap.books.held page → GivenBack s'.heap.books page)) ∧
      ∀ oldBlock newSize env garbage, op = .realloc oldBlock newSize env garbage →
        ∃ r, s.heap.realloc oldBlock newSize env garbage = some (r, s'.heap) ∧
          (r ≠ 0 → oldBlock ≠ 0 → ∃ oldSize, s.heap.books.blockSize oldBlock = some oldSize ∧
            ∀ i < min newSize oldSize, s'.heap.mem (r + i) = s.heap.mem (oldBlock + i)) := by
  have hinv := inv_of_reachable hr
  have hblock : ∀ p ∈ s.live, IsBlock s.heap.books p := fun p hp => hinv.split.isBlock_of_live hp
  refine ⟨fun p hp => ⟨?_, fun addr ho => hinv.layout.owns_held (hblock p hp) ho⟩,
    fun p hp p' hp' hne addr ho => hinv.layout.owns_apart (hblock p hp) (hblock p' hp') hne ho.1 ho.2,
    fun d => ⟨hinv.split.nodup d, fun b => ⟨hinv.split.hasBlock_iff,
      fun hboth => hinv.split.not_live hboth.1 hboth.2⟩⟩,
    fun page d cnt ha => hinv.split.count ha, fun op hop => ?_⟩
  · obtain ⟨size, hsize, hpos⟩ := hinv.blockSize hp
    exact ⟨p, size, hsize, Nat.le_refl p, by omega⟩
  · obtain ⟨s', hx, hinv', hstep⟩ := exec_spec hinv hop
    refine ⟨s', hx, fun page d cnt ha => hstep.held_iff hinv' ha, ?_⟩
    rintro oldBlock newSize env garbage rfl
    obtain ⟨r, h', hrealloc, -, -, hkeeps⟩ := realloc_spec hinv hop.1 hop.2 env garbage
    have hheap : s'.heap = h' := by
      rw [exec, hrealloc] at hx
      rw [← some.inj hx]
      dsimp only
      split <;> rfl
    exact ⟨r, hheap ▸ hrealloc, hheap ▸ hkeeps⟩

def getOrFree (s : State) : Op → Option State
  | .malloc size env => if size < 2 ^ 31 then exec s (.malloc size env) else none
  | .free p garbage => if p ∈ s.live then exec s (.free p garbage) else none
  | _ => none

theorem step_of_getOrFree {s s' : State} {op : Op} (h : getOrFree s op = some s') :
    system.step s op s' := by
  unfold getOrFree at h
  split at h
  · split_ifs at h with hsize
    exact ⟨hsize, h⟩
  · split_ifs at h with hlive
    exact ⟨.inr hlive, h⟩
  · cases h

-- Two blocks of 100 bytes on page 5 and one of 5000 bytes on pages 9 and 10; the first one is
-- free again.
theorem exists_freed : ∃ s, system.Reachable s ∧ s.live = {20620, 36876} ∧
    ∃ d, 20492 ∈ s.heap.books.freeList d := by
  obtain ⟨s, hr, hs⟩ : ∃ s, system.Reachable s ∧ _ := System.reachableVia_of_leadsTo
    (start fun _ => 0) getOrFree
    [.malloc 100 ⟨some 5, fun _ => 0⟩, .malloc 100 ⟨none, fun _ => 0⟩,
      .malloc 5000 ⟨some 9, fun _ => 0⟩, .free 20492 fun _ => 0]
    (fun s => decide (s.live = {20620, 36876} ∧ ∃ d, 20492 ∈ s.heap.books.freeList d)) ⟨_, rfl⟩
    (fun _ _ _ h => ⟨trivial, step_of_getOrFree h⟩) (by decide +kernel)
  exact ⟨s, hr, of_decide_eq_true hs⟩

theorem malloc_accounting_freed : ∃ s, system.Reachable s ∧ s.live = {20620, 36876} ∧
    (∃ d, 20492 ∈ s.heap.books.freeList d) ∧
    (∀ addr, ¬(Owns s.heap.books 20620 addr ∧ Owns s.heap.books 36876 addr)) ∧
    ∃ s', exec s (.free 20620 fun _ => 0) = some s' := by
  obtain ⟨s, hr, hlive, hfree⟩ := exists_freed
  obtain ⟨-, hapart, -, -, hstep⟩ := malloc_accounting s hr
  obtain ⟨s', hexec, -⟩ := hstep (.free 20620 fun _ => 0) (.inr (by simp [hlive]))
  exact ⟨s, hr, hlive, hfree, hapart 20620 (by simp [hlive]) 36876 (by simp [hlive]) (by decide), s',
    hexec⟩

def Roomy (size : Nat) (result : Option (Nat × Heap)) : Prop :=
  ∀ p h', result = some (p, h') → p ≠ 0 → ∃ room, h'.books.blockSize p = some room ∧ size ≤ room

theorem roomy_null (size : Nat) (h : Heap) : Roomy size (some (0, h)) := by
  rintro p h' heq hne
  cases heq
  exact absurd rfl hne

theorem roomy_iff {size p room : Nat} (hp : p ≠ 0) (hroom : h'.books.blockSize p = some room) :
    Roomy size (some (p, h')) ↔ size ≤ room := by
  constructor
  · intro hr
    obtain ⟨n, hn, hle⟩ := hr p h' rfl hp
    rw [hroom] at hn
    cases hn
    exact hle
  · rintro hle _ _ heq -
    cases heq
    exact ⟨room, hroom, hle⟩

theorem malloc_roomy_iff (hinv : Inv h.books live) {n : Nat} (hn : n < 2 ^ 32) (env : Env) :
    Roomy n (h.malloc n env) ↔ n < 2 ^ 32 - 11 ∨ h.books.pallocGetMultiple env.page 1 = none := by
  obtain ⟨hnull, hright⟩ | ⟨p, h', room, heq, hg, hroom, -, hle, hpalloc⟩ := malloc_room hinv hn env
  · rw [hnull]
    exact iff_of_true (roomy_null n h) hright
  · rw [heq, roomy_iff hg.pos hroom, hle, or_iff_left_of_imp hpalloc]

theorem realloc_roomy_iff (hinv : Inv h.books live) {old n : Nat} (hn : n < 2 ^ 32)
    (hold : old = 0 ∨ old ∈ live) (env : Env) (garbage : Bytes) :
    Roomy n (h.realloc old n env garbage) ↔
      n < 2 ^ 32 - 11 ∨ h.books.pallocGetMultiple env.page 1 = none := by
  unfold Heap.realloc
  by_cases hzero : n = 0
  · rw [if_pos hzero]
    refine iff_of_true ?_ (.inl (by omega))
    rintro p h' heq hne
    obtain ⟨h₁, -, heq⟩ := Option.map_eq_some_iff.mp heq
    exact absurd (Prod.mk.inj heq).1.symm hne
  · rw [if_neg hzero]
    obtain ⟨hnull, hright⟩ | ⟨p, h₁, room, heq, hg, hroom, -, hle, hpalloc⟩ :=
      malloc_room hinv hn env
    · rw [hnull]
      refine iff_of_true ?_ hright
      simpa using roomy_null n h
    · rw [heq]
      obtain rfl | hmem := hold
      · rw [or_iff_left_of_imp hpalloc, ← hle]
        simpa using roomy_iff hg.pos hroom
      · -- neither the copy nor the free of the old block touches the new one
        obtain ⟨oldSize, hsize, -⟩ := hg.inv.blockSize (mem_insert_of_mem hmem)
        obtain ⟨h₂, hfree, hfrees⟩ := free_spec (h := h₁.memcpy p old (min n oldSize)) hg.inv
          (mem_insert_of_mem hmem) garbage
        have hne : p ≠ old := fun heq => hg.fresh (heq ▸ hmem)
        have hroom' : h₂.books.blockSize p = some room :=
          (hfrees.kept.size (mem_erase.mpr ⟨hne, mem_insert_self ..⟩)).trans hroom
        have hresult : (do
            if old ≠ 0 ∧ p ≠ 0 then
              let oldSize ← h₁.books.blockSize old
              let h ← (h₁.memcpy p old (min n oldSize)).free old garbage
              return (p, h)
            else return (p, h₁)) = some (p, h₂) := by
          rw [if_pos ⟨hinv.pos hmem, hg.pos⟩, hsize]
          change (Heap.free _ old garbage >>= _) = _
          rw [hfree]
          rfl
        rw [or_iff_left_of_imp hpalloc, ← hle, ← roomy_iff hg.pos hroom', ← hresult]
        rfl

theorem calloc_roomy_iff (hinv : Inv h.books live) (a b : Nat) (env : Env) :
    Roomy (a * b) (h.calloc a b env) ↔
      a * b < 2 ^ 32 - 11 ∨ a * b % 2 ^ 32 < a ∨ a * b % 2 ^ 32 < b ∨
        h.malloc (a * b % 2 ^ 32) env = some (0, h) := by
  have hlt : a * b % 2 ^ 32 < 2 ^ 32 := Nat.mod_lt _ (by omega)
  unfold Heap.calloc
  by_cases hwrap : a * b % 2 ^ 32 < a ∨ a * b % 2 ^ 32 < b
  · rw [if_pos hwrap]
    exact iff_of_true (roomy_null _ h) (.inr (hwrap.imp id .inl))
  · rw [if_neg hwrap]
    obtain ⟨hnull, -⟩ | ⟨p, h', room, heq, hg, hroom, hbound, hle, -⟩ := malloc_room hinv hlt env
    · rw [hnull]
      exact iff_of_true (by simpa using roomy_null _ h) (.inr (.inr (.inr rfl)))
    · have hnull : some (p, h') ≠ some (0, h) := fun heq =>
        hg.pos (Prod.mk.inj (Option.some.inj heq)).1
      have hmod := Nat.mod_add_div (a * b) (2 ^ 32)
      rw [heq]
      change Roomy (a * b) (some (p, if p = 0 then h' else _)) ↔ _
      rw [if_neg hg.pos]
      refine (roomy_iff hg.pos (show (h'.memset p 0 _).books.blockSize p = some room
        from hroom)).trans ?_
      generalize a * b = product at *
      simp only [hnull, or_false]
      omega

end Pintos.Threads.Malloc
