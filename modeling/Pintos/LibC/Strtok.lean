import Pintos.LibC.String

namespace Pintos.LibC

open Lib List Option Bytes

variable {m m' : Bytes} {a fuel : Nat} {l ds t rest : List UInt8} {c : UInt8} {d : CString}
  {s savePtr : Option Nat}

section Tokens

theorem tokens_nil (d : CString) : tokens d [] = [] := by simp [tokens]

theorem tokens_cons_delimiter (hc : c ∈ d.val) (l : List UInt8) :
    tokens d (c :: l) = tokens d l := by
  simp [tokens, splitOnP_cons_eq_if_modifyHead, hc]

theorem tokens_append_delimiters (hds : ∀ c ∈ ds, c ∈ d.val) (l : List UInt8) :
    tokens d (ds ++ l) = tokens d l := by
  induction ds with
  | nil => rfl
  | cons c ds ih =>
    rw [cons_append, tokens_cons_delimiter (hds c mem_cons_self)]
    exact ih fun b hb => hds b (mem_cons_of_mem _ hb)

theorem tokens_delimiters (h : ∀ c ∈ l, c ∈ d.val) :
    tokens d l = [] := by
  have hnil : tokens d (l ++ []) = tokens d [] := tokens_append_delimiters h []
  rwa [append_nil, tokens_nil] at hnil

theorem tokens_of_not_mem (ht : ∀ c ∈ t, c ∉ d.val) (hne : t ≠ []) : tokens d t = [t] := by
  unfold tokens
  rw [splitOnP_eq_singleton (by simpa using ht)]
  simp [hne]

theorem tokens_append_cons (ht : ∀ c ∈ t, c ∉ d.val) (hne : t ≠ []) (hc : c ∈ d.val)
    (rest : List UInt8) : tokens d (t ++ c :: rest) = t :: tokens d rest := by
  unfold tokens
  rw [splitOnP_append_cons_of_forall_mem (by simpa using ht) c (by simpa using hc)]
  simp [hne]

end Tokens

-- How a string begins, for strtok_r: only delimiters are left, or there is a token behind
-- some of them, that ends the string or is ended by a delimiter.
theorem begins (d : CString) (l : List UInt8) :
    (∀ c ∈ l, c ∈ d.val) ∨
      ∃ ds t tail, l = ds ++ (t ++ tail) ∧ (∀ c ∈ ds, c ∈ d.val) ∧ (∀ c ∈ t, c ∉ d.val) ∧
        t ≠ [] ∧ (tail = [] ∨ ∃ c rest, tail = c :: rest ∧ c ∈ d.val) := by
  induction l with
  | nil => exact .inl (by simp)
  | cons b l ih =>
    by_cases hb : b ∈ d.val
    · rcases ih with hall | ⟨ds, t, tail, rfl, hds, ht, hne, htail⟩
      · exact .inl (by simpa [hb] using hall)
      · exact .inr ⟨b :: ds, t, tail, rfl, by simpa [hb] using hds, ht, hne, htail⟩
    · refine .inr ?_
      rcases ih with hall | ⟨ds, t, tail, rfl, hds, ht, hne, htail⟩
      · refine ⟨[], [b], l, rfl, by simp, by simpa using hb, by simp, ?_⟩
        match l, hall with
        | [], _ => exact .inl rfl
        | c :: rest, hall => exact .inr ⟨c, rest, rfl, hall c mem_cons_self⟩
      · match ds, hds with
        | [], _ =>
          exact ⟨[], b :: t, tail, rfl, by simp, by simpa [hb] using ht, by simp, htail⟩
        | c :: ds, hds =>
          refine ⟨[], [b], c :: ds ++ (t ++ tail), rfl, by simp, by simpa using hb,
            by simp, .inr ⟨c, _, rfl, hds c mem_cons_self⟩⟩

theorem tokens_induct {P : List UInt8 → List (List UInt8) → Prop} (blank : ∀ l, P l [])
    (last : ∀ ds t, t ≠ [] → P (ds ++ t) [t])
    (more : ∀ ds t c rest ts, t ≠ [] → P rest ts → P (ds ++ (t ++ c :: rest)) (t :: ts))
    (d : CString) (l : List UInt8) : P l (tokens d l) := by
  induction hn : l.length using Nat.strongRecOn generalizing l with
  | _ n ih =>
    rcases begins d l with hall | ⟨ds, t, tail, rfl, hds, ht, hne, htail⟩
    · rw [tokens_delimiters hall]
      exact blank l
    · rw [tokens_append_delimiters hds]
      rcases htail with rfl | ⟨c, rest, rfl, hc⟩
      · rw [append_nil, tokens_of_not_mem ht hne]
        exact last ds t hne
      · rw [tokens_append_cons ht hne hc]
        refine more ds t c rest _ hne (ih rest.length ?_ rest rfl)
        simp only [length_append, length_cons] at hn
        omega

theorem skipDelimiters_eq (h : HoldsAt m a (ds ++ l)) (h0 : 0 ∉ ds)
    (hds : ∀ c ∈ ds, c ∈ d.val) (hl : l = [] ∨ ∃ b rest, l = b :: rest ∧ b ∉ d.val ∧ b ≠ 0)
    (hfuel : ds.length < fuel) : skipDelimiters d m fuel a = .ok (a + ds.length) := by
  induction ds generalizing a fuel with
  | nil =>
    obtain ⟨fuel, rfl⟩ := Nat.exists_eq_add_of_lt hfuel
    rw [skipDelimiters]
    rcases hl with rfl | ⟨b, rest, rfl, hb, hb0⟩
    · rw [if_pos ((isSome_strchr d _).mpr (.inl h.end)), if_pos h.end]
      rfl
    · have hbyte : m a = b := h.head.1
      rw [if_neg]
      · rfl
      · rw [isSome_strchr, hbyte]
        exact not_or.mpr ⟨hb0, hb⟩
  | cons c ds ih =>
    obtain ⟨fuel, rfl⟩ := Nat.exists_eq_add_of_lt hfuel
    obtain ⟨hc, hrest⟩ := h.head
    have hne : c ≠ 0 := by
      rintro rfl
      exact h0 mem_cons_self
    rw [skipDelimiters, hc, if_pos ((isSome_strchr d _).mpr (.inr (hds c mem_cons_self))),
      if_neg hne, ih hrest (fun hmem => h0 (mem_cons_of_mem _ hmem))
        (fun b hb => hds b (mem_cons_of_mem _ hb)) (by simp only [length_cons]; omega)]
    simp only [length_cons]
    congr 1
    omega

theorem skipToken_eq (h : HoldsAt m a (t ++ l)) (h0 : 0 ∉ t) (ht : ∀ c ∈ t, c ∉ d.val)
    (hl : l = [] ∨ ∃ b rest, l = b :: rest ∧ b ∈ d.val) (hfuel : t.length < fuel) :
    skipToken d m fuel a = .ok (a + t.length) := by
  induction t generalizing a fuel with
  | nil =>
    obtain ⟨fuel, rfl⟩ := Nat.exists_eq_add_of_lt hfuel
    have hstop : (strchr d (m a)).isSome = true := by
      rw [isSome_strchr]
      rcases hl with rfl | ⟨b, rest, rfl, hb⟩
      · exact .inl h.end
      · have hbyte : m a = b := h.head.1
        rw [hbyte]
        exact .inr hb
    rw [skipToken, if_neg (by rw [← not_isSome, hstop]; decide)]
    rfl
  | cons c t ih =>
    obtain ⟨fuel, rfl⟩ := Nat.exists_eq_add_of_lt hfuel
    obtain ⟨hc, hrest⟩ := h.head
    have hgo : (strchr d c).isSome ≠ true := by
      rw [Ne, isSome_strchr]
      refine not_or.mpr ⟨?_, ht c mem_cons_self⟩
      rintro rfl
      exact h0 mem_cons_self
    rw [skipToken, hc, if_pos (by rw [← not_isSome, Bool.not_eq_true']; simpa using hgo),
      ih hrest (fun hmem => h0 (mem_cons_of_mem _ hmem))
        (fun b hb => ht b (mem_cons_of_mem _ hb)) (by simp only [length_cons]; omega)]
    simp only [length_cons]
    congr 1
    omega

theorem HoldsAt.whole (h : HoldsAt m a l) :
    m.read a l.length = l ∧ HoldsAt m (a + l.length) [] := by
  have hall : HoldsAt m a (l ++ []) := by rwa [append_nil]
  exact hall.split

theorem strtokR_blank (h : HoldsAt m a l) (h0 : 0 ∉ l) (hl : ∀ c ∈ l, c ∈ d.val)
    (hfuel : l.length < fuel) (saved : Option Nat) :
    strtokR fuel d m (some a) saved = .ok (none, m, a + l.length) := by
  have hskip := skipDelimiters_eq (by rwa [append_nil]) h0 hl (.inl rfl) hfuel
  have hend : m (a + l.length) = 0 := h.whole.2.end
  simp only [strtokR, some_or, hskip]
  change (if m (a + l.length) = 0 then _ else _) = _
  rw [if_pos hend]
  rfl

-- A token is found: it is cut off in place, and the rest of the string stands at the saved
-- position. Nothing else is written.
theorem strtokR_token {tail : List UInt8} (h : HoldsAt m a (ds ++ (t ++ tail)))
    (h0 : 0 ∉ ds ++ (t ++ tail)) (hds : ∀ c ∈ ds, c ∈ d.val) (ht : ∀ c ∈ t, c ∉ d.val)
    (hne : t ≠ []) (htail : tail = [] ∨ ∃ c rest, tail = c :: rest ∧ c ∈ d.val)
    (hfuel : (ds ++ (t ++ tail)).length < fuel) (saved : Option Nat) :
    ∃ m' save rest, strtokR fuel d m (some a) saved = .ok (some (a + ds.length), m', save) ∧
      tokens d (ds ++ (t ++ tail)) = t :: tokens d rest ∧
      HoldsAt m' (a + ds.length) t ∧ HoldsAt m' save rest ∧ 0 ∉ rest ∧
      save = min (a + ds.length + t.length + 1) (a + (ds ++ (t ++ tail)).length) ∧
      save + rest.length = a + (ds ++ (t ++ tail)).length ∧
      ∀ i, m' i = if a + ds.length + t.length = i then 0 else m i := by
  simp only [mem_append, not_or] at h0
  obtain ⟨hds0, ht0, htail0⟩ := h0
  simp only [length_append] at hfuel ⊢
  have hbegin : t ++ tail = [] ∨ ∃ b rest, t ++ tail = b :: rest ∧ b ∉ d.val ∧ b ≠ 0 := by
    match t, hne with
    | b :: t, _ =>
      refine .inr ⟨b, t ++ tail, rfl, ht b mem_cons_self, ?_⟩
      rintro rfl
      exact ht0 mem_cons_self
  have hskip := skipDelimiters_eq h hds0 hds hbegin (by omega : ds.length < fuel)
  have htoken := h.split.2
  have hend := skipToken_eq htoken ht0 ht htail (by omega : t.length < fuel)
  have hfirst : m (a + ds.length) ≠ 0 := by
    match t, hne with
    | b :: t, _ =>
      rw [htoken.head.1]
      rintro rfl
      exact ht0 mem_cons_self
  have hrest := htoken.split
  have hrun : strtokR fuel d m (some a) saved =
      if m (a + ds.length + t.length) ≠ 0 then
        .ok (some (a + ds.length), m.write (a + ds.length + t.length) [0],
          a + ds.length + t.length + 1)
      else .ok (some (a + ds.length), m, a + ds.length + t.length) := by
    simp only [strtokR, some_or, hskip]
    change (if m (a + ds.length) = 0 then _ else _) = _
    rw [if_neg hfirst]
    change ((skipToken d m fuel (a + ds.length)).bind _) = _
    rw [hend]
    rfl
  rw [tokens_append_delimiters hds]
  rcases htail with rfl | ⟨c, rest, rfl, hc⟩
  · have hnil : HoldsAt m (a + ds.length + t.length) [] := hrest.2
    simp only [length_nil]
    refine ⟨m, a + ds.length + t.length, [], ?_, ?_, ?_, hnil, by simp, by omega, ?_,
      fun i => ?_⟩
    · rw [hrun, if_neg (by simpa using hnil.end)]
    · rw [append_nil, tokens_of_not_mem ht hne, tokens_nil]
    · rwa [append_nil] at htoken
    · simp only [length_nil]
      omega
    · split
      · rename_i heq
        rw [← heq, hnil.end]
      · rfl
  · obtain ⟨hbyte, hholds⟩ := hrest.2.head
    have hc0 : c ≠ 0 := by
      rintro rfl
      exact htail0 mem_cons_self
    simp only [length_cons]
    refine ⟨_, _, rest, by rw [hrun, if_pos (by rwa [hbyte])], tokens_append_cons ht hne hc rest,
      HoldsAt.cut hrest.1, ?_, fun hmem => htail0 (mem_cons_of_mem _ hmem), by omega, by omega,
      fun i => ?_⟩
    · exact hholds.congr fun i _ => by rw [write_byte, if_neg (by omega)]
    · simp only [write_byte, eq_comm]

-- A run of bytes in [a, e) without a delimiter, which cannot be made longer.
structure Run (d : CString) (m : Bytes) (a e p q : Nat) : Prop where
  start : a ≤ p
  nonempty : p < q
  stop : q ≤ e
  inside : ∀ k, p ≤ k → k < q → m k ∉ d.val
  before : p = a ∨ m (p - 1) ∈ d.val
  after : q = e ∨ m q ∈ d.val

-- The results of `n` calls. The first is given `s`, and the others a null pointer.
def strtokCalls (fuel : Nat) (d : CString) : Nat → Bytes → Option Nat → Option Nat →
    Except Fault (List (Option Nat) × Bytes)
  | 0, m, _, _ => .ok ([], m)
  | n + 1, m, s, savePtr => do
      let (token, m, save) ← strtokR fuel d m s savePtr
      let (tokens, m) ← strtokCalls fuel d n m none (some save)
      return (token :: tokens, m)

variable {d : CString} {m m' : Bytes} {a e p q save fuel : Nat} {l : List UInt8}

theorem strtokR_or (hs : s.or savePtr = some a) :
    strtokR fuel d m s savePtr = strtokR fuel d m (some a) none := by
  unfold strtokR
  rw [hs]
  rfl

theorem Run.congr (h : Run d m a e p q) (hsame : ∀ k, a ≤ k → k < e → m' k = m k) :
    Run d m' a e p q := by
  obtain ⟨hstart, hne, hstop, hinside, hbefore, hafter⟩ := h
  refine ⟨hstart, hne, hstop, fun k hk hkq => ?_, ?_, ?_⟩
  · rw [hsame k (by omega) (by omega)]
    exact hinside k hk hkq
  · rcases hstart.eq_or_lt with heq | hlt
    · exact .inl heq.symm
    · rwa [hsame (p - 1) (by omega) (by omega)]
  · rcases hstop.eq_or_lt with heq | hlt
    · exact .inl heq
    · rwa [hsame q (by omega) hlt]

-- The runs of a string are the first of them and those of what follows it.
theorem Run.iff (h : Run d m a e p q) (hds : ∀ k, a ≤ k → k < p → m k ∈ d.val)
    (hsave : save = min (q + 1) e) {p' q' : Nat} :
    Run d m a e p' q' ↔ (p' = p ∧ q' = q) ∨ Run d m save e p' q' := by
  obtain ⟨hstart, hne, hstop, hinside, hbefore, hafter⟩ := h
  constructor
  · rintro ⟨hstart', hne', hstop', hinside', hbefore', hafter'⟩
    have hp : p ≤ p' := not_lt.mp fun hlt => hinside' p' le_rfl hne' (hds p' hstart' hlt)
    rcases Nat.lt_or_ge p' q with hlt | hge
    · have heqp : p' = p := by
        refine hp.eq_or_lt.elim Eq.symm fun hgt => ?_
        rcases hbefore' with heq | hd
        · omega
        · exact absurd hd (hinside _ (by omega) (by omega))
      refine .inl ⟨heqp, ?_⟩
      rcases Nat.lt_trichotomy q' q with hless | heq | hmore
      · rcases hafter' with heq | hd
        · omega
        · exact absurd hd (hinside q' (by omega) hless)
      · exact heq
      · rcases hafter with heq | hd
        · omega
        · exact absurd hd (hinside' q (by omega) hmore)
    · have hd : m q ∈ d.val := hafter.resolve_left (by omega)
      have hgt : q < p' := hge.lt_of_ne (by rintro rfl; exact hinside' q le_rfl hne' hd)
      exact .inr ⟨by omega, hne', hstop', hinside', .inr (hbefore'.resolve_left (by omega)), hafter'⟩
  · rintro (⟨rfl, rfl⟩ | ⟨hstart', hne', hstop', hinside', hbefore', hafter'⟩)
    · exact ⟨hstart, hne, hstop, hinside, hbefore, hafter⟩
    · refine ⟨by omega, hne', hstop', hinside', .inr ?_, hafter'⟩
      rcases hbefore' with heq | hd
      · have hq : p' - 1 = q := by omega
        rw [hq]
        exact hafter.resolve_left (by omega)
      · exact hd

theorem mem_read {cnt k : Nat} (hk : a ≤ k) (hlt : k < a + cnt) : m k ∈ m.read a cnt :=
  List.mem_map.mpr ⟨k - a, mem_range.mpr (by omega), by rw [Nat.add_sub_of_le hk]⟩

-- A call finds only delimiters, or the first run behind some of them.
theorem strtokR_next (h : HoldsAt m a l) (h0 : 0 ∉ l) (hfuel : l.length < fuel) :
    (strtokR fuel d m (some a) none = .ok (none, m, a + l.length) ∧ ∀ c ∈ l, c ∈ d.val) ∨
      ∃ p q m' save rest, strtokR fuel d m (some a) none = .ok (some p, m', save) ∧
        Run d m a (a + l.length) p q ∧ (∀ k, a ≤ k → k < p → m k ∈ d.val) ∧
        (∀ i, m' i = if q = i then 0 else m i) ∧ save = min (q + 1) (a + l.length) ∧
        HoldsAt m' save rest ∧ 0 ∉ rest ∧ save + rest.length = a + l.length := by
  rcases begins d l with hall | ⟨ds, t, tail, rfl, hds, ht, hne, htail⟩
  · exact .inl ⟨strtokR_blank h h0 hall hfuel none, hall⟩
  · obtain ⟨m', save, rest, hrun, -, -, hrest, hrest0, hsave, hend, hmem⟩ :=
      strtokR_token h h0 hds ht hne htail hfuel none
    obtain ⟨hfront, hback⟩ := h.split
    obtain ⟨htoken, hafter⟩ := hback.split
    have hpos := length_pos_iff.mpr hne
    have hfirst : ∀ k, a ≤ k → k < a + ds.length → m k ∈ d.val := fun k hk hlt =>
      hds _ (hfront ▸ mem_read hk hlt)
    refine .inr ⟨_, _, m', save, rest, hrun, ⟨by omega, by omega, ?_, fun k hk hlt => ?_, ?_, ?_⟩,
      hfirst, hmem, hsave, hrest, hrest0, hend⟩
    · simp only [length_append]
      omega
    · exact ht _ (htoken ▸ mem_read hk hlt)
    · rcases Nat.eq_zero_or_pos ds.length with hzero | hpos
      · exact .inl (by omega)
      · exact .inr (hfirst _ (by omega) (by omega))
    · rcases htail with rfl | ⟨c, rest, rfl, hc⟩
      · exact .inl (by simp; omega)
      · exact .inr (hafter.head.1 ▸ hc)

theorem strtokCalls_blank (n : Nat) (h : HoldsAt m a l) (h0 : 0 ∉ l) (hl : ∀ c ∈ l, c ∈ d.val)
    (hfuel : l.length < fuel) (hs : s.or savePtr = some a) :
    strtokCalls fuel d n m s savePtr = .ok (replicate n none, m) := by
  induction n generalizing a l s savePtr with
  | zero => rfl
  | succ n ih =>
    rw [strtokCalls, strtokR_or hs, strtokR_blank h h0 hl hfuel none]
    change (strtokCalls fuel d n m none (some (a + l.length)) >>= _) = _
    rw [ih h.whole.2 not_mem_nil nofun (by simp only [length_nil]; omega) rfl]
    rfl

theorem strtokCalls_runs (h : HoldsAt m a l) (h0 : 0 ∉ l) (hfuel : l.length < fuel)
    (hs : s.or savePtr = some a) :
    ∃ runs : List (Nat × Nat), (∀ p q, (p, q) ∈ runs ↔ Run d m a (a + l.length) p q) ∧
      runs.Pairwise (fun r r' => r.2 < r'.1) ∧
      ∀ n, ∃ m', strtokCalls fuel d n m s savePtr =
          .ok ((range n).map fun i => runs[i]?.map Prod.fst, m') ∧
        ∀ i, m' i = if ∃ r ∈ runs.take n, r.2 = i then 0 else m i := by
  induction hlen : l.length using Nat.strongRecOn generalizing m a l s savePtr with
  | _ len ih =>
    subst hlen
    rcases strtokR_next (d := d) h h0 hfuel with ⟨-, hall⟩ |
        ⟨p, q, m₁, save, rest, hcall, hrun, hds, hm₁, hsave, hrest, hrest0, hend⟩
    · refine ⟨[], fun p q => iff_of_false not_mem_nil fun hrun => ?_, Pairwise.nil,
        fun n => ⟨m, ?_, by simp⟩⟩
      · have hmem : m p ∈ m.read a l.length :=
          mem_read hrun.start (hrun.nonempty.trans_le hrun.stop)
        exact hrun.inside p le_rfl hrun.nonempty (hall _ (h.whole.1 ▸ hmem))
      · rw [strtokCalls_blank n h h0 hall hfuel hs]
        simp [map_const']
    · have hne := hrun.nonempty
      have hstart := hrun.start
      have hstop := hrun.stop
      obtain ⟨runs, hiff, hpair, hcalls⟩ :=
        ih rest.length (by omega) hrest hrest0 (by omega) (s := none) rfl rfl
      have hsame : ∀ k, save ≤ k → k < save + rest.length → m₁ k = m k := fun k hk hlt => by
        rw [hm₁, if_neg (by omega)]
      have hiff' : ∀ p' q', (p', q') ∈ runs ↔ Run d m save (a + l.length) p' q' := by
        intro p' q'
        rw [hiff, ← hend]
        exact ⟨fun hr => hr.congr fun k hk hlt => (hsame k hk hlt).symm, fun hr => hr.congr hsame⟩
      refine ⟨(p, q) :: runs, fun p' q' => ?_, pairwise_cons.mpr ⟨fun r hr => ?_, hpair⟩, fun n => ?_⟩
      · rw [hrun.iff hds hsave, ← hiff', mem_cons, Prod.mk.injEq]
      · obtain ⟨hstart', hne', hstop', -⟩ := (hiff' r.1 r.2).mp hr
        omega
      · cases n with
        | zero => exact ⟨m, rfl, by simp⟩
        | succ n =>
          obtain ⟨m', hn, hm'⟩ := hcalls n
          refine ⟨m', ?_, fun i => ?_⟩
          · rw [strtokCalls, strtokR_or hs, hcall, range_succ_eq_map]
            change (strtokCalls fuel d n m₁ none (some save) >>= _) = _
            rw [hn]
            simp [pure, Except.pure, bind, Except.bind]
          · rw [hm', hm₁, take_succ_cons]
            by_cases hq : q = i
            · simp [hq]
            · simp only [mem_cons, exists_eq_or_imp, hq, false_or, if_false]

-- After `n` calls each run that was returned is cut off, and nothing else has changed.
theorem strtok_yields_runs (d : CString) (m : Bytes) (a : Nat) (l : List UInt8)
    (h : HoldsAt m a l) (h0 : 0 ∉ l) (fuel : Nat) (hfuel : l.length < fuel) (savePtr : Option Nat) :
    ∃ runs : List (Nat × Nat), (∀ p q, (p, q) ∈ runs ↔ Run d m a (a + l.length) p q) ∧
      runs.Pairwise (fun r r' => r.2 < r'.1) ∧
      ∀ n, ∃ m', strtokCalls fuel d n m (some a) savePtr =
          .ok ((range n).map fun i => runs[i]?.map Prod.fst, m') ∧
        (∀ i, m' i = if ∃ r ∈ runs.take n, r.2 = i then 0 else m i) ∧
        ∀ r ∈ runs.take n, m' r.2 = 0 ∧ ∀ k, r.1 ≤ k → k < r.2 → m' k = m k := by
  obtain ⟨runs, hiff, hpair, hcalls⟩ := strtokCalls_runs (d := d) h h0 hfuel
    (some_or (a := a) (o := savePtr))
  refine ⟨runs, hiff, hpair, fun n => ?_⟩
  obtain ⟨m', hn, hm'⟩ := hcalls n
  refine ⟨m', hn, hm', fun r hr => ⟨by rw [hm', if_pos ⟨r, hr, rfl⟩], fun k hk hkr => ?_⟩⟩
  rw [hm', if_neg]
  rintro ⟨r', hr', rfl⟩
  have hrun := (hiff r.1 r.2).mp (mem_of_mem_take hr)
  rcases ((hiff r'.1 r'.2).mp (mem_of_mem_take hr')).after with heq | hd
  · have hstop := hrun.stop
    omega
  · exact hrun.inside _ hk hkr hd

-- "a b"
theorem strtok_yields_runs_two : ∃ (runs : List (Nat × Nat)) (m' : Bytes),
    strtokCalls 4 ⟨[32], by decide⟩ 3 (write (fun _ => 0) 5 [97, 32, 98, 0]) (some 5) none =
      .ok ((range 3).map fun i => runs[i]?.map Prod.fst, m') ∧
    runs.Pairwise fun r r' => r.2 < r'.1 := by
  obtain ⟨runs, -, hordered, hcalls⟩ := strtok_yields_runs ⟨[32], by decide⟩ _ 5 [97, 32, 98]
    (holdsAt_write (fun _ => 0) 5 [97, 32, 98]) (by decide) 4 (by decide) none
  obtain ⟨m', hn, -⟩ := hcalls 3
  exact ⟨runs, m', hn, hordered⟩

end Pintos.LibC
