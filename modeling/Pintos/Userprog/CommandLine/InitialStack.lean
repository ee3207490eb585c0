import Pintos.Threads.Palloc.Exclusive
import Pintos.Userprog.CommandLine

namespace Pintos.Userprog.CommandLine

open Lib LibC List Bytes Nat Threads Palloc

variable {st : Stack} {m : Bytes} {ts : List (List UInt8)} {line : CString} {page i : Nat}

-- What the first instruction of a program finds: the return address, argc, argv, the array of
-- pointers with its null word, and the strings that it leads to.
structure InitialStack (ts : List (List UInt8)) (m : Bytes) (esp : Nat) : Prop where
  inPage : physBase - pgSize ≤ esp
  returnAddress : m.word esp = 0
  argc : m.word (esp + 4) = ts.length
  argv : m.word (esp + 8) = esp + 12
  args : ∀ i (hi : i < ts.length), HoldsAt m (m.word (esp + 12 + 4 * i)) ts[i] ∧
    m.word (esp + 12 + 4 * i) + ts[i].length < physBase
  null : m.word (esp + 12 + 4 * ts.length) = 0
  aligned : esp % 4 = 0 ∧ (esp + 12) % 4 = 0
  apart : ∀ i j (hj : j < ts.length), i < j →
    m.word (esp + 12 + 4 * j) + ts[j].length < m.word (esp + 12 + 4 * i)

theorem length_strings_take (ts : List (List UInt8)) {j : Nat} (h : i ≤ j) :
    (strings (ts.take i)).length ≤ (strings (ts.take j)).length := by
  obtain ⟨k, rfl⟩ := Nat.exists_eq_add_of_le h
  rw [take_add, strings_append, length_append]
  omega

theorem strings_split (hi : i < ts.length) :
    strings ts = strings (ts.drop (i + 1)) ++ ((ts[i] ++ [0]) ++ strings (ts.take i)) := by
  conv_lhs => rw [← take_append_drop (i + 1) ts]
  rw [strings_append, take_succ_eq_append_getElem hi, strings_concat]

theorem pointers_split (hi : i < ts.length) :
    ∃ before behind, pointers ts = before ++ (ofWord (argAddr ts i) ++ behind) ∧
      before.length = 4 * i := by
  obtain ⟨k, hk⟩ := Nat.exists_eq_add_of_le (Nat.succ_le_of_lt hi)
  refine ⟨(range i).flatMap fun j => ofWord (argAddr ts j),
    ((range k).map (i + 1 + ·)).flatMap fun j => ofWord (argAddr ts j), ?_, ?_⟩
  · unfold pointers
    rw [hk, range_add, range_succ, flatMap_append, flatMap_append, flatMap_singleton, append_assoc]
  · rw [length_flatMap]
    simp only [length_ofWord]
    rw [map_const', sum_replicate_nat, length_range, Nat.mul_comm]

theorem length_strings_tokens (d : CString) (l : List UInt8) :
    (strings (tokens d l)).length ≤ l.length + 1 := by
  refine tokens_induct (P := fun l ts => (strings ts).length ≤ l.length + 1)
    (fun l => zero_le _) ?_ ?_ d l
  · intro ds t _
    simp only [strings, nil_append, length_append, length_singleton]
    omega
  · intro ds t c rest ts _ ih
    simp only [strings, length_append, length_cons, length_nil]
    omega

section Frame

variable (h : Holds st (frame ts))
include h

theorem holds_argvArea : Holds ⟨st.mem, st.esp + 12⟩ (argvArea ts) :=
  ((h.above (replicate 4 0)).above (ofWord ts.length)).above (ofWord _)

theorem word_pointer (hi : i < ts.length) : st.mem.word (st.esp + 12 + 4 * i) = argAddr ts i := by
  obtain ⟨before, behind, hsplit, hlen⟩ := pointers_split hi
  have hlt : argAddr ts i < 2 ^ 32 := lt_of_le_of_lt (sub_le _ _) (by decide)
  have harea := holds_argvArea h
  rw [argvArea, hsplit, append_assoc, append_assoc] at harea
  have hword := (harea.above before).word
  rw [mod_eq_of_lt hlt, hlen] at hword
  exact hword

theorem holdsAt_argAddr (hi : i < ts.length) :
    HoldsAt st.mem (argAddr ts i) ts[i] ∧ argAddr ts i + ts[i].length < physBase := by
  have hstrings := (((holds_argvArea h).above (pointers ts)).above (replicate 4 0)).above
    (replicate (padding ts) 0)
  rw [strings_split hi] at hstrings
  have harg := hstrings.above (strings (ts.drop (i + 1)))
  have htop := harg.top
  have haddr : argAddr ts i = physBase - ((ts[i] ++ [0]) ++ strings (ts.take i)).length := by
    rw [argAddr, take_succ_eq_append_getElem hi, strings_concat]
  have hesp := harg.esp_eq
  rw [← haddr] at hesp
  have hholds := harg.holdsAt
  rw [hesp] at hholds htop
  refine ⟨hholds, ?_⟩
  simp only [length_append, length_singleton] at htop
  omega

theorem initialStack_of_holds (hle : (frame ts).length ≤ pgSize) :
    InitialStack ts st.mem st.esp := by
  have htop := h.top
  have hbase : physBase % 4 = 0 ∧ pgSize < physBase ∧ physBase < 2 ^ 32 := by decide
  have harea := (holds_argvArea h).esp_eq
  have hlen : (frame ts).length = 12 + (argvArea ts).length := by
    simp only [frame, length_append, length_replicate, length_ofWord]
    omega
  have hwords : (argvArea ts).length = 4 * ts.length + 4 + (padding ts + (strings ts).length) := by
    simp only [argvArea, length_append, length_replicate, length_pointers]
    omega
  have hpad : padding ts = (physBase - (strings ts).length) % 4 := rfl
  simp only at harea
  refine ⟨by omega, h.word (v := 0), ?_, ?_, fun i hi => ?_, ?_, by omega, fun i j hj hlt => ?_⟩
  · have hargc := (h.above (replicate 4 0)).word
    rwa [mod_eq_of_lt (by omega)] at hargc
  · have hargv := ((h.above (replicate 4 0)).above (ofWord ts.length)).word
    rw [mod_eq_of_lt (by omega), ← harea] at hargv
    exact hargv
  · rw [word_pointer h hi]
    exact holdsAt_argAddr h hi
  · have hnull := ((holds_argvArea h).above (pointers ts)).word (v := 0)
    rwa [length_pointers] at hnull
  · rw [word_pointer h (hlt.trans hj), word_pointer h hj]
    have htake := length_strings_take ts (Nat.succ_le_of_lt hlt)
    have hall := length_strings_take ts (Nat.succ_le_of_lt hj)
    rw [take_length] at hall
    unfold argAddr
    rw [take_succ_eq_append_getElem hj, strings_concat] at hall ⊢
    simp only [succ_eq_add_one, length_append, length_singleton] at htake hall ⊢
    omega

end Frame

theorem zero_not_mem_copied (line : CString) : 0 ∉ copied line :=
  fun hmem => line.property (mem_of_mem_take hmem)

theorem length_copied_lt (line : CString) : (copied line).length < pgSize :=
  lt_of_le_of_lt (length_take_le _ _) (by decide)

theorem startStack_nil (m : Bytes) (page : Nat) (h : tokens ignoreDelimiters (copied line) = []) :
    startStack m page line = .error .nullFileName := by
  have hline : HoldsAt (fnCopy m page line) page (copied line) := holdsAt_write ..
  rcases begins ignoreDelimiters (copied line) with hall | ⟨ds, t, tail, hl, hds, ht, hne, htail⟩
  · have hrun := strtokR_blank hline (zero_not_mem_copied line) hall (length_copied_lt line) none
    have hstart : startProcess page ⟨fnCopy m page line, physBase⟩ = .error .nullFileName := by
      rw [startProcess, bind_of_ok (tokenize_ok hrun)]
      rfl
    rw [startStack, hstart]
    rfl
  · rw [hl, tokens_append_delimiters hds] at h
    rcases htail with rfl | ⟨c, rest, rfl, hc⟩
    · rw [append_nil, tokens_of_not_mem ht hne] at h
      cases h
    · rw [tokens_append_cons ht hne hc] at h
      cases h

theorem startStack_outcome (m : Bytes) (hpage : physBase ≤ page)
    (h : tokens ignoreDelimiters (copied line) ≠ []) :
    (stackBytes (tokens ignoreDelimiters (copied line)) ≤ pgSize →
      ∃ st, startStack m page line = .ok st ∧
        InitialStack (tokens ignoreDelimiters (copied line)) st.mem st.esp) ∧
    (pgSize < stackBytes (tokens ignoreDelimiters (copied line)) →
      ∃ addr, startStack m page line = .error (.outside addr)) := by
  have hline : HoldsAt (fnCopy m page line) page (copied line) := holdsAt_write ..
  have h0 := zero_not_mem_copied line
  have hlen := length_copied_lt line
  have hroom := length_strings_tokens ignoreDelimiters (copied line)
  have hbase : pgSize < physBase := by decide
  rw [← length_frame (by omega)]
  have hpushes : Pushes (startProcess page) ⟨fnCopy m page line, physBase⟩
      (frame (tokens ignoreDelimiters (copied line))) fun _ _ => True := by
    rcases begins ignoreDelimiters (copied line) with hall | ⟨ds, t, tail, hl, hds, ht, hne, htail⟩
    · exact absurd (tokens_delimiters hall) h
    · rw [hl] at hline h0 hlen ⊢
      obtain ⟨m', save, rest, hrun, htok, htoken, hrest, hrest0, hsave, hend, -⟩ :=
        strtokR_token hline h0 hds ht hne htail hlen none
      rw [htok]
      simp only [length_append] at hlen hend
      refine Pushes.of_eq (bind_of_ok (tokenize_ok hrun)) ?_
      have hempty : Holds ⟨m', physBase⟩ [] := ⟨rfl, rfl⟩
      exact pushStackArgs_pushes hempty htoken (fun hmem => h0 (by simp [hmem])) (by omega) hrest
        hrest0 (by omega) (by omega)
  unfold startStack
  constructor
  · intro hfits
    obtain ⟨_, st, hrun, hholds, -⟩ := hpushes.fits hfits
    exact ⟨st, by rw [hrun]; rfl, initialStack_of_holds hholds hfits⟩
  · intro hlt
    obtain ⟨addr, hrun⟩ := hpushes.stops hlt
    exact ⟨addr, by rw [hrun]; rfl⟩

theorem initial_stack_matches (line : CString) (m : Bytes) (page : Nat) (hpage : physBase ≤ page)
    (htokens : tokens ignoreDelimiters (copied line) ≠ [])
    (hfits : stackBytes (tokens ignoreDelimiters (copied line)) ≤ pgSize) :
    ∃ st, startStack m page line = .ok st ∧
      InitialStack (tokens ignoreDelimiters (copied line)) st.mem st.esp :=
  (startStack_outcome m hpage htokens).1 hfits

-- "ls -l"
theorem initial_stack_matches_ls :
    ∃ st, startStack (fun _ => 0) 0xc0100000 ⟨[108, 115, 32, 45, 108], by decide⟩ = .ok st ∧
      InitialStack [[108, 115], [45, 108]] st.mem st.esp :=
  initial_stack_matches ⟨[108, 115, 32, 45, 108], by decide⟩ (fun _ => 0) 0xc0100000 (by decide)
    (by decide) (by decide)

theorem arguments_inside_page_iff (line : CString) (m : Bytes) (page : Nat)
    (hpage : physBase ≤ page) :
    (∀ addr, startStack m page line ≠ .error (.outside addr)) ↔
      tokens ignoreDelimiters (copied line) = [] ∨
        stackBytes (tokens ignoreDelimiters (copied line)) ≤ pgSize := by
  by_cases htokens : tokens ignoreDelimiters (copied line) = []
  · rw [startStack_nil m page htokens]
    simp [htokens]
  · obtain ⟨hfits, hstops⟩ := startStack_outcome m hpage htokens
    constructor
    · intro hinside
      refine .inr (le_of_not_gt fun hlt => ?_)
      obtain ⟨addr, hrun⟩ := hstops hlt
      exact hinside addr hrun
    · intro h addr
      obtain ⟨st, hrun, -⟩ := hfits (h.resolve_left htokens)
      rw [hrun]
      simp

theorem arguments_inside_page_ls : physBase ≤ 0xc0100000 ∧
    ∀ addr, startStack (fun _ => 0) 0xc0100000 ⟨[108, 115, 32, 45, 108], by decide⟩ ≠
      .error (.outside addr) :=
  ⟨by decide, (arguments_inside_page_iff ⟨[108, 115, 32, 45, 108], by decide⟩ (fun _ => 0)
    0xc0100000 (by decide)).mpr (.inr (by decide))⟩

def repeated (n : Nat) : List UInt8 := (List.replicate n [97, 32]).flatten

theorem tokens_repeated (n : Nat) : tokens ignoreDelimiters (repeated n) = replicate n [97] := by
  induction n with
  | zero => rfl
  | succ n ih =>
    have hcons : repeated (n + 1) = [97] ++ 32 :: repeated n := by
      simp [repeated, replicate_succ]
    have hword : ∀ c ∈ [97], c ∉ ignoreDelimiters.val := by simp [ignoreDelimiters]
    rw [hcons, tokens_append_cons hword (by decide) (by decide), ih, replicate_succ]

theorem zero_not_mem_repeated (n : Nat) : 0 ∉ repeated n := by
  intro hmem
  obtain ⟨word, hword, hmem⟩ := mem_flatten.mp hmem
  obtain rfl := eq_of_mem_replicate hword
  exact absurd hmem (by decide)

theorem length_repeated (n : Nat) : (repeated n).length = 2 * n := by
  simp [repeated, Nat.mul_comm]

theorem stackBytes_replicate (n : Nat) :
    stackBytes (replicate n [97]) = (2 * n + 3) / 4 * 4 + 4 * n + 16 := by
  simp [stackBytes, Nat.mul_comm]

-- 800 words of one letter need 1600 bytes, and 3216 for the pointers and the rest.
theorem arguments_leave_page : ∃ (line : CString) (addr : Nat), line.val = repeated 800 ∧
    startStack (fun _ => 0) 0xc0100000 line = .error (.outside addr) := by
  have hcopied : copied ⟨repeated 800, zero_not_mem_repeated 800⟩ = repeated 800 :=
    take_of_length_le (by rw [length_repeated]; decide)
  have htokens := tokens_repeated 800
  rw [← hcopied] at htokens
  have hne : replicate 800 ([97] : List UInt8) ≠ [] := nofun
  have hlarge : pgSize < stackBytes (replicate 800 [97]) := by
    rw [stackBytes_replicate]
    decide
  obtain ⟨addr, hrun⟩ := (startStack_outcome (fun _ => 0) (by decide : physBase ≤ 0xc0100000)
    (htokens ▸ hne)).2 (htokens ▸ hlarge)
  exact ⟨_, addr, rfl, hrun⟩

-- The pointer that start_process hands to load and then to palloc_free_page.
def fileName (m : Bytes) (page : Nat) (line : CString) : Except LibC.Fault (Option Nat) :=
  (strtokR pgSize ignoreDelimiters (fnCopy m page line) (some page) none).map Prod.fst

theorem fileName_cases (m : Bytes) (page : Nat) (line : CString) :
    (fileName m page line = .ok none ∧ ∀ c ∈ copied line, c ∈ ignoreDelimiters.val) ∨
    ∃ ds c rest, fileName m page line = .ok (some (page + ds.length)) ∧
      copied line = ds ++ c :: rest ∧ (∀ b ∈ ds, b ∈ ignoreDelimiters.val) ∧
      c ∉ ignoreDelimiters.val := by
  have hline : HoldsAt (fnCopy m page line) page (copied line) := holdsAt_write ..
  have h0 := zero_not_mem_copied line
  have hlen := length_copied_lt line
  rcases begins ignoreDelimiters (copied line) with hall | ⟨ds, t, tail, hl, hds, ht, hne, htail⟩
  · refine .inl ⟨?_, hall⟩
    rw [fileName, strtokR_blank hline h0 hall hlen none]
    rfl
  · rw [hl] at hline h0 hlen
    obtain ⟨m', save, rest, hrun, -⟩ := strtokR_token hline h0 hds ht hne htail hlen none
    obtain ⟨c, t, rfl⟩ := exists_cons_of_ne_nil hne
    refine .inr ⟨ds, c, t ++ tail, ?_, hl, hds, ht c mem_cons_self⟩
    rw [fileName, hrun]
    rfl

theorem fileName_eq_page_iff : fileName m page line = .ok (some page) ↔
      ∃ c ∈ line.val.head?, c ∉ ignoreDelimiters.val := by
  have hhead : (copied line).head? = line.val.head? := by
    rw [copied, head?_take, if_neg (by decide)]
  rw [← hhead]
  rcases fileName_cases m page line with ⟨hname, hall⟩ | ⟨ds, c, rest, hname, hl, hds, hc⟩
  · rw [hname]
    refine ⟨nofun, fun ⟨c, hmem, hc⟩ => ?_⟩
    exact absurd (hall c (mem_of_mem_head? hmem)) hc
  · rw [hname, hl]
    cases ds with
    | nil => exact ⟨fun _ => ⟨c, rfl, hc⟩, fun _ => rfl⟩
    | cons b ds =>
      constructor
      · intro h
        simp only [Except.ok.injEq, Option.some.injEq, length_cons] at h
        omega
      · rintro ⟨b', hb', hnot⟩
        cases hb'
        exact absurd (hds b mem_cons_self) hnot

def LineReturned (s : Palloc.State) (m : Bytes) (page : Nat) (line : CString) : Prop :=
  ∃ name, fileName m page line = .ok (some name) ∧ name = page ∧
    ∃ a, s.alloc.pallocFreeMultiple (some name) 1 = .ok a

theorem line_page_returned_iff (initRamPages limit : Nat) (memory : Nat → UInt8)
    (a : Palloc.Allocator) (s : Palloc.State) (hram : 256 < initRamPages)
    (hmax : initRamPages ≤ 2 ^ 18) (hinit : Palloc.pallocInit initRamPages limit memory = .ok a)
    (hs : (Palloc.system a).Reachable s) (page : Nat) (hpage : ⟨false, page, 1⟩ ∈ s.live)
    (m : Bytes) (line : CString) :
    LineReturned s m page line ↔ ∃ c ∈ line.val.head?, c ∉ ignoreDelimiters.val := by
  rw [← @fileName_eq_page_iff m line page]
  constructor
  · rintro ⟨name, hname, rfl, -⟩
    exact hname
  · intro hname
    obtain ⟨hlayout, hbits⟩ := pallocInit_ok hram hmax hinit
    obtain ⟨a', hfree, -⟩ := free_ok (inv_of_reachable hlayout hbits hs) hpage
    exact ⟨page, hname, rfl, a', hfree⟩

-- "ls"
theorem line_page_returned_ls : ∃ a s, Palloc.pallocInit 260 2 (fun _ => 0) = .ok a ∧
    (Palloc.system a).Reachable s ∧
    LineReturned s (fun _ => 0) (257 * 4096) ⟨[108, 115], by decide⟩ := by
  obtain ⟨a, s, hinit, hr, hlive⟩ := exists_two_grants
  exact ⟨a, s, hinit, hr, (line_page_returned_iff 260 2 _ a s (by decide) (by decide) hinit hr _
    (by simp [hlive]) _ _).mpr ⟨108, rfl, by decide⟩⟩

-- After " a" the assertion of palloc_free_multiple fails, and "" has no name at all.
theorem line_page_lost : ∃ a s, Palloc.pallocInit 260 2 (fun _ => 0) = .ok a ∧
    (Palloc.system a).Reachable s ∧ ⟨false, 257 * 4096, 1⟩ ∈ s.live ∧
    fileName (fun _ => 0) (257 * 4096) ⟨[32, 97], by decide⟩ = .ok (some (257 * 4096 + 1)) ∧
    s.alloc.pallocFreeMultiple (some (257 * 4096 + 1)) 1 = .error .assertion ∧
    fileName (fun _ => 0) (257 * 4096) ⟨[], by decide⟩ = .ok none := by
  obtain ⟨a, s, hinit, hr, hlive⟩ := exists_two_grants
  exact ⟨a, s, hinit, hr, by simp [hlive], rfl, rfl, rfl⟩

end Pintos.Userprog.CommandLine
