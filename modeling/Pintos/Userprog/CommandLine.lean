import Mathlib.Algebra.GroupWithZero.Nat
import Mathlib.Data.List.Induction
import Pintos.Lib.Program
import Pintos.LibC.Strtok
import Pintos.Threads.Palloc

namespace Pintos.Userprog.CommandLine

open Lib LibC List Bytes

variable {α β : Type} {st st' : Stack} {content content' data t l : List UInt8}
  {ts : List (List UInt8)} {s savePtr : Option Nat} {a : Nat}

export Threads.Palloc (pgSize)

def physBase : Nat := 0xc0000000

def ignoreDelimiters : CString := ⟨[32, 9, 13], by decide⟩

-- Addresses below `physBase` are those of the new process. `esp` is what *ESP holds.
structure Stack where
  mem : Bytes
  esp : Nat

-- `outside` is a store beyond the page that setup_stack has mapped. The name that load is
-- given is read first of all.
inductive Fault
  | library (fault : LibC.Fault)
  | nullFileName
  | outside (addr : Nat)
deriving DecidableEq

abbrev Pushing := StateT Stack (Except Fault)

-- What the pointer ADR leads to, or zeros for a null pointer, is copied below *ESP.
def push (data : List UInt8) : Pushing Unit := fun st =>
  let esp := st.esp - data.length
  if data = [] ∨ physBase - pgSize ≤ esp then .ok ((), ⟨st.mem.write esp data, esp⟩)
  else .error (.outside esp)

def tokenize (s savePtr : Option Nat) : Pushing (Option Nat × Nat) := fun st =>
  match strtokR pgSize ignoreDelimiters st.mem s savePtr with
  | .error fault => .error (.library fault)
  | .ok (token, mem, savePtr) => .ok ((token, savePtr), { st with mem := mem })

def stringAt (m : Bytes) (a : Nat) : List UInt8 := m.read a (strnlen m a pgSize + 1)

def pushString (a : Nat) : Pushing Unit := do
  push (stringAt (← get).mem a)

-- The loop of parse_cmd_ln: a line has fewer tokens than a page has bytes.
def parseLoop : Nat → Option Nat → Option Nat → Nat → Pushing Nat
  | 0, _, _, _ => throw (.library .runaway)
  | fuel + 1, s, savePtr, count => do
      let (token, savePtr) ← tokenize s savePtr
      match token with
      | none => return count
      | some token =>
        pushString token
        parseLoop fuel none (some savePtr) (count + 1)

def parseCmdLn (cmdline : Nat) : Pushing Nat := parseLoop pgSize (some cmdline) none 0

def pushPointers : Nat → Nat → Pushing Unit
  | 0, _ => return ()
  | rounds + 1, argvDataPtr => do
      push (Bytes.ofWord argvDataPtr)
      let m := (← get).mem
      pushPointers rounds (argvDataPtr + (strnlen m argvDataPtr pgSize + 1))

def pushStackArgs (fileName cmdline : Nat) : Pushing Unit := do
  pushString fileName
  let argc := (← parseCmdLn cmdline) + 1
  let argvDataPtr := (← get).esp
  push (List.replicate (argvDataPtr % 4) 0)
  push (List.replicate 4 0)
  pushPointers argc argvDataPtr
  let argvPtrStrt := (← get).esp
  push (Bytes.ofWord argvPtrStrt)
  push (Bytes.ofWord argc)
  push (List.replicate 4 0)

def copied (line : CString) : List UInt8 := line.val.take (pgSize - 1)

def fnCopy (m : Bytes) (page : Nat) (line : CString) : Bytes := m.write page (copied line ++ [0])

-- start_process takes the name off the line, and load comes to push_stack_args with both.
def startProcess (page : Nat) : Pushing Unit := do
  let (fileName, cmdline) ← tokenize (some page) none
  match fileName with
  | none => throw .nullFileName
  | some fileName => pushStackArgs fileName cmdline

def startStack (m : Bytes) (page : Nat) (line : CString) : Except Fault Stack :=
  (startProcess page ⟨fnCopy m page line, physBase⟩).map Prod.snd

structure Holds (st : Stack) (content : List UInt8) : Prop where
  top : st.esp + content.length = physBase
  bytes : st.mem.read st.esp content.length = content

def SameAbove (m m' : Bytes) : Prop := ∀ i, physBase ≤ i → m' i = m i

-- From `st` the program pushes until the stack holds `content`; when that is more than the page
-- has room for, it is stopped by a store outside.
structure Pushes (x : Pushing α) (st : Stack) (content : List UInt8) (P : α → Stack → Prop) :
    Prop where
  fits : content.length ≤ pgSize → ∃ a st', x st = .ok (a, st') ∧ Holds st' content ∧ P a st'
  stops : pgSize < content.length → ∃ addr, x st = .error (.outside addr)

theorem Pushes.bind {x : Pushing α} {f : α → Pushing β} {P : α → Stack → Prop}
    {Q : β → Stack → Prop} (hx : Pushes x st content P)
    (hlen : content.length ≤ content'.length)
    (hf : ∀ a st', content.length ≤ pgSize → Holds st' content → P a st' →
      Pushes (f a) st' content' Q) :
    Pushes (x >>= f) st content' Q := by
  by_cases hfits : content.length ≤ pgSize
  · obtain ⟨a, st', hrun, hholds, hP⟩ := hx.fits hfits
    have hnext := hf a st' hfits hholds hP
    constructor
    · intro hle
      obtain ⟨b, st'', hrun', hend⟩ := hnext.fits hle
      exact ⟨b, st'', (bind_of_ok hrun).trans hrun', hend⟩
    · intro hlt
      obtain ⟨addr, hrun'⟩ := hnext.stops hlt
      exact ⟨addr, (bind_of_ok hrun).trans hrun'⟩
  · obtain ⟨addr, hrun⟩ := hx.stops (by omega)
    constructor
    · intro hle
      omega
    · intro _
      exact ⟨addr, bind_of_error hrun⟩

theorem Pushes.mono {x : Pushing α} {P Q : α → Stack → Prop} (hx : Pushes x st content P)
    (h : ∀ a st', Holds st' content → P a st' → Q a st') : Pushes x st content Q := by
  constructor
  · intro hle
    obtain ⟨a, st', hrun, hholds, hP⟩ := hx.fits hle
    exact ⟨a, st', hrun, hholds, h a st' hholds hP⟩
  · exact hx.stops

theorem Pushes.of_eq {x y : Pushing α} {P : α → Stack → Prop} (hrun : x st = y st')
    (hy : Pushes y st' content P) : Pushes x st content P := by
  constructor
  · rw [hrun]
    exact hy.fits
  · rw [hrun]
    exact hy.stops

theorem Pushes.of_ok {x : Pushing α} {P : α → Stack → Prop} {a : α}
    (hle : content.length ≤ pgSize) (hrun : x st = .ok (a, st')) (h' : Holds st' content)
    (hP : P a st') : Pushes x st content P := by
  constructor
  · intro _
    exact ⟨a, st', hrun, h', hP⟩
  · intro hlt
    omega

theorem push_pushes (h : Holds st content) (hle : content.length ≤ pgSize) (data : List UInt8) :
    Pushes (push data) st (data ++ content) fun _ st' => SameAbove st.mem st'.mem := by
  have htop := h.top
  have hbase : pgSize < physBase := by decide
  unfold push
  constructor
  · intro hfits
    rw [length_append] at hfits
    refine ⟨(), _, if_pos (.inr (by omega)), ⟨?_, ?_⟩, fun i hi => ?_⟩
    · simp only [length_append]
      omega
    · have hsplit : st.esp - data.length + data.length = st.esp := by omega
      simp only [length_append]
      rw [read_add, read_write, hsplit, read_write_of_disjoint (.inr (by omega)), h.bytes]
    · exact write_of_ge (by omega)
  · intro hlt
    rw [length_append] at hlt
    refine ⟨_, if_neg ?_⟩
    rw [not_or]
    constructor
    · rintro rfl
      simp only [length_nil] at hlt
      omega
    · omega

theorem Holds.above (before : List UInt8) (h : Holds st (before ++ content)) :
    Holds ⟨st.mem, st.esp + before.length⟩ content := by
  obtain ⟨htop, hbytes⟩ := h
  rw [length_append] at htop hbytes
  rw [read_add] at hbytes
  exact ⟨by simpa [Nat.add_assoc] using htop, (append_inj hbytes (by simp)).2⟩

theorem Holds.read (h : Holds st (data ++ content)) : st.mem.read st.esp data.length = data := by
  have hbytes := h.bytes
  rw [length_append, read_add] at hbytes
  exact (append_inj hbytes (by simp)).1

theorem Holds.holdsAt (h : Holds st ((t ++ [0]) ++ content)) : HoldsAt st.mem st.esp t := by
  have hread := h.read
  rwa [length_append] at hread

theorem Holds.word {v : Nat} (h : Holds st (ofWord v ++ content)) :
    st.mem.word st.esp = v % 2 ^ 32 := by
  have hread : st.mem.read st.esp 4 = ofWord v := h.read
  have hsame : (st.mem.write st.esp (ofWord v)).word st.esp = st.mem.word st.esp := by
    apply word_congr
    intro i hi
    rw [write_add hi 0, ← hread, getD_read hi]
  rw [← hsame, word_write_ofWord]

theorem Holds.congr {m : Bytes} (h : Holds st content)
    (hsame : ∀ i, i < physBase → m i = st.mem i) : Holds ⟨m, st.esp⟩ content := by
  have htop := h.top
  refine ⟨htop, ?_⟩
  change m.read st.esp content.length = content
  have hread : m.read st.esp content.length = st.mem.read st.esp content.length :=
    read_congr fun i hi => hsame _ (by omega)
  rw [hread, h.bytes]

theorem pushString_pushes {a : Nat} (h : Holds st content) (hle : content.length ≤ pgSize)
    (ht : HoldsAt st.mem a t) (h0 : 0 ∉ t) (hlen : t.length ≤ pgSize) :
    Pushes (pushString a) st ((t ++ [0]) ++ content) fun _ st' => SameAbove st.mem st'.mem := by
  have hstring : stringAt st.mem a = t ++ [0] := by
    unfold stringAt
    rw [strnlen_eq ht h0 hlen]
    exact ht
  have hrun : pushString a st = push (t ++ [0]) st := by
    change push (stringAt st.mem a) st = _
    rw [hstring]
  exact (push_pushes h hle (t ++ [0])).of_eq hrun

def strings : List (List UInt8) → List UInt8
  | [] => []
  | t :: ts => strings ts ++ (t ++ [0])

theorem strings_append (ts ts' : List (List UInt8)) :
    strings (ts ++ ts') = strings ts' ++ strings ts := by
  induction ts with
  | nil => simp [strings]
  | cons t ts ih => simp [strings, ih]

theorem strings_concat (ts : List (List UInt8)) (t : List UInt8) :
    strings (ts ++ [t]) = (t ++ [0]) ++ strings ts := by
  rw [strings_append]
  simp [strings]

def argAddr (ts : List (List UInt8)) (i : Nat) : Nat :=
  physBase - (strings (ts.take (i + 1))).length

def pointers (ts : List (List UInt8)) : List UInt8 :=
  (List.range ts.length).flatMap fun i => Bytes.ofWord (argAddr ts i)

theorem pointers_concat (ts : List (List UInt8)) (t : List UInt8) : pointers (ts ++ [t]) =
      pointers ts ++ ofWord (physBase - (strings (ts ++ [t])).length) := by
  unfold pointers
  rw [length_append, length_singleton, range_succ, flatMap_append]
  congr 1
  · rw [flatMap_def, flatMap_def]
    refine congrArg _ (map_congr_left fun i hi => ?_)
    have hlt : i + 1 ≤ ts.length := mem_range.mp hi
    unfold argAddr
    rw [take_append_of_le_length hlt]
  · have htake : (ts ++ [t]).take (ts.length + 1) = ts ++ [t] := take_of_length_le (by simp)
    simp only [flatMap_singleton, argAddr, htake]

theorem length_pointers (ts : List (List UInt8)) : (pointers ts).length = 4 * ts.length := by
  unfold pointers
  rw [length_flatMap]
  simp only [length_ofWord]
  rw [map_const', sum_replicate_nat, length_range, Nat.mul_comm]

section Tokens

theorem length_tokens_le (d : CString) (l : List UInt8) : (tokens d l).length ≤ l.length := by
  refine tokens_induct (P := fun l ts => ts.length ≤ l.length) (fun l => Nat.zero_le _) ?_ ?_ d l
  · intro ds t hne
    have hpos := length_pos_iff.mpr hne
    simp only [length_append, length_singleton]
    omega
  · intro ds t c rest ts _ ih
    simp only [length_append, length_cons]
    omega

theorem mem_tokens {d : CString} {l : List UInt8} (h : t ∈ tokens d l) :
    t.length ≤ l.length ∧ ∀ c ∈ t, c ∈ l := by
  refine tokens_induct (P := fun l ts => ∀ t ∈ ts, t.length ≤ l.length ∧ ∀ c ∈ t, c ∈ l)
    (fun l => nofun) ?_ ?_ d l t h
  · intro ds u _ t ht
    rw [mem_singleton.mp ht]
    exact ⟨by simp, fun b hb => by simp [hb]⟩
  · intro ds u c rest ts _ ih t ht
    simp only [length_append, length_cons]
    rcases mem_cons.mp ht with rfl | ht
    · exact ⟨by omega, fun b hb => by simp [hb]⟩
    · obtain ⟨hlen, hmem⟩ := ih t ht
      exact ⟨by omega, fun b hb => by simp [hmem b hb]⟩

end Tokens

theorem tokenize_ok {token : Option Nat} {mem : Bytes} {save : Nat}
    (h : strtokR pgSize ignoreDelimiters st.mem s savePtr = .ok (token, mem, save)) :
    tokenize s savePtr st = .ok ((token, save), ⟨mem, st.esp⟩) := by
  unfold tokenize
  rw [h]

theorem parseLoop_pushes (fuel : Nat) {count : Nat}
    (hs : s.or savePtr = some a) (h : Holds st content) (hle : content.length ≤ pgSize)
    (hline : HoldsAt st.mem a l) (h0 : 0 ∉ l) (habove : physBase ≤ a) (hlen : l.length < pgSize)
    (hfuel : (tokens ignoreDelimiters l).length < fuel) :
    Pushes (parseLoop fuel s savePtr count) st
      (strings (tokens ignoreDelimiters l) ++ content)
      fun n _ => n = count + (tokens ignoreDelimiters l).length := by
  induction fuel generalizing st content l a s savePtr count with
  | zero => omega
  | succ fuel ih =>
    have hsame : strtokR pgSize ignoreDelimiters st.mem s savePtr =
        strtokR pgSize ignoreDelimiters st.mem (some a) none := by
      unfold strtokR
      rw [hs]
      rfl
    rw [parseLoop]
    rcases begins ignoreDelimiters l with hall | ⟨ds, t, tail, rfl, hds, ht, hne, htail⟩
    · have hrun := hsame.trans (strtokR_blank hline h0 hall hlen none)
      rw [tokens_delimiters hall]
      refine Pushes.of_ok hle ((bind_of_ok (tokenize_ok hrun)).trans rfl) h ?_
      simp
    · obtain ⟨m', save, rest, hrun, htok, htoken, hrest, hrest0, hsave, hend, hkept⟩ :=
        strtokR_token hline h0 hds ht hne htail hlen none
      have hholds : Holds ⟨m', st.esp⟩ content :=
        h.congr fun i hi => (hkept i).trans (if_neg (by omega))
      have ht0 : 0 ∉ t := fun hmem => h0 (by simp [hmem])
      have hpos : 0 < t.length := length_pos_iff.mpr hne
      have htlen : t.length < pgSize := by
        simp only [length_append] at hlen
        omega
      rw [htok, length_cons] at hfuel
      refine Pushes.of_eq (bind_of_ok (tokenize_ok (hsame.trans hrun))) ?_
      rw [htok, strings, append_assoc]
      refine (pushString_pushes hholds hle htoken ht0 htlen.le).bind (by simp) ?_
      intro _ st' hroom hst' habove'
      have hrest' : HoldsAt st'.mem save rest := hrest.congr fun i _ => habove' _ (by omega)
      have hnext : Pushes (parseLoop fuel none (some save) (count + 1)) st'
          (strings (tokens ignoreDelimiters rest) ++ (t ++ [0] ++ content))
          fun n _ => n = count + 1 + (tokens ignoreDelimiters rest).length :=
        ih rfl hst' hroom hrest' hrest0 (by omega) (by omega) (by omega)
      exact hnext.mono fun n _ _ hn => by rw [hn, length_cons]; omega

-- The walk up the strings meets the last argument first, so argv[0] is pushed last.
theorem pushPointers_pushes (before : List UInt8) (hts : ∀ t ∈ ts, 0 ∉ t ∧ t.length ≤ pgSize)
    (h : Holds st (before ++ strings ts)) (hle : (before ++ strings ts).length ≤ pgSize) :
    Pushes (pushPointers ts.length (physBase - (strings ts).length)) st
      (pointers ts ++ (before ++ strings ts)) fun _ _ => True := by
  induction ts using List.reverseRecOn generalizing st before with
  | nil => exact Pushes.of_ok hle rfl h trivial
  | append_singleton ts t ih =>
    obtain ⟨ht0, htlen⟩ := hts t (by simp)
    rw [length_append, length_singleton, pushPointers, pointers_concat, append_assoc]
    refine (push_pushes h hle _).bind (by simp) ?_
    intro _ st' hroom hst' _
    rw [strings_concat] at hst' hroom ⊢
    have htop := hst'.top
    have haddr : st'.esp + (ofWord (physBase - (t ++ [0] ++ strings ts).length) ++
        before).length = physBase - (t ++ [0] ++ strings ts).length := by
      simp only [length_append] at htop ⊢
      omega
    generalize hptr : physBase - (t ++ [0] ++ strings ts).length = ptr at *
    have hstring : HoldsAt st'.mem ptr t := by
      rw [← haddr]
      rw [← append_assoc] at hst'
      exact (hst'.above (ofWord ptr ++ before)).holdsAt
    have hnext : ptr + (strnlen st'.mem ptr pgSize + 1) = physBase - (strings ts).length := by
      rw [strnlen_eq hstring ht0 htlen]
      simp only [length_append, length_singleton] at htop hptr ⊢
      omega
    refine Pushes.of_eq (bind_of_ok rfl) ?_
    rw [hnext]
    have hrest : Pushes (pushPointers ts.length (physBase - (strings ts).length)) st'
        (pointers ts ++ ((ofWord ptr ++ (before ++ (t ++ [0]))) ++ strings ts))
        fun _ _ => True :=
      ih _ (fun u hu => hts u (by simp [hu])) (by simpa using hst') (by simpa using hroom)
    simpa using hrest

def padding (ts : List (List UInt8)) : Nat := (physBase - (strings ts).length) % 4

def argvArea (ts : List (List UInt8)) : List UInt8 :=
  pointers ts ++ (List.replicate 4 0 ++ (List.replicate (padding ts) 0 ++ strings ts))

def frame (ts : List (List UInt8)) : List UInt8 :=
  List.replicate 4 0 ++ (Bytes.ofWord ts.length ++
    (Bytes.ofWord (physBase - (argvArea ts).length) ++ argvArea ts))

theorem Holds.esp_eq (h : Holds st content) : st.esp = physBase - content.length := by
  have htop := h.top
  omega

theorem pushStackArgs_pushes {cmdline : Nat} (h : Holds st []) (hname : HoldsAt st.mem a t)
    (ht0 : 0 ∉ t) (htlen : t.length < pgSize) (hline : HoldsAt st.mem cmdline l) (h0 : 0 ∉ l)
    (habove : physBase ≤ cmdline) (hlen : l.length < pgSize) :
    Pushes (pushStackArgs a cmdline) st (frame (t :: tokens ignoreDelimiters l))
      fun _ _ => True := by
  generalize hts : t :: tokens ignoreDelimiters l = ts
  have hstrings : strings ts = strings (tokens ignoreDelimiters l) ++ (t ++ [0]) := by
    rw [← hts, strings]
  have hargs : ∀ u ∈ ts, 0 ∉ u ∧ u.length ≤ pgSize := by
    intro u hu
    rw [← hts] at hu
    rcases mem_cons.mp hu with rfl | hu
    · exact ⟨ht0, htlen.le⟩
    · obtain ⟨hulen, hmem⟩ := mem_tokens hu
      exact ⟨fun hzero => h0 (hmem 0 hzero), by omega⟩
  have hcount : (tokens ignoreDelimiters l).length + 1 = ts.length := by
    rw [← hts, length_cons]
  unfold pushStackArgs
  refine (pushString_pushes h (Nat.zero_le _) hname ht0 htlen.le).bind ?_ ?_
  · simp only [frame, argvArea, hstrings, length_append, length_nil]
    omega
  intro _ st1 hroom1 hst1 habove1
  have hline1 : HoldsAt st1.mem cmdline l := hline.congr fun i _ => habove1 _ (by omega)
  have hfuel : (tokens ignoreDelimiters l).length < pgSize :=
    lt_of_le_of_lt (length_tokens_le _ _) hlen
  rw [append_nil] at hst1 hroom1
  refine (parseLoop_pushes pgSize rfl hst1 hroom1 hline1 h0 habove hlen hfuel).bind ?_ ?_
  · simp only [frame, argvArea, hstrings, length_append]
    omega
  intro n st2 hroom2 hst2 hn
  rw [← hstrings] at hst2 hroom2
  refine Pushes.of_eq (bind_of_ok rfl) ?_
  have hpad : st2.esp % 4 = padding ts := by
    rw [hst2.esp_eq]
    rfl
  rw [hpad]
  refine (push_pushes hst2 hroom2 _).bind ?_ ?_
  · simp only [frame, argvArea, length_append]
    omega
  intro _ st3 hroom3 hst3 _
  refine (push_pushes hst3 hroom3 _).bind ?_ ?_
  · simp only [frame, argvArea, length_append]
    omega
  intro _ st4 hroom4 hst4 _
  rw [hn, Nat.zero_add, hcount, hst2.esp_eq]
  have hptrs := pushPointers_pushes (List.replicate 4 0 ++ List.replicate (padding ts) 0) hargs
    (by simpa using hst4) (by simpa using hroom4)
  rw [append_assoc] at hptrs
  refine hptrs.bind ?_ ?_
  · simp only [frame, argvArea, length_append]
    omega
  intro _ st5 hroom5 hst5 _
  refine Pushes.of_eq (bind_of_ok rfl) ?_
  rw [hst5.esp_eq]
  refine (push_pushes hst5 hroom5 _).bind ?_ ?_
  · simp only [frame, argvArea, length_append]
    omega
  intro _ st6 hroom6 hst6 _
  refine (push_pushes hst6 hroom6 _).bind ?_ ?_
  · simp only [frame, argvArea, length_append]
    omega
  intro _ st7 hroom7 hst7 _
  exact (push_pushes hst7 hroom7 _).mono fun _ _ _ _ => trivial

def stackBytes (ts : List (List UInt8)) : Nat :=
  ((ts.map fun t => t.length + 1).sum + 3) / 4 * 4 + 4 * ts.length + 16

theorem length_strings (ts : List (List UInt8)) :
    (strings ts).length = (ts.map fun t => t.length + 1).sum := by
  induction ts with
  | nil => rfl
  | cons t ts ih =>
    simp only [strings, length_append, length_singleton, ih, map_cons, sum_cons]
    omega

theorem length_frame (h : (strings ts).length ≤ physBase) : (frame ts).length = stackBytes ts := by
  have hbase : physBase % 4 = 0 := by decide
  have hstrings := length_strings ts
  simp only [frame, argvArea, padding, stackBytes, length_append, length_replicate,
    length_ofWord, length_pointers]
  omega

end Pintos.Userprog.CommandLine
