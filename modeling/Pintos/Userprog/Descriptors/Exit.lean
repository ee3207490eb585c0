import Pintos.Userprog.Descriptors

namespace Pintos.Userprog.Fdt

open Function LibKernel Lib List
open Vm (FileRef)

variable {fdt : Fdt} {i : Nat} {mem : FileDescriptor → Nat → Bool}

-- The table in hash_clear, with the files closed and the records freed so far.
structure Exit where
  fdt : Fdt
  closed : List (Option FileRef)
  freed : List Place

-- fdt_close as the destructor. hash_delete looks at the records of a bucket, and a table that
-- gets new buckets loses the one that hash_clear is at.
def closeAction (s : Exit) (entry : FileDescriptor) (mem : Nat → Bool) : Option Exit :=
  if ∃ d ∈ entry :: s.fdt.findBucket entry, d.place ∈ s.freed then none
  else
    let fdt := s.fdt.fdtClose entry mem
    if fdt.bucketCnt = s.fdt.bucketCnt then
      some ⟨fdt, s.closed ++ [entry.file], s.freed ++ [entry.place]⟩
    else none

def setBucket (fdt : Fdt) (i : Nat) (bucket : List FileDescriptor) : Fdt :=
  { fdt with buckets := update fdt.buckets i bucket }

-- The inner loop of hash_clear: none if it takes more rounds.
def clearBucket (i : Nat) (mem : FileDescriptor → Nat → Bool) : Nat → Exit → Option Exit
  | 0, s => if s.fdt.buckets i = [] then some s else none
  | rounds + 1, s =>
    match s.fdt.buckets i with
    | [] => some s
    | entry :: rest => do
      let s ← closeAction { s with fdt := s.fdt.setBucket i rest } entry (mem entry)
      clearBucket i mem rounds s

def clearBuckets (mem : FileDescriptor → Nat → Bool) (is : List Nat) (s : Exit) : Option Exit :=
  is.foldlM (fun s i => clearBucket i mem (s.fdt.buckets i).length s) s

def hashDestroy (fdt : Fdt) (mem : FileDescriptor → Nat → Bool) : Option Exit :=
  (clearBuckets mem (List.range fdt.bucketCnt) ⟨fdt, [], []⟩).map fun s =>
    { s with fdt := { s.fdt with elemCnt := 0 } }

theorem fdtClose_popped {entry : FileDescriptor} (mem : Nat → Bool)
    (hkey : ∀ a b, fdt.equal a b ↔ a.fd = b.fd)
    (hne : ∀ d ∈ fdt.findBucket entry, d.fd ≠ entry.fd) : fdt.fdtClose entry mem = fdt := by
  have hfind : fdt.find entry = none :=
    find?_eq_none.mpr fun d hd heq => hne d hd ((hkey d entry).mp heq)
  simp only [fdtClose, Hash.delete, hfind]

theorem clearBucket_eq (es : List FileDescriptor) (closed : List (Option FileRef))
    (freed : List Place) (hes : fdt.buckets i = es) (hidx : ∀ d ∈ es, fdt.bucketIdx d = i)
    (hkey : ∀ a b, fdt.equal a b ↔ a.fd = b.fd) (hfds : (es.map (·.fd)).Nodup)
    (hplaces : (freed ++ es.map (·.place)).Nodup) :
    clearBucket i mem es.length ⟨fdt, closed, freed⟩ = some ⟨fdt.setBucket i [],
      closed ++ es.map (·.file), freed ++ es.map (·.place)⟩ := by
  induction es generalizing fdt closed freed with
  | nil =>
    have hsame : fdt.setBucket i [] = fdt := by rw [setBucket, ← hes, update_eq_self]
    simp [clearBucket, hes, hsame]
  | cons entry rest ih =>
    have hbucket : (fdt.setBucket i rest).findBucket entry = rest := by
      rw [Hash.findBucket, show (fdt.setBucket i rest).bucketIdx entry = i from
        hidx entry mem_cons_self]
      exact update_self ..
    obtain ⟨hfirst, hrest⟩ := nodup_cons.mp hfds
    have hunfreed : ¬ ∃ d ∈ entry :: (fdt.setBucket i rest).findBucket entry, d.place ∈ freed := by
      rintro ⟨d, hd, hmem⟩
      rw [hbucket] at hd
      exact (nodup_append.mp hplaces).2.2 _ hmem _ (mem_map_of_mem hd) rfl
    have hclose : (fdt.setBucket i rest).fdtClose entry (mem entry) = fdt.setBucket i rest := by
      refine fdtClose_popped _ hkey ?_
      rw [hbucket]
      intro d hd heq
      exact hfirst (mem_map.mpr ⟨d, hd, heq⟩)
    simp only [length_cons, clearBucket, hes, closeAction, if_neg hunfreed, hclose, if_true,
      Option.bind_eq_bind, Option.bind_some]
    have hrun := @ih (fdt.setBucket i rest) (closed ++ [entry.file]) (freed ++ [entry.place])
      (update_self ..) (fun d hd => hidx d (mem_cons_of_mem _ hd)) hkey hrest
      (by simpa using hplaces)
    simpa [setBucket] using hrun

theorem clearBuckets_eq (is : List Nat) (closed : List (Option FileRef)) (freed : List Place)
    (his : is.Nodup) (hidx : ∀ i ∈ is, ∀ d ∈ fdt.buckets i, fdt.bucketIdx d = i)
    (hkey : ∀ a b, fdt.equal a b ↔ a.fd = b.fd) (hfds : ((is.flatMap fdt.buckets).map (·.fd)).Nodup)
    (hplaces : (freed ++ (is.flatMap fdt.buckets).map (·.place)).Nodup) :
    ∃ fdt', clearBuckets mem is ⟨fdt, closed, freed⟩ = some ⟨fdt',
      closed ++ (is.flatMap fdt.buckets).map (·.file),
      freed ++ (is.flatMap fdt.buckets).map (·.place)⟩ ∧ fdt'.bucketCnt = fdt.bucketCnt ∧
      (∀ i ∈ is, fdt'.buckets i = []) ∧ ∀ i, i ∉ is → fdt'.buckets i = fdt.buckets i := by
  induction is generalizing fdt closed freed with
  | nil => exact ⟨fdt, by simp [clearBuckets], rfl, nofun, fun _ _ => rfl⟩
  | cons i is ih =>
    obtain ⟨hi, his⟩ := nodup_cons.mp his
    have hothers : ∀ j, j ≠ i → (fdt.setBucket i []).buckets j = fdt.buckets j :=
      fun j hj => update_of_ne hj ..
    have hsame : is.flatMap (fdt.setBucket i []).buckets = is.flatMap fdt.buckets :=
      flatMap_congr fun j hj => hothers j fun heq => hi (heq ▸ hj)
    simp only [flatMap_cons, map_append, ← append_assoc] at hfds hplaces ⊢
    have hfirst := @clearBucket_eq fdt i mem (fdt.buckets i) closed freed rfl
      (hidx i mem_cons_self) hkey (nodup_append.mp hfds).1 (nodup_append.mp hplaces).1
    obtain ⟨fdt', hrun, hcnt, hcleared, hkept⟩ := @ih (fdt.setBucket i [])
      (closed ++ (fdt.buckets i).map (·.file)) (freed ++ (fdt.buckets i).map (·.place)) his
      (fun j hj d hd => hidx j (mem_cons_of_mem _ hj) d (by
        rwa [hothers j fun heq => hi (heq ▸ hj)] at hd))
      hkey (hsame ▸ (nodup_append.mp hfds).2.1) (hsame ▸ hplaces)
    rw [hsame] at hrun
    refine ⟨fdt', ?_, hcnt, fun j hj => ?_, fun j hj => ?_⟩
    · rw [clearBuckets, foldlM_cons, hfirst]
      exact hrun
    · rcases mem_cons.mp hj with rfl | hj
      · rw [hkept j hi]
        exact update_self ..
      · exact hcleared j hj
    · obtain ⟨hji, hj⟩ := not_or.mp (mem_cons.not.mp hj)
      rw [hkept j hj, hothers j hji]

theorem places_nodup_open (hk : fdt.KeyedBy FileDescriptor.fd)
    (h : (fdt.elems.map (·.place)).Nodup) (file : Option FileRef) {block : Option Nat}
    (hfresh : ¬ ∃ d ∈ fdt.elems, some d.place = block.map Place.heap) (mem : Nat → Bool) :
    ((fdt.syscallOpen file block mem).1.elems.map (·.place)).Nodup := by
  unfold Fdt.syscallOpen
  split
  · rename_i file block
    have houtcome := fdtInsertFrom_outcome (int32Max - 2) 2 ⟨.heap block, 0, some file⟩ mem hk
    rw [fdtInsert]
    generalize fdtInsertFrom _ _ _ _ _ = result at houtcome
    obtain ⟨fdt', assigned⟩ := result
    cases assigned with
    | none => exact (((houtcome.full rfl).2.map _).nodup_iff).mpr h
    | some n =>
      refine (((houtcome.assigned n rfl).2.2.2.map _).nodup_iff).mpr (nodup_cons.mpr ⟨?_, h⟩)
      intro hmem
      obtain ⟨d, hd, hplace⟩ := mem_map.mp hmem
      exact hfresh ⟨d, hd, congrArg some hplace⟩
  · exact h

theorem places_nodup_close (hk : fdt.KeyedBy FileDescriptor.fd)
    (h : (fdt.elems.map (·.place)).Nodup) (fd : Int) (mem : Nat → Bool) :
    ((fdt.syscallClose fd mem).elems.map (·.place)).Nodup := by
  obtain ⟨hkeyed, hperm, -⟩ := fdtSearch_spec hk fd mem
  have hsome := fdtSearch_eq_some_iff hk fd mem
  unfold Fdt.syscallClose
  generalize fdt.fdtSearch fd mem = searched at hkeyed hperm hsome
  obtain ⟨fdt', found⟩ := searched
  have hplaces : (fdt'.elems.map (·.place)).Nodup := (hperm.map _).nodup_iff.mpr h
  cases found with
  | none => exact hplaces
  | some entry =>
    have hfind : fdt'.find entry = some entry := (hkeyed.find_eq_some_iff _ _).mpr
      ⟨hperm.mem_iff.mpr ((hsome entry).mp rfl).1, rfl⟩
    obtain ⟨-, -, herase⟩ := hkeyed.delete_of_some hfind (mem 2)
    exact (nodup_cons.mp ((herase.map _).nodup_iff.mp hplaces)).2

theorem places_nodup (h : machine.Reachable fdt) : (fdt.elems.map (·.place)).Nodup := by
  apply h.invariant
  · rintro s rfl
    exact nodup_nil
  · intro s call s' hreach hplaces hstep
    have hk := (Sound.of_reachable hreach).keyed
    cases call with
    | «open» file block mem =>
      obtain ⟨hfresh, rfl⟩ : (¬ ∃ d ∈ s.elems, some d.place = block.map Place.heap) ∧
          (s.syscallOpen file block mem).1 = s' := by
        simpa [machine, System.ofExec, exec] using hstep
      exact places_nodup_open hk hplaces file hfresh mem
    | close fd mem =>
      cases hstep
      exact places_nodup_close hk hplaces fd mem
    | lookup fd mem =>
      cases hstep
      exact ((fdtSearch_spec hk fd mem).2.1.map _).nodup_iff.mpr hplaces

theorem exit_closes_once (fdt : Fdt) (h : machine.Reachable fdt)
    (mem : FileDescriptor → Nat → Bool) :
    ∃ s, hashDestroy fdt mem = some s ∧ s.closed = fdt.elems.map (·.file) ∧
      s.freed = fdt.elems.map (·.place) ∧ s.freed.Nodup ∧ s.fdt.elems = [] := by
  have hk := (Sound.of_reachable h).keyed
  have hplaces := places_nodup h
  obtain ⟨fdt', hrun, hcnt, hcleared, -⟩ := @clearBuckets_eq fdt mem
    (List.range fdt.bucketCnt) [] [] nodup_range (fun i _ d hd => hk.placed i d hd) hk.equal_iff
    hk.nodup hplaces
  refine ⟨_, by rw [hashDestroy, hrun]; rfl, rfl, rfl, hplaces, ?_⟩
  refine flatMap_eq_nil_iff.mpr fun i hi => hcleared i ?_
  rwa [← hcnt]

theorem exit_closes_two :
    ∃ fdt, machine.Reachable fdt ∧ ∃ s, hashDestroy fdt (fun _ => alternate) = some s ∧
      s.closed = [some 8, some 7] ∧ s.freed = [.heap 1, .heap 0] ∧ s.fdt.elems = [] := by
  obtain ⟨fdt, hreach, hfdt⟩ := System.exists_of_leadsTo start exec
    [.open (some 7) (some 0) alternate, .open (some 8) (some 1) alternate]
    (fun fdt => fdt.elems == [⟨.heap 1, 3, some 8⟩, ⟨.heap 0, 2, some 7⟩]) (by decide +kernel)
  obtain ⟨s, hrun, hclosed, hfreed, -, hempty⟩ := exit_closes_once fdt hreach fun _ => alternate
  rw [beq_iff_eq] at hfdt
  rw [hfdt] at hclosed hfreed
  exact ⟨fdt, hreach, s, hrun, hclosed, hfreed, hempty⟩

end Pintos.Userprog.Fdt
