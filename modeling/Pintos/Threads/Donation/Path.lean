import Pintos.Threads.Locks.Theorems
import Pintos.Threads.Queues.Listed

namespace Pintos.Threads.Kernel

open List Thread Lib PriorityQueue

section

variable {k k' : Kernel} {t u : ThreadRef} {p : Int} {count : Nat} {c : Option ThreadRef}

def donationPath : Nat → Option ThreadRef → Int → Kernel → List ThreadRef
  | 0, _, _, _ => []
  | _ + 1, none, _, _ => []
  | count + 1, some cur, donatePri, k =>
    if (k.threads cur).priority ≥ donatePri then []
    else
      cur :: donationPath count (k.threads cur).waitingForTlock donatePri
        (k.setThread cur (.setPriority donatePri))

def donationVisits (k : Kernel) (lock : LockRef) : List ThreadRef :=
  donationPath maxDonations (k.holder lock) (k.threads k.current).priority
    (k.setThread k.current (.setWaitingForTlock (k.holder lock)))

def Exposed (k : Kernel) (t : ThreadRef) : Prop :=
  (∃ lock, k.holder lock = some t) ∨ ∃ u ∈ k.allList, (k.threads u).waitingForTlock = some t

def parksUnexposed (k : Kernel) (op : Op) : Bool :=
  !parks op || ((k.threads k.current).acquiredLocks = [] &&
    k.allList.all fun u => (k.threads u).waitingForTlock ≠ some k.current)

section Donate

-- A set of threads that links do not lead out of, each of them either queued
-- or of the donated priority already.
variable {P : ThreadRef → Prop}

theorem lockDonate_ok
    (hP : ∀ t, P t → k.live t = true ∧ (p ≤ (k.threads t).priority ∨ (k.threads t).threadPl ≠ none))
    (hnext : ∀ t u, P t → (k.threads t).waitingForTlock = some u → P u)
    (hc : ∀ t, c = some t → P t) : ∃ k', lockDonate count c p k = .ok k' := by
  induction count generalizing c k with
  | zero => exact ⟨k, rfl⟩
  | succ count ih =>
    cases c with
    | none => exact ⟨k, rfl⟩
    | some t =>
      have ht := hc t rfl
      obtain ⟨hv, hor⟩ := hP t ht
      unfold lockDonate
      rw [if_neg (by simp [hv])]
      split_ifs with hge
      · exact ⟨k, rfl⟩
      · obtain ⟨list, hl⟩ := Option.ne_none_iff_exists'.mp (hor.resolve_left hge)
        rw [setThread_setThread]
        simp only [setThread_threads_self, setDonated_threadPl, setPriority_threadPl, hl]
        apply ih
        · intro u hu
          obtain ⟨huv, huor⟩ := hP u hu
          refine ⟨huv, ?_⟩
          by_cases hut : u = t
          · subst hut
            exact .inl (by simp [listUpdateElem])
          · simpa [listUpdateElem, hut] using huor
        · intro u v hu huv
          refine hnext u v hu ?_
          by_cases hut : u = t
          · subst hut
            simpa [listUpdateElem] using huv
          · simpa [listUpdateElem, hut] using huv
        · intro u hu
          exact hnext t u ht hu

theorem donationPath_mem (hnext : ∀ t u, P t → (k.threads t).waitingForTlock = some u → P u)
    (hc : ∀ t, c = some t → P t) (ht : t ∈ donationPath count c p k) :
    P t ∧ (k.threads t).priority < p := by
  induction count generalizing c k with
  | zero => cases ht
  | succ count ih =>
    cases c with
    | none => cases ht
    | some u =>
      unfold donationPath at ht
      split_ifs at ht with hge
      · cases ht
      · rcases mem_cons.mp ht with rfl | ht
        · exact ⟨hc _ rfl, not_le.mp hge⟩
        · have hrec := ih (k := k.setThread u (.setPriority p)) ?_ ?_ ht
          · by_cases htu : t = u
            · subst htu
              simp at hrec
            · simpa [htu] using hrec
          · intro v w hv hw
            refine hnext v w hv ?_
            rw [← hw]
            exact (setThread_field waitingForTlock _ rfl v).symm
          · intro v hv
            exact hnext u v (hc u rfl) hv

end Donate

theorem donationPath_congr (hp : ∀ t, (k'.threads t).priority = (k.threads t).priority)
    (hl : ∀ t, (k'.threads t).waitingForTlock = (k.threads t).waitingForTlock) :
    donationPath count c p k' = donationPath count c p k := by
  induction count generalizing c k k' with
  | zero => rfl
  | succ count ih =>
    cases c with
    | none => rfl
    | some t =>
      unfold donationPath
      rw [hp, hl]
      split_ifs
      · rfl
      · congr 1
        apply ih
        · intro u
          by_cases hu : u = t
          · subst hu
            simp
          · simpa [hu] using hp u
        · intro u
          by_cases hu : u = t
          · subst hu
            simpa using hl u
          · simpa [hu] using hl u

theorem visit_threads (k : Kernel) (cur : ThreadRef) (list : ListRef) (u : ThreadRef) :
    (((k.setThread cur (.setPriority p)).setThread cur (.setDonated true)).listUpdateElem list
      cur).threads u = if u = cur then ((k.threads cur).setPriority p).setDonated true
        else k.threads u := by
  by_cases hu : u = cur
  · subst hu
    simp [listUpdateElem]
  · simp [listUpdateElem, hu]

theorem lockDonate_path (hd : lockDonate count c p k = .ok k') : (∀ t, (k'.threads t).priority =
      if t ∈ donationPath count c p k then p else (k.threads t).priority) ∧
    (∀ t, (k'.threads t).donated =
      if t ∈ donationPath count c p k then true else (k.threads t).donated) ∧
    (∀ t, (k'.threads t).originalPriority = (k.threads t).originalPriority) ∧
    ∀ t ∈ donationPath count c p k, k.live t = true := by
  induction count generalizing c k with
  | zero =>
    cases hd
    simp [donationPath]
  | succ count ih =>
    cases c with
    | none =>
      cases hd
      simp [donationPath]
    | some cur =>
      unfold lockDonate at hd
      unfold donationPath
      split_ifs at hd with hv hge
      · cases hd
        simp [hge]
      · rw [if_neg hge]
        simp only at hd
        split at hd
        · cases hd
        · rename_i list hl
          obtain ⟨hpri, hdon, horig, hlive⟩ := ih hd
          -- the path sees neither the donated flag nor the lists
          have hpath : donationPath count (k.threads cur).waitingForTlock p
              (k.setThread cur (.setPriority p)) =
              donationPath count (((k.setThread cur (.setPriority p)).setThread cur
                (.setDonated true)).threads cur).waitingForTlock p
                (((k.setThread cur (.setPriority p)).setThread cur
                  (.setDonated true)).listUpdateElem list cur) := by
            symm
            rw [setThread_setThread, setThread_threads_self]
            apply donationPath_congr
            · intro u
              rw [← setThread_setThread, visit_threads]
              by_cases hu : u = cur <;> simp [hu]
            · intro u
              rw [← setThread_setThread, visit_threads]
              by_cases hu : u = cur <;> simp [hu]
          rw [← hpath] at hpri hdon hlive
          refine ⟨?_, ?_, ?_, ?_⟩
          · intro u
            rw [hpri u, visit_threads]
            by_cases hu : u = cur <;> simp [hu]
          · intro u
            rw [hdon u, visit_threads]
            by_cases hu : u = cur <;> simp [hu]
          · intro u
            rw [horig u, visit_threads]
            by_cases hu : u = cur <;> simp [hu]
          · intro u hu
            rcases mem_cons.mp hu with rfl | hu
            · simpa using hv
            · exact hlive u hu

theorem donationPath_support (ht : t ∈ donationPath count c p k) :
    c = some t ∨ ∃ r ∈ donationPath count c p k, (k.threads r).waitingForTlock = some t := by
  induction count generalizing c k with
  | zero => cases ht
  | succ count ih =>
    cases c with
    | none => cases ht
    | some cur =>
      unfold donationPath at ht ⊢
      split_ifs at ht ⊢
      · cases ht
      · rcases mem_cons.mp ht with rfl | ht
        · exact .inl rfl
        · right
          rcases ih ht with hlink | ⟨r, hr, hlink⟩
          · exact ⟨cur, mem_cons_self, hlink⟩
          · refine ⟨r, mem_cons_of_mem _ hr, ?_⟩
            rw [← hlink]
            exact (setThread_field waitingForTlock _ rfl r).symm

theorem donationPath_closed (hlen : (donationPath count c p k).length < count) :
    (∀ u, c = some u → u ∈ donationPath count c p k ∨ p ≤ (k.threads u).priority) ∧
    ∀ r ∈ donationPath count c p k, ∀ u, (k.threads r).waitingForTlock = some u →
      u ∈ donationPath count c p k ∨ p ≤ (k.threads u).priority := by
  induction count generalizing c k with
  | zero => exact absurd hlen (Nat.not_lt_zero _)
  | succ count ih =>
    cases c with
    | none => exact ⟨nofun, nofun⟩
    | some cur =>
      unfold donationPath at hlen ⊢
      split_ifs at hlen ⊢ with hge
      · refine ⟨?_, nofun⟩
        rintro u hu
        obtain rfl := Option.some.inj hu
        exact .inr hge
      · rw [length_cons] at hlen
        obtain ⟨hfirst, hrest⟩ := ih (Nat.lt_of_succ_lt_succ hlen)
        -- a thread raised earlier in the walk stops it as well
        have hback : ∀ u, u ∈ donationPath count (k.threads cur).waitingForTlock p
            (k.setThread cur (.setPriority p)) ∨
            p ≤ ((k.setThread cur (.setPriority p)).threads u).priority →
            u ∈ cur :: donationPath count (k.threads cur).waitingForTlock p
              (k.setThread cur (.setPriority p)) ∨ p ≤ (k.threads u).priority := by
          rintro u (hu | hu)
          · exact .inl (mem_cons_of_mem _ hu)
          · by_cases huc : u = cur
            · exact .inl (huc ▸ mem_cons_self)
            · exact .inr (by simpa [huc] using hu)
        refine ⟨?_, ?_⟩
        · intro u hu
          obtain rfl := Option.some.inj hu
          exact .inl mem_cons_self
        · intro r hr u hu
          apply hback
          rcases mem_cons.mp hr with rfl | hr
          · exact hfirst u hu
          · refine hrest r hr u ?_
            rw [← hu]
            exact setThread_field waitingForTlock _ rfl r

end

variable {k k' : Kernel} {t u : ThreadRef} {list : ListRef} {p : Int} {c : List ThreadRef}
  {first : Option ThreadRef} {count : Nat}

inductive LinkChain (k : Kernel) : Option ThreadRef → List ThreadRef → Prop
  | nil : LinkChain k none []
  | cons {t : ThreadRef} {c : List ThreadRef}
      (rest : LinkChain k (k.threads t).waitingForTlock c) : LinkChain k (some t) (t :: c)

structure InPlace (k : Kernel) (t : ThreadRef) : Prop where
  live : k.live t = true
  placed : ∃ list, (k.threads t).threadPl = some list ∧ t ∈ k.lists list ∧
    (∀ other, t ∈ k.lists other → other = list) ∧ (k.lists list).Nodup ∧
    PriorityQueue.Descending k.pri (k.lists list)

def visit (k : Kernel) (t : ThreadRef) (p : Int) (list : ListRef) : Kernel :=
  ((k.setThread t (.setPriority p)).setThread t (.setDonated true)).listUpdateElem list t

theorem pri_visit (k : Kernel) (t u : ThreadRef) (p : Int) (list : ListRef) :
    (k.visit t p list).pri u = if u = t then p else k.pri u := by
  unfold pri
  rw [visit, visit_threads]
  split_ifs <;> rfl

theorem link_visit (k : Kernel) (t u : ThreadRef) (p : Int) (list : ListRef) :
    ((k.visit t p list).threads u).waitingForTlock = (k.threads u).waitingForTlock ∧
      ((k.visit t p list).threads u).threadPl = (k.threads u).threadPl := by
  rw [visit, visit_threads]
  split_ifs with hu
  · rw [hu]
    exact ⟨rfl, rfl⟩
  · exact ⟨rfl, rfl⟩

theorem lists_visit_self (k : Kernel) (t : ThreadRef) (p : Int) (list : ListRef) :
    (k.visit t p list).lists list = insert (k.visit t p list).pri t ((k.lists list).erase t) := by
  unfold visit listUpdateElem
  rw [listInsertOrdered_eq, setList_lists, Function.update_self]
  rfl

theorem lists_visit_of_ne {other : ListRef} (hne : other ≠ list) (hmem : t ∉ k.lists other) :
    (k.visit t p list).lists other = k.lists other := by
  unfold visit listUpdateElem
  rw [listInsertOrdered_eq, setList_lists, Function.update_of_ne hne]
  exact erase_of_not_mem hmem

structure Rearranged (k k' : Kernel) : Prop where
  perm : ∀ list, (k'.lists list).Perm (k.lists list)
  sorted : ∀ list, (k.lists list).Nodup → PriorityQueue.Descending k.pri (k.lists list) →
    PriorityQueue.Descending k'.pri (k'.lists list)

theorem Rearranged.refl (k : Kernel) : k.Rearranged k := ⟨fun _ => List.Perm.refl _, fun _ _ h => h⟩

theorem Rearranged.trans {k1 : Kernel} (h : k.Rearranged k1) (h' : k1.Rearranged k') :
    k.Rearranged k' := by
  refine ⟨fun list => (h'.perm list).trans (h.perm list), fun list hnodup hsorted => ?_⟩
  exact h'.sorted list ((h.perm list).nodup_iff.mpr hnodup) (h.sorted list hnodup hsorted)

theorem rearranged_visit (hmem : t ∈ k.lists list)
    (honly : ∀ other, t ∈ k.lists other → other = list) : k.Rearranged (k.visit t p list) := by
  have hother : ∀ other, other ≠ list → t ∉ k.lists other := fun other hne h => hne (honly other h)
  have hsame : ∀ u, u ≠ t → k.pri u = (k.visit t p list).pri u := by
    intro u hu
    rw [pri_visit, if_neg hu]
  constructor
  · intro other
    by_cases hl : other = list
    · rw [hl, lists_visit_self]
      exact (insert_perm ..).trans (perm_cons_erase hmem).symm
    · rw [lists_visit_of_ne hl (hother other hl)]
  · intro other hnodup hsorted
    by_cases hl : other = list
    · rw [hl] at hnodup hsorted ⊢
      rw [lists_visit_self]
      -- the rest of the list does not see the new priority
      apply descending_insert
      refine (descending_congr fun u hu => hsame u ?_).mp
        (descending_erase hsorted t)
      rintro rfl
      exact hnodup.not_mem_erase hu
    · rw [lists_visit_of_ne hl (hother other hl)]
      refine (descending_congr fun u hu => hsame u ?_).mp hsorted
      rintro rfl
      exact hother other hl hu

theorem InPlace.visit (h : k.InPlace u) (hmem : t ∈ k.lists list)
    (honly : ∀ other, t ∈ k.lists other → other = list) : (k.visit t p list).InPlace u := by
  obtain ⟨hlive, home, hpl, hin, hin', hnodup, hsorted⟩ := h
  have hr := rearranged_visit (p := p) hmem honly
  refine ⟨hlive, home, (link_visit k t u p list).2.trans hpl, (hr.perm home).mem_iff.mpr hin,
    fun other ho => hin' other ((hr.perm other).mem_iff.mp ho),
    (hr.perm home).nodup_iff.mpr hnodup, hr.sorted home hnodup hsorted⟩

theorem LinkChain.congr (h : k.LinkChain first c)
    (hlinks : ∀ t, (k'.threads t).waitingForTlock = (k.threads t).waitingForTlock) :
    k'.LinkChain first c := by
  induction h with
  | nil => exact .nil
  | cons _ ih => exact .cons (hlinks _ ▸ ih)

-- The loop stops at the first thread that has the priority already, and with it all the
-- threads behind it do.
theorem lockDonate_chain (hchain : k.LinkChain first c) (hlen : c.length ≤ count) (hnodup : c.Nodup)
    (hmono : c.Pairwise fun a b => k.pri a ≤ k.pri b) (hplaced : ∀ t ∈ c, k.InPlace t) :
    ∃ k', lockDonate count first p k = .ok k' ∧ (∀ t ∈ c, k'.pri t = max (k.pri t) p) ∧
      (∀ t, t ∉ c → k'.pri t = k.pri t) ∧ k.Rearranged k' := by
  induction c generalizing k first count with
  | nil =>
    cases hchain
    refine ⟨k, ?_, by simp, fun _ _ => rfl, Rearranged.refl k⟩
    cases count <;> rfl
  | cons t c ih =>
    obtain _ | hrest := hchain
    obtain ⟨hlow, hmono⟩ := pairwise_cons.mp hmono
    obtain ⟨hnew, hnodup⟩ := nodup_cons.mp hnodup
    obtain ⟨hlive, list, hpl, hmem, honly, -, -⟩ := hplaced t mem_cons_self
    match count with
    | 0 => simp at hlen
    | count + 1 =>
      unfold lockDonate
      rw [if_neg (by simp [hlive])]
      by_cases hge : (k.threads t).priority ≥ p
      · rw [if_pos hge]
        refine ⟨k, rfl, fun u hu => ?_, fun _ _ => rfl, Rearranged.refl k⟩
        have hle : k.pri t ≤ k.pri u := by
          rcases mem_cons.mp hu with rfl | hu
          · exact le_rfl
          · exact hlow u hu
        exact (max_eq_left (le_trans hge hle)).symm
      · rw [if_neg hge]
        simp only [setThread_setThread, setThread_threads_self, setDonated_threadPl,
          setPriority_threadPl, hpl, setDonated_waitingForTlock,
          setPriority_waitingForTlock]
        have hne : ∀ u ∈ c, u ≠ t := fun u hu h => hnew (h ▸ hu)
        have hsame : ∀ u ∈ c, (k.visit t p list).pri u = k.pri u := by
          intro u hu
          rw [pri_visit, if_neg (hne u hu)]
        obtain ⟨k', hrun, hraised, hkept, hre⟩ := ih (k := k.visit t p list)
          (hrest.congr fun u => (link_visit k t u p list).1) (by simpa using hlen) hnodup
          (hmono.imp_of_mem fun ha hb hab => by rwa [hsame _ ha, hsame _ hb])
          (fun u hu => (hplaced u (mem_cons_of_mem _ hu)).visit hmem honly)
        have hrun' : lockDonate count (k.threads t).waitingForTlock p
            ((k.setThread t fun x => (x.setPriority p).setDonated true).listUpdateElem list
              t) = .ok k' := by
          rw [← hrun, Kernel.visit, setThread_setThread]
        refine ⟨k', hrun', fun u hu => ?_, fun u hu => ?_, (rearranged_visit hmem honly).trans hre⟩
        · rcases mem_cons.mp hu with rfl | hu
          · rw [hkept u hnew, pri_visit, if_pos rfl]
            exact (max_eq_right (le_of_lt (not_le.mp hge))).symm
          · rw [hraised u hu, hsame u hu]
        · obtain ⟨hut, huc⟩ := not_or.mp (mt mem_cons.mpr hu)
          rw [hkept u huc, pri_visit, if_neg hut]

theorem nested_donation_reaches_chain (k : Kernel) (lock : LockRef) (donatePri : Int)
    (c : List ThreadRef) (hchain : k.LinkChain (k.holder lock) c) (hacyclic : c.Nodup)
    (hlen : c.length ≤ 9) (hmono : c.IsChain fun a b => k.pri a ≤ k.pri b)
    (hplaced : ∀ t ∈ c, k.InPlace t) :
    ∃ k', lockDonate maxDonations (k.holder lock) donatePri k = .ok k' ∧
      (∀ t ∈ c, (k'.threads t).priority = max (k.threads t).priority donatePri) ∧
      (∀ t, t ∉ c → (k'.threads t).priority = (k.threads t).priority) ∧
      (∀ list, (k'.lists list).Perm (k.lists list)) ∧
      ∀ t ∈ c, ∀ list, (k.threads t).threadPl = some list →
        PriorityQueue.Descending k'.pri (k'.lists list) := by
  have htrans : IsTrans ThreadRef fun a b => k.pri a ≤ k.pri b := ⟨fun _ _ _ => le_trans⟩
  obtain ⟨k', hrun, hraised, hkept, hre⟩ := lockDonate_chain (p := donatePri) hchain hlen
    hacyclic (isChain_iff_pairwise.mp hmono) hplaced
  refine ⟨k', hrun, hraised, hkept, hre.perm, fun t ht list hpl => ?_⟩
  obtain ⟨-, home, hpl', -, -, hnodup, hsorted⟩ := hplaced t ht
  obtain rfl := Option.some.inj (hpl.symm.trans hpl')
  exact hre.sorted list hnodup hsorted

def twoLinks : Kernel :=
  { blank false fun _ => 0 with
    threads := fun t =>
      if t = 5 then
        { blankThread with
          priority := 10, threadPl := some (.waiters (.ofLock (.user 1)))
          waitingForTlock := some 6 }
      else { blankThread with priority := 20, threadPl := some .ready }
    live := fun _ => true
    lists := fun list =>
      if list = .ready then [6] else if list = .waiters (.ofLock (.user 1)) then [5] else []
    holder := fun lock => if lock = .user 0 then some 5 else some 6 }

theorem nested_donation_reaches_chain_two :
    ∃ k', lockDonate maxDonations (twoLinks.holder (.user 0)) 40 twoLinks = .ok k' ∧
      (k'.threads 5).priority = 40 ∧ (k'.threads 6).priority = 40 := by
  have hplaced : ∀ t ∈ [5, 6], twoLinks.InPlace t := by
    intro t ht
    rcases mem_cons.mp ht with rfl | ht
    · refine ⟨rfl, .waiters (.ofLock (.user 1)), rfl, by decide, fun other ho => ?_, by decide,
        pairwise_singleton _ _⟩
      simp only [twoLinks] at ho
      split_ifs at ho with _ hl
      · simp at ho
      · exact hl
      · simp at ho
    · obtain rfl := mem_singleton.mp ht
      refine ⟨rfl, .ready, rfl, by decide, fun other ho => ?_, by decide, pairwise_singleton _ _⟩
      simp only [twoLinks] at ho
      split_ifs at ho with hl
      · exact hl
      · simp at ho
      · simp at ho
  obtain ⟨k', hrun, hraised, -⟩ := nested_donation_reaches_chain twoLinks (.user 0) 40 [5, 6]
    (.cons (.cons .nil)) (by decide) (by decide) (by decide) hplaced
  exact ⟨k', hrun, hraised 5 (by decide), hraised 6 (by decide)⟩

end Pintos.Threads.Kernel
