import Pintos.Threads.Queues

namespace Pintos.Threads.Kernel

open Function Lib List PriorityQueue

variable {k k' : Kernel} {t u : ThreadRef} {list other : ListRef}

section

variable (h : k.Queues)
include h

theorem Queues.congr {s : Kernel} (ht : s.threads = k.threads) (hv : s.live = k.live)
    (hl : s.lists = k.lists) (hi : s.idleThread = k.idleThread) : s.Queues := by
  have hp : s.pri = k.pri := by
    funext t
    simp only [pri, ht]
  constructor
  · rw [ht, hv, hl]; exact h.member
  · rw [ht, hv, hl, hi]; exact h.ready
  · rw [hl]; exact h.nodup
  · rw [hl, hp]; exact h.sorted
  · rw [ht, hv, hl]; exact h.threadPl
  · rw [ht, hl]; exact h.sleeping
  · rw [ht, hv, hl, hi]; exact h.idle

theorem Queues.loose (ha : ∀ list, t ∉ k.lists list) : k.Loose t where
  absent := ha
  member := h.member
  ready u _ := h.ready u
  nodup := h.nodup
  sorted := h.sorted
  threadPl u _ := h.threadPl u
  sleeping := h.sleeping
  idle u hu := ⟨(h.idle u hu).1, fun _ => (h.idle u hu).2.1, (h.idle u hu).2.2⟩

theorem Queues.unique (hl : t ∈ k.lists list) (ho : t ∈ k.lists other) : list = other := by
  have hv := (h.member list t hl).1
  by_cases h1 : list = .sleeping <;> by_cases h2 : other = .sleeping
  · rw [h1, h2]
  · have hn := h.sleeping t (h1 ▸ hl)
    rw [(h.threadPl t hv other).mpr ⟨h2, ho⟩] at hn
    cases hn
  · have hn := h.sleeping t (h2 ▸ ho)
    rw [(h.threadPl t hv list).mpr ⟨h1, hl⟩] at hn
    cases hn
  · have h1 := (h.threadPl t hv list).mpr ⟨h1, hl⟩
    rw [(h.threadPl t hv other).mpr ⟨h2, ho⟩] at h1
    exact (Option.some.inj h1).symm

theorem Queues.not_idle (hl : t ∈ k.lists list) : some t ≠ k.idleThread := by
  intro he
  exact (h.idle t he.symm).2.2 list hl

theorem Queues.absent (hr : (k.threads t).status ≠ .ready) (hb : (k.threads t).status ≠ .blocked)
    (list : ListRef) : t ∉ k.lists list := by
  intro hm
  have hs := (h.member list t hm).2
  cases list with
  | ready => exact hr hs
  | sleeping => exact hb hs
  | waiters _ => exact hb hs

theorem Queues.absent_of_threadPl (hv : k.live t = true) (hp : (k.threads t).threadPl = none)
    (hs : t ∉ k.lists .sleeping) (list : ListRef) :
    t ∉ k.lists list := by
  intro hm
  by_cases hl : list = .sleeping
  · exact hs (hl ▸ hm)
  · have := (h.threadPl t hv list).mpr ⟨hl, hm⟩
    rw [hp] at this
    cases this

theorem Queues.threadPl_eq_none (hv : k.live t = true) (ha : ∀ list, t ∉ k.lists list) :
    (k.threads t).threadPl = none := by
  cases hp : (k.threads t).threadPl with
  | none => rfl
  | some list => exact absurd ((h.threadPl t hv list).mp hp).2 (ha list)

theorem Queues.listRemove (t : ThreadRef) : (k.listRemove t).Loose t where
  absent list hm := (h.nodup list).not_mem_erase hm
  member list u hu := h.member list u (mem_of_mem_erase hu)
  ready u hne hv hs hi := (mem_erase_of_ne hne).mpr (h.ready u hv hs hi)
  nodup list := (h.nodup list).erase t
  sorted list hl := descending_erase (h.sorted list hl) t
  threadPl u hne hv list := by
    rw [listRemove_threads, h.threadPl u hv list]
    exact and_congr_right fun _ => (mem_erase_of_ne hne).symm
  sleeping u hu := h.sleeping u (mem_of_mem_erase hu)
  idle u hu := ⟨(h.idle u hu).1, fun _ => (h.idle u hu).2.1,
    fun list hm => (h.idle u hu).2.2 list (mem_of_mem_erase hm)⟩

theorem Queues.popFront {rest : List ThreadRef} (hl : k.lists list = t :: rest) :
    (k.setList list rest).Loose t := by
  have he : k.setList list rest = k.listRemove t := by
    have hm : t ∈ k.lists list := by simp [hl]
    unfold setList Kernel.listRemove
    congr
    funext other
    by_cases ho : other = list
    · subst ho
      simp [hl]
    · rw [update_of_ne ho, erase_of_not_mem]
      intro hm'
      exact ho (h.unique hm' hm)
  rw [he]
  exact h.listRemove t

end

theorem Loose.setThread (h : k.Loose t) (f : Thread → Thread) : (k.setThread t f).Loose t := by
  have hne : ∀ {list u}, u ∈ k.lists list → u ≠ t := by
    rintro list u hu rfl
    exact h.absent list hu
  constructor
  · exact h.absent
  · intro list u hu
    rw [setThread_threads_ne k f (hne hu)]
    exact h.member list u hu
  · intro u hu
    rw [setThread_threads_ne k f hu]
    exact h.ready u hu
  · exact h.nodup
  · intro list hl
    apply (descending_congr ?_).mp (h.sorted list hl)
    intro u hu
    simp only [pri, setThread_threads_ne k f (hne hu)]
  · intro u hu
    rw [setThread_threads_ne k f hu]
    exact h.threadPl u hu
  · intro u hu
    rw [setThread_threads_ne k f (hne hu)]
    exact h.sleeping u hu
  · intro u hu
    refine ⟨(h.idle u hu).1, ?_, (h.idle u hu).2.2⟩
    intro hn
    rw [setThread_threads_ne k f hn]
    exact (h.idle u hu).2.1 hn

section

variable (h : k.Loose t) (hv : k.live t = true) (hi : some t ≠ k.idleThread)
include h hv hi

theorem Loose.link {elems : List ThreadRef} (helems : elems.Perm (t :: k.lists list))
    (hs : (k.threads t).status = list.status)
    (hsorted : list ≠ .sleeping → PriorityQueue.Descending k.pri elems)
    (hp : ∀ other, (k.threads t).threadPl = some other ↔ other ≠ .sleeping ∧ other = list) :
    (k.setList list elems).Queues := by
  have hmem : ∀ other u, u ∈ (k.setList list elems).lists other ↔
      (other = list ∧ u = t) ∨ u ∈ k.lists other := by
    intro other u
    by_cases ho : other = list
    · subst ho
      simp [helems.mem_iff]
    · simp [ho]
  constructor
  · intro other u hu
    rcases (hmem other u).mp hu with ⟨rfl, rfl⟩ | hu
    · exact ⟨hv, hs⟩
    · exact h.member other u hu
  · intro u huv hus hui
    rw [hmem]
    by_cases he : u = t
    · subst he
      have hr : list = .ready := by
        rw [setList_threads, hs] at hus
        cases list with
        | ready => rfl
        | sleeping | waiters _ => cases hus
      exact .inl ⟨hr.symm, rfl⟩
    · exact .inr (h.ready u he huv hus hui)
  · intro other
    by_cases ho : other = list
    · subst ho
      rw [setList_lists, update_self]
      exact helems.nodup_iff.mpr (nodup_cons.mpr ⟨h.absent _, h.nodup _⟩)
    · rw [setList_lists, update_of_ne ho]
      exact h.nodup other
  · intro other hos
    change PriorityQueue.Descending k.pri _
    by_cases ho : other = list
    · subst ho
      rw [setList_lists, update_self]
      exact hsorted hos
    · rw [setList_lists, update_of_ne ho]
      exact h.sorted other hos
  · intro u huv other
    rw [hmem, setList_threads]
    by_cases he : u = t
    · subst he
      simp [hp, h.absent other]
    · simp only [he, and_false, false_or]
      exact h.threadPl u he huv other
  · intro u hu
    rcases (hmem .sleeping u).mp hu with ⟨hl, rfl⟩ | hu
    · cases hpl : (k.threads u).threadPl with
      | none => exact hpl
      | some other =>
        obtain ⟨hos, rfl⟩ := (hp other).mp hpl
        exact absurd hl.symm hos
    · exact h.sleeping u hu
  · intro u hu
    have hut : u ≠ t := by
      rintro rfl
      exact hi hu.symm
    refine ⟨(h.idle u hu).1, (h.idle u hu).2.1 hut, ?_⟩
    intro other hm
    rcases (hmem other u).mp hm with ⟨_, rfl⟩ | hm
    · exact hut rfl
    · exact (h.idle u hu).2.2 other hm

theorem Loose.insertOrdered (hl : list ≠ .sleeping) (hs : (k.threads t).status = list.status)
    (hp : (k.threads t).threadPl = some list) : (k.listInsertOrdered list t).Queues := by
  rw [listInsertOrdered_eq]
  refine h.link hv hi (insert_perm ..) hs
    (fun _ => descending_insert (h.sorted list hl)) fun other => ?_
  rw [hp, Option.some.injEq]
  exact ⟨fun heq => heq ▸ ⟨hl, rfl⟩, fun heq => heq.2.symm⟩

theorem Loose.pushSleeping (hs : (k.threads t).status = .blocked)
    (hp : (k.threads t).threadPl = none) :
    (k.listPushBack .sleeping t).Queues :=
  h.link hv hi (perm_append_singleton t _) hs (fun hne => absurd rfl hne)
    (fun other => by simp [hp])

end

-- Leaving the thread out of all lists: it runs, is dying, blocked outside the
-- semaphores, or is the idle thread.
theorem Loose.settle (h : k.Loose t) (hs : (k.threads t).status = .ready → some t = k.idleThread)
    (hd : some t = k.idleThread → (k.threads t).status ≠ .dying)
    (hp : (k.threads t).threadPl = none) : k.Queues where
  member := h.member
  ready u hv hu hi := by
    by_cases he : u = t
    · subst he
      exact absurd (hs hu) hi
    · exact h.ready u he hv hu hi
  nodup := h.nodup
  sorted := h.sorted
  threadPl u hv list := by
    by_cases he : u = t
    · subst he
      rw [hp]
      simp [h.absent list]
    · exact h.threadPl u he hv list
  sleeping := h.sleeping
  idle u hu := by
    refine ⟨(h.idle u hu).1, ?_, (h.idle u hu).2.2⟩
    by_cases he : u = t
    · subst he
      exact hd hu.symm
    · exact (h.idle u hu).2.1 he

theorem Queues.setThread (h : k.Queues) (f : Thread → Thread)
    (hs : (f (k.threads t)).status = (k.threads t).status)
    (hp : (f (k.threads t)).threadPl = (k.threads t).threadPl)
    (hpri : ∀ list, list ≠ .sleeping → t ∈ k.lists list →
      (f (k.threads t)).priority = (k.threads t).priority) : (k.setThread t f).Queues := by
  have hst : ∀ u, ((k.setThread t f).threads u).status = (k.threads u).status := by
    intro u
    by_cases hu : u = t
    · subst hu
      simpa using hs
    · rw [setThread_threads_ne k f hu]
  have hpl : ∀ u, ((k.setThread t f).threads u).threadPl = (k.threads u).threadPl := by
    intro u
    by_cases hu : u = t
    · subst hu
      simpa using hp
    · rw [setThread_threads_ne k f hu]
  constructor
  · intro list u hu
    rw [hst]
    exact h.member list u hu
  · intro u
    rw [hst]
    exact h.ready u
  · exact h.nodup
  · intro list hl
    apply (descending_congr ?_).mp (h.sorted list hl)
    intro u hu
    by_cases he : u = t
    · subst he
      simpa [pri] using (hpri list hl hu).symm
    · simp only [pri, setThread_threads_ne k f he]
  · intro u
    rw [hpl]
    exact h.threadPl u
  · intro u
    rw [hpl]
    exact h.sleeping u
  · intro u
    rw [hst]
    exact h.idle u

end Pintos.Threads.Kernel
