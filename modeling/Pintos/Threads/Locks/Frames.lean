import Pintos.Threads.Machine
import Pintos.Threads.Queues.Synch

namespace Pintos.Threads.Kernel

open Function Kernel

variable {k k1 k' : Kernel} {t : ThreadRef} {list : ListRef} {oldLevel : IntrLevel} {flag : Bool}
  {sema : SemaRef}

def waitersOf (k : Kernel) (lock : LockRef) : List ThreadRef := k.lists (.waiters (.ofLock lock))

structure LockFrame (k k' : Kernel) : Prop where
  mlfqs : k'.mlfqs = k.mlfqs
  idleThread : k'.idleThread = k.idleThread
  live : k'.live = k.live
  allList : k'.allList = k.allList
  holder : k'.holder = k.holder
  value : ∀ lock, k'.value (.ofLock lock) = k.value (.ofLock lock)
  waiters : ∀ lock t, t ∈ k'.waitersOf lock ↔ t ∈ k.waitersOf lock
  waitingForTlock : ∀ t, (k'.threads t).waitingForTlock = (k.threads t).waitingForTlock
  acquiredLocks : ∀ t, (k'.threads t).acquiredLocks = (k.threads t).acquiredLocks
  resume : ∀ t, (k.resume t).isClient = true → (k'.resume t).isClient = true

structure DonationFrame (k k' : Kernel) : Prop extends LockFrame k k' where
  priority : ∀ t, (k'.threads t).priority = (k.threads t).priority
  originalPriority : ∀ t, (k'.threads t).originalPriority = (k.threads t).originalPriority
  donated : ∀ t, (k'.threads t).donated = (k.threads t).donated

theorem LockFrame.refl (k : Kernel) : k.LockFrame k :=
  ⟨rfl, rfl, rfl, rfl, rfl, fun _ => rfl, fun _ _ => Iff.rfl, fun _ => rfl, fun _ => rfl,
    fun _ => id⟩

theorem LockFrame.trans (h : k.LockFrame k1) (h' : k1.LockFrame k') : k.LockFrame k' where
  mlfqs := h'.mlfqs.trans h.mlfqs
  idleThread := h'.idleThread.trans h.idleThread
  live := h'.live.trans h.live
  allList := h'.allList.trans h.allList
  holder := h'.holder.trans h.holder
  value lock := (h'.value lock).trans (h.value lock)
  waiters lock t := (h'.waiters lock t).trans (h.waiters lock t)
  waitingForTlock t := (h'.waitingForTlock t).trans (h.waitingForTlock t)
  acquiredLocks t := (h'.acquiredLocks t).trans (h.acquiredLocks t)
  resume t hr := h'.resume t (h.resume t hr)

theorem DonationFrame.refl (k : Kernel) : k.DonationFrame k :=
  ⟨.refl k, fun _ => rfl, fun _ => rfl, fun _ => rfl⟩

theorem DonationFrame.trans (h : k.DonationFrame k1) (h' : k1.DonationFrame k') :
    k.DonationFrame k' where
  toLockFrame := h.toLockFrame.trans h'.toLockFrame
  priority t := (h'.priority t).trans (h.priority t)
  originalPriority t := (h'.originalPriority t).trans (h.originalPriority t)
  donated t := (h'.donated t).trans (h.donated t)

theorem setThread_field {α : Type} (get : Thread → α) (f : Thread → Thread)
    (hf : get (f (k.threads t)) = get (k.threads t)) (u : ThreadRef) :
    get ((k.setThread t f).threads u) = get (k.threads u) := by
  by_cases hu : u = t
  · subst hu
    rw [setThread_threads_self, hf]
  · rw [setThread_threads_ne _ _ hu]

theorem LockFrame.setThread (f : Thread → Thread)
    (hw : (f (k.threads t)).waitingForTlock = (k.threads t).waitingForTlock)
    (ha : (f (k.threads t)).acquiredLocks = (k.threads t).acquiredLocks) :
    k.LockFrame (k.setThread t f) :=
  ⟨rfl, rfl, rfl, rfl, rfl, fun _ => rfl, fun _ _ => Iff.rfl,
    setThread_field Thread.waitingForTlock f hw, setThread_field Thread.acquiredLocks f ha,
    fun _ => id⟩

theorem DonationFrame.setThread (f : Thread → Thread)
    (hw : (f (k.threads t)).waitingForTlock = (k.threads t).waitingForTlock)
    (ha : (f (k.threads t)).acquiredLocks = (k.threads t).acquiredLocks)
    (hp : (f (k.threads t)).priority = (k.threads t).priority)
    (ho : (f (k.threads t)).originalPriority = (k.threads t).originalPriority)
    (hd : (f (k.threads t)).donated = (k.threads t).donated) :
    k.DonationFrame (k.setThread t f) :=
  ⟨.setThread f hw ha, setThread_field Thread.priority f hp,
    setThread_field Thread.originalPriority f ho, setThread_field Thread.donated f hd⟩

theorem DonationFrame.setList (hl : ∀ lock, list ≠ .waiters (.ofLock lock)) (l : List ThreadRef) :
    k.DonationFrame (k.setList list l) := by
  refine ⟨⟨rfl, rfl, rfl, rfl, rfl, fun _ => rfl, fun lock t => ?_, fun _ => rfl, fun _ => rfl,
    fun _ => id⟩, fun _ => rfl, fun _ => rfl, fun _ => rfl⟩
  unfold waitersOf
  rw [setList_lists, update_of_ne (hl lock).symm]

theorem DonationFrame.setResume (t : ThreadRef) {r : Resume}
    (hr : r.isClient = true) : k.DonationFrame (k.setResume t r) := by
  refine ⟨⟨rfl, rfl, rfl, rfl, rfl, fun _ => rfl, fun _ _ => Iff.rfl, fun _ => rfl, fun _ => rfl,
    fun u hu => ?_⟩, fun _ => rfl, fun _ => rfl, fun _ => rfl⟩
  by_cases hut : u = t
  · subst hut
    simpa using hr
  · simpa [hut] using hu

theorem DonationFrame.setValue (hs : ∀ lock, sema ≠ .ofLock lock) (n : Nat) :
    k.DonationFrame (k.setValue sema n) := by
  refine ⟨⟨rfl, rfl, rfl, rfl, rfl, fun lock => ?_, fun _ _ => Iff.rfl, fun _ => rfl, fun _ => rfl,
    fun _ => id⟩,
    fun _ => rfl, fun _ => rfl, fun _ => rfl⟩
  rw [setValue_value, update_of_ne (hs lock).symm]

theorem nextThreadToRun_frame (k : Kernel) : k.DonationFrame k.nextThreadToRun.2 := by
  unfold nextThreadToRun
  split
  · exact .refl k
  · exact (DonationFrame.setList (by simp) _).trans (.setThread _ rfl rfl rfl rfl rfl)

-- schedule may free the page of the thread it leaves; the rest is as before.
theorem threadScheduleTail_frame (prev : Option ThreadRef) :
    (k.setLive (k.threadScheduleTail prev).live).DonationFrame (k.threadScheduleTail prev) := by
  have hf (live : ThreadRef → Bool) : (k.setLive live).DonationFrame
      { (k.setThread k.current (.setStatus .running)).setLive live with threadTicks := 0 } :=
    (DonationFrame.setThread (k := k.setLive live) (.setStatus .running) rfl rfl rfl rfl rfl).trans
      { DonationFrame.refl _ with }
  unfold threadScheduleTail
  simp only
  split
  · split_ifs
    · exact hf _
    · exact hf _
  · exact hf _

theorem threadScheduleTail_live (prev : Option ThreadRef) :
    (k.threadScheduleTail prev).live = k.live ∨
      ∃ p, prev = some p ∧ ((k.setThread k.current (.setStatus .running)).threads p).status = .dying ∧
        (k.threadScheduleTail prev).live = update k.live p false := by
  unfold threadScheduleTail
  simp only
  split
  · rename_i p
    split_ifs with hd
    · exact .inr ⟨p, rfl, hd.1, rfl⟩
    · exact .inl rfl
  · exact .inl rfl

theorem schedule_frame (hs : k.schedule = .ok k') : (k.setLive k'.live).DonationFrame k' := by
  obtain ⟨next, k1, he, _, rfl⟩ := schedule_ok hs
  have hf : k.DonationFrame k1 := by
    have := nextThreadToRun_frame k
    rwa [he] at this
  have ht := threadScheduleTail_frame (k := { k1 with current := next })
    (if k.current = next then none else some k.current)
  refine DonationFrame.trans ?_ ht
  exact ⟨⟨hf.mlfqs, hf.idleThread, rfl, hf.allList, hf.holder, hf.value, hf.waiters,
    hf.waitingForTlock, hf.acquiredLocks, hf.resume⟩, hf.priority, hf.originalPriority, hf.donated⟩

theorem schedule_live (hs : k.schedule = .ok k') :
    k'.live = k.live ∨ (k.threads k.current).status = .dying ∧
      k'.live = update k.live k.current false := by
  obtain ⟨next, k1, he, _, rfl⟩ := schedule_ok hs
  have hlive : k1.live = k.live := by
    have := (nextThreadToRun_frame k).live
    rwa [he] at this
  obtain h | ⟨p, hp, hd, h⟩ := threadScheduleTail_live (k := { k1 with current := next })
    (if k.current = next then none else some k.current)
  · exact .inl (h.trans hlive)
  · split_ifs at hp with hc
    cases hp
    refine .inr ⟨?_, h.trans (by rw [hlive])⟩
    have hst : (k1.threads k.current).status = (k.threads k.current).status := by
      unfold nextThreadToRun at he
      split at he
      · obtain ⟨_, rfl⟩ := Prod.mk.inj he
        rfl
      · obtain ⟨_, rfl⟩ := Prod.mk.inj he
        exact setThread_field Thread.status _ rfl _
    rw [← hst]
    simpa [hc] using hd

theorem schedule_donationFrame (hd : (k.threads k.current).status ≠ .dying)
    (hs : k.schedule = .ok k') : k.DonationFrame k' := by
  have hf := schedule_frame hs
  obtain hl | ⟨hdy, _⟩ := schedule_live hs
  · rwa [hl] at hf
  · exact absurd hdy hd

theorem threadBlock_frame (hb : k.threadBlock = .ok k') : k.DonationFrame k' := by
  obtain ⟨_, _, hb⟩ := threadCurrent_bind_ok hb
  exact (DonationFrame.setThread (.setStatus .blocked) rfl rfl rfl rfl rfl).trans
    (schedule_donationFrame (by simp) hb)

theorem listInsertOrdered_frame (hl : ∀ lock, list ≠ .waiters (.ofLock lock)) :
    k.DonationFrame (k.listInsertOrdered list t) :=
  DonationFrame.setList hl _

theorem threadYield_frame (hy : k.threadYield = .ok k') : k.DonationFrame k' := by
  obtain ⟨_, _, hy⟩ := threadCurrent_bind_ok hy
  refine DonationFrame.trans (DonationFrame.trans ?_ (.setThread _ rfl rfl rfl rfl rfl))
    (schedule_donationFrame ?_ hy)
  · split_ifs
    · exact (listInsertOrdered_frame (by simp)).trans (.setThread _ rfl rfl rfl rfl rfl)
    · exact .refl k
  · split_ifs <;> simp

theorem makeReady_frame (k : Kernel) (t : ThreadRef) : k.DonationFrame (k.makeReady t) :=
  ((listInsertOrdered_frame (by simp)).trans (.setThread _ rfl rfl rfl rfl rfl)).trans
    (.setThread _ rfl rfl rfl rfl rfl)

theorem threadUnblock_frame (hu : k.threadUnblock oldLevel t = .ok k') : k.DonationFrame k' := by
  simp only [threadUnblock, bind_ok_iff, assert_ok_iff, exists_const, threadCurrent_ok_iff] at hu
  obtain ⟨_, _, _, _, hu⟩ := hu
  split_ifs at hu
  · exact (makeReady_frame k t).trans (threadYield_frame hu)
  · cases hu
    exact makeReady_frame k t

theorem timerSleep_frame {ticks : Int} (hs : k.timerSleep ticks = .ok k') : k.DonationFrame k' := by
  obtain ⟨_, _, hs⟩ := threadCurrent_bind_ok hs
  obtain ⟨_, _, hs⟩ := threadCurrent_bind_ok hs
  exact ((DonationFrame.setThread _ rfl rfl rfl rfl rfl).trans
    (.setList (by simp) _)).trans (threadBlock_frame hs)

section

variable (hs : ∀ lock, sema ≠ .ofLock lock)
include hs

theorem semaDownLoop_frame {onWake : Resume} (hr : onWake.isClient = true)
    (hd : k.semaDownLoop sema onWake = .ok (k', flag)) : k.DonationFrame k' := by
  obtain ⟨_, _, hd⟩ := threadCurrent_bind_ok hd
  split_ifs at hd
  · obtain ⟨k1, hb, heq⟩ := bind_ok_iff.mp hd
    cases heq
    exact ((listInsertOrdered_frame (by simpa using hs)).trans
      ((DonationFrame.setThread _ rfl rfl rfl rfl rfl).trans (.setResume _ hr))).trans
      (threadBlock_frame hb)
  · cases hd
    exact .setValue hs _

theorem semaDown_isClient : (Resume.semaDown sema).isClient = true := by
  cases sema with
  | ofLock lock => exact absurd rfl (hs lock)
  | _ => rfl

theorem semaDown_frame (hd : k.semaDown sema = .ok k') : k.DonationFrame k' := by
  obtain ⟨⟨k1, b⟩, h1, heq⟩ := bind_ok_iff.mp hd
  cases heq
  exact semaDownLoop_frame hs (semaDown_isClient hs) h1

theorem semaTryDown_frame : k.DonationFrame (k.semaTryDown sema).1 := by
  unfold semaTryDown
  split_ifs
  · exact .setValue hs _
  · exact .refl k

theorem semaUp_frame (hu : k.semaUp oldLevel sema = .ok k') : k.DonationFrame k' := by
  unfold semaUp at hu
  simp only at hu
  split at hu
  · cases hu
    exact .setValue hs _
  · exact ((DonationFrame.setValue hs _).trans (.setList (by simpa using hs) _)).trans
      (threadUnblock_frame hu)

end

theorem threadCreate_idleThread {page : Option ThreadRef} {p : Int}
    (hc : k.threadCreate oldLevel page p = .ok k') : k'.idleThread = k.idleThread := by
  obtain ⟨k1, h1, hc⟩ := bind_ok_iff.mp hc
  have hpool := (withLock_frame h1).2.2.1
  cases page with
  | none =>
    cases hc
    exact hpool
  | some t =>
    simp only [bind_ok_iff] at hc
    obtain ⟨k2, h2, k3, h3, hc⟩ := hc
    have htid : k3.idleThread = k2.idleThread := (withLock_frame h3).2.2.1
    obtain ⟨_, _, _, _, _, _, hinit, _⟩ := initThread_ok h2
    rw [(threadUnblock_frame hc).idleThread, htid, hinit, hpool]

theorem listRemove_frame (ht : ∀ lock, t ∉ k.waitersOf lock) :
    k.DonationFrame (k.listRemove t) := by
  refine ⟨⟨rfl, rfl, rfl, rfl, rfl, fun _ => rfl, fun lock u => ?_, fun _ => rfl, fun _ => rfl,
    fun _ => id⟩,
    fun _ => rfl, fun _ => rfl, fun _ => rfl⟩
  change u ∈ (k.waitersOf lock).erase t ↔ _
  rw [List.erase_of_not_mem (ht lock)]

-- A sleeper is in no lock's waiters list, so list_remove only takes it off sleeping_list.
theorem threadUpdateTimer_frame (ht : ∀ lock, t ∉ k.waitersOf lock) :
    k.DonationFrame (k.threadUpdateTimer t) := by
  unfold threadUpdateTimer
  split_ifs
  · exact (listRemove_frame ht).trans (makeReady_frame _ t)
  · exact .refl k

theorem threadUpdateTimers_frame (h : k.QueueInv) : k.DonationFrame k.threadUpdateTimers := by
  have hw : ∀ t ∈ k.lists .sleeping, ∀ lock, t ∉ k.waitersOf lock := by
    intro t ht lock hm
    cases h.queues.unique ht hm
  unfold threadUpdateTimers
  generalize k.lists .sleeping = l at hw
  clear h
  induction l generalizing k with
  | nil => exact .refl k
  | cons t l ih =>
    have hf := threadUpdateTimer_frame (hw t (by simp))
    refine hf.trans (ih ?_)
    intro u hu lock hm
    exact hw u (by simp [hu]) lock ((hf.waiters lock u).mp hm)

theorem listUpdateElem_frame (hu : ∀ other, t ∈ k.lists other ↔ other = list) :
    k.DonationFrame (k.listUpdateElem list t) := by
  refine ⟨⟨rfl, rfl, rfl, rfl, rfl, fun _ => rfl, fun lock u => ?_, fun _ => rfl, fun _ => rfl,
    fun _ => id⟩,
    fun _ => rfl, fun _ => rfl, fun _ => rfl⟩
  unfold listUpdateElem waitersOf
  rw [mem_listInsertOrdered]
  change _ ∨ u ∈ (k.lists (.waiters (.ofLock lock))).erase t ↔ _
  by_cases hut : u = t
  · subst hut
    rw [hu]
    constructor
    · rintro (⟨heq, _⟩ | hm)
      · exact heq
      · exact (hu _).mp (List.mem_of_mem_erase hm)
    · exact fun heq => .inl ⟨heq, rfl⟩
  · simp [hut, List.mem_erase_of_ne hut]

theorem Queues.mem_iff (h : k.Queues) (hv : k.live t = true)
    (hl : (k.threads t).threadPl = some list) (other : ListRef) :
    t ∈ k.lists other ↔ other = list := by
  have hm := ((h.threadPl t hv list).mp hl).2
  constructor
  · exact fun ho => h.unique ho hm
  · rintro rfl
    exact hm

theorem threadCalculatePriority_frame (h : k.QueueInv) (hv : k.live t = true)
    (hc : k.threadCalculatePriority t = .ok (k', flag)) : k.LockFrame k' := by
  obtain ⟨p, -, ⟨-, rfl⟩ | ⟨list, hl, rfl⟩⟩ := threadCalculatePriority_ok hc
  · exact .setThread _ rfl rfl
  · exact (LockFrame.setThread (.setPriority p) rfl rfl).trans
      (listUpdateElem_frame (k := k.setThread t (.setPriority p))
        (h.queues.mem_iff hv hl)).toLockFrame

theorem lockDonate_frame {count : Nat} {cur : Option ThreadRef} {p : Int} (h : k.QueueInv)
    (hd : lockDonate count cur p k = .ok k') : k.LockFrame k' := by
  refine (lockDonate_induct (P := k.LockFrame) h hd (.refl k) fun k1 t list h1 hk hlive hl => ?_).2
  have hset := LockFrame.setThread (k := k1) (t := t) (fun x => (x.setPriority p).setDonated true)
    rfl rfl
  have hupd := listUpdateElem_frame (k := k1.setThread t fun x =>
    (x.setPriority p).setDonated true) (h1.queues.mem_iff hlive hl)
  exact (hk.trans hset).trans hupd.toLockFrame

theorem threadSetNice_frame {nice : Int} (h : k.QueueInv) (hs : k.threadSetNice nice = .ok k') :
    k.LockFrame k' := by
  simp only [threadSetNice, bind_ok_iff, assert_ok_iff, exists_const, threadCurrent_ok_iff] at hs
  obtain ⟨_, _, ⟨_, _, rfl⟩, ⟨k1, outranked⟩, hc, hs⟩ := hs
  have hf := (LockFrame.setThread (.setNice nice) rfl rfl).trans
    (threadCalculatePriority_frame (h.setCurrent (.setNice nice) rfl rfl) h.running.1 hc)
  cases outranked with
  | true => exact hf.trans (threadYield_frame hs).toLockFrame
  | false =>
    cases hs
    exact hf

theorem setOwnPriority_frame (k : Kernel) (p : Int) :
    k.LockFrame (k.setOwnPriority k.current p) := by
  unfold setOwnPriority
  simp only [setThread_setThread]
  split_ifs <;> exact .setThread _ rfl rfl

theorem recomputes_frame : Recomputes LockFrame where
  refl := .refl
  trans := .trans
  recentCpu _ _ _ := .setThread _ rfl rfl
  recentlyUp _ _ := .setThread _ rfl rfl
  loadAvg k _ _ := { LockFrame.refl k with }
  priority h hv hc := LockFrame.trans (.setThread (.setRecentlyUp false) rfl rfl)
    (threadCalculatePriority_frame (h.setThread _ rfl rfl fun _ _ _ => rfl) hv hc)

theorem mlfqsTick_frame (h : k.QueueInv) (hm : k.mlfqsTick t = .ok (k', flag)) :
    k.LockFrame k' ∧ (k.mlfqs = false → k' = k) := by
  refine ⟨(recomputes_frame.mlfqsTick h hm).2, fun hmode => ?_⟩
  unfold mlfqsTick at hm
  rw [hmode, if_neg Bool.false_ne_true] at hm
  cases hm
  rfl

theorem wakeSleepers_frame (h : k.QueueInv) : k.DonationFrame k.wakeSleepers := by
  unfold wakeSleepers
  split_ifs
  · exact threadUpdateTimers_frame h
  · exact .refl k

theorem countTick_frame (k : Kernel) : k.DonationFrame k.countTick := { DonationFrame.refl k with }

theorem countThreadTick_frame (k : Kernel) : k.DonationFrame k.countThreadTick :=
  { DonationFrame.refl k with }

theorem threadTick_frame (h : k.QueueInv) (ht : k.threadTick = .ok (k', flag)) :
    k.LockFrame k' ∧ (k.mlfqs = false → k.DonationFrame k') := by
  obtain ⟨k1, recomputed, h1, rfl, _⟩ := threadTick_ok ht
  have hwake := wakeSleepers_frame h
  obtain ⟨hrec, hsame⟩ := mlfqsTick_frame h.wakeSleepers h1
  have hcount := countThreadTick_frame k1
  refine ⟨(hwake.toLockFrame.trans hrec).trans hcount.toLockFrame, fun hm => ?_⟩
  have hk1 := hsame (by rw [hwake.mlfqs, hm])
  rw [hk1] at hcount ⊢
  exact hwake.trans hcount

theorem timerInterrupt_frame (h : k.QueueInv) (ht : k.timerInterrupt = .ok k') :
    k.LockFrame k' ∧ (k.mlfqs = false → k.DonationFrame k') := by
  obtain ⟨k1, _, h1, hy⟩ := timerInterrupt_ok ht
  obtain ⟨hl, hd⟩ := threadTick_frame h.countTick h1
  have hyield : k1.DonationFrame k' := by
    obtain ⟨_, hy⟩ | ⟨_, rfl⟩ := hy
    · exact threadYield_frame hy
    · exact .refl _
  have hcount := countTick_frame k
  exact ⟨(hcount.toLockFrame.trans hl).trans hyield.toLockFrame,
    fun hm => (hcount.trans (hd hm)).trans hyield⟩

end Pintos.Threads.Kernel
