import Pintos.Threads.Locks.Frames

namespace Pintos.Threads.Kernel

open Kernel

variable {k k1 k' : Kernel} {t u : ThreadRef} {list : ListRef} {oldLevel : IntrLevel} {flag : Bool}
  {sema : SemaRef} {lock : LockRef} {op : Op} {p : Int}

def Queued (k : Kernel) (t : ThreadRef) : Prop := ∃ list, list ≠ .sleeping ∧ t ∈ k.lists list

def Listed (k : Kernel) (t : ThreadRef) : Prop := t = k.current ∨ k.Queued t

theorem Queued.congr {s : Kernel} (h : k.Queued t) (hl : s.lists = k.lists) : s.Queued t := by
  obtain ⟨list, hne, hm⟩ := h
  exact ⟨list, hne, hl ▸ hm⟩

theorem Listed.congr (h : k.Listed t) (hl : k'.lists = k.lists) (hc : k'.current = k.current) :
    k'.Listed t := by
  rcases h with h | h
  · exact .inl (h.trans hc.symm)
  · exact .inr (h.congr hl)

theorem Queued.listInsertOrdered (h : k.Queued u) : (k.listInsertOrdered list t).Queued u := by
  obtain ⟨other, hne, hm⟩ := h
  exact ⟨other, hne, mem_listInsertOrdered.mpr (.inr hm)⟩

theorem queued_listInsertOrdered (hne : list ≠ .sleeping) : (k.listInsertOrdered list t).Queued t :=
  ⟨list, hne, mem_listInsertOrdered.mpr (.inl ⟨rfl, rfl⟩)⟩

theorem Queued.schedule (h : k.Queued t) (hs : k.schedule = .ok k') : k'.Listed t := by
  obtain ⟨next, k1, he, _, rfl⟩ := schedule_ok hs
  have htail : ∀ prev, ({ k1 with current := next }.threadScheduleTail prev).current = next ∧
      ({ k1 with current := next }.threadScheduleTail prev).lists = k1.lists := by
    intro prev
    unfold threadScheduleTail
    simp only
    split
    · split_ifs <;> exact ⟨rfl, rfl⟩
    · exact ⟨rfl, rfl⟩
  obtain ⟨hcur, hlists⟩ := htail (if k.current = next then none else some k.current)
  obtain ⟨list, hne, hm⟩ := h
  by_cases ht : t = next
  · exact .inl (ht.trans hcur.symm)
  · refine .inr ⟨list, hne, ?_⟩
    rw [hlists]
    unfold nextThreadToRun at he
    split at he
    · obtain ⟨_, rfl⟩ := Prod.mk.inj he
      exact hm
    · rename_i top rest hl
      obtain ⟨htop, rfl⟩ := Prod.mk.inj he
      obtain rfl := Option.some.inj htop
      by_cases hr : list = .ready
      · subst hr
        rw [hl] at hm
        simpa [ht] using hm
      · simpa [hr] using hm

theorem Queued.threadBlock (h : k.Queued t) (hb : k.threadBlock = .ok k') : k'.Listed t := by
  obtain ⟨_, _, hb⟩ := threadCurrent_bind_ok hb
  exact (h.congr (s := k.setThread k.current (.setStatus .blocked)) rfl).schedule hb

theorem Listed.threadYield (h : k.Listed t) (hi : some t ≠ k.idleThread)
    (hy : k.threadYield = .ok k') : k'.Listed t := by
  obtain ⟨_, _, hy⟩ := threadCurrent_bind_ok hy
  refine Queued.schedule ?_ hy
  split_ifs with hc
  · have hq : (k.listInsertOrdered .ready k.current).Queued t := by
      rcases h with rfl | h
      · exact queued_listInsertOrdered (by simp)
      · exact h.listInsertOrdered
    exact hq.congr rfl
  · rcases h with rfl | h
    · exact absurd hi hc
    · exact h.congr rfl

theorem Queued.makeReady (h : k.Queued u) : (k.makeReady t).Queued u := by
  have hq : (k.listInsertOrdered .ready t).Queued u := h.listInsertOrdered
  exact hq.congr rfl

theorem queued_makeReady (k : Kernel) (t : ThreadRef) : (k.makeReady t).Queued t := by
  have hq : (k.listInsertOrdered .ready t).Queued t := queued_listInsertOrdered (by simp)
  exact hq.congr rfl

theorem Listed.makeReady (h : k.Listed u) : (k.makeReady t).Listed u := by
  rcases h with h | h
  · exact .inl h
  · exact .inr h.makeReady

theorem listed_threadUnblock (h : u = t ∨ k.Listed u) (hi : some u ≠ k.idleThread)
    (hu : k.threadUnblock oldLevel t = .ok k') : k'.Listed u := by
  simp only [threadUnblock, bind_ok_iff, assert_ok_iff, exists_const, threadCurrent_ok_iff] at hu
  obtain ⟨_, _, _, _, hu⟩ := hu
  have hready : (k.makeReady t).Listed u := by
    rcases h with rfl | h
    · exact .inr (queued_makeReady k u)
    · exact h.makeReady
  split_ifs at hu
  · exact hready.threadYield hi hu
  · cases hu
    exact hready

theorem Queued.listRemove_makeReady (h : k.Queued u) : ((k.listRemove t).makeReady t).Queued u := by
  by_cases hu : u = t
  · subst hu
    exact queued_makeReady _ u
  · obtain ⟨list, hne, hm⟩ := h
    have hq : (k.listRemove t).Queued u := ⟨list, hne, (List.mem_erase_of_ne hu).mpr hm⟩
    exact hq.makeReady

theorem foldl_threadUpdateTimer_current (l : List ThreadRef) :
    (l.foldl threadUpdateTimer k).current = k.current := by
  induction l generalizing k with
  | nil => rfl
  | cons t l ih =>
    rw [List.foldl_cons, ih]
    unfold threadUpdateTimer
    split_ifs <;> rfl

theorem Listed.wakeSleepers (h : k.Listed u) : k.wakeSleepers.Listed u := by
  unfold Kernel.wakeSleepers
  split_ifs with hs
  · clear hs
    unfold threadUpdateTimers
    generalize k.lists .sleeping = l
    rcases h with h | h
    · exact .inl (h.trans (foldl_threadUpdateTimer_current l).symm)
    · right
      induction l generalizing k with
      | nil => exact h
      | cons t l ih =>
        apply ih
        unfold threadUpdateTimer
        split_ifs
        · exact h.listRemove_makeReady
        · exact h
  · exact h

theorem Queued.listUpdateElem (h : k.Queued u) (hne : list ≠ .sleeping) :
    (k.listUpdateElem list t).Queued u := by
  by_cases hu : u = t
  · subst hu
    exact ⟨list, hne, mem_listInsertOrdered.mpr (.inl ⟨rfl, rfl⟩)⟩
  · obtain ⟨other, ho, hm⟩ := h
    exact ⟨other, ho, mem_listInsertOrdered.mpr (.inr ((List.mem_erase_of_ne hu).mpr hm))⟩

section

variable (h : k.Listed u)
include h

theorem Listed.listUpdateElem (hne : list ≠ .sleeping) : (k.listUpdateElem list t).Listed u := by
  rcases h with h | h
  · exact .inl h
  · exact .inr (h.listUpdateElem hne)

theorem Listed.threadCalculatePriority (hq : k.QueueInv) (hv : k.live t = true)
    (hc : k.threadCalculatePriority t = .ok (k', flag)) : k'.Listed u := by
  obtain ⟨p, -, ⟨-, rfl⟩ | ⟨list, hl, rfl⟩⟩ := threadCalculatePriority_ok hc
  · exact h.congr rfl rfl
  · have hset : (k.setThread t (.setPriority p)).Listed u := h.congr rfl rfl
    exact hset.listUpdateElem ((hq.queues.threadPl t hv list).mp hl).1

theorem Listed.timerInterrupt (hq : k.QueueInv) (hm : k.mlfqs = false) (hi : some u ≠ k.idleThread)
    (ht : k.timerInterrupt = .ok k') : k'.Listed u := by
  obtain ⟨k1, _, h1, hy⟩ := timerInterrupt_ok ht
  have hidle := (threadTick_frame hq.countTick h1).1.idleThread
  obtain ⟨k2, recomputed, h2, rfl, _⟩ := threadTick_ok h1
  have hq2 := hq.countTick.wakeSleepers
  have hmode : k.countTick.wakeSleepers.mlfqs = false :=
    (wakeSleepers_frame hq.countTick).mlfqs.trans hm
  have hcount : k.countTick.Listed u := h.congr rfl rfl
  have hend : k2.countThreadTick.Listed u := by
    rw [(mlfqsTick_frame hq2 h2).2 hmode]
    exact hcount.wakeSleepers.congr rfl rfl
  obtain ⟨_, hy⟩ | ⟨_, rfl⟩ := hy
  · exact hend.threadYield (by rw [hidle]; exact hi) hy
  · exact hend

theorem Listed.threadSetNice {nice : Int} (hq : k.QueueInv) (hi : some u ≠ k.idleThread)
    (hs : k.threadSetNice nice = .ok k') : k'.Listed u := by
  simp only [Kernel.threadSetNice, bind_ok_iff, assert_ok_iff, exists_const,
    threadCurrent_ok_iff] at hs
  obtain ⟨_, _, ⟨_, _, rfl⟩, ⟨k1, outranked⟩, hc, hs⟩ := hs
  have hq0 := hq.setCurrent (.setNice nice) rfl rfl
  have h0 : (k.setThread k.current (.setNice nice)).Listed u := h.congr rfl rfl
  have h1 := h0.threadCalculatePriority hq0 hq.running.1 hc
  have hidle := (threadCalculatePriority_frame hq0 hq.running.1 hc).idleThread
  cases outranked with
  | true => exact h1.threadYield (by rw [hidle]; exact hi) hs
  | false =>
    cases hs
    exact h1

theorem Listed.threadSetPriority (hi : some u ≠ k.idleThread)
    (hs : k.threadSetPriority p = .ok k') : k'.Listed u := by
  unfold Kernel.threadSetPriority at hs
  split_ifs at hs
  · cases hs
    exact h
  · simp only [bind_ok_iff, threadCurrent_ok_iff] at hs
    obtain ⟨_, ⟨_, _, rfl⟩, hs⟩ := hs
    have hlists : (k.setOwnPriority k.current p).lists = k.lists := by
      unfold setOwnPriority
      simp only
      split_ifs <;> rfl
    have h0 := h.congr hlists (setOwnPriority_current k k.current p)
    have hidle := (setOwnPriority_frame k p).idleThread
    split_ifs at hs
    · exact h0.threadYield (by rw [hidle]; exact hi) hs
    · cases hs
      exact h0

theorem Listed.semaDownLoop {onWake : Resume} (hd : k.semaDownLoop sema onWake = .ok (k', flag)) :
    k'.Listed u := by
  obtain ⟨_, _, hd⟩ := threadCurrent_bind_ok hd
  split_ifs at hd
  · obtain ⟨k1, hb, heq⟩ := bind_ok_iff.mp hd
    cases heq
    have hq : (k.listInsertOrdered (.waiters sema) k.current).Queued u := by
      rcases h with rfl | h
      · exact queued_listInsertOrdered (by simp)
      · exact h.listInsertOrdered
    refine Queued.threadBlock ?_ hb
    exact hq.congr rfl
  · cases hd
    exact h

theorem Listed.semaDown (hd : k.semaDown sema = .ok k') : k'.Listed u := by
  obtain ⟨⟨k1, b⟩, h1, heq⟩ := bind_ok_iff.mp hd
  cases heq
  exact h.semaDownLoop h1

theorem Listed.semaUp (hi : some u ≠ k.idleThread) (hs : k.semaUp oldLevel sema = .ok k') :
    k'.Listed u := by
  unfold Kernel.semaUp at hs
  simp only at hs
  split at hs
  · cases hs
    exact h.congr rfl rfl
  · rename_i top rest hl
    have hpop : u = top ∨ ((k.setValue sema (k.value sema + 1)).setList (.waiters sema)
        rest).Listed u := by
      by_cases ht : u = top
      · exact .inl ht
      rcases h with h | ⟨list, hne, hm⟩
      · exact .inr (.inl h)
      · refine .inr (.inr ⟨list, hne, ?_⟩)
        by_cases hlist : list = .waiters sema
        · subst hlist
          rw [show k.lists (.waiters sema) = top :: rest from hl] at hm
          simpa [ht] using hm
        · simpa [hlist] using hm
    exact listed_threadUnblock hpop hi hs

theorem Listed.lockDonate {count : Nat} {cur : Option ThreadRef} (hq : k.QueueInv)
    (hd : lockDonate count cur p k = .ok k') : k'.Listed u := by
  refine (lockDonate_induct (P := (·.Listed u)) hq hd h fun k t list hq h hlive hl => ?_).2
  have hset : (k.setThread t fun x => (x.setPriority p).setDonated true).Listed u := h.congr rfl rfl
  exact hset.listUpdateElem ((hq.queues.threadPl t hlive list).mp hl).1

theorem Listed.lockAcquireWait (hl : k.lockAcquireWait lock = .ok k') : k'.Listed u := by
  obtain ⟨_, _, hl⟩ := threadCurrent_bind_ok hl
  obtain ⟨⟨k1, success⟩, h1, heq⟩ := bind_ok_iff.mp hl
  have hw := h.semaDownLoop h1
  cases success with
  | true =>
    cases heq
    exact hw.congr rfl rfl
  | false =>
    cases heq
    exact hw

theorem Listed.lockTryAcquire (hl : k.lockTryAcquire lock = .ok (k', flag)) : k'.Listed u := by
  obtain ⟨_, ⟨_, _, rfl⟩ | ⟨_, _, rfl⟩⟩ := lockTryAcquire_ok hl
  · exact h.congr rfl rfl
  · exact h

theorem Listed.lockAcquire (hq : k.QueueInv) (hl : k.lockAcquire lock = .ok k') : k'.Listed u := by
  obtain ⟨_, _, hl⟩ := threadCurrent_bind_ok hl
  obtain ⟨⟨k1, success⟩, h1, hl⟩ := bind_ok_iff.mp hl
  have htry := h.lockTryAcquire h1
  obtain ⟨_, ⟨rfl, _, rfl⟩ | ⟨rfl, _, rfl⟩⟩ := lockTryAcquire_ok h1
  · cases hl
    exact htry
  · obtain ⟨k2, h2, hl⟩ := bind_ok_iff.mp hl
    refine Listed.lockAcquireWait ?_ hl
    obtain ⟨holder, _, _, ⟨_, rfl⟩ | ⟨_, _, hd⟩⟩ := lockAcquireDonate_ok h2
    · exact h.congr rfl rfl
    · refine Listed.lockDonate ?_ (hq.setCurrent _ rfl rfl) hd
      exact h.congr rfl rfl

theorem Listed.lockRelease (hi : some u ≠ k.idleThread)
    (hl : k.lockRelease oldLevel lock = .ok k') : k'.Listed u := by
  obtain ⟨k1, h1, hl⟩ := bind_ok_iff.mp hl
  obtain ⟨_, x, _, rfl⟩ := lockReleaseOwner_ok h1
  have h0 : ((k.setThread k.current fun _ => x).setHolder lock none).Listed u := h.congr rfl rfl
  exact h0.semaUp hi hl

theorem Listed.threadCreate {page : Option ThreadRef} (hi : some u ≠ k.idleThread)
    (hc : k.threadCreate oldLevel page p = .ok k') : k'.Listed u := by
  obtain ⟨k1, h1, hc⟩ := bind_ok_iff.mp hc
  obtain ⟨_, _, x, _, rfl⟩ := withLock_ok h1
  have hpool : ((k.setThread k.current fun _ => x).setHolder .poolLock none).Listed u :=
    h.congr rfl rfl
  cases page with
  | none =>
    cases hc
    exact hpool
  | some t =>
    simp only [bind_ok_iff] at hc
    obtain ⟨k2, h2, k3, h3, hc⟩ := hc
    obtain ⟨_, _, _, hlists, _, _, hidle, hcur, _⟩ := initThread_ok h2
    obtain ⟨_, _, y, _, rfl⟩ := withLock_ok h3
    have hinit : k2.Listed u := hpool.congr hlists hcur
    refine listed_threadUnblock (.inr ?_) ?_ hc
    · exact hinit.congr rfl rfl
    · change some u ≠ k2.idleThread
      rw [hidle]
      exact hi

theorem Listed.resumeCurrent (hr : k.resumeCurrent = .ok k') : k'.Listed u := by
  have hb : (k.setResume k.current .toCaller).Listed u := h.congr rfl rfl
  unfold Kernel.resumeCurrent at hr
  simp only at hr
  split at hr
  · cases hr
    exact h
  · exact hb.semaDown hr
  · exact hb.lockAcquireWait hr

end

def parks : Op → Bool
  | .threadBlock | .threadExit | .timerSleep _ => true
  | _ => false

theorem Listed.exec (h : k.Listed u) (hq : k.QueueInv) (hm : k.mlfqs = false)
    (hi : some u ≠ k.idleThread) (hp : parks op = true → u ≠ k.current)
    (hx : k.exec op = .ok k') : k'.Listed u := by
  have hqueued : parks op = true → k.Queued u := fun hpo => h.resolve_left (hp hpo)
  cases op with
  | threadCreate oldLevel page p => exact h.threadCreate hi hx
  | threadBlock => exact (hqueued rfl).threadBlock hx
  | threadUnblock oldLevel t => exact listed_threadUnblock (.inr h) hi hx
  | threadYield => exact h.threadYield hi hx
  | threadExit =>
    simp only [exec, threadExit, bind_ok_iff, threadCurrent_ok_iff] at hx
    obtain ⟨_, ⟨_, _, rfl⟩, hx⟩ := hx
    refine Queued.schedule ?_ hx
    exact (hqueued rfl).congr rfl
  | threadSetPriority p => exact h.threadSetPriority hi hx
  | threadSetNice n => exact h.threadSetNice hq hi hx
  | timerSleep ticks =>
    simp only [exec, timerSleep, threadSleep, bind_ok_iff, threadCurrent_ok_iff] at hx
    obtain ⟨_, ⟨_, _, rfl⟩, _, ⟨_, _, rfl⟩, hx⟩ := hx
    refine Queued.threadBlock ?_ hx
    obtain ⟨list, hne, hmem⟩ := hqueued rfl
    exact ⟨list, hne, by simpa [listPushBack, hne] using hmem⟩
  | timerInterrupt => exact h.timerInterrupt hq hm hi hx
  | semaInit sema n =>
    cases hx
    exact h.congr rfl rfl
  | semaDown sema => exact h.semaDown hx
  | semaTryDown sema =>
    cases hx
    unfold semaTryDown
    split_ifs
    · exact h.congr rfl rfl
    · exact h
  | semaUp oldLevel sema => exact h.semaUp hi hx
  | lockAcquire lock => exact h.lockAcquire hq hx
  | lockTryAcquire lock =>
    obtain ⟨⟨k1, flag⟩, h1, heq⟩ := bind_ok_iff.mp hx
    cases heq
    exact h.lockTryAcquire h1
  | lockRelease oldLevel lock => exact h.lockRelease hi hx
  | resume => exact h.resumeCurrent hx

end Pintos.Threads.Kernel
