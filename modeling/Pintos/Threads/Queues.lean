import Pintos.Lib.Except
import Pintos.Lib.PriorityQueue
import Pintos.Threads.Synch

namespace Pintos.Threads

open Lib

namespace Kernel

variable {k k' : Kernel} {t u : ThreadRef} {list : ListRef}

theorem assert_ok_iff {p : Prop} [Decidable p] {x : Unit} : assert p = .ok x ↔ p := by
  unfold assert
  split_ifs with h <;> simp [h]

theorem threadCurrent_ok_iff : k.threadCurrent = .ok t ↔
      k.live k.current = true ∧ (k.threads k.current).status = .running ∧ k.current = t := by
  simp only [threadCurrent, bind_ok_iff, assert_ok_iff, exists_const, pure, Except.pure,
    Except.ok.injEq]

theorem threadCurrent_bind_ok {α : Type} {f : ThreadRef → Except Fault α} {b : α}
    (h : (k.threadCurrent >>= f) = .ok b) :
    k.live k.current = true ∧ (k.threads k.current).status = .running ∧ f k.current = .ok b := by
  obtain ⟨_, hcur, hf⟩ := bind_ok_iff.mp h
  obtain ⟨hlive, hrunning, rfl⟩ := threadCurrent_ok_iff.mp hcur
  exact ⟨hlive, hrunning, hf⟩

def pri (k : Kernel) (t : ThreadRef) : Int := (k.threads t).priority

theorem listInsertOrdered_eq (k : Kernel) (list : ListRef) (t : ThreadRef) :
    k.listInsertOrdered list t = k.setList list (PriorityQueue.insert k.pri t (k.lists list)) :=
  rfl

@[simp] theorem setThread_threads_self (k : Kernel) (t : ThreadRef) (f : Thread → Thread) :
    (k.setThread t f).threads t = f (k.threads t) := by
  simp

theorem setThread_threads_ne (k : Kernel) (f : Thread → Thread) (h : u ≠ t) :
    (k.setThread t f).threads u = k.threads u := by
  simp [h]

@[simp] theorem setThread_setThread (k : Kernel) (t : ThreadRef) (f g : Thread → Thread) :
    (k.setThread t f).setThread t g = k.setThread t fun x => g (f x) := by
  simp [setThread]

theorem listInsertOrdered_setThread (k : Kernel) (list : ListRef) (t : ThreadRef)
    (f : Thread → Thread) (hf : ∀ x, (f x).priority = x.priority) :
    (k.listInsertOrdered list t).setThread t f = (k.setThread t f).listInsertOrdered list t := by
  have hp : (k.setThread t f).pri = k.pri := by
    funext u
    by_cases h : u = t
    · subst h
      simp [pri, hf]
    · simp [pri, h]
  rw [listInsertOrdered_eq, listInsertOrdered_eq, hp]
  rfl

@[simp] theorem listInsertOrdered_threads (k : Kernel) (list : ListRef) (t : ThreadRef) :
    (k.listInsertOrdered list t).threads = k.threads := rfl

@[simp] theorem listInsertOrdered_current (k : Kernel) (list : ListRef) (t : ThreadRef) :
    (k.listInsertOrdered list t).current = k.current := rfl

@[simp] theorem mem_listInsertOrdered {other : ListRef} :
    u ∈ (k.listInsertOrdered list t).lists other ↔ (other = list ∧ u = t) ∨ u ∈ k.lists other := by
  rw [listInsertOrdered_eq, setList_lists]
  by_cases h : other = list
  · subst h
    simp
  · simp [h]

@[simp] theorem listRemove_threads (k : Kernel) (t : ThreadRef) :
    (k.listRemove t).threads = k.threads := rfl

@[simp] theorem listRemove_current (k : Kernel) (t : ThreadRef) :
    (k.listRemove t).current = k.current := rfl

theorem listRemove_setThread (k : Kernel) (t : ThreadRef) (f : Thread → Thread) :
    (k.setThread t f).listRemove t = (k.listRemove t).setThread t f := rfl

theorem pri_setThread (f : Thread → Thread) (hf : (f (k.threads t)).priority = (k.threads t).priority)
    (u : ThreadRef) : (k.setThread t f).pri u = k.pri u := by
  by_cases hu : u = t
  · subst hu
    simpa [pri] using hf
  · simp [pri, hu]

theorem makeReady_ready (k : Kernel) (t : ThreadRef) :
    (k.makeReady t).lists .ready = PriorityQueue.insert k.pri t (k.lists .ready) := by
  unfold makeReady
  rw [setThread_setThread, setThread_lists, listInsertOrdered_eq, setList_lists,
    Function.update_self]

theorem makeReady_sleeping (k : Kernel) (t : ThreadRef) :
    (k.makeReady t).lists .sleeping = k.lists .sleeping := by
  simp [makeReady, listInsertOrdered_eq]

theorem makeReady_pri (k : Kernel) (t u : ThreadRef) : (k.makeReady t).pri u = k.pri u := by
  unfold makeReady
  rw [setThread_setThread]
  exact pri_setThread _ rfl u

theorem threadTick_ok {yieldOnReturn : Bool} (h : k.threadTick = .ok (k', yieldOnReturn)) :
    ∃ k1 recomputed, k.wakeSleepers.mlfqsTick k.current = .ok (k1, recomputed) ∧
      k' = k1.countThreadTick ∧
      yieldOnReturn = (decide ((k.wakeSleepers.threads k.current).priority >
            k.wakeSleepers.threadListTopPri .ready) || recomputed ||
          decide (k1.threadTicks + 1 ≥ timeSlice)) := by
  obtain ⟨_, _, h⟩ := threadCurrent_bind_ok h
  obtain ⟨⟨k1, recomputed⟩, h1, heq⟩ := bind_ok_iff.mp h
  obtain ⟨hk, hy⟩ := Prod.mk.inj (Except.ok.inj heq)
  exact ⟨k1, recomputed, h1, hk.symm, hy.symm⟩

theorem timerInterrupt_ok (h : k.timerInterrupt = .ok k') :
    ∃ k1 yieldOnReturn, k.countTick.threadTick = .ok (k1, yieldOnReturn) ∧
      ((yieldOnReturn = true ∧ k1.threadYield = .ok k') ∨ (yieldOnReturn = false ∧ k' = k1)) := by
  obtain ⟨⟨k1, yieldOnReturn⟩, h1, h⟩ := bind_ok_iff.mp h
  refine ⟨k1, yieldOnReturn, h1, ?_⟩
  cases yieldOnReturn with
  | true => exact .inl ⟨rfl, h⟩
  | false => exact .inr ⟨rfl, (Except.ok.inj h).symm⟩

end Kernel

def ListRef.status : ListRef → ThreadStatus
  | .ready => .ready
  | .sleeping | .waiters _ => .blocked

namespace Kernel

structure Queues (k : Kernel) : Prop where
  member : ∀ list t, t ∈ k.lists list → k.live t = true ∧ (k.threads t).status = list.status
  ready : ∀ t, k.live t = true → (k.threads t).status = .ready → some t ≠ k.idleThread →
    t ∈ k.lists .ready
  nodup : ∀ list, (k.lists list).Nodup
  sorted : ∀ list, list ≠ .sleeping → PriorityQueue.Descending k.pri (k.lists list)
  threadPl : ∀ t, k.live t = true → ∀ list,
    (k.threads t).threadPl = some list ↔ list ≠ .sleeping ∧ t ∈ k.lists list
  sleeping : ∀ t ∈ k.lists .sleeping, (k.threads t).threadPl = none
  idle : ∀ t, k.idleThread = some t →
    k.live t = true ∧ (k.threads t).status ≠ .dying ∧ ∀ list, t ∉ k.lists list

structure Loose (k : Kernel) (t : ThreadRef) : Prop where
  absent : ∀ list, t ∉ k.lists list
  member : ∀ list u, u ∈ k.lists list → k.live u = true ∧ (k.threads u).status = list.status
  ready : ∀ u, u ≠ t → k.live u = true → (k.threads u).status = .ready →
    some u ≠ k.idleThread → u ∈ k.lists .ready
  nodup : ∀ list, (k.lists list).Nodup
  sorted : ∀ list, list ≠ .sleeping → PriorityQueue.Descending k.pri (k.lists list)
  threadPl : ∀ u, u ≠ t → k.live u = true → ∀ list,
    (k.threads u).threadPl = some list ↔ list ≠ .sleeping ∧ u ∈ k.lists list
  sleeping : ∀ u ∈ k.lists .sleeping, (k.threads u).threadPl = none
  idle : ∀ u, k.idleThread = some u →
    k.live u = true ∧ (u ≠ t → (k.threads u).status ≠ .dying) ∧ ∀ list, u ∉ k.lists list

def OneRunning (k : Kernel) : Prop :=
  k.live k.current = true ∧
    ∀ t, k.live t = true → ((k.threads t).status = .running ↔ t = k.current)

def NoneRunning (k : Kernel) : Prop :=
  k.live k.current = true ∧ ∀ t, k.live t = true → (k.threads t).status ≠ .running

def AllListed (k : Kernel) : Prop :=
  k.allList.Nodup ∧
    ∀ t, t ∈ k.allList ↔ k.live t = true ∧ (k.threads t).status ≠ .dying

structure QueueInv (k : Kernel) : Prop where
  queues : k.Queues
  running : k.OneRunning
  allListed : k.AllListed

end Kernel

end Pintos.Threads
