import Pintos.Threads.ReadyQueue
import Pintos.Threads.Switch

namespace Pintos.Threads.Kernel

open Function Lib List

variable {k k' : Kernel} {t : ThreadRef} {p : Int}

theorem QueueInv.ranked (h : k.QueueInv) : k.Ranked := ⟨h.init.1, h.init.2⟩

theorem Ranked.schedule (h : k.Ranked) (hs : k.schedule = .ok k') :
    FifoLevels.Step k.idleThread k.levels (.returned (some k'.current)) k'.levels := by
  obtain ⟨next, k1, hnext, -, rfl⟩ := schedule_ok hs
  have hpop : k.perform .nextThreadToRun = some ([.returned (some next)], k1) := by
    simp [Kernel.perform, hnext]
  obtain ⟨-, -, htrace⟩ := h.perform hpop
  obtain ⟨hlists, hcur, hpri⟩ := threadScheduleTail_pri { k1 with current := next }
    (if k.current = next then none else some k.current)
  rw [hcur, levels_congr (congrFun hlists .ready) fun t _ => hpri t]
  cases htrace with
  | cons hstep hnil =>
    cases hnil
    exact hstep

theorem Ranked.threadYield (h : k.Ranked) (hy : k.threadYield = .ok k') :
    ∃ levels, (levels = k.levels ∨ levels = k.levels.enqueue (k.pri k.current) k.current) ∧
      FifoLevels.Step k.idleThread levels (.returned (some k'.current)) k'.levels := by
  obtain ⟨cur, hcur, -⟩ := bind_ok_iff.mp hy
  obtain ⟨-, hrunning, rfl⟩ := threadCurrent_ok_iff.mp hcur
  rw [threadYield_eq hcur] at hy
  obtain ⟨label, hinsert⟩ : ∃ label, k.perform .threadYield = some (label, k.yieldReady) :=
    ⟨_, if_pos hrunning⟩
  obtain ⟨hranked, hidle, -⟩ := h.perform hinsert
  refine ⟨_, ?_, hidle ▸ hranked.schedule hy⟩
  rw [yieldReady_eq]
  split_ifs
  · exact .inr (makeReady_levels h _)
  · exact .inl (levels_congr rfl fun u _ => pri_setThread _ rfl u)

-- The threads that run after each of a number of calls of thread_yield.
def turns : Nat → Kernel → Except Fault (List ThreadRef)
  | 0, _ => .ok []
  | n + 1, k => do
    let k ← k.threadYield
    return k.current :: (← turns n k)

theorem Ranked.threadYield_serves {rest : List ThreadRef} (h : k.Ranked)
    (hp : k.levels p = t :: rest) (habove : ∀ q, p < q → k.levels q = [])
    (hcur : k.pri k.current ≤ p) (hy : k.threadYield = .ok k') :
    k'.current = t ∧ (∃ more, k'.levels p = rest ++ more) ∧ ∀ q, p < q → k'.levels q = [] := by
  obtain ⟨levels, hput, hserve⟩ := h.threadYield hy
  have hqueue : (∃ more, levels p = t :: (rest ++ more)) ∧ ∀ q, p < q → levels q = [] := by
    rcases hput with rfl | rfl
    · exact ⟨⟨[], by rw [hp, append_nil]⟩, habove⟩
    · obtain ⟨more, hmore⟩ := FifoLevels.enqueue_eq_append k.levels p (k.pri k.current) k.current
      refine ⟨⟨more, by rw [hmore, hp, cons_append]⟩, fun q hq => ?_⟩
      rw [FifoLevels.enqueue, update_of_ne (hcur.trans_lt hq).ne', habove q hq]
  obtain ⟨⟨more, hmore⟩, habove⟩ := hqueue
  obtain ⟨hnext, hserved⟩ := hserve.serves hmore habove
  refine ⟨Option.some.inj hnext, ⟨more, ?_⟩, fun q hq => ?_⟩
  · rw [hserved, update_self]
  · rw [hserved, update_of_ne hq.ne', habove q hq]

theorem QueueInv.turns_eq (h : k.QueueInv) (l more : List ThreadRef) (hp : k.levels p = l ++ more)
    (habove : ∀ q, p < q → k.levels q = []) (hcur : k.pri k.current ≤ p) :
    k.turns l.length = .ok l := by
  induction l generalizing k more with
  | nil => rfl
  | cons t l ih =>
    rw [cons_append] at hp
    obtain ⟨k', hy⟩ := h.threadYield_returns
    obtain ⟨rfl, ⟨more', hp'⟩, habove'⟩ := h.ranked.threadYield_serves hp habove hcur hy
    have hpri : k'.pri k'.current = p := by
      have hmem : k'.current ∈ k.levels p := by simp [hp]
      rw [← of_decide_eq_true (mem_filter.mp hmem).2]
      exact congrArg (fun kept => kept.2.2.1) ((threadYield_switch hy).kept k'.current)
    rw [append_assoc] at hp'
    have hrun := ih (h.threadYield hy) _ hp' habove' hpri.le
    rw [length_cons, turns, hy]
    simp only [bind, Except.bind]
    rw [hrun]
    rfl

-- The threads of the highest level that waits run in turn, unless one runs that outranks them.
theorem round_robin {mlfqs : Bool} (h : (system mlfqs).Reachable k)
    (habove : ∀ q, p < q → k.levels q = []) (hcur : k.pri k.current ≤ p) :
    k.turns (k.levels p).length = .ok (k.levels p) :=
  (queueInv_of_reachable h).turns_eq _ [] (append_nil _).symm habove hcur

-- Main and two threads of its priority.
theorem round_robin_three : ∃ k, (system false).Reachable k ∧ k.levels 31 = [2, 3] ∧
    k.turns 2 = .ok [2, 3] := by
  obtain ⟨k, hr, hk⟩ := leadsTo_reachable false (fun _ _ => true)
    [.resume, .threadCreate .on (some 2) 31, .threadCreate .on (some 3) 31]
    (fun k => k.lists .ready = [2, 3] ∧ ∀ u ∈ [k.current, 2, 3], k.pri u = 31) (by decide +kernel)
  obtain ⟨hlist, hpri⟩ := of_decide_eq_true hk
  have hlevel : ∀ p, k.levels p = if 31 = p then [2, 3] else [] := by
    intro p
    by_cases hp : 31 = p <;> simp_all [levels, FifoLevels.ofList]
  have hrun := round_robin hr.reachable (fun q hq => (hlevel q).trans (if_neg hq.ne))
    (hpri k.current (by simp)).le
  rw [hlevel, if_pos rfl] at hrun
  exact ⟨k, hr.reachable, hlevel 31, hrun⟩

end Pintos.Threads.Kernel
