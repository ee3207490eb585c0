import Pintos.Threads.SharedLock

namespace Pintos.Threads.SharedLock

open Option Function List

open Lib (Mutex)

variable {s s' : SharedLock} {t u : ThreadRef} {act : SharedAct} {pc : SharedPc}

inductive Move (s : SharedLock) (t : ThreadRef) : SharedLock → Prop
  | call {c : SharedCall} (hpc : s.pc t = .client) (hc : s.mayCall t c = true) :
      Move s t (s.goto t (.locking c))
  | lock {c : SharedCall} (hpc : s.pc t = .locking c) (hm : s.slock = .free) :
      Move s t ((s.setSlock (.held t)).goto t c.body)
  | relock {mode : Mode} (hpc : s.pc t = .relocking mode) (hm : s.slock = .free) :
      Move s t ((s.setSlock (.held t)).goto t (.testing mode))
  | clear {wait : Option Mode} (hpc : s.pc t = .unlocking wait) (hm : s.slock = .held t) :
      Move s t ((s.setSlock (.passing t)).goto t (.unlocked wait))
  | raise {wait : Option Mode} (hpc : s.pc t = .unlocked wait) (hm : s.slock = .passing t) :
      Move s t ((s.setSlock .free).goto t (.afterUnlock wait))
  | wait {mode : Mode} (hpc : s.pc t = .testing mode) (hi : mode.mustWait s.i = true) :
      Move s t (s.goto t (.queueing mode))
  | pass {mode : Mode} (hpc : s.pc t = .testing mode) (hi : mode.mustWait s.i = false) :
      Move s t (s.goto t (.granting mode))
  | own (hpc : s.pc t = .granting .exclusive) :
      Move s t ((s.setExclusive (-1) (t :: s.owners)).goto t (.unlocking none))
  | share (hpc : s.pc t = .granting .shared) :
      Move s t ((s.setShared (s.i + 1) (t :: s.sharers)).goto t (.unlocking none))
  | disown (hpc : s.pc t = .releasing .exclusive) :
      Move s t ((s.setExclusive 0 (s.owners.erase t)).goto t .broadcasting)
  | unshare (hpc : s.pc t = .releasing .shared) :
      Move s t ((s.setShared (s.i - 1) (s.sharers.erase t)).goto t
        (if s.i - 1 = 0 then .signalling false else .unlocking none))
  | queue {mode : Mode} {order : List ThreadRef} (hpc : s.pc t = .queueing mode)
      (ho : order.Perm (t :: s.waiters)) :
      Move s t (((s.setValue t 0).setWaiters order).goto t (.unlocking (some mode)))
  | broadcast (hpc : s.pc t = .broadcasting) :
      Move s t (s.goto t (if s.waiters = [] then .unlocking none else .signalling true))
  | idle {loop : Bool} (hpc : s.pc t = .signalling loop) (hw : s.waiters = []) :
      Move s t (s.goto t (.afterSignal loop))
  | pop {loop : Bool} {w : ThreadRef} {rest : List ThreadRef} (hpc : s.pc t = .signalling loop)
      (ho : (w :: rest).Perm s.waiters) : Move s t ((s.setWaiters rest).goto t (.raising w loop))
  | up {w : ThreadRef} {loop : Bool} (hpc : s.pc t = .raising w loop) :
      Move s t ((s.setValue w (s.value w + 1)).goto t (.afterSignal loop))
  | down {mode : Mode} (hpc : s.pc t = .waiting mode) (hv : 0 < s.value t) :
      Move s t ((s.setValue t (s.value t - 1)).goto t (.relocking mode))

theorem goStep_move (hx : s.goStep t = some s') : s.Move t s' := by
  unfold goStep at hx
  split at hx
  · rename_i call hpc
    obtain ⟨m, hm, heq⟩ := bind_eq_some_iff.mp hx
    obtain ⟨hfree, rfl⟩ := Mutex.acquire_eq_some.mp hm
    cases heq
    exact .lock hpc hfree
  · rename_i mode hpc
    cases hx
    cases hi : mode.mustWait s.i with
    | true => exact .wait hpc hi
    | false => exact .pass hpc hi
  · rename_i hpc
    cases hx
    exact .own hpc
  · rename_i hpc
    split_ifs at hx
    cases hx
    exact .share hpc
  · rename_i hpc
    cases hx
    exact .disown hpc
  · rename_i hpc
    cases hx
    exact .unshare hpc
  · rename_i hpc
    cases hx
    exact .broadcast hpc
  · rename_i w loop hpc
    cases hx
    exact .up hpc
  · rename_i wait hpc
    obtain ⟨m, hm, heq⟩ := bind_eq_some_iff.mp hx
    obtain ⟨hheld, rfl⟩ := Mutex.clear_eq_some.mp hm
    cases heq
    exact .clear hpc hheld
  · rename_i wait hpc
    obtain ⟨m, hm, heq⟩ := bind_eq_some_iff.mp hx
    obtain ⟨hpassing, rfl⟩ := Mutex.raise_eq_some.mp hm
    cases heq
    exact .raise hpc hpassing
  · rename_i mode hpc
    split_ifs at hx with hv
    cases hx
    exact .down hpc (Nat.pos_of_ne_zero hv)
  · rename_i mode hpc
    obtain ⟨m, hm, heq⟩ := bind_eq_some_iff.mp hx
    obtain ⟨hfree, rfl⟩ := Mutex.acquire_eq_some.mp hm
    cases heq
    exact .relock hpc hfree
  all_goals cases hx

theorem orderStep_move {order : List ThreadRef} (hx : s.orderStep t order = some s') :
    s.Move t s' := by
  unfold orderStep at hx
  split at hx
  · rename_i mode hpc
    split_ifs at hx with ho
    cases hx
    exact .queue hpc ho
  · rename_i loop hpc
    split_ifs at hx with ho
    split at hx
    · cases hx
      exact .idle hpc (List.nil_perm.mp ho)
    · cases hx
      exact .pop hpc ho
  · cases hx

theorem exec_move (hx : s.exec act = some s') : ∃ t, s.Move t s' := by
  cases act with
  | call t c =>
    simp only [exec, ite_none_right_eq_some, some.injEq] at hx
    obtain ⟨⟨hpc, hc⟩, rfl⟩ := hx
    exact ⟨t, .call hpc hc⟩
  | go t => exact ⟨t, goStep_move hx⟩
  | order t order => exact ⟨t, orderStep_move hx⟩

def Guarded (s : SharedLock) : Prop := s.slock.Guards SharedPc.phase s.pc

theorem Guarded.move (h : s.Guarded) (hs : s.Move t s') : s'.Guarded := by
  cases hs with
  | call hpc => exact h.stays (by rw [hpc]; rfl)
  | @lock c hpc hm =>
    refine h.moved ?_
    cases c <;> exact hm ▸ (Mutex.update_free t).symm
  | relock hpc hm => exact h.moved (hm ▸ (Mutex.update_free t).symm)
  | clear hpc hm => exact h.moved (hm ▸ (Mutex.update_held t).symm)
  | @raise wait hpc hm =>
    refine h.moved ?_
    cases wait <;> exact hm ▸ (Mutex.update_passing t).symm
  | unshare hpc | broadcast hpc => exact h.stays (by rw [hpc]; split_ifs <;> rfl)
  | @idle loop hpc _ | @up w loop hpc => exact h.stays (by rw [hpc]; cases loop <;> rfl)
  | wait hpc | pass hpc | own hpc | share hpc | disown hpc | queue hpc | pop hpc | down hpc =>
    exact h.stays (by rw [hpc]; rfl)

theorem guarded_of_reachable (h : system.Reachable s) : s.Guarded := by
  apply h.invariant
  · rintro s rfl t
    rfl
  · intro s act s' _ hg hx
    obtain ⟨t, hs⟩ := exec_move hx
    exact hg.move hs

def holders (s : SharedLock) : Mode → List ThreadRef
  | .exclusive => s.owners
  | .shared => s.sharers

theorem mem_holders_of_mayCall {mode : Mode} (h : s.mayCall t (.release mode) = true) :
    t ∈ s.holders mode := by
  cases mode <;> simpa [mayCall, holders] using h

def Entitled (s : SharedLock) (t : ThreadRef) : SharedPc → Prop
  | .granting mode => mode.mustWait s.i = false
  | .queueing mode => mode.mustWait s.i = true
  | .locking (.release mode) | .releasing mode => t ∈ s.holders mode
  | _ => True

structure Counted (s : SharedLock) : Prop where
  counts : (s.owners = [] ∧ s.i = s.sharers.length) ∨
    ∃ t, s.owners = [t] ∧ s.sharers = [] ∧ s.i = -1
  entitled : ∀ t, s.Entitled t (s.pc t)

section

variable (h : s.Counted)
include h

theorem Counted.moved (hpc : s'.pc = update s.pc t pc) (hi : s'.i = s.i)
    (howners : s'.owners = s.owners) (hsharers : s'.sharers = s.sharers) (he : s.Entitled t pc) :
    s'.Counted := by
  have hsame : ∀ u p, s'.Entitled u p ↔ s.Entitled u p := by
    intro u p
    have hholders : s'.holders = s.holders := by
      funext mode
      cases mode <;> assumption
    unfold Entitled
    rw [hi, hholders]
  refine ⟨by rw [hi, howners, hsharers]; exact h.counts, fun u => ?_⟩
  rw [hsame, hpc]
  by_cases hu : u = t
  · subst hu
    simpa using he
  · simpa [hu] using h.entitled u

-- A thread that assigns to `i` has the inner lock, so what the other threads rely
-- on is only that they are still holders.
theorem Counted.assigned (hg : s.Guarded) (ht : (s.pc t).phase = .inside)
    (hpc : s'.pc = update s.pc t pc) (he : s'.Entitled t pc)
    (hholders : ∀ mode, ∀ u ≠ t, u ∈ s.holders mode → u ∈ s'.holders mode)
    (hcounts : (s'.owners = [] ∧ s'.i = s'.sharers.length) ∨
      ∃ t, s'.owners = [t] ∧ s'.sharers = [] ∧ s'.i = -1) : s'.Counted := by
  refine ⟨hcounts, fun u => ?_⟩
  rw [hpc]
  by_cases hu : u = t
  · subst hu
    simpa using he
  · rw [update_of_ne hu]
    have hout : (s.pc u).phase ≠ .inside := fun hin => hu (hg.eq_of_inside hin ht)
    have hent := h.entitled u
    cases hp : s.pc u with
    | locking c =>
      cases c with
      | acquire mode => trivial
      | release mode =>
        rw [hp] at hent
        exact hholders mode u hu hent
    | granting mode | queueing mode | releasing mode =>
      rw [hp] at hout
      exact absurd rfl hout
    | _ => trivial

theorem Counted.zero_le_i (ht : s.pc t = .granting .shared) : 0 ≤ s.i := by
  have he := h.entitled t
  rw [ht] at he
  simpa [Entitled, Mode.mustWait] using he

theorem Counted.mem_sharers (ht : s.pc t = .releasing .shared) :
    t ∈ s.sharers ∧ s.owners = [] ∧ s.i = s.sharers.length := by
  have he := h.entitled t
  rw [ht] at he
  change t ∈ s.sharers at he
  rcases h.counts with ⟨ho, hi⟩ | ⟨u, _, hsh, _⟩
  · exact ⟨he, ho, hi⟩
  · rw [hsh] at he
    cases he

section

variable (hg : s.Guarded)
include hg

theorem Counted.own (ht : s.pc t = .granting .exclusive) :
    ((s.setExclusive (-1) (t :: s.owners)).goto t (.unlocking none)).Counted := by
  have he := h.entitled t
  rw [ht] at he
  have hi : s.i = 0 := by simpa [Entitled, Mode.mustWait] using he
  refine h.assigned hg (by rw [ht]; rfl) rfl trivial ?_ ?_
  · intro mode u _ hmem
    cases mode with
    | exclusive => exact mem_cons_of_mem t hmem
    | shared => exact hmem
  · refine .inr ⟨t, ?_⟩
    rcases h.counts with ⟨ho, hsh⟩ | ⟨u, _, _, hneg⟩
    · have hlen : s.sharers.length = 0 := by omega
      simp [ho, eq_nil_of_length_eq_zero hlen]
    · omega

theorem Counted.share (ht : s.pc t = .granting .shared) :
    ((s.setShared (s.i + 1) (t :: s.sharers)).goto t (.unlocking none)).Counted := by
  have hi := h.zero_le_i ht
  refine h.assigned hg (by rw [ht]; rfl) rfl trivial ?_ ?_
  · intro mode u _ hmem
    cases mode with
    | exclusive => exact hmem
    | shared => exact mem_cons_of_mem t hmem
  · refine .inl ?_
    rcases h.counts with ⟨ho, hsh⟩ | ⟨u, _, _, hneg⟩
    · simp [ho, hsh]
    · omega

theorem Counted.disown (ht : s.pc t = .releasing .exclusive) :
    ((s.setExclusive 0 (s.owners.erase t)).goto t .broadcasting).Counted := by
  have he := h.entitled t
  rw [ht] at he
  change t ∈ s.owners at he
  refine h.assigned hg (by rw [ht]; rfl) rfl trivial ?_ ?_
  · intro mode u hu hmem
    cases mode with
    | exclusive => exact (mem_erase_of_ne hu).mpr hmem
    | shared => exact hmem
  · refine .inl ?_
    rcases h.counts with ⟨ho, _⟩ | ⟨u, ho, hsh, _⟩
    · rw [ho] at he
      cases he
    · rw [ho, mem_singleton] at he
      simp [ho, hsh, he]

theorem Counted.unshare (ht : s.pc t = .releasing .shared) :
    ((s.setShared (s.i - 1) (s.sharers.erase t)).goto t
      (if s.i - 1 = 0 then .signalling false else .unlocking none)).Counted := by
  obtain ⟨hmem, ho, hi⟩ := h.mem_sharers ht
  refine h.assigned hg (by rw [ht]; rfl) rfl (by split_ifs <;> trivial) ?_ ?_
  · intro mode u hu hmem
    cases mode with
    | exclusive => exact hmem
    | shared => exact (mem_erase_of_ne hu).mpr hmem
  · have hlen := length_erase_of_mem hmem
    have hpos := length_pos_of_mem hmem
    exact .inl ⟨ho, by simp only [goto_i, setShared_i, goto_sharers, setShared_sharers]; omega⟩

theorem Counted.move (hs : s.Move t s') : s'.Counted := by
  have he := h.entitled t
  cases hs with
  | @call c _ hc =>
    refine h.moved rfl rfl rfl rfl ?_
    cases c with
    | acquire mode => trivial
    | release mode => exact mem_holders_of_mayCall hc
  | @lock c hpc _ =>
    refine h.moved rfl rfl rfl rfl ?_
    rw [hpc] at he
    cases c with
    | acquire mode => trivial
    | release mode => exact he
  | @raise wait _ _ => exact h.moved rfl rfl rfl rfl (by cases wait <;> trivial)
  | wait _ hi | pass _ hi => exact h.moved rfl rfl rfl rfl hi
  | own hpc => exact h.own hg hpc
  | share hpc => exact h.share hg hpc
  | disown hpc => exact h.disown hg hpc
  | unshare hpc => exact h.unshare hg hpc
  | broadcast => exact h.moved rfl rfl rfl rfl (by split_ifs <;> trivial)
  | @idle loop _ _ | @up w loop _ => exact h.moved rfl rfl rfl rfl (by cases loop <;> trivial)
  | relock | clear | queue | pop | down => exact h.moved rfl rfl rfl rfl trivial

end

end

theorem counted_of_reachable (h : system.Reachable s) : s.Counted := by
  apply h.invariant
  · rintro s rfl
    exact ⟨.inl ⟨rfl, rfl⟩, fun t => trivial⟩
  · intro s act s' hr hc hx
    obtain ⟨t, hs⟩ := exec_move hx
    exact hc.move (guarded_of_reachable hr) hs

theorem shared_lock_exclusion (h : system.Reachable s) :
    (∀ t ∈ s.owners, s.i = -1 ∧ s.owners = [t] ∧ s.sharers = []) ∧
    (s.owners = [] → s.i = s.sharers.length) := by
  rcases (counted_of_reachable h).counts with ⟨ho, hi⟩ | ⟨u, ho, hsh, hi⟩
  · exact ⟨by simp [ho], fun _ => hi⟩
  · refine ⟨fun t ht => ?_, by simp [ho]⟩
    rw [ho, mem_singleton] at ht
    exact ⟨hi, ht ▸ ho, hsh⟩

-- Thread 1 is the exclusive holder, and thread 2 waits for shared access.
theorem shared_lock_exclusion_contended :
    ∃ s, system.Reachable s ∧ s.owners = [1] ∧ s.waiters = [2] ∧ s.i = -1 ∧ s.sharers = [] := by
  obtain ⟨s, hs, hp⟩ := Lib.System.exists_of_leadsTo slockInit exec
    [.call 1 (.acquire .exclusive), .call 2 (.acquire .shared), .go 1, .go 1, .go 1, .go 1, .go 1,
      .go 2, .go 2, .order 2 [2], .go 2, .go 2]
    (fun s => decide (s.owners = [1] ∧ s.waiters = [2] ∧ s.pc 2 = .waiting .shared))
    (by decide +kernel)
  obtain ⟨ho, hw, _⟩ := of_decide_eq_true hp
  obtain ⟨hi, _, hsh⟩ := (shared_lock_exclusion hs).1 1 (by simp [ho])
  exact ⟨s, hs, ho, hw, hi, hsh⟩

end Pintos.Threads.SharedLock
