import Pintos.Lib.RunningMax
import Pintos.Threads.Donation.Links

namespace Pintos.Threads.Kernel

open Lib RunningMax

variable {k k1 k' : Kernel} {t u w : ThreadRef} {lock : LockRef} {op : Op} {p : Int}

def donors (k : Kernel) (t : ThreadRef) : List ThreadRef :=
  (k.threads t).acquiredLocks.flatMap k.waitersOf

-- The priority that donation is to give `t`: its own, or that of the highest
-- thread that waits for it.
def entitledPriority (k : Kernel) (t : ThreadRef) : Int :=
  runningMax k.pri (k.donors t) (k.threads t).originalPriority

structure Entitled (k : Kernel) (t : ThreadRef) (p : Int) : Prop where
  original : (k.threads t).originalPriority ≤ p
  donors : ∀ w ∈ k.donors t, k.pri w ≤ p
  attained : p = (k.threads t).originalPriority ∨ ∃ w ∈ k.donors t, k.pri w = p

theorem mem_donors : w ∈ k.donors t ↔ ∃ lock ∈ (k.threads t).acquiredLocks, w ∈ k.waitersOf lock := by
  unfold donors
  rw [List.mem_flatMap]

theorem entitledPriority_entitled (k : Kernel) (t : ThreadRef) :
    k.Entitled t (k.entitledPriority t) :=
  ⟨le_runningMax, fun _ => le_runningMax_of_mem, runningMax_attained⟩

theorem Entitled.unique {q : Int} (h : k.Entitled t p) (h' : k.Entitled t q) : p = q := by
  have hle : ∀ {a b : Int}, k.Entitled t a → k.Entitled t b → a ≤ b := by
    intro a b ha hb
    rcases ha.attained with heq | ⟨w, hw, heq⟩
    · rw [heq]
      exact hb.original
    · rw [← heq]
      exact hb.donors w hw
  exact le_antisymm (hle h h') (hle h' h)

theorem threadListTopPri_spec (hs : PriorityQueue.Descending k.pri (k.waitersOf lock)) :
    (∀ w ∈ k.waitersOf lock, k.pri w ≤ k.threadListTopPri (.waiters (.ofLock lock))) ∧
    (k.threadListTopPri (.waiters (.ofLock lock)) = priMin ∨
      ∃ w ∈ k.waitersOf lock, k.pri w = k.threadListTopPri (.waiters (.ofLock lock))) := by
  unfold threadListTopPri
  split
  · rename_i hl
    have hnil : k.waitersOf lock = [] := hl
    rw [hnil]
    exact ⟨nofun, .inl rfl⟩
  · rename_i top rest hl
    have hcons : k.waitersOf lock = top :: rest := hl
    rw [hcons] at hs ⊢
    exact ⟨fun w hw => hs.le_head hw, .inr ⟨top, List.mem_cons_self, rfl⟩⟩

theorem nextPotentialDonation_eq (k : Kernel) (t : ThreadRef) : k.nextPotentialDonation t =
      runningMax (fun lock => k.threadListTopPri (.waiters (.ofLock lock)))
        (k.threads t).acquiredLocks priMin :=
  rfl

theorem nextPotentialDonation_spec
    (hs : ∀ lock ∈ (k.threads t).acquiredLocks, PriorityQueue.Descending k.pri (k.waitersOf lock)) :
    (∀ w ∈ k.donors t, k.pri w ≤ k.nextPotentialDonation t) ∧
    (k.nextPotentialDonation t = priMin ∨
      ∃ w ∈ k.donors t, k.pri w = k.nextPotentialDonation t) := by
  rw [nextPotentialDonation_eq]
  constructor
  · intro w hw
    obtain ⟨lock, hl, hm⟩ := mem_donors.mp hw
    exact ((threadListTopPri_spec (hs lock hl)).1 w hm).trans
      (le_runningMax_of_mem (f := fun lock => k.threadListTopPri (.waiters (.ofLock lock))) hl)
  · rcases runningMax_attained (f := fun lock => k.threadListTopPri (.waiters (.ofLock lock)))
      (l := (k.threads t).acquiredLocks) (b := priMin) with h | ⟨lock, hl, h⟩
    · exact .inl h
    · rw [← h]
      rcases (threadListTopPri_spec (hs lock hl)).2 with htop | ⟨w, hw, htop⟩
      · exact .inl htop
      · exact .inr ⟨w, mem_donors.mpr ⟨lock, hl, hw⟩, htop⟩

theorem Entitled.transfer (h : k.Entitled t p)
    (ho : (k'.threads t).originalPriority = (k.threads t).originalPriority)
    (hd : ∀ w, w ∈ k'.donors t ↔ w ∈ k.donors t) (hp : ∀ w ∈ k.donors t, k'.pri w = k.pri w) :
    k'.Entitled t p := by
  constructor
  · rw [ho]
    exact h.original
  · intro w hw
    rw [hp w ((hd w).mp hw)]
    exact h.donors w ((hd w).mp hw)
  · rw [ho]
    rcases h.attained with heq | ⟨w, hw, heq⟩
    · exact .inl heq
    · exact .inr ⟨w, (hd w).mpr hw, (hp w hw).trans heq⟩

section

variable (hs : ∀ lock ∈ (k.threads t).acquiredLocks,
    PriorityQueue.Descending k.pri (k.waitersOf lock))
  (ht : ∀ lock ∈ (k.threads t).acquiredLocks, t ∉ k.waitersOf lock)
include hs ht

-- lock_release takes the larger of the thread's own priority and the highest
-- priority `n` among those who wait for the locks it still holds. The thread
-- itself waits for none, so resetting its priority first shows in no list.
theorem restoredPriority_spec :
    ∃ n, (∀ w ∈ k.donors t, k.pri w ≤ n) ∧ (n = priMin ∨ ∃ w ∈ k.donors t, k.pri w = n) ∧
      k.restoredPriority t =
        if (k.threads t).acquiredLocks ≠ [] ∧ (k.threads t).originalPriority < n then n
        else (k.threads t).originalPriority := by
  set s := (k.setThread t (.setPriority (k.threads t).originalPriority)).setThread t
    (.setDonated false) with hsdef
  have hacq : (s.threads t).acquiredLocks = (k.threads t).acquiredLocks := by simp [s]
  have horig : (s.threads t).originalPriority = (k.threads t).originalPriority := by simp [s]
  have hpri : ∀ lock ∈ (k.threads t).acquiredLocks, ∀ w ∈ k.waitersOf lock, s.pri w = k.pri w := by
    intro lock hl w hw
    have hne : w ≠ t := by
      rintro rfl
      exact ht lock hl hw
    simp [s, pri, hne]
  have hdon : s.donors t = k.donors t := by
    unfold donors
    rw [hacq]
    rfl
  have hdpri : ∀ w ∈ k.donors t, s.pri w = k.pri w := by
    intro w hw
    obtain ⟨lock, hl, hm⟩ := mem_donors.mp hw
    exact hpri lock hl w hm
  obtain ⟨hbound, hatt⟩ := nextPotentialDonation_spec (k := s) (t := t) fun lock hl =>
    (PriorityQueue.descending_congr fun w hw => (hpri lock (hacq ▸ hl) w hw).symm).mp
      (hs lock (hacq ▸ hl))
  rw [hdon] at hbound hatt
  have hval : k.restoredPriority t = if (s.threads t).acquiredLocks ≠ [] ∧
        (s.threads t).originalPriority < s.nextPotentialDonation t then s.nextPotentialDonation t
      else (s.threads t).originalPriority := rfl
  rw [hacq, horig] at hval
  refine ⟨s.nextPotentialDonation t, ?_, ?_, hval⟩
  · intro w hw
    rw [← hdpri w hw]
    exact hbound w hw
  · rcases hatt with hz | ⟨w, hw, heq⟩
    · exact .inl hz
    · exact .inr ⟨w, hw, (hdpri w hw).symm.trans heq⟩

theorem le_restoredPriority : (k.threads t).originalPriority ≤ k.restoredPriority t ∧
      ∀ w ∈ k.donors t, k.pri w ≤ k.restoredPriority t := by
  obtain ⟨n, hbound, _, hval⟩ := restoredPriority_spec hs ht
  rw [hval]
  split_ifs with hc
  · exact ⟨hc.2.le, hbound⟩
  · refine ⟨le_rfl, fun w hw => ?_⟩
    obtain ⟨lock, hl, _⟩ := mem_donors.mp hw
    have hle : n ≤ (k.threads t).originalPriority := by
      by_contra hlt
      exact hc ⟨List.ne_nil_of_mem hl, not_le.mp hlt⟩
    exact (hbound w hw).trans hle

theorem restoredPriority_entitled (hmin : priMin ≤ (k.threads t).originalPriority) :
    k.Entitled t (k.restoredPriority t) ∧
    ((k.threads t).originalPriority < k.restoredPriority t →
      ∃ w ∈ k.donors t, k.pri w = k.restoredPriority t) := by
  obtain ⟨hle, hdonors⟩ := le_restoredPriority hs ht
  obtain ⟨n, _, hatt, hval⟩ := restoredPriority_spec hs ht
  have hsup : (k.threads t).originalPriority < k.restoredPriority t →
      ∃ w ∈ k.donors t, k.pri w = k.restoredPriority t := by
    intro hlt
    rw [hval] at hlt ⊢
    split_ifs at hlt ⊢ with hc
    · rcases hatt with rfl | hw
      · exact absurd hlt (not_lt.mpr hmin)
      · exact hw
    · exact absurd hlt (lt_irrefl _)
  refine ⟨⟨hle, hdonors, ?_⟩, hsup⟩
  rcases hle.eq_or_lt with heq | hlt
  · exact .inl heq.symm
  · exact .inr (hsup hlt)

end

structure DonationInv (k : Kernel) : Prop where
  entitled : ∀ t ∈ k.allList, k.Entitled t (k.pri t)
  supported : ∀ t ∈ k.allList, (k.threads t).donated = true → ∃ w ∈ k.donors t, k.pri w = k.pri t
  priMin_le : ∀ t ∈ k.allList, priMin ≤ (k.threads t).originalPriority

theorem DonationFrame.mem_donors (hf : k.DonationFrame k') (w : ThreadRef) :
    w ∈ k'.donors t ↔ w ∈ k.donors t := by
  rw [Kernel.mem_donors, Kernel.mem_donors, hf.acquiredLocks]
  simp only [hf.waiters]

theorem DonationInv.frame (h : k.DonationInv) (hf : k.DonationFrame k') : k'.DonationInv := by
  have hpri : ∀ t, k'.pri t = k.pri t := hf.priority
  constructor
  · intro t ht
    rw [hpri]
    exact (h.entitled t (hf.allList ▸ ht)).transfer (hf.originalPriority t) hf.mem_donors
      fun w _ => hpri w
  · intro t ht hd
    rw [hf.donated] at hd
    obtain ⟨w, hw, heq⟩ := h.supported t (hf.allList ▸ ht) hd
    exact ⟨w, (hf.mem_donors w).mpr hw, by rw [hpri, hpri, heq]⟩
  · intro t ht
    rw [hf.originalPriority]
    exact h.priMin_le t (hf.allList ▸ ht)

-- The running thread `t`, which waits for nothing, becomes `x`. No donor is `t`
-- itself, so the priorities of its donors are those before the change.
theorem DonationInv.setThread {x : Thread} (h : k.DonationInv) (ht : ∀ lock, t ∉ k.waitersOf lock)
    (horig : x.originalPriority ≤ x.priority)
    (hle : ∀ w ∈ (k.setThread t fun _ => x).donors t, k.pri w ≤ x.priority)
    (hatt : x.priority = x.originalPriority ∨
      ∃ w ∈ (k.setThread t fun _ => x).donors t, k.pri w = x.priority)
    (hd : x.donated = true → ∃ w ∈ (k.setThread t fun _ => x).donors t, k.pri w = x.priority)
    (hm : priMin ≤ x.originalPriority) : (k.setThread t fun _ => x).DonationInv := by
  have hpri : ∀ v, v ≠ t → (k.setThread t fun _ => x).pri v = k.pri v := by
    intro v hv
    simp [pri, hv]
  have hself : (k.setThread t fun _ => x).pri t = x.priority := by simp [pri]
  have hdonors : ∀ v, v ≠ t → (k.setThread t fun _ => x).donors v = k.donors v := by
    intro v hv
    unfold Kernel.donors
    rw [setThread_threads_ne _ _ hv]
    rfl
  have hne : ∀ v, ∀ w ∈ (k.setThread t fun _ => x).donors v, w ≠ t := by
    rintro v w hw rfl
    obtain ⟨lock, _, hmem⟩ := Kernel.mem_donors.mp hw
    exact ht lock hmem
  constructor
  · intro v hv
    by_cases hvt : v = t
    · subst hvt
      rw [hself]
      refine ⟨?_, ?_, ?_⟩
      · rw [setThread_threads_self]
        exact horig
      · intro w hw
        rw [hpri w (hne v w hw)]
        exact hle w hw
      · rw [setThread_threads_self]
        refine hatt.imp_right ?_
        rintro ⟨w, hw, heq⟩
        exact ⟨w, hw, (hpri w (hne v w hw)).trans heq⟩
    · rw [hpri v hvt]
      refine (h.entitled v hv).transfer ?_ (fun w => by rw [hdonors v hvt]) ?_
      · rw [setThread_threads_ne _ _ hvt]
      · intro w hw
        exact hpri w (hne v w (by rw [hdonors v hvt]; exact hw))
  · intro v hv hdv
    by_cases hvt : v = t
    · subst hvt
      rw [setThread_threads_self] at hdv
      obtain ⟨w, hw, heq⟩ := hd hdv
      exact ⟨w, hw, by rw [hpri w (hne _ w hw), hself, heq]⟩
    · rw [setThread_threads_ne _ _ hvt] at hdv
      obtain ⟨w, hw, heq⟩ := h.supported v hv hdv
      have hw' : w ∈ (k.setThread t fun _ => x).donors v := by rw [hdonors v hvt]; exact hw
      exact ⟨w, hw', by rw [hpri w (hne v w hw'), hpri v hvt, heq]⟩
  · intro v hv
    by_cases hvt : v = t
    · subst hvt
      rw [setThread_threads_self]
      exact hm
    · rw [setThread_threads_ne _ _ hvt]
      exact h.priMin_le v hv

end Pintos.Threads.Kernel
