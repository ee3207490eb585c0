import Pintos.Threads.Mlfqs.Bounds

namespace Pintos.Threads

open Kernel

-- The load average as the recurrence means it, for the ready counts `n`.
def exactLoad (n : Nat → Int) : Nat → ℚ
  | 0 => 0
  | k + 1 => 59 / 60 * exactLoad n k + n k / 60

variable {loadAvg ready : Int} {load : ℚ} {bound : Nat} {k k' : Kernel}

structure Tracks (bound : Nat) (load : ℚ) (loadAvg : Int) : Prop where
  nonneg : 0 ≤ loadAvg
  le : (loadAvg : ℚ) ≤ 2 ^ 14 * load
  drift : 2 ^ 14 * load ≤ loadAvg + (56 * bound + 120)
  load_le : load ≤ bound

theorem Tracks.initial (bound : Nat) : Tracks bound 0 0 := by
  have hbound : (0 : ℚ) ≤ bound := Nat.cast_nonneg bound
  refine ⟨le_rfl, ?_, ?_, hbound⟩
  · norm_num
  · push_cast
    linarith

-- Both quotients lose less than one unit, and 16110 / 16384 falls short of 59 / 60 by
-- 14 / 15 of a unit for every thread; a sixtieth of the drift makes up for that.
theorem Tracks.next (h : Tracks bound load loadAvg) (hn : 0 ≤ ready ∧ ready ≤ bound) :
    Tracks bound (59 / 60 * load + ready / 60) (Checked.nextLoad loadAvg ready) := by
  obtain ⟨hnonneg, hle, hdrift, hload⟩ := h
  have hkept : 0 ≤ 16110 * loadAvg / 16384 := by omega
  have hadded : 0 ≤ ready * 16384 * 16384 / 983040 := by omega
  have hk := Int.mul_ediv_self_le (x := 16110 * loadAvg) (k := 16384) (by decide)
  have hk' := Int.lt_mul_ediv_self_add (x := 16110 * loadAvg) (k := 16384) (by decide)
  have ha := Int.mul_ediv_self_le (x := ready * 16384 * 16384) (k := 983040) (by decide)
  have ha' := Int.lt_mul_ediv_self_add (x := ready * 16384 * 16384) (k := 983040) (by decide)
  unfold Checked.nextLoad
  generalize 16110 * loadAvg / 16384 = kept at *
  generalize ready * 16384 * 16384 / 983040 = added at *
  have hnq : (0 : ℚ) ≤ loadAvg := by exact_mod_cast hnonneg
  have hrq : (ready : ℚ) ≤ bound := by exact_mod_cast hn.2
  have hkq : 16384 * (kept : ℚ) ≤ 16110 * loadAvg := by exact_mod_cast hk
  have hkq' : 16110 * (loadAvg : ℚ) < 16384 * kept + 16384 := by exact_mod_cast hk'
  have haq : 983040 * (added : ℚ) ≤ ready * 16384 * 16384 := by exact_mod_cast ha
  have haq' : ready * 16384 * 16384 < 983040 * (added : ℚ) + 983040 := by exact_mod_cast ha'
  refine ⟨by omega, ?_, ?_, ?_⟩
  · push_cast
    linarith
  · push_cast
    linarith
  · linarith

namespace Kernel

def numReady (k : Kernel) : Int :=
  if some k.current ≠ k.idleThread then ((k.lists .ready).length : Int) + 1
  else (k.lists .ready).length

theorem numReady_nonneg (k : Kernel) : 0 ≤ k.numReady := by
  unfold numReady
  split <;> omega

theorem threadCalculateLoadAvg_eq (k : Kernel) (hl : 0 ≤ k.loadAvg ∧ k.loadAvg < loadLimit)
    (hn : k.numReady ≤ 500) :
    ∃ coefficient, k.threadCalculateLoadAvg = .ok { k with
        loadAvg := Checked.nextLoad k.loadAvg k.numReady, loadAvgCoefficient := coefficient } ∧
      Checked.nextLoad k.loadAvg k.numReady < loadLimit := by
  obtain ⟨coefficient, -, hnext, hbound, -⟩ := Checked.nextLoadAvg_eq hl ⟨k.numReady_nonneg, hn⟩
  refine ⟨coefficient, ?_, hbound.2⟩
  unfold numReady at hnext ⊢
  unfold threadCalculateLoadAvg
  dsimp only
  rw [hnext]

end Kernel

-- `ks j` is the kernel at the `j`-th call; between two calls everything but load_avg may change.
theorem load_avg_drift_bounded (bound : Nat) (hbound : bound ≤ 500) (ks : Nat → Kernel)
    (hstart : (ks 0).loadAvg = 0) (hready : ∀ j, (ks j).numReady ≤ bound)
    (hkept : ∀ j k', (ks j).threadCalculateLoadAvg = .ok k' → (ks (j + 1)).loadAvg = k'.loadAvg)
    (j : Nat) :
    ∃ k', (ks j).threadCalculateLoadAvg = .ok k' ∧
      0 ≤ exactLoad (fun j => (ks j).numReady) (j + 1) - k'.loadAvg / 2 ^ 14 ∧
      exactLoad (fun j => (ks j).numReady) (j + 1) - k'.loadAvg / 2 ^ 14 ≤
        (56 * bound + 120) / 2 ^ 14 := by
  have hcount : ∀ j, (ks j).numReady ≤ 500 := fun j => by
    have := hready j
    omega
  have htracks : ∀ j, Tracks bound (exactLoad (fun j => (ks j).numReady) j) (ks j).loadAvg ∧
      (ks j).loadAvg < loadLimit := by
    intro j
    induction j with
    | zero =>
      rw [hstart]
      exact ⟨Tracks.initial bound, by decide⟩
    | succ j ih =>
      obtain ⟨htrack, hlimit⟩ := ih
      obtain ⟨coefficient, hcalc, hlt⟩ :=
        (ks j).threadCalculateLoadAvg_eq ⟨htrack.nonneg, hlimit⟩ (hcount j)
      rw [hkept j _ hcalc]
      exact ⟨htrack.next ⟨(ks j).numReady_nonneg, hready j⟩, hlt⟩
  obtain ⟨htrack, hlimit⟩ := htracks j
  obtain ⟨coefficient, hcalc, -⟩ :=
    (ks j).threadCalculateLoadAvg_eq ⟨htrack.nonneg, hlimit⟩ (hcount j)
  refine ⟨_, hcalc, ?_⟩
  obtain ⟨-, hle, hdrift, -⟩ := htrack.next ⟨(ks j).numReady_nonneg, hready j⟩
  rw [exactLoad]
  dsimp only
  constructor <;> linarith

namespace Kernel

def afterSecond (k : Kernel) : Kernel := k.threadCalculateLoadAvg.toOption.getD k

def afterSeconds (k : Kernel) : Nat → Kernel
  | 0 => k
  | j + 1 => (k.afterSeconds j).afterSecond

theorem afterSecond_of_ok (h : k.threadCalculateLoadAvg = .ok k') : k.afterSecond = k' := by
  rw [afterSecond, h]
  rfl

theorem afterSecond_of_error {fault : Fault}
    (h : k.threadCalculateLoadAvg = .error fault) : k.afterSecond = k := by
  rw [afterSecond, h]
  rfl

theorem numReady_of_calculateLoadAvg (h : k.threadCalculateLoadAvg = .ok k') :
    k'.numReady = k.numReady := by
  unfold threadCalculateLoadAvg at h
  dsimp only at h
  generalize nextLoadAvg _ _ = next at h
  match next, h with
  | some (_, _), h =>
    cases h
    rfl

theorem numReady_afterSeconds (k : Kernel) (j : Nat) :
    (k.afterSeconds j).numReady = k.numReady := by
  induction j with
  | zero => rfl
  | succ j ih =>
    rw [afterSeconds, ← ih]
    generalize k.afterSeconds j = k
    match hcalc : k.threadCalculateLoadAvg with
    | .ok k' => rw [afterSecond_of_ok hcalc, numReady_of_calculateLoadAvg hcalc]
    | .error _ => rw [afterSecond_of_error hcalc]

end Kernel

theorem load_avg_drift_bounded_one_thread :
    ∃ k', ((Kernel.blank true fun _ => 0).afterSeconds 1).threadCalculateLoadAvg = .ok k' ∧
      0 ≤ exactLoad (fun j => ((Kernel.blank true fun _ => 0).afterSeconds j).numReady) 2 -
        k'.loadAvg / 2 ^ 14 ∧
      exactLoad (fun j => ((Kernel.blank true fun _ => 0).afterSeconds j).numReady) 2 -
        k'.loadAvg / 2 ^ 14 ≤ (56 * (1 : Nat) + 120) / 2 ^ 14 := by
  have hready : (blank true fun _ => 0).numReady ≤ (1 : Nat) := by decide
  refine load_avg_drift_bounded 1 (by decide) (blank true fun _ => 0).afterSeconds rfl
    (fun j => ?_) (fun j k' hcalc => ?_) 1
  · rwa [numReady_afterSeconds]
  · rw [afterSeconds, afterSecond_of_ok hcalc]

end Pintos.Threads
