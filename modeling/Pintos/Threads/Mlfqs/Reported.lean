import Mathlib.Tactic.Ring
import Pintos.Threads.Mlfqs.Bounds

namespace Pintos.Threads

-- `r` is 100 times the fixed-point number `x`, to the nearest integer.
def Reports (x r : Int) : Prop := |(r : ℚ) - 100 * x / 2 ^ 14| ≤ 1 / 2

def NearWhole (x : Int) : Prop := x % 2 ^ 14 ≤ 81 ∨ 2 ^ 14 - 81 ≤ x % 2 ^ 14

instance (x : Int) : Decidable (NearWhole x) := inferInstanceAs (Decidable (_ ∨ _))

theorem reports_iff (x r : Int) :
    Reports x r ↔ -8192 ≤ 16384 * r - 100 * x ∧ 16384 * r - 100 * x ≤ 8192 := by
  have hscale : (r : ℚ) - 100 * x / 2 ^ 14 = ((16384 * r - 100 * x : Int) : ℚ) / 16384 := by
    push_cast
    ring
  unfold Reports
  rw [hscale, abs_le, div_le_iff₀ (by norm_num), le_div_iff₀ (by norm_num)]
  norm_num
  constructor
  · rintro ⟨hlow, hhigh⟩
    exact ⟨by exact_mod_cast hlow, by exact_mod_cast hhigh⟩
  · rintro ⟨hlow, hhigh⟩
    exact ⟨by exact_mod_cast hlow, by exact_mod_cast hhigh⟩

instance (x r : Int) : Decidable (Reports x r) := decidable_of_iff _ (reports_iff x r).symm

theorem rnconvFptoi_eq {x : Int} (hx : |x| ≤ 2 ^ 24) :
    rnconvFptoi x = if 0 ≤ x then (x + 8192) / 16384 else -((8192 - x) / 16384) := by
  obtain ⟨hlow, hhigh⟩ := abs_le.mp hx
  unfold rnconvFptoi
  have hhalf : fConv / 2 = 8192 := rfl
  rw [hhalf, fConv_eq]
  by_cases hsign : 0 ≤ x
  · rw [if_pos hsign, if_pos hsign, int32_eq ⟨by omega, by omega⟩,
      Int.tdiv_eq_ediv_of_nonneg (by omega)]
  · have hneg : x - 8192 = -(8192 - x) := by omega
    rw [if_neg hsign, if_neg hsign, int32_eq ⟨by omega, by omega⟩, hneg, Int.neg_tdiv,
      Int.tdiv_eq_ediv_of_nonneg (by omega)]

theorem reports_hundredfold_iff {x : Int} (hx : |x| ≤ 2 ^ 24) :
    Reports x (int32 (100 * rnconvFptoi x)) ↔ NearWhole x := by
  obtain ⟨hlow, hhigh⟩ := abs_le.mp hx
  have hround := rnconvFptoi_eq hx
  have hfits : IsInt32 (100 * rnconvFptoi x) := by
    rw [hround]
    unfold IsInt32
    split <;> omega
  rw [int32_eq hfits, reports_iff, hround]
  unfold NearWhole
  split <;> omega

namespace Kernel

def threadGetLoadAvg (k : Kernel) : Int := int32 (100 * rnconvFptoi k.loadAvg)

def threadGetRecentCpu (k : Kernel) : Int :=
  int32 (100 * rnconvFptoi (k.threads k.current).recentCpu)

theorem statistics_reported_iff (k : Kernel) (hload : |k.loadAvg| ≤ 2 ^ 24)
    (hcpu : |(k.threads k.current).recentCpu| ≤ 2 ^ 24) :
    (Reports k.loadAvg k.threadGetLoadAvg ↔ NearWhole k.loadAvg) ∧
      (Reports (k.threads k.current).recentCpu k.threadGetRecentCpu ↔
        NearWhole (k.threads k.current).recentCpu) :=
  ⟨reports_hundredfold_iff hload, reports_hundredfold_iff hcpu⟩

-- Main has run alone for 99 ticks, all of them charged to it.
theorem statistics_reported_whole :
    ∃ k, (system true).Reachable k ∧ (k.threads k.current).recentCpu = 99 * fConv ∧
      k.threadGetRecentCpu = 9900 ∧ Reports (99 * fConv) 9900 := by
  obtain ⟨k, hr, hp⟩ := leadsTo_reachable true uncrowded
    ([.threadBlock, .resume] ++ List.replicate 99 .timerInterrupt)
    (fun k => |k.loadAvg| ≤ 2 ^ 24 ∧ (k.threads k.current).recentCpu = 99 * fConv ∧
      k.threadGetRecentCpu = 9900) (by decide +kernel)
  obtain ⟨hload, hcpu, hget⟩ := of_decide_eq_true hp
  have hwhole : |(k.threads k.current).recentCpu| ≤ 2 ^ 24 := by
    rw [hcpu]
    decide
  have hreports := (statistics_reported_iff k hload hwhole).2.mpr (by rw [hcpu]; decide)
  rw [hcpu, hget] at hreports
  exact ⟨k, hr.reachable, hcpu, hget, hreports⟩

-- After the first second load_avg is 1/60, and 0 is returned for it instead of 2.
theorem statistics_lose_fraction :
    ∃ k, (system true).Reachable k ∧ k.loadAvg = 273 ∧ k.threadGetLoadAvg = 0 ∧
      ¬ Reports k.loadAvg k.threadGetLoadAvg ∧
      ¬ Reports (k.threads k.current).recentCpu k.threadGetRecentCpu := by
  obtain ⟨k, hr, hp⟩ := leadsTo_reachable true uncrowded
    ([.threadBlock, .resume] ++ List.replicate 100 .timerInterrupt)
    (fun k => k.loadAvg = 273 ∧ k.threadGetLoadAvg = 0 ∧ ¬ Reports k.loadAvg k.threadGetLoadAvg ∧
      ¬ Reports (k.threads k.current).recentCpu k.threadGetRecentCpu) (by decide +kernel)
  exact ⟨k, hr.reachable, of_decide_eq_true hp⟩

end Kernel

end Pintos.Threads
