import Mathlib.Data.List.Basic
import Mathlib.Order.MinMax

namespace Pintos.Lib.RunningMax

variable {α β : Type*} [LinearOrder β] {f : α → β} {a : α} {l : List α} {b c : β}

def runningMax (f : α → β) (l : List α) (b : β) : β :=
  l.foldl (fun m a => if f a > m then f a else m) b

theorem runningMax_cons : runningMax f (a :: l) b = runningMax f l (max b (f a)) := by
  unfold runningMax
  rw [List.foldl_cons]
  congr 1
  split_ifs with h
  · exact (max_eq_right h.le).symm
  · exact (max_eq_left (not_lt.mp h)).symm

theorem le_runningMax : b ≤ runningMax f l b := by
  induction l generalizing b with
  | nil => exact le_rfl
  | cons a l ih =>
    rw [runningMax_cons]
    exact (le_max_left b (f a)).trans ih

theorem le_runningMax_of_mem (ha : a ∈ l) : f a ≤ runningMax f l b := by
  induction l generalizing b with
  | nil => cases ha
  | cons a' l ih =>
    rw [runningMax_cons]
    rcases List.mem_cons.mp ha with rfl | ha
    · exact (le_max_right b (f a)).trans le_runningMax
    · exact ih ha

theorem runningMax_attained : runningMax f l b = b ∨ ∃ a ∈ l, f a = runningMax f l b := by
  induction l generalizing b with
  | nil => exact .inl rfl
  | cons a l ih =>
    rw [runningMax_cons]
    rcases ih (b := max b (f a)) with h | ⟨a', ha', h⟩
    · rw [h]
      rcases max_choice b (f a) with hb | ha
      · exact .inl hb
      · exact .inr ⟨a, List.mem_cons_self, ha.symm⟩
    · exact .inr ⟨a', List.mem_cons_of_mem _ ha', h⟩

end Pintos.Lib.RunningMax
