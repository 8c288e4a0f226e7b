import Mathlib

/-!
# Sliding windows

A log to which an entry is added only while fewer than `limit` of its entries are younger than
`width` never has more than `limit` entries in a window of that width (`Paced.window`), wherever the
window starts.
-/

namespace Framework

variable {α : Type} {time : α → Nat} {width limit : Nat} {log : List α}

/-- When an entry was added, fewer than `limit` of those before it were younger than `width`. -/
def Paced (time : α → Nat) (width limit : Nat) (log : List α) : Prop :=
  ∀ before x after, log = before ++ x :: after →
    (before.filter fun y => time x < time y + width).length < limit

theorem paced_nil : Paced time width limit [] := by
  intro before x after he
  simp at he

theorem paced_snoc {x : α} : Paced time width limit (log ++ [x]) ↔
    Paced time width limit log ∧ (log.filter fun y => time x < time y + width).length < limit := by
  constructor
  · intro h
    exact ⟨fun before y after he => h before y (after ++ [x]) (by simp [he]), h log x [] rfl⟩
  · rintro ⟨h, hx⟩ before y after he
    rcases List.eq_nil_or_concat after with rfl | ⟨after, z, rfl⟩
    · obtain ⟨rfl, hy⟩ := List.append_inj' he rfl
      cases hy
      exact hx
    · rw [List.concat_eq_append, ← List.cons_append, ← List.append_assoc] at he
      obtain ⟨hlog, -⟩ := List.append_inj' he rfl
      exact h before y after hlog

/-- The last entry inside a window was added while all the others in the window were young. -/
theorem Paced.window (h : Paced time width limit log) (a : Nat) :
    (log.filter fun y => a ≤ time y ∧ time y < a + width).length ≤ limit := by
  induction log using List.reverseRecOn with
  | nil => simp
  | append_singleton log x ih =>
    obtain ⟨hlog, hx⟩ := paced_snoc.1 h
    rw [List.filter_append, List.length_append]
    by_cases hin : a ≤ time x ∧ time x < a + width
    · have hyoung : (log.filter fun y => a ≤ time y ∧ time y < a + width).length ≤
          (log.filter fun y => time x < time y + width).length := by
        rw [← List.countP_eq_length_filter, ← List.countP_eq_length_filter]
        refine List.countP_mono_left fun y _ hy => ?_
        simp only [decide_eq_true_eq] at hy ⊢
        omega
      have hone := List.length_filter_le (fun y => decide (a ≤ time y ∧ time y < a + width)) [x]
      rw [List.length_singleton] at hone
      omega
    · have hnone : [x].filter (fun y => a ≤ time y ∧ time y < a + width) = [] := by simpa using hin
      rw [hnone, List.length_nil]
      exact ih hlog

end Framework
