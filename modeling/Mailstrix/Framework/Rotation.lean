import Mathlib

/-!
# Round robin

Turns go to the values of a linear order, each to the next one on offer after the value served
before, starting again from the least when none is left (`NextAfter`).  What is on offer may change
from turn to turn.  A value that stays on offer is served before any other has its second turn
(`Rotates.fair`).
-/

namespace Framework

variable {τ : Type} [LinearOrder τ]

/-- `t` is on offer and comes next after `last`, going round. -/
def NextAfter (offered : τ → Prop) (last t : τ) : Prop :=
  offered t ∧ ((last < t ∧ ∀ u, offered u → last < u → t ≤ u) ∨
    ((∀ u, offered u → u ≤ last) ∧ ∀ u, offered u → t ≤ u))

/-- Each turn, with what was on offer at it, is the next after the one before. -/
def Rotates : τ → List ((τ → Prop) × τ) → Prop
  | _, [] => True
  | last, turn :: turns => NextAfter turn.1 last turn.2 ∧ Rotates turn.2 turns

/-- Going round from `a`, `x` comes before `b`. -/
def Arc (a b x : τ) : Prop := a < b ∧ a ≤ x ∧ x < b ∨ b < a ∧ (a ≤ x ∨ x < b)

theorem arc_self {a b : τ} (h : b ≠ a) : Arc a b a := by
  rcases lt_or_gt_of_ne h with hlt | hlt
  · exact .inr ⟨hlt, .inl (le_refl a)⟩
  · exact .inl ⟨hlt, le_refl a, hlt⟩

/-- With `b` on offer, a turn from inside the arc is `b` or stays inside and does not return to its
start. -/
theorem NextAfter.arc {offered : τ → Prop} {a b last t : τ} (h : NextAfter offered last t) (hb : offered b)
    (harc : Arc a b last) : t = b ∨ t ≠ a ∧ Arc a b t := by
  obtain ⟨-, ⟨hlt, hfirst⟩ | ⟨hnone, hleast⟩⟩ := h
  · rcases harc with ⟨hab, hle, hlast⟩ | ⟨hba, hle | hlast⟩
    · rcases (hfirst b hb hlast).eq_or_lt with rfl | htb
      · exact .inl rfl
      · exact .inr ⟨(hle.trans_lt hlt).ne', .inl ⟨hab, (hle.trans_lt hlt).le, htb⟩⟩
    · exact .inr ⟨(hle.trans_lt hlt).ne', .inr ⟨hba, .inl (hle.trans_lt hlt).le⟩⟩
    · rcases (hfirst b hb hlast).eq_or_lt with rfl | htb
      · exact .inl rfl
      · exact .inr ⟨(htb.trans hba).ne, .inr ⟨hba, .inr htb⟩⟩
  · have hble : b ≤ last := hnone b hb
    rcases harc with ⟨-, -, hlast⟩ | ⟨hba, -⟩
    · exact absurd hlast (not_lt_of_ge hble)
    · rcases (hleast b hb).eq_or_lt with rfl | htb
      · exact .inl rfl
      · exact .inr ⟨(htb.trans hba).ne, .inr ⟨hba, .inr htb⟩⟩

theorem Rotates.drop {last : τ} {before rest : List ((τ → Prop) × τ)} {turn : (τ → Prop) × τ}
    (h : Rotates last (before ++ turn :: rest)) : Rotates turn.2 rest := by
  induction before generalizing last with
  | nil => exact h.2
  | cons first before ih => exact ih h.2

/-- From inside the arc, while `b` stays on offer. -/
theorem Rotates.arc {a b last : τ} {between after : List ((τ → Prop) × τ)} {turn : (τ → Prop) × τ}
    (h : Rotates last (between ++ turn :: after)) (harc : Arc a b last)
    (hoffer : ∀ z ∈ between ++ [turn], z.1 b) (hback : turn.2 = a) (hne : b ≠ a) : ∃ z ∈ between, z.2 = b := by
  induction between generalizing last with
  | nil =>
    rcases h.1.arc (hoffer turn (by simp)) harc with hb | ⟨ha, -⟩
    · exact absurd (hb.symm.trans hback) hne
    · exact absurd hback ha
  | cons z between ih =>
    rcases h.1.arc (hoffer z (by simp)) harc with hb | ⟨-, harc'⟩
    · exact ⟨z, List.mem_cons_self, hb⟩
    · obtain ⟨z', hz', hserved⟩ := ih h.2 harc' fun y hy => hoffer y (List.mem_cons_of_mem _ hy)
      exact ⟨z', List.mem_cons_of_mem _ hz', hserved⟩

/-- Between two turns of one value, any other that stayed on offer has had one. -/
theorem Rotates.fair {last b : τ} {before between after : List ((τ → Prop) × τ)} {x y : (τ → Prop) × τ}
    (h : Rotates last (before ++ x :: (between ++ y :: after))) (hxy : y.2 = x.2) (hne : b ≠ x.2)
    (hoffer : ∀ z ∈ between ++ [y], z.1 b) : ∃ z ∈ between, z.2 = b :=
  h.drop.arc (arc_self hne) hoffer hxy hne

end Framework
