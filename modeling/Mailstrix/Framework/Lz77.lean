import Mathlib

/-!
# LZ77 tokens

A text as literals and copies of what has been produced already.  A copy reaches back by its distance, at most to the
beginning of the text and of the window.  A window that holds as much as is produced does not matter (`decode_window`).
-/

namespace Framework.Lz77

variable {α : Type}

inductive Token (α : Type)
  | literal (c : α)
  | copy (distance length : Nat)
deriving DecidableEq, Repr

/-- A copy may overlap what it produces. -/
def copyFrom (distance : Nat) : Nat → List α → List α
  | 0, out => out
  | n + 1, out => copyFrom distance n (out ++ out[out.length - distance]?.toList)

/-- The text, or what has been produced before a copy that reaches too far. -/
def decode (window : Nat) : List α → List (Token α) → Except (List α) (List α)
  | out, [] => .ok out
  | out, .literal c :: rest => decode window (out ++ [c]) rest
  | out, .copy distance length :: rest =>
    if distance ≤ window ∧ distance ≤ out.length then decode window (copyFrom distance length out) rest else .error out

def produced : Except (List α) (List α) → List α
  | .ok out => out
  | .error out => out

theorem length_copyFrom (distance n : Nat) (out : List α) : out.length ≤ (copyFrom distance n out).length := by
  induction n generalizing out with
  | zero => exact Nat.le_refl _
  | succ n ih =>
    rw [copyFrom]
    apply Nat.le_trans _ (ih _)
    rw [List.length_append]
    omega

theorem length_decode (window : Nat) (out : List α) (tokens : List (Token α)) :
    out.length ≤ (produced (decode window out tokens)).length := by
  induction tokens generalizing out with
  | nil => exact Nat.le_refl _
  | cons token rest ih =>
    cases token with
    | literal c =>
      apply Nat.le_trans _ (ih _)
      rw [List.length_append]
      omega
    | copy distance length =>
      rw [decode]
      split
      · exact Nat.le_trans (length_copyFrom distance length out) (ih _)
      · exact Nat.le_refl _

/-- Two windows that hold all that is produced give the same text or the same error. -/
theorem decode_window {n w w' : Nat} (hw : n ≤ w) (hw' : n ≤ w') {out : List α} {tokens : List (Token α)}
    (h : (produced (decode w out tokens)).length ≤ n) : decode w' out tokens = decode w out tokens := by
  induction tokens generalizing out with
  | nil => rfl
  | cons token rest ih =>
    cases token with
    | literal c => exact ih h
    | copy distance length =>
      -- so far no more is produced than either window holds
      have hout : out.length ≤ n := Nat.le_trans (length_decode w out _) h
      rw [decode, decode]
      rw [decode] at h
      by_cases hd : distance ≤ out.length
      · rw [if_pos ⟨by omega, hd⟩] at h ⊢
        rw [if_pos ⟨by omega, hd⟩]
        exact ih h
      · rw [if_neg fun hv => hd hv.2, if_neg fun hv => hd hv.2]

end Framework.Lz77
