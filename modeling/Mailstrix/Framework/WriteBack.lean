import Mathlib

/-!
# Writes that reach the medium later

A `WriteBack` is a value on a medium together with the writes issued since it was last flushed.  The
program sees all of them (`view`); a failure keeps any selection of them, in order (`Image`).
-/

namespace Framework

variable {σ ω : Type}

/-- What is on the medium, and the writes issued since. -/
structure WriteBack (σ ω : Type) where
  base : σ
  pending : List ω := []

namespace WriteBack

def push (w : WriteBack σ ω) (o : ω) : WriteBack σ ω := { w with pending := w.pending ++ [o] }

variable (apply : σ → ω → σ)

/-- What the program sees. -/
def view (w : WriteBack σ ω) : σ := w.pending.foldl apply w.base

def flush (w : WriteBack σ ω) : WriteBack σ ω := ⟨w.view apply, []⟩

/-- What a failure may leave: some of the pending writes have been made. -/
def Image (w : WriteBack σ ω) (x : σ) : Prop :=
  ∃ os : List ω, os.Sublist w.pending ∧ x = os.foldl apply w.base

variable {apply} {w : WriteBack σ ω} {o : ω} {x y : σ}

theorem image_view : w.Image apply (w.view apply) := ⟨w.pending, .refl _, rfl⟩

theorem view_push : (w.push o).view apply = apply (w.view apply) o := by
  simp only [view, push, List.foldl_append, List.foldl_cons, List.foldl_nil]

/-- One more write: it has been made or not, after any earlier selection. -/
theorem image_push : (w.push o).Image apply x ↔ w.Image apply x ∨ ∃ y, w.Image apply y ∧ x = apply y o := by
  constructor
  · rintro ⟨os, hos, rfl⟩
    obtain ⟨l, r, rfl, hl, hr⟩ := List.sublist_append_iff.1 hos
    rcases List.sublist_singleton.1 hr with rfl | rfl
    · exact .inl ⟨l, hl, by simp [push]⟩
    · exact .inr ⟨_, ⟨l, hl, rfl⟩, by simp [push]⟩
  · rintro (⟨os, hos, rfl⟩ | ⟨y, ⟨os, hos, rfl⟩, rfl⟩)
    · exact ⟨os, hos.trans (List.sublist_append_left _ _), rfl⟩
    · exact ⟨os ++ [o], hos.append (.refl _), by simp [push]⟩

theorem image_nil : (⟨y, []⟩ : WriteBack σ ω).Image apply x ↔ x = y := by
  constructor
  · rintro ⟨os, hos, rfl⟩
    rw [List.sublist_nil.1 hos]
    rfl
  · rintro rfl
    exact ⟨[], .refl _, rfl⟩

end WriteBack

end Framework
