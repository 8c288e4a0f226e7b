import Mathlib

/-!
# Removal by position

Elements of a list that satisfy a predicate, removed by their number among those that do.  Removing the last of them
first leaves the numbers of the others as they are, so that counting down removes all of them (`countdown_all`).
-/

namespace Framework

variable {α : Type}

/-- A list without the `n`-th element, from zero, that satisfies `p`. -/
def removeNth (p : α → Bool) : Nat → List α → List α
  | _, [] => []
  | n, x :: l =>
    if p x then
      match n with
      | 0 => l
      | n + 1 => x :: removeNth p n l
    else x :: removeNth p n l

/-- A list without the first `n` elements that satisfy `p`. -/
@[simp] def removeFirst (p : α → Bool) : Nat → List α → List α
  | 0, l => l
  | _ + 1, [] => []
  | n + 1, x :: l => if p x then removeFirst p n l else x :: removeFirst p (n + 1) l

theorem removeFirst_removeNth (p : α → Bool) (n : Nat) (l : List α) :
    removeFirst p n (removeNth p n l) = removeFirst p (n + 1) l := by
  induction l generalizing n with
  | nil => cases n <;> rfl
  | cons x l ih =>
    by_cases hx : p x = true
    · cases n with
      | zero => simp [removeNth, hx]
      | succ n => simp [removeNth, hx, ih]
    · cases n with
      | zero => simpa [removeNth, hx] using ih 0
      | succ n => simpa [removeNth, hx] using ih (n + 1)

theorem removeFirst_all (p : α → Bool) (l : List α) : removeFirst p (l.countP p) l = l.filter fun x => !p x := by
  induction l with
  | nil => rfl
  | cons x l ih =>
    by_cases hx : p x = true
    · simp [hx, ih]
    · rw [List.countP_cons_of_neg hx, List.filter_cons_of_pos (by simpa using hx), ← ih]
      cases l.countP p with
      | zero => simp
      | succ n => simp [hx]

/-- From the last number down to the first. -/
theorem countdown_first (p : α → Bool) (n : Nat) (l : List α) :
    (List.range n).reverse.foldl (fun l i => removeNth p i l) l = removeFirst p n l := by
  induction n generalizing l with
  | zero => simp
  | succ n ih =>
    rw [List.range_succ, List.reverse_append, List.reverse_singleton, List.singleton_append, List.foldl_cons, ih,
      removeFirst_removeNth]

theorem countdown_all (p : α → Bool) (l : List α) :
    (List.range (l.countP p)).reverse.foldl (fun l i => removeNth p i l) l = l.filter fun x => !p x := by
  rw [countdown_first, removeFirst_all]

end Framework
