import Mathlib

/-!
# Bounded recency lists

Weighted items under distinct keys, most recently used first.  An item is put in front of the others,
in the place of one that has its key, and the list is cut to a number of items and a total weight.
-/

namespace Framework

variable {w n : Nat}

structure Item (κ ν : Type) where
  key : κ
  value : ν
  weight : Nat

namespace Recency

variable {κ ν : Type}

def weight (xs : List (Item κ ν)) : Nat := (xs.map Item.weight).sum

/-- The items weigh at most `w` together and number at most `n`. -/
def Fits (w n : Nat) (xs : List (Item κ ν)) : Prop := weight xs ≤ w ∧ xs.length ≤ n

instance (w n : Nat) (xs : List (Item κ ν)) : Decidable (Fits w n xs) := inferInstanceAs (Decidable (_ ∧ _))

/-- The longest prefix that fits. -/
def trim (w n : Nat) : List (Item κ ν) → List (Item κ ν)
  | [] => []
  | x :: xs => if x.weight ≤ w ∧ 0 < n then x :: trim (w - x.weight) (n - 1) xs else []

variable [DecidableEq κ]

def get? (xs : List (Item κ ν)) (k : κ) : Option (Item κ ν) := xs.find? fun x => x.key = k

def erase (xs : List (Item κ ν)) (k : κ) : List (Item κ ν) := xs.filter fun x => x.key ≠ k

/-- Put an item in front, in the place of one that has its key. -/
def push (xs : List (Item κ ν)) (x : Item κ ν) : List (Item κ ν) := x :: erase xs x.key

/-- Keys are distinct, so an item is found under its key. -/
theorem get?_of_mem {xs : List (Item κ ν)} (hnd : (xs.map Item.key).Nodup) {x : Item κ ν} (hx : x ∈ xs) :
    get? xs x.key = some x := by
  induction xs with
  | nil => cases hx
  | cons y ys ih =>
    rw [List.map_cons, List.nodup_cons] at hnd
    rcases List.mem_cons.1 hx with rfl | hx
    · exact List.find?_cons_of_pos (by simp)
    · have hne : y.key ≠ x.key := fun he => hnd.1 (List.mem_map.2 ⟨x, hx, he.symm⟩)
      have hrest : get? (y :: ys) x.key = get? ys x.key := List.find?_cons_of_neg (by simp [hne])
      rw [hrest, ih hnd.2 hx]

/-! ## Weights -/

omit [DecidableEq κ] in
@[simp] theorem weight_nil : weight ([] : List (Item κ ν)) = 0 := rfl

omit [DecidableEq κ] in
@[simp] theorem weight_cons (x : Item κ ν) (xs : List (Item κ ν)) : weight (x :: xs) = x.weight + weight xs := by
  simp [weight]

omit [DecidableEq κ] in
theorem fits_cons {x : Item κ ν} {xs : List (Item κ ν)} :
    Fits w n (x :: xs) ↔ (x.weight ≤ w ∧ 0 < n) ∧ Fits (w - x.weight) (n - 1) xs := by
  simp only [Fits, weight_cons, List.length_cons]
  omega

/-- The weight of an item and that of the others. -/
theorem weight_erase {xs : List (Item κ ν)} (hnd : (xs.map Item.key).Nodup) {x : Item κ ν} (hx : x ∈ xs) :
    weight xs = x.weight + weight (erase xs x.key) := by
  induction xs with
  | nil => cases hx
  | cons y ys ih =>
    rw [List.map_cons, List.nodup_cons] at hnd
    rcases List.mem_cons.1 hx with rfl | hx
    · have hrest : erase ys x.key = ys := List.filter_eq_self.2 fun z hz => decide_eq_true fun he =>
        hnd.1 (List.mem_map.2 ⟨z, hz, he⟩)
      have hhead : erase (x :: ys) x.key = erase ys x.key := List.filter_cons_of_neg (by simp)
      rw [hhead, hrest, weight_cons]
    · have hne : y.key ≠ x.key := fun he => hnd.1 (List.mem_map.2 ⟨x, hx, he.symm⟩)
      have hhead : erase (y :: ys) x.key = y :: erase ys x.key := List.filter_cons_of_pos (by simp [hne])
      rw [hhead, weight_cons, weight_cons, ih hnd.2 hx]
      omega

theorem fits_erase {xs : List (Item κ ν)} (h : Fits w n xs) (k : κ) : Fits w n (erase xs k) := by
  have hsub : (erase xs k).Sublist xs := List.filter_sublist
  exact ⟨(hsub.map Item.weight).sum_le_sum (fun _ _ => Nat.zero_le _) |>.trans h.1, hsub.length_le.trans h.2⟩

/-- An item that moves to the front takes no more room. -/
theorem fits_push {xs : List (Item κ ν)} (h : Fits w n xs) (hnd : (xs.map Item.key).Nodup) {x : Item κ ν} (hx : x ∈ xs) :
    Fits w n (push xs x) := by
  have hw := weight_erase hnd hx
  have hl : (erase xs x.key).length < xs.length :=
    List.length_filter_lt_length_iff_exists.2 ⟨x, hx, by simp⟩
  obtain ⟨h₁, h₂⟩ := h
  refine ⟨?_, ?_⟩
  · rw [push, weight_cons]
    omega
  · rw [push, List.length_cons]
    omega

/-! ## Cutting to size -/

omit [DecidableEq κ]

theorem trim_fits (w n : Nat) (xs : List (Item κ ν)) : Fits w n (trim w n xs) := by
  induction xs generalizing w n with
  | nil => exact ⟨Nat.zero_le _, Nat.zero_le _⟩
  | cons x xs ih =>
    unfold trim
    split_ifs with h
    · exact fits_cons.2 ⟨h, ih _ _⟩
    · exact ⟨Nat.zero_le _, Nat.zero_le _⟩

theorem trim_sublist (w n : Nat) (xs : List (Item κ ν)) : (trim w n xs).Sublist xs := by
  induction xs generalizing w n with
  | nil => exact .slnil
  | cons x xs ih =>
    unfold trim
    split_ifs
    · exact (ih _ _).cons_cons x
    · exact List.nil_sublist _

/-- What fits is kept. -/
theorem trim_of_fits {xs : List (Item κ ν)} (h : Fits w n xs) : trim w n xs = xs := by
  induction xs generalizing w n with
  | nil => rfl
  | cons x xs ih =>
    obtain ⟨hx, hxs⟩ := fits_cons.1 h
    rw [trim, if_pos hx, ih hxs]

/-- Where the items do not fit, the last one goes. -/
theorem trim_dropLast {xs : List (Item κ ν)} (h : ¬ Fits w n xs) : trim w n xs = trim w n xs.dropLast := by
  induction xs generalizing w n with
  | nil => rfl
  | cons x xs ih =>
    by_cases hx : x.weight ≤ w ∧ 0 < n
    · have hxs : ¬ Fits (w - x.weight) (n - 1) xs := fun hf => h (fits_cons.2 ⟨hx, hf⟩)
      have hne : xs ≠ [] := by
        rintro rfl
        exact hxs ⟨Nat.zero_le _, Nat.zero_le _⟩
      rw [List.dropLast_cons_of_ne_nil hne, trim, trim, if_pos hx, if_pos hx, ih hxs]
    · have hnil : ∀ ys, trim w n (x :: ys) = [] := fun ys => if_neg hx
      cases xs with
      | nil => exact hnil []
      | cons y ys => rw [hnil, List.dropLast_cons_of_ne_nil (by simp), hnil]

end Recency

end Framework
