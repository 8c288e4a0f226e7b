import Mathlib

/-!
# Fallible straight-line code

A function that may stop with an error at every line is written in `Except` with `check` for its
guards.  `bind_ok` and `check_ok` take a successful run apart into the facts of its lines.
-/

namespace Framework

variable {ε α β : Type}

/-- Stop with `e` unless `p` holds. -/
def check (p : Prop) [Decidable p] (e : ε) : Except ε Unit := if p then .ok () else .error e

/-- Stop with `e` unless there is a value. -/
def need (x : Option α) (e : ε) : Except ε α :=
  match x with
  | some a => .ok a
  | none => .error e

theorem bind_ok {x : Except ε α} {f : α → Except ε β} {b : β} :
    (x >>= f) = .ok b ↔ ∃ a, x = .ok a ∧ f a = .ok b := by
  cases x with
  | error e => exact ⟨fun h => (nomatch h), fun ⟨_, h, _⟩ => (nomatch h)⟩
  | ok a => exact ⟨fun h => ⟨a, rfl, h⟩, fun ⟨_, h, hb⟩ => by cases h; exact hb⟩

theorem bind_error {x : Except ε α} {f : α → Except ε β} {e : ε} :
    (x >>= f) = .error e ↔ x = .error e ∨ ∃ a, x = .ok a ∧ f a = .error e := by
  cases x with
  | error e' =>
    constructor
    · intro h
      cases h
      exact .inl rfl
    · rintro (h | ⟨_, h, _⟩) <;> cases h
      rfl
  | ok a =>
    constructor
    · exact fun h => .inr ⟨a, rfl, h⟩
    · rintro (h | ⟨_, h, hb⟩) <;> cases h
      exact hb

theorem check_ok {p : Prop} [Decidable p] {e : ε} {u : Unit} : check p e = .ok u ↔ p := by
  unfold check
  split <;> simp [*]

theorem check_pos {p : Prop} [Decidable p] {e : ε} (h : p) : check p e = .ok () := if_pos h

theorem check_error {p : Prop} [Decidable p] {e e' : ε} : check p e = .error e' ↔ ¬ p ∧ e = e' := by
  unfold check
  split <;> simp [*]

theorem need_ok {x : Option α} {e : ε} {a : α} : need x e = .ok a ↔ x = some a := by
  cases x <;> simp [need]

theorem need_error {x : Option α} {e e' : ε} : need x e = .error e' ↔ x = none ∧ e = e' := by
  cases x <;> simp [need]

/-- A loop that stops at the first error. -/
def each (f : α → Except ε Unit) : List α → Except ε Unit
  | [] => .ok ()
  | a :: as => do
    f a
    each f as

theorem each_ok {f : α → Except ε Unit} {as : List α} {u : Unit} :
    each f as = .ok u ↔ ∀ a ∈ as, f a = .ok () := by
  induction as with
  | nil => exact ⟨fun _ => nofun, fun _ => rfl⟩
  | cons a as ih =>
    rw [each, bind_ok]
    constructor
    · rintro ⟨_, ha, has⟩ b hb
      rcases List.mem_cons.1 hb with rfl | hb
      · exact ha
      · exact ih.1 has b hb
    · exact fun h => ⟨(), h a List.mem_cons_self, ih.2 fun b hb => h b (List.mem_cons_of_mem _ hb)⟩

theorem pure_ok {a b : α} : (pure a : Except ε α) = .ok b ↔ a = b := by
  simp [pure, Except.pure]

theorem pure_error {a : α} {e : ε} : (pure a : Except ε α) = .error e ↔ False := by
  simp [pure, Except.pure]

end Framework
