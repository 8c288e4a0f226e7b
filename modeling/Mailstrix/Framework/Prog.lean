import Mathlib

/-!
# Programs that call a service

A `Prog` has returned, or makes one call and goes on with the answer.  Between two calls anything may
happen to the service, so a program is looked at one call at a time: `Uses P A p` says that every call
of `p` satisfies `P`, whatever the answers, as long as each is one that `A` admits.
-/

namespace Framework

variable {ι ο α β : Type}

/-- Calls are `ι`, their answers `ο`. -/
inductive Prog (ι ο α : Type) where
  | ret (a : α)
  | call (i : ι) (next : ο → Prog ι ο α)

namespace Prog

def bind : Prog ι ο α → (α → Prog ι ο β) → Prog ι ο β
  | .ret a, f => f a
  | .call i next, f => .call i fun o => (next o).bind f

instance : Monad (Prog ι ο) where
  pure := .ret
  bind := bind

/-- One call, its answer returned. -/
def ask (i : ι) : Prog ι ο ο := .call i .ret

def Uses (P : ι → Prop) (A : ι → ο → Prop) : Prog ι ο α → Prop
  | .ret _ => True
  | .call i next => P i ∧ ∀ o, A i o → (next o).Uses P A

variable {P : ι → Prop} {A : ι → ο → Prop}

@[simp] theorem uses_pure (a : α) : Uses P A (pure a : Prog ι ο α) := trivial

/-- A call whose answer is looked at. -/
theorem uses_ask {i : ι} {f : ο → Prog ι ο β} (hi : P i) (hf : ∀ o, A i o → (f o).Uses P A) :
    (ask i >>= f).Uses P A := ⟨hi, hf⟩

/-! ## Running a program -/

section
variable {σ κ : Type} {perform : κ → ι → σ → ο × σ}

/-- However its calls are answered, the program returns with `Q`.  Besides the state, a `κ` decides each
answer. -/
def After (perform : κ → ι → σ → ο × σ) : Prog ι ο α → σ → (α → σ → Prop) → Prop
  | .ret a, s, Q => Q a s
  | .call i next, s, Q => ∀ k, After perform (next (perform k i s).1) (perform k i s).2 Q

theorem after_pure {a : α} {s : σ} {Q : α → σ → Prop} (h : Q a s) : After perform (pure a) s Q := h

theorem after_ask {i : ι} {s : σ} {Q : ο → σ → Prop} (h : ∀ k, Q (perform k i s).1 (perform k i s).2) :
    After perform (ask i) s Q := h

theorem After.imp {p : Prog ι ο α} {s : σ} {Q Q' : α → σ → Prop} (h : After perform p s Q)
    (hQ : ∀ a s', Q a s' → Q' a s') : After perform p s Q' := by
  induction p generalizing s with
  | ret a => exact hQ a s h
  | call i next ih => exact fun k => ih _ (h k)

theorem After.and {p : Prog ι ο α} {s : σ} {Q Q' : α → σ → Prop} (h : After perform p s Q) (h' : After perform p s Q') :
    After perform p s fun a s' => Q a s' ∧ Q' a s' := by
  induction p generalizing s with
  | ret a => exact ⟨h, h'⟩
  | call i next ih => exact fun k => ih _ (h k) (h' k)

/-- What relates the states before and after every call relates those before and after a program. -/
theorem after_of_call {R : σ → σ → Prop} (hrefl : ∀ s, R s s) (htrans : ∀ {a b c}, R a b → R b c → R a c)
    (hcall : ∀ k i s, R s (perform k i s).2) (p : Prog ι ο α) (s : σ) : After perform p s fun _ s' => R s s' := by
  induction p generalizing s with
  | ret a => exact hrefl s
  | call i next ih => exact fun k => (ih _ _).imp fun _ _ h => htrans (hcall k i s) h

/-- The rule for sequences: what the first program leaves is where the second starts. -/
theorem After.bind {p : Prog ι ο α} {f : α → Prog ι ο β} {s : σ} {Q : α → σ → Prop} {Q' : β → σ → Prop}
    (hp : After perform p s Q) (hf : ∀ a s', Q a s' → After perform (f a) s' Q') : After perform (p >>= f) s Q' := by
  induction p generalizing s with
  | ret a => exact hf a s hp
  | call i next ih => exact fun k => ih _ (hp k)

theorem After.seq {p : Prog ι ο α} {f : α → Prog ι ο β} {s : σ} {Q : β → σ → Prop}
    (h : After perform p s fun a s' => After perform (f a) s' Q) : After perform (p >>= f) s Q := h.bind fun _ _ h => h

end

end Prog

end Framework
