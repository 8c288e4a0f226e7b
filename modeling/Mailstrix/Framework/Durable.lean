import Mathlib

/-!
# Computations on durable state

A `Durable` computation changes a state that outlives the machine it runs on.  Besides its outcome it
names every state in which the machine may fail on the way.  `Correct C m s Q` is total correctness
with a crash condition: from `s` the computation returns, with `Q`, and every state on the way
satisfies `C`.
-/

namespace Framework

variable {σ ε α β : Type}

/-- The states on the way, and the outcome. -/
def Durable (σ ε α : Type) : Type := σ → List σ × Except ε (α × σ)

namespace Durable

/-- One indivisible step. -/
def act (f : σ → Except ε (α × σ)) : Durable σ ε α := fun s => ([s], f s)

def bind (m : Durable σ ε α) (f : α → Durable σ ε β) : Durable σ ε β := fun s =>
  match (m s).2 with
  | .error e => ((m s).1, .error e)
  | .ok (a, s') => ((m s).1 ++ (f a s').1, (f a s').2)

instance : Monad (Durable σ ε) where
  pure a := fun s => ([], .ok (a, s))
  bind := bind

def Correct (C : σ → Prop) (m : Durable σ ε α) (s : σ) (Q : α → σ → Prop) : Prop :=
  (∀ t ∈ (m s).1, C t) ∧ ∃ a s', (m s).2 = .ok (a, s') ∧ Q a s'

variable {C : σ → Prop} {m : Durable σ ε α} {f : α → Durable σ ε β} {s : σ}

theorem correct_pure {Q : α → σ → Prop} {a : α} (h : Q a s) : Correct C (pure a : Durable σ ε α) s Q :=
  ⟨fun _ ht => (nomatch ht), a, s, rfl, h⟩

theorem correct_act {g : σ → Except ε (α × σ)} {Q : α → σ → Prop} {a : α} {s' : σ} (hC : C s)
    (hg : g s = .ok (a, s')) (h : Q a s') : Correct C (act g) s Q :=
  ⟨fun t ht => by rwa [List.mem_singleton.1 ht], a, s', hg, h⟩

theorem Correct.bind {Q : β → σ → Prop} (h : Correct C m s fun a s' => Correct C (f a) s' Q) :
    Correct C (m >>= f) s Q := by
  obtain ⟨hC, a, s', hm, hC', b, s'', hf, hQ⟩ := h
  have hrun : (m >>= f) s = ((m s).1 ++ (f a s').1, (f a s').2) := by
    change Durable.bind m f s = _
    simp only [Durable.bind, hm]
  rw [Correct, hrun]
  refine ⟨fun t ht => ?_, b, s'', hf, hQ⟩
  rcases List.mem_append.1 ht with ht | ht
  · exact hC t ht
  · exact hC' t ht

theorem Correct.imp {Q Q' : α → σ → Prop} (h : Correct C m s Q) (hQ : ∀ a s', Q a s' → Q' a s') :
    Correct C m s Q' := by
  obtain ⟨hC, a, s', hm, h⟩ := h
  exact ⟨hC, a, s', hm, hQ a s' h⟩

/-! ## What every step keeps -/

/-- `R` relates the state before to every state on the way and to the one after. -/
def Keeps (R : σ → σ → Prop) (m : Durable σ ε α) : Prop :=
  ∀ s, (∀ t ∈ (m s).1, R s t) ∧ ∀ a s', (m s).2 = .ok (a, s') → R s s'

section
variable {R : σ → σ → Prop}

theorem keeps_pure (hrefl : ∀ s, R s s) (a : α) : Keeps R (pure a : Durable σ ε α) := by
  refine fun s => ⟨fun t ht => (nomatch ht), fun b s' h => ?_⟩
  cases h
  exact hrefl s

theorem keeps_act (hrefl : ∀ s, R s s) {g : σ → Except ε (α × σ)} (hg : ∀ s a s', g s = .ok (a, s') → R s s') :
    Keeps R (act g) := by
  refine fun s => ⟨fun t ht => ?_, hg s⟩
  rw [List.mem_singleton.1 ht]
  exact hrefl s

theorem Keeps.bind (htrans : ∀ {a b c}, R a b → R b c → R a c) (hm : Keeps R m) (hf : ∀ a, Keeps R (f a)) :
    Keeps R (m >>= f) := by
  intro s
  change (∀ t ∈ (Durable.bind m f s).1, R s t) ∧ ∀ b s', (Durable.bind m f s).2 = .ok (b, s') → R s s'
  unfold Durable.bind
  cases h : (m s).2 with
  | error e => exact ⟨(hm s).1, fun b s' he => (nomatch he)⟩
  | ok p =>
    obtain ⟨a, s₁⟩ := p
    have h₁ := (hm s).2 a s₁ h
    refine ⟨fun t ht => ?_, fun b s' he => htrans h₁ ((hf a s₁).2 b s' he)⟩
    rcases List.mem_append.1 ht with ht | ht
    · exact (hm s).1 t ht
    · exact htrans h₁ ((hf a s₁).1 t ht)

end

end Durable

end Framework
