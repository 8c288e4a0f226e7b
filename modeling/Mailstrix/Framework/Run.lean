import Mathlib

/-!
# Runs of a transition system

Labelled steps, their finite runs and the states a run reaches, with the rules by which a fact
about one step becomes a fact about every run.
-/

namespace Framework

variable {σ ε : Type}
variable {s s' s'' : σ} {e : ε} {es : List ε} {Q : ε → Prop}

/-- A labelled transition system: what is true at the start, and the steps. -/
structure System (σ ε : Type) where
  init : σ → Prop
  step : σ → ε → σ → Prop

/-- `Run S s es s'`: the steps labelled `es` lead from `s` to `s'`. -/
inductive Run (S : System σ ε) : σ → List ε → σ → Prop
  | nil {s : σ} : Run S s [] s
  | snoc {s s' s'' : σ} {es : List ε} {e : ε} :
      Run S s es s' → S.step s' e s'' → Run S s (es ++ [e]) s''

/-- Some run from an initial state ends in `s`. -/
def Reachable (S : System σ ε) (s : σ) : Prop := ∃ s₀ es, S.init s₀ ∧ Run S s₀ es s

variable {S : System σ ε}

theorem Run.single (h : S.step s e s') : Run S s [e] s' := Run.snoc .nil h

theorem Run.append {fs : List ε} (h : Run S s es s') (h' : Run S s' fs s'') : Run S s (es ++ fs) s'' := by
  induction h' with
  | nil => simpa using h
  | snoc _ hstep ih => rw [← List.append_assoc]; exact .snoc ih hstep

/-- The run of a list of events, where a function gives each step. -/
theorem Run.of_foldlM {exec : σ → ε → Option σ} (hexec : ∀ s e s', exec s e = some s' → S.step s e s')
    (h : es.foldlM exec s = some s') : Run S s es s' := by
  induction es generalizing s with
  | nil =>
    cases h
    exact .nil
  | cons e es ih =>
    rw [List.foldlM_cons] at h
    obtain ⟨s₁, hfirst, hrest⟩ := Option.bind_eq_some_iff.1 h
    exact (Run.single (hexec s e s₁ hfirst)).append (ih hrest)

/-- A system with more steps has more runs. -/
theorem Run.imp {T : System σ ε} (h : Run S s es s') (hstep : ∀ s e s', S.step s e s' → T.step s e s') :
    Run T s es s' := by
  induction h with
  | nil => exact .nil
  | snoc _ he ih => exact .snoc ih (hstep _ _ _ he)

/-- Every prefix of a run is a run, and the rest of it is a run from where the prefix ends. -/
theorem Run.split {fs : List ε} (h : Run S s (es ++ fs) s'') : ∃ s', Run S s es s' ∧ Run S s' fs s'' := by
  induction fs using List.reverseRecOn generalizing s'' with
  | nil => exact ⟨s'', by simpa using h, .nil⟩
  | append_singleton fs f ih =>
    rw [← List.append_assoc] at h
    generalize hl : es ++ fs ++ [f] = l at h
    cases h with
    | nil => simp at hl
    | snoc hrun hstep =>
      obtain ⟨rfl, hf⟩ := List.append_inj' hl rfl
      cases hf
      obtain ⟨s', h1, h2⟩ := ih hrun
      exact ⟨s', h1, .snoc h2 hstep⟩

theorem Run.nil_inv (h : Run S s [] s') : s' = s := by
  generalize hl : ([] : List ε) = l at h
  cases h with
  | nil => rfl
  | snoc => simp at hl

theorem Run.cons_inv (h : Run S s (e :: es) s'') : ∃ s', S.step s e s' ∧ Run S s' es s'' := by
  generalize hl : e :: es = l at h
  induction h generalizing es with
  | nil => cases hl
  | @snoc _ _ fs f hrun hstep ih =>
    cases fs with
    | nil =>
      cases hl
      rw [Run.nil_inv hrun] at hstep
      exact ⟨_, hstep, .nil⟩
    | cons g fs =>
      cases hl
      obtain ⟨s₁, h1, h2⟩ := ih rfl
      exact ⟨s₁, h1, .snoc h2 hstep⟩

/-- What holds initially and is kept by every step holds in every reachable state. -/
theorem Reachable.invariant {I : σ → Prop} (h0 : ∀ s, S.init s → I s) (hstep : ∀ s e s', I s → S.step s e s' → I s')
    (h : Reachable S s) : I s := by
  obtain ⟨s₀, es, hi, hrun⟩ := h
  induction hrun with
  | nil => exact h0 _ hi
  | snoc _ he ih => exact hstep _ _ _ ih he

/-- An invariant that speaks about the labels so far: kept by every step, true of every run. -/
theorem Run.history {I : List ε → σ → Prop} {s₀ : σ} (h0 : I [] s₀)
    (hstep : ∀ s es e s', Run S s₀ es s → I es s → S.step s e s' → I (es ++ [e]) s') (h : Run S s₀ es s) : I es s := by
  induction h with
  | nil => exact h0
  | snoc hrun he ih => exact hstep _ _ _ _ hrun ih he

/-- What every step keeps, each label of the run granted, a run keeps. -/
theorem Run.preserve {P : σ → Prop} (hstep : ∀ s e s', Q e → P s → S.step s e s' → P s') (h : Run S s es s')
    (hok : ∀ e ∈ es, Q e) (hs : P s) : P s' := by
  induction h with
  | nil => exact hs
  | snoc _ he ih =>
    exact hstep _ _ _ (hok _ (by simp)) (ih fun e he => hok e (by simp [he])) he

/-- Where every step of `S` is a step of `T`, read through `f` and `g`, every run is a run. -/
theorem Run.simulate {τ δ : Type} {T : System τ δ} {I : σ → Prop} {f : σ → τ} {g : ε → δ}
    (hstep : ∀ s e s', I s → S.step s e s' → I s' ∧ T.step (f s) (g e) (f s')) (h : Run S s es s') (hs : I s) :
    I s' ∧ Run T (f s) (es.map g) (f s') := by
  induction h with
  | nil => exact ⟨hs, .nil⟩
  | snoc _ he ih =>
    obtain ⟨hI, hT⟩ := hstep _ _ _ ih.1 he
    rw [List.map_append]
    exact ⟨hI, .snoc ih.2 hT⟩

/-! ## Looking back -/

/-- Some label satisfies `P`, and no later one satisfies `Q`. -/
def Since (P Q : ε → Prop) (es : List ε) : Prop :=
  ∃ before e after, es = before ++ e :: after ∧ P e ∧ ∀ e' ∈ after, ¬ Q e'

theorem not_since_nil {P : ε → Prop} : ¬ Since P Q [] := by
  rintro ⟨before, e, after, he, -⟩
  simp at he

theorem since_snoc {P : ε → Prop} : Since P Q (es ++ [e]) ↔ P e ∨ Since P Q es ∧ ¬ Q e := by
  constructor
  · rintro ⟨before, e₀, after, he, hP, hQ⟩
    rcases List.eq_nil_or_concat after with rfl | ⟨after, f, rfl⟩
    · obtain ⟨-, hf⟩ := List.append_inj' he rfl
      cases hf
      exact .inl hP
    · rw [List.concat_eq_append, ← List.cons_append, ← List.append_assoc] at he
      obtain ⟨hes, hf⟩ := List.append_inj' he rfl
      cases hf
      exact .inr ⟨⟨before, e₀, after, hes, hP, fun e' he' => hQ e' (by simp [he'])⟩, hQ e (by simp)⟩
  · rintro (hP | ⟨⟨before, e₀, after, rfl, hP, hQ⟩, hno⟩)
    · exact ⟨es, e, [], rfl, hP, by simp⟩
    · refine ⟨before, e₀, after ++ [e], by simp, hP, fun e' he' => ?_⟩
      rcases List.mem_append.1 he' with he' | he'
      · exact hQ e' he'
      · rwa [List.mem_singleton.1 he']

/-- The runs of `S` that stay in `P`. -/
def System.within (S : System σ ε) (P : σ → Prop) : System σ ε where
  init s := S.init s ∧ P s
  step s e s' := P s ∧ S.step s e s' ∧ P s'

/-! ## Logs -/

/-- The system with a log beside its state, to which each step adds what `out` reads off it. -/
def System.logged {α : Type} (S : System σ ε) (out : σ → σ → List α) : System (σ × List α) ε where
  init p := S.init p.1 ∧ p.2 = []
  step p e p' := S.step p.1 e p'.1 ∧ p'.2 = p.2 ++ out p.1 p'.1

/-- Every run has a log. -/
theorem Run.logged {α : Type} (out : σ → σ → List α) (h : Run S s es s') :
    ∃ log, Run (S.logged out) (s, []) es (s', log) := by
  induction h with
  | nil => exact ⟨[], .nil⟩
  | @snoc s₁ s₂ _ _ _ he ih =>
    obtain ⟨log, hrun⟩ := ih
    exact ⟨log ++ out s₁ s₂, .snoc hrun ⟨he, rfl⟩⟩

end Framework
