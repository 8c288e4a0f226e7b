import Mathlib

/-!
# What a job owes the sandbox

The purpose of the store, without its tables: a job is staged, live or ended, and its account at the
sandbox is clear, open (an upload has begun and its outcome is unknown) or owing.  An account leaves
`clear` only when an attempt begins, returns to it only on proof that nothing was sent, and a job is
forgotten only while its account is clear.
-/

namespace MS.Spec

inductive Life
  | staged | live | ended
deriving DecidableEq

inductive Account
  | clear | open | owing
deriving DecidableEq

structure Ledger where
  life : Life
  account : Account
deriving DecidableEq

/-- What a step means for one job: an attempt begins, an attempt is proved unsent, or neither. -/
inductive Effect
  | begin | prove | other
deriving DecidableEq

namespace Ledger

/-- The steps of one job; `none` is a job that does not exist. -/
inductive Step : Effect → Option Ledger → Option Ledger → Prop
  | keep {e : Effect} {l : Option Ledger} : e ≠ .begin → Step e l l
  | reserve : Step .other none (some ⟨.staged, .clear⟩)
  | abandon : Step .other (some ⟨.staged, .clear⟩) none
  | publish : Step .other (some ⟨.staged, .clear⟩) (some ⟨.live, .clear⟩)
  | begin : Step .begin (some ⟨.live, .clear⟩) (some ⟨.live, .open⟩)
  | prove {l : Life} : l ≠ .staged → Step .prove (some ⟨l, .open⟩) (some ⟨l, .clear⟩)
  | owe {e : Effect} {l l' : Life} : e ≠ .begin → l' ≠ .staged → (l = .ended → l' = .ended) →
      Step e (some ⟨l, .open⟩) (some ⟨l', .owing⟩)
  | finish {a : Account} : Step .other (some ⟨.live, a⟩) (some ⟨.ended, a⟩)
  | forget : Step .other (some ⟨.ended, .clear⟩) none

/-- Something may exist at the sandbox. -/
def Owed : Option Ledger → Prop
  | some l => l.account ≠ .clear
  | none => False

instance : DecidablePred Owed
  | some l => inferInstanceAs (Decidable (l.account ≠ .clear))
  | none => inferInstanceAs (Decidable False)

/-- An upload of the same content may be answered with this job. -/
def reusable : Ledger → Bool
  | ⟨.staged, _⟩ => false
  | ⟨.live, _⟩ => true
  | ⟨.ended, a⟩ => a ≠ .clear

/-- The job is over and nothing is owed for it. -/
def Retired (l : Ledger) : Prop := l = ⟨.ended, .clear⟩

theorem Step.of_begin {l l' : Option Ledger} (h : Step .begin l l') : Owed l' := by
  cases h with
  | keep he | owe he => exact absurd rfl he
  | begin => exact Account.noConfusion

theorem Step.owed {e : Effect} {l l' : Option Ledger} (h : Step e l l') (he : e ≠ .prove) (hl : Owed l) :
    Owed l' := by
  cases h with
  | keep => exact hl
  | reserve => exact hl.elim
  | abandon | publish | begin | forget => exact absurd rfl hl
  | prove => exact absurd rfl he
  | owe => exact Account.noConfusion
  | finish => exact hl

/-- A step that begins nothing keeps whether anything is owed, or proves that nothing is. -/
theorem Step.owed_iff {e : Effect} {l l' : Option Ledger} (h : Step e l l') (he : e ≠ .begin) :
    (Owed l' ↔ Owed l) ∨ e = .prove ∧ ¬ Owed l' := by
  cases h with
  | begin => exact absurd rfl he
  | prove => exact .inr ⟨rfl, by simp [Owed]⟩
  | _ => exact .inl (by simp [Owed])

/-- An account is open after a step only if it was before, or an attempt began. -/
theorem Step.opened {e : Effect} {x : Option Ledger} {l' : Ledger} (h : Step e x (some l')) (he : e ≠ .begin)
    (hl : l'.account = .open) : ∃ l, x = some l ∧ l.account = .open := by
  cases h with
  | keep => exact ⟨l', rfl, hl⟩
  | finish => exact ⟨_, rfl, hl⟩
  | begin => exact absurd rfl he
  | _ => cases hl

/-- What is owing stays so. -/
theorem Step.owing {e : Effect} {l : Ledger} {x x' : Option Ledger} (h : Step e x x') (hx : x = some l)
    (hl : l.account = .owing) : ∃ l', x' = some l' ∧ l'.account = .owing := by
  subst hx
  cases h with
  | keep => exact ⟨l, rfl, hl⟩
  | finish => exact ⟨_, rfl, hl⟩
  | _ => cases hl

/-- A retired job stays retired until it is forgotten. -/
theorem Step.retired {e : Effect} {l l' : Ledger} (h : Step e (some l) (some l')) (hl : Retired l) :
    Retired l' := by
  cases hl
  cases h
  rfl

/-- Only a reusable job, or a staged one, becomes reusable. -/
theorem Step.reusable {e : Effect} {l : Option Ledger} {l' : Ledger} (h : Step e l (some l'))
    (hl : l'.reusable = true) : ∃ l₀, l = some l₀ ∧ (l₀.reusable = true ∨ l₀.life = .staged) := by
  cases h with
  | keep => exact ⟨l', rfl, .inl hl⟩
  | reserve => cases hl
  | publish => exact ⟨_, rfl, .inr rfl⟩
  | begin => exact ⟨_, rfl, .inl rfl⟩
  | @prove l hne =>
    cases l with
    | staged => exact absurd rfl hne
    | live | ended => exact ⟨_, rfl, .inl rfl⟩
  | @owe _ l =>
    cases l with
    | staged => exact ⟨_, rfl, .inr rfl⟩
    | live | ended => exact ⟨_, rfl, .inl rfl⟩
  | finish => exact ⟨_, rfl, .inl rfl⟩

/-- A published job that is not reusable is retired. -/
theorem retired_of_not_reusable {l : Ledger} (h : l.reusable = false) (hl : l.life ≠ .staged) :
    Retired l := by
  obtain ⟨life, account⟩ := l
  cases life <;> cases account <;> simp_all [reusable, Retired]

theorem Retired.not_reusable {l : Ledger} (h : Retired l) : l.reusable = false := by
  cases h
  rfl

end Ledger

end MS.Spec
