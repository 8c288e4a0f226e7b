import Mathlib

/-!
# Threads that carry tokens

A pool of threads, each with something it holds and a stack of tasks.  A thread's turn replaces its
first task by others.  Held things and tasks carry tokens, and what a pool carries of a token changes
with a turn by what the task and its successors carry.
-/

namespace Framework

structure Thread (α τ : Type) where
  held : α
  stack : List τ := []

/-- The entry at `i`, with what is before and after it. -/
theorem split_at {α : Type} {l : List α} {i : Nat} {a : α} (h : l[i]? = some a) :
    ∃ before after, l = before ++ a :: after ∧ ∀ b, l.set i b = before ++ b :: after := by
  induction l generalizing i with
  | nil => cases h
  | cons x l ih =>
    cases i with
    | zero =>
      cases h
      exact ⟨[], l, rfl, fun _ => rfl⟩
    | succ i =>
      obtain ⟨before, after, hl, hset⟩ := ih (i := i) h
      exact ⟨x :: before, after, by rw [hl]; rfl, fun b => by rw [List.set_cons_succ, hset]; rfl⟩

section

variable {α τ κ : Type} [DecidableEq κ] (held : α → List κ) (carries : τ → List κ)

def Thread.tokens (t : Thread α τ) : List κ := held t.held ++ t.stack.flatMap carries

/-- How often the pool carries a token. -/
def tokenCount (ts : List (Thread α τ)) (x : κ) : Nat := (ts.flatMap (Thread.tokens held carries)).count x

variable {held carries}

/-- A turn of a thread: what its first tasks carry, and what the rest of the pool carries. -/
theorem tokenCount_turn (a b : List (Thread α τ)) (h : α) (ts rest : List τ) (x : κ) :
    tokenCount held carries (a ++ ⟨h, ts ++ rest⟩ :: b) x =
      (ts.flatMap carries).count x + tokenCount held carries (a ++ ⟨h, rest⟩ :: b) x := by
  simp only [tokenCount, Thread.tokens, List.flatMap_append, List.flatMap_cons, List.count_append]
  omega

/-- A thread is replaced by one that carries the same. -/
theorem tokenCount_set {ts : List (Thread α τ)} {i : Nat} {t t' : Thread α τ} (h : ts[i]? = some t)
    (ht : t'.tokens held carries = t.tokens held carries) (x : κ) :
    tokenCount held carries (ts.set i t') x = tokenCount held carries ts x := by
  obtain ⟨before, after, hts, hset⟩ := split_at h
  rw [hset, hts]
  simp only [tokenCount, List.flatMap_append, List.flatMap_cons, ht]

theorem tokenCount_snoc (ts : List (Thread α τ)) (t : Thread α τ) (x : κ) :
    tokenCount held carries (ts ++ [t]) x = tokenCount held carries ts x + (t.tokens held carries).count x := by
  simp [tokenCount]

theorem tokenCount_pos {ts : List (Thread α τ)} {x : κ} :
    0 < tokenCount held carries ts x ↔ ∃ t ∈ ts, x ∈ t.tokens held carries := by
  rw [tokenCount, List.count_pos_iff, List.mem_flatMap]

/-- Where every bearer of `x` bears `y` as often, so does the pool. -/
theorem tokenCount_le {x y : κ} (hh : ∀ a, (held a).count x ≤ (held a).count y)
    (ht : ∀ t, (carries t).count x ≤ (carries t).count y) (ts : List (Thread α τ)) :
    tokenCount held carries ts x ≤ tokenCount held carries ts y := by
  have hstack : ∀ st : List τ, (st.flatMap carries).count x ≤ (st.flatMap carries).count y := by
    intro st
    induction st with
    | nil => simp
    | cons t st ih =>
      rw [List.flatMap_cons, List.count_append, List.count_append]
      exact Nat.add_le_add (ht t) ih
  induction ts with
  | nil => simp [tokenCount]
  | cons t ts ih =>
    simp only [tokenCount, List.flatMap_cons, List.count_append, Thread.tokens] at ih ⊢
    exact Nat.add_le_add (Nat.add_le_add (hh t.held) (hstack t.stack)) ih

end

/-- A sum over a list in which one entry is replaced. -/
theorem sum_map_set {α : Type} (f : α → Nat) {l : List α} {i : Nat} {a : α} (h : l[i]? = some a) (b : α) :
    ((l.set i b).map f).sum + f a = (l.map f).sum + f b := by
  induction l generalizing i with
  | nil => cases h
  | cons x l ih =>
    cases i with
    | zero =>
      cases h
      simp only [List.set_cons_zero, List.map_cons, List.sum_cons]
      omega
    | succ i =>
      have hrest := ih (i := i) h
      simp only [List.set_cons_succ, List.map_cons, List.sum_cons]
      omega

end Framework
