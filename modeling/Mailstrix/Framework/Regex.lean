import Mathlib

/-!
# Regular expressions

A backtracking matcher with groups.  `Regex.run` lists the ways to match, the preferred one first: an alternative before
those behind it, another repetition before none.  `Regex.find` is the leftmost match, in the preferred way, and
`Regex.findAll` the matches one behind the other.

Whatever is found is a word of the expression's language and a part of the text (`mem_findAll`), so that a text without
such a part has no match (`findAll_eq_nil`, `isMatch_eq_false`).  A word's symbols are among `Regex.letters`, and it is as
long as `Regex.minLength` at least.
-/

namespace Framework

open Computability

inductive Regex (α : Type)
  | empty
  | set (p : α → Bool)
  | seq (a b : Regex α)
  | alt (a b : Regex α)
  | star (a : Regex α)
  | group (i : Nat) (a : Regex α)
  | lineStart (newline : α → Bool)
  | lineEnd (newline : α → Bool)

/-- A place in a text: the symbol before it, what is behind it, and the groups matched so far, the last one first. -/
structure Cursor (α : Type) where
  before : Option α
  rest : List α
  groups : List (Nat × List α) := []

/-- A match, with the text before and behind it. -/
structure Found (α : Type) where
  skipped : List α
  text : List α
  groups : List (Nat × List α)
  rest : List α

namespace Regex

variable {α : Type}

/-- Repetitions of `step`, each of which takes a symbol at least; `n` of them are enough for a rest of length `n`. -/
def repeated (step : Cursor α → List (Cursor α)) : Nat → Cursor α → List (Cursor α)
  | 0, c => [c]
  | n + 1, c => ((step c).filter fun c' => c'.rest.length < c.rest.length).flatMap (repeated step n) ++ [c]

def run : Regex α → Cursor α → List (Cursor α)
  | empty, c => [c]
  | set p, c =>
    match c.rest with
    | [] => []
    | x :: rest => if p x then [{ c with before := some x, rest := rest }] else []
  | seq a b, c => (a.run c).flatMap b.run
  | alt a b, c => a.run c ++ b.run c
  | star a, c => repeated a.run c.rest.length c
  | group i a, c =>
    (a.run c).map fun c' => { c' with groups := (i, c.rest.take (c.rest.length - c'.rest.length)) :: c'.groups }
  | lineStart newline, c => if c.before.all newline then [c] else []
  | lineEnd newline, c => if c.rest.head?.all newline then [c] else []

def find (r : Regex α) : Option α → List α → Option (Found α)
  | before, text =>
    match r.run ⟨before, text, []⟩ with
    | c :: _ => some ⟨[], text.take (text.length - c.rest.length), c.groups, c.rest⟩
    | [] =>
      match text with
      | [] => none
      | x :: text => (r.find (some x) text).map fun m => { m with skipped := x :: m.skipped }

/-- At most `n` matches, of an expression that does not match the empty text. -/
def findAll (r : Regex α) : Nat → Option α → List α → List (Found α)
  | 0, _, _ => []
  | n + 1, before, text =>
    match r.find before text with
    | none => []
    | some m => m :: r.findAll n (m.text.getLast?.or before) m.rest

def isMatch (r : Regex α) (text : List α) : Bool := (r.find none text).isSome

/-! ## Abbreviations -/

def seqs : List (Regex α) → Regex α
  | [] => empty
  | r :: rs => seq r (seqs rs)

def opt (r : Regex α) : Regex α := alt r empty

def times : Nat → Regex α → Regex α
  | 0, _ => empty
  | n + 1, r => seq r (times n r)

/-- `n` repetitions or fewer. -/
def upTo : Nat → Regex α → Regex α
  | 0, _ => empty
  | n + 1, r => opt (seq r (upTo n r))

def atLeast (n : Nat) (r : Regex α) : Regex α := seq (times n r) (star r)

/-! ## Languages -/

/-- The texts that an expression matches, wherever its anchors are. -/
def lang : Regex α → Language α
  | empty => 1
  | set p => {w | ∃ x, p x = true ∧ w = [x]}
  | seq a b => a.lang * b.lang
  | alt a b => a.lang + b.lang
  | star a => a.lang∗
  | group _ a => a.lang
  | lineStart _ => 1
  | lineEnd _ => 1

theorem repeated_mem {l : Language α} {step : Cursor α → List (Cursor α)}
    (hstep : ∀ c, ∀ c' ∈ step c, ∃ w ∈ l, c.rest = w ++ c'.rest) (n : Nat) (c : Cursor α) :
    ∀ c' ∈ repeated step n c, ∃ w ∈ l∗, c.rest = w ++ c'.rest := by
  induction n generalizing c with
  | zero =>
    intro c' hc'
    obtain rfl : c' = c := by simpa [repeated] using hc'
    exact ⟨[], Language.nil_mem_kstar l, rfl⟩
  | succ n ih =>
    intro c' hc'
    rw [repeated, List.mem_append, List.mem_flatMap, List.mem_singleton] at hc'
    rcases hc' with ⟨d, hd, hc'⟩ | rfl
    · obtain ⟨w, hw, hcd⟩ := hstep c d (List.mem_filter.1 hd).1
      obtain ⟨v, hv, hdc⟩ := ih d c' hc'
      obtain ⟨L, rfl, hL⟩ := Language.mem_kstar.1 hv
      refine ⟨w ++ L.flatten, Language.mem_kstar.2 ⟨w :: L, rfl, ?_⟩, by rw [hcd, hdc, List.append_assoc]⟩
      rintro u (_ | ⟨_, hu⟩)
      · exact hw
      · exact hL u hu
    · exact ⟨[], Language.nil_mem_kstar l, rfl⟩

theorem mem_seq {a b : Regex α} {w : List α} : w ∈ (seq a b).lang ↔ ∃ u ∈ a.lang, ∃ v ∈ b.lang, u ++ v = w :=
  Language.mem_mul

theorem mem_seqs {r : Regex α} {rs : List (Regex α)} {w : List α} :
    w ∈ (seqs (r :: rs)).lang ↔ ∃ u ∈ r.lang, ∃ v ∈ (seqs rs).lang, u ++ v = w :=
  Language.mem_mul

theorem mem_alt {a b : Regex α} {w : List α} : w ∈ (alt a b).lang ↔ w ∈ a.lang ∨ w ∈ b.lang := Iff.rfl

/-- The symbols that a word can have. -/
def letters : Regex α → α → Bool
  | empty, _ => false
  | set p, x => p x
  | seq a b, x => a.letters x || b.letters x
  | alt a b, x => a.letters x || b.letters x
  | star a, x => a.letters x
  | group _ a, x => a.letters x
  | lineStart _, _ => false
  | lineEnd _, _ => false

theorem mem_letters {r : Regex α} {w : List α} (h : w ∈ r.lang) : ∀ x ∈ w, r.letters x = true := by
  induction r generalizing w with
  | empty => rw [show w = [] from h]; nofun
  | set p =>
    obtain ⟨y, hy, rfl⟩ := h
    intro x hx
    rwa [List.mem_singleton.1 hx]
  | seq a b iha ihb =>
    obtain ⟨u, hu, v, hv, rfl⟩ := mem_seq.1 h
    intro x hx
    rw [letters, Bool.or_eq_true]
    exact (List.mem_append.1 hx).imp (iha hu x) (ihb hv x)
  | alt a b iha ihb =>
    intro x hx
    rw [letters, Bool.or_eq_true]
    exact h.imp (fun ha => iha ha x hx) (fun hb => ihb hb x hx)
  | star a ih =>
    obtain ⟨L, rfl, hL⟩ := Language.mem_kstar.1 h
    intro x hx
    obtain ⟨u, hu, hx⟩ := List.mem_flatten.1 hx
    exact ih (hL u hu) x hx
  | group i a ih => exact ih h
  | lineStart newline => rw [show w = [] from h]; nofun
  | lineEnd newline => rw [show w = [] from h]; nofun

/-- A length that no word is below. -/
def minLength : Regex α → Nat
  | empty => 0
  | set _ => 1
  | seq a b => a.minLength + b.minLength
  | alt a b => min a.minLength b.minLength
  | star _ => 0
  | group _ a => a.minLength
  | lineStart _ => 0
  | lineEnd _ => 0

theorem minLength_le {r : Regex α} {w : List α} (h : w ∈ r.lang) : r.minLength ≤ w.length := by
  induction r generalizing w with
  | empty => exact Nat.zero_le _
  | set p =>
    obtain ⟨y, hy, rfl⟩ := h
    exact Nat.le_refl 1
  | seq a b iha ihb =>
    obtain ⟨u, hu, v, hv, rfl⟩ := mem_seq.1 h
    rw [List.length_append]
    exact Nat.add_le_add (iha hu) (ihb hv)
  | alt a b iha ihb =>
    rcases h with h | h
    · exact (Nat.min_le_left _ _).trans (iha h)
    · exact (Nat.min_le_right _ _).trans (ihb h)
  | star a ih => exact Nat.zero_le _
  | group i a ih => exact ih h
  | lineStart newline => exact Nat.zero_le _
  | lineEnd newline => exact Nat.zero_le _

/-- A word with at least one repetition begins with a word of what is repeated. -/
theorem mem_atLeast_succ {n : Nat} {r : Regex α} {w : List α} (h : w ∈ (atLeast (n + 1) r).lang) :
    ∃ u ∈ r.lang, u <+: w := by
  obtain ⟨x, hx, v, -, rfl⟩ := mem_seq.1 h
  obtain ⟨u, hu, t, -, rfl⟩ := mem_seq.1 hx
  exact ⟨u, hu, by rw [List.append_assoc]; exact List.prefix_append u _⟩

/-- What is taken by a match is a word of the language. -/
theorem run_mem (r : Regex α) (c : Cursor α) : ∀ c' ∈ r.run c, ∃ w ∈ r.lang, c.rest = w ++ c'.rest := by
  induction r generalizing c with
  | empty =>
    intro c' hc'
    obtain rfl : c' = c := by simpa [run] using hc'
    exact ⟨[], rfl, rfl⟩
  | set p =>
    intro c' hc'
    rw [run] at hc'
    split at hc'
    · cases hc'
    · rename_i x rest hrest
      split at hc'
      · rename_i hx
        obtain rfl := List.mem_singleton.1 hc'
        exact ⟨[x], ⟨x, hx, rfl⟩, hrest⟩
      · cases hc'
  | seq a b iha ihb =>
    intro c' hc'
    obtain ⟨d, hd, hc'⟩ := List.mem_flatMap.1 hc'
    obtain ⟨u, hu, hcd⟩ := iha c d hd
    obtain ⟨v, hv, hdc⟩ := ihb d c' hc'
    exact ⟨u ++ v, Language.append_mem_mul hu hv, by rw [hcd, hdc, List.append_assoc]⟩
  | alt a b iha ihb =>
    intro c' hc'
    rcases List.mem_append.1 hc' with hc' | hc'
    · obtain ⟨w, hw, hcc⟩ := iha c c' hc'
      exact ⟨w, .inl hw, hcc⟩
    · obtain ⟨w, hw, hcc⟩ := ihb c c' hc'
      exact ⟨w, .inr hw, hcc⟩
  | star a ih => exact repeated_mem ih _ c
  | group i a ih =>
    intro c' hc'
    obtain ⟨d, hd, rfl⟩ := List.mem_map.1 hc'
    exact ih c d hd
  | lineStart newline =>
    intro c' hc'
    rw [run] at hc'
    split at hc'
    · exact ⟨[], rfl, by rw [List.mem_singleton.1 hc']; rfl⟩
    · cases hc'
  | lineEnd newline =>
    intro c' hc'
    rw [run] at hc'
    split at hc'
    · exact ⟨[], rfl, by rw [List.mem_singleton.1 hc']; rfl⟩
    · cases hc'

/-- A match is a word of the language, in its place in the text. -/
theorem find_mem {r : Regex α} {before : Option α} {text : List α} {m : Found α} (h : r.find before text = some m) :
    m.text ∈ r.lang ∧ text = m.skipped ++ (m.text ++ m.rest) := by
  induction text generalizing before m with
  | nil =>
    rw [find] at h
    split at h
    · rename_i c cs hrun
      obtain rfl := Option.some.inj h
      obtain ⟨w, hw, hc⟩ := r.run_mem ⟨before, [], []⟩ c (hrun ▸ List.mem_cons_self)
      obtain ⟨rfl, hrest⟩ := List.append_eq_nil_iff.1 hc.symm
      exact ⟨by simpa using hw, by simp [hrest]⟩
    · cases h
  | cons x text ih =>
    rw [find] at h
    split at h
    · rename_i c cs hrun
      obtain rfl := Option.some.inj h
      obtain ⟨w, hw, hc⟩ := r.run_mem ⟨before, x :: text, []⟩ c (hrun ▸ List.mem_cons_self)
      have htake : (x :: text).take ((x :: text).length - c.rest.length) = w := by
        rw [show x :: text = w ++ c.rest from hc, List.length_append, Nat.add_sub_cancel, List.take_left]
      exact ⟨by rwa [htake], by rw [htake]; exact hc⟩
    · obtain ⟨m', hm', rfl⟩ := Option.map_eq_some_iff.1 h
      obtain ⟨hw, htext⟩ := ih hm'
      exact ⟨hw, congrArg (x :: ·) htext⟩

/-- Each match is a word of the language and a part of the text. -/
theorem mem_findAll {r : Regex α} {n : Nat} {before : Option α} {text : List α} {m : Found α}
    (h : m ∈ r.findAll n before text) : m.text ∈ r.lang ∧ m.text <:+: text := by
  induction n generalizing before text with
  | zero => cases h
  | succ n ih =>
    rw [findAll] at h
    split at h
    · cases h
    · rename_i m' hm'
      obtain ⟨hw, htext⟩ := find_mem hm'
      rcases List.mem_cons.1 h with rfl | h
      · exact ⟨hw, ⟨m.skipped, m.rest, by rw [htext, List.append_assoc]⟩⟩
      · obtain ⟨hm, hin⟩ := ih h
        refine ⟨hm, hin.trans ?_⟩
        rw [htext, ← List.append_assoc]
        exact (List.suffix_append _ _).isInfix

theorem findAll_eq_nil {r : Regex α} {text : List α} (h : ∀ w ∈ r.lang, ¬ w <:+: text) (n : Nat) (before : Option α) :
    r.findAll n before text = [] :=
  List.eq_nil_iff_forall_not_mem.2 fun m hm => h m.text (mem_findAll hm).1 (mem_findAll hm).2

theorem isMatch_eq_false {r : Regex α} {text : List α} (h : ∀ w ∈ r.lang, ¬ w <:+: text) : r.isMatch text = false := by
  rw [isMatch, Option.isSome_eq_false_iff, Option.isNone_iff_eq_none, Option.eq_none_iff_forall_not_mem]
  intro m hm
  obtain ⟨hw, htext⟩ := find_mem hm
  exact h m.text hw ⟨m.skipped, m.rest, by rw [htext, List.append_assoc]⟩

end Regex

end Framework
