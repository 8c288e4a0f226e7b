import Mailstrix.Proof.Extract.Xlm.Fold
import Mailstrix.Spec.Extract.XlmRefs

/-!
# Rewriting a formula with references

The three expressions by which references are found (`r1c1Match`, `placeholderMatch`, `a1Match`) as matchers: quotes and
concatenation signs are breaks for them (`break_r1c1`, `break_placeholder`, `break_a1`), and each way to write a reference is
found as one (`A1Ref.found`, `R1C1Ref.rewrite_print`).
-/

namespace MS.Xlm

open Framework
open Scan (ascii)
open Extract (isAlpha isUpper isLower isAlnum isDecimal isWord trimSpaceBytes)

variable {α : Type} {p : UInt8 → Bool} {s coord behind : Bytes} {before : Option UInt8}

/-! ## Breaks -/

/-- A quote or a concatenation sign: no reference contains one, and one may begin behind it. -/
def Break (b : UInt8) : Prop := b = 0x22 ∨ b = 0x26

section Break

variable {b : UInt8} (hb : Break b)
include hb

theorem Break.not_word : isWord b = false := by
  rcases hb with rfl | rfl <;> decide

theorem Break.not_alpha : isAlpha b = false := by
  rcases hb with rfl | rfl <;> decide

theorem Break.not_upper : isUpper b = false := by
  rcases hb with rfl | rfl <;> decide

theorem Break.not_decimal : isDecimal b = false := by
  rcases hb with rfl | rfl <;> decide

theorem Break.ne_bang : b ≠ 0x21 := by
  rcases hb with rfl | rfl <;> decide

theorem Break.ne_dollar : b ≠ 0x24 := by
  rcases hb with rfl | rfl <;> decide

end Break

theorem takeWhile_break {p : α → Bool} {b : α} (hb : p b = false) (x y : List α) :
    (x ++ b :: y).takeWhile p = x.takeWhile p := by
  induction x with
  | nil => simp [hb]
  | cons c x ih => simp only [List.cons_append, List.takeWhile_cons, ih]

theorem takeWhile_take_break {p : α → Bool} {b : α} (hb : p b = false) (n : Nat) (x y : List α) :
    ((x ++ b :: y).take n).takeWhile p = (x.take n).takeWhile p := by
  induction x generalizing n with
  | nil =>
    cases n with
    | zero => rfl
    | succ n => simp [hb]
  | cons c x ih =>
    cases n with
    | zero => rfl
    | succ n => simp only [List.cons_append, List.take_succ_cons, List.takeWhile_cons, ih]

theorem length_takeWhile_take (p : α → Bool) (n : Nat) (x : List α) : ((x.take n).takeWhile p).length ≤ x.length :=
  (List.takeWhile_prefix p).length_le.trans (List.length_take_le' n x)

theorem any_head_append {b : UInt8} (hb : p b = false) (x y : Bytes) : (x ++ b :: y).head?.any p = x.head?.any p := by
  cases x with
  | nil => simp [hb]
  | cons c x => rfl

theorem stripDollar_append {b : UInt8} (hb : Break b) (x y : Bytes) :
    stripDollar (x ++ b :: y) = stripDollar x ++ b :: y := by
  cases x with
  | nil => 
    rw [List.nil_append, stripDollar]
    · rfl
    · intro rest h
      exact hb.ne_dollar (List.cons.inj h).1
  | cons c x =>
    by_cases hc : c = 0x24
    · subst hc
      rfl
    · have hne : ∀ z, stripDollar (c :: z) = c :: z := by
        intro z
        rw [stripDollar]
        exact fun rest h => hc (List.cons.inj h).1
      rw [List.cons_append, hne, hne, List.cons_append]

/-- A reference does not go beyond a break. -/
theorem a1RefAt_append {b : UInt8} (hb : Break b) (before : Option UInt8) (x y : Bytes) :
    a1RefAt before (x ++ b :: y) = (a1RefAt before x).map fun found => (found.1 ++ b :: y, found.2) := by
  unfold a1RefAt
  split
  · rfl
  · simp only [stripDollar_append hb, takeWhile_take_break hb.not_alpha,
      List.drop_append_of_le_length (length_takeWhile_take _ _ _), any_head_append hb.not_alpha]
    split
    · rfl
    · simp only [takeWhile_take_break hb.not_decimal, List.drop_append_of_le_length (length_takeWhile_take _ _ _),
        any_head_append hb.not_decimal, any_head_append hb.not_word]
      split <;> rfl

/-- Before a text and behind a break a reference is the same. -/
theorem a1RefAt_break {b : UInt8} (hb : Break b) (s : Bytes) : a1RefAt (some b) s = a1RefAt none s := by
  simp [a1RefAt, hb.not_word, hb.ne_bang]

theorem r1c1At_of_ne {c : UInt8} (hc : c ≠ 0x52) (s : Bytes) : r1c1At (c :: s) = none := by
  unfold r1c1At
  split
  · exact absurd (List.cons.inj ‹_›).1 hc
  · rfl

theorem r1c1At_append {b : UInt8} (hb : Break b) (x y : Bytes) : r1c1At (x ++ b :: y) = r1c1At x := by
  have hne : b ≠ 0x52 ∧ b ≠ 0x43 := by rcases hb with rfl | rfl <;> decide
  cases x with
  | nil => exact r1c1At_of_ne hne.1 y
  | cons c x =>
    by_cases hc : c = 0x52
    · subst hc
      have hdrop : (x ++ b :: y).drop (x.takeWhile isDecimal).length = x.drop (x.takeWhile isDecimal).length ++ b :: y :=
        List.drop_append_of_le_length (List.takeWhile_prefix _).length_le
      simp only [r1c1At, List.cons_append, takeWhile_break hb.not_decimal, hdrop]
      cases x.drop (x.takeWhile isDecimal).length with
      | nil =>
        rw [List.nil_append]
        split
        · exact absurd (List.cons.inj ‹_›).1 hne.2
        · rfl
      | cons d z =>
        by_cases hd : d = 0x43
        · subst hd
          simp only [List.cons_append, takeWhile_take_break hb.not_decimal]
        · rw [List.cons_append]
          split
          · exact absurd (List.cons.inj ‹_›).1 hd
          · split
            · exact absurd (List.cons.inj ‹_›).1 hd
            · rfl
    · rw [List.cons_append, r1c1At_of_ne hc, r1c1At_of_ne hc]

theorem isPrefixOf_append_break {b : UInt8} {p : Bytes} (hb : b ∉ p) (x y : Bytes) :
    p.isPrefixOf (x ++ b :: y) = p.isPrefixOf x := by
  induction p generalizing x with
  | nil => simp
  | cons c p ih =>
    simp only [List.mem_cons, not_or] at hb
    cases x with
    | nil => simp [List.isPrefixOf, Ne.symm hb.1]
    | cons d x => simp only [List.cons_append, List.isPrefixOf, ih hb.2]

theorem placeholderAt_append {b : UInt8} (hb : Break b) (x y : Bytes) : placeholderAt (x ++ b :: y) = placeholderAt x := by
  have hopen : b ∉ ascii "[[REF:" := by rcases hb with rfl | rfl <;> decide
  have hclose : b ∉ ascii "]]" := by rcases hb with rfl | rfl <;> decide
  unfold placeholderAt
  rw [isPrefixOf_append_break hopen]
  split
  · rename_i hpre
    have hlen : 6 ≤ x.length := by
      have := (List.isPrefixOf_iff_prefix.1 hpre).length_le
      exact this
    have hcoord : ∀ z : Bytes,
        (z.takeWhile isUpper ++ (z.drop (z.takeWhile isUpper).length).takeWhile isDecimal).length ≤ z.length := by
      intro z
      have h₁ := (List.takeWhile_prefix isUpper (l := z)).length_le
      have h₂ := (List.takeWhile_prefix isDecimal (l := z.drop (z.takeWhile isUpper).length)).length_le
      rw [List.length_drop] at h₂
      rw [List.length_append]
      omega
    simp only [List.drop_append_of_le_length hlen, takeWhile_break hb.not_upper,
      List.drop_append_of_le_length (List.takeWhile_prefix _).length_le, takeWhile_break hb.not_decimal,
      List.drop_append_of_le_length (hcoord _), isPrefixOf_append_break hclose]
  · rfl

/-! ## The two expressions as matchers -/

theorem r1c1At_some {row col : Bytes} (h : r1c1At s = some (row, col)) :
    ∃ rest, s = 0x52 :: (row ++ 0x43 :: (col ++ rest)) ∧ row ≠ [] ∧ col ≠ [] ∧ (∀ c ∈ row, isDecimal c = true) ∧
      ∀ c ∈ col, isDecimal c = true := by
  unfold r1c1At at h
  split at h
  · rename_i s
    simp only at h
    split at h
    · rename_i z hz
      split_ifs at h with hlen
      obtain ⟨rfl, rfl⟩ := Prod.mk.inj (Option.some.inj h)
      obtain ⟨rest, hrest⟩ := (List.takeWhile_prefix isDecimal).trans (List.take_prefix 7 z)
      have hdigits : ∀ w : Bytes, ∀ c ∈ w.takeWhile isDecimal, isDecimal c = true :=
        fun w c hc => List.all_eq_true.1 List.all_takeWhile c hc
      refine ⟨rest, ?_, List.ne_nil_of_length_pos hlen.1, hlen.2.2, hdigits _, hdigits _⟩
      rw [hrest, ← hz]
      exact congrArg _ (List.prefix_iff_eq_append.1 (List.takeWhile_prefix isDecimal)).symm
    · exact absurd h nofun
  · exact absurd h nofun

theorem within_r1c1 : Matcher.Within r1c1Match := by
  intro before s n written h
  obtain ⟨⟨row, col⟩, hat, hm⟩ := Option.map_eq_some_iff.1 h
  obtain ⟨rest, rfl, -⟩ := r1c1At_some hat
  obtain ⟨rfl, -⟩ := Prod.mk.inj hm
  simp only [List.length_cons, List.length_append]
  omega

theorem break_r1c1 {b : UInt8} (hb : Break b) : Matcher.Break r1c1Match b where
  append before x y := by
    unfold r1c1Match
    rw [r1c1At_append hb]
    cases hat : r1c1At x with
    | none => rfl
    | some found =>
      obtain ⟨rest, rfl, -⟩ := r1c1At_some hat
      have hlen : found.1.length + found.2.length + 2 ≤ (0x52 :: (found.1 ++ 0x43 :: (found.2 ++ rest))).length := by
        simp only [List.length_cons, List.length_append]
        omega
      simp only [Option.map_some, List.take_append_of_le_length hlen]
  behind s := by simp [r1c1Match, hb.not_word]

theorem placeholderAt_some (h : placeholderAt s = some coord) :
    ∃ rest, s = ascii "[[REF:" ++ (coord ++ (ascii "]]" ++ rest)) ∧ ∀ c ∈ coord, isUpper c = true ∨ isDecimal c = true := by
  unfold placeholderAt at h
  split_ifs at h with hpre
  obtain ⟨z, rfl⟩ := List.isPrefixOf_iff_prefix.1 hpre
  have hdrop : (ascii "[[REF:" ++ z).drop 6 = z := rfl
  simp only [hdrop] at h
  split_ifs at h with hcond
  obtain ⟨rest, hrest⟩ := List.isPrefixOf_iff_prefix.1 hcond.2.2
  refine ⟨rest, ?_, fun c hc => ?_⟩
  · have hcol := List.prefix_iff_eq_append.1 (List.takeWhile_prefix isUpper (l := z))
    have hrow := List.prefix_iff_eq_append.1 (List.takeWhile_prefix isDecimal (l := z.drop (z.takeWhile isUpper).length))
    rw [List.drop_drop, ← List.length_append] at hrow
    rw [hrest, ← Option.some.inj h, List.append_assoc, hrow, hcol]
  · rw [← Option.some.inj h] at hc
    rcases List.mem_append.1 hc with hc | hc
    · exact .inl (List.all_eq_true.1 List.all_takeWhile c hc)
    · exact .inr (List.all_eq_true.1 List.all_takeWhile c hc)

section Value

variable (value : Bytes → Option Bytes)

theorem within_placeholder : Matcher.Within (placeholderMatch value) := by
  intro before s n written h
  obtain ⟨coord, hat, hm⟩ := Option.map_eq_some_iff.1 h
  obtain ⟨rest, rfl, -⟩ := placeholderAt_some hat
  obtain ⟨rfl, -⟩ := Prod.mk.inj hm
  have h₁ : (ascii "[[REF:").length = 6 := rfl
  have h₂ : (ascii "]]").length = 2 := rfl
  simp only [List.length_append, h₁, h₂]
  omega

theorem break_placeholder {b : UInt8} (hb : Break b) : Matcher.Break (placeholderMatch value) b where
  append before x y := by
    unfold placeholderMatch
    rw [placeholderAt_append hb]
    cases hat : placeholderAt x with
    | none => rfl
    | some coord =>
      obtain ⟨rest, rfl, -⟩ := placeholderAt_some hat
      have h₁ : (ascii "[[REF:").length = 6 := rfl
      have h₂ : (ascii "]]").length = 2 := rfl
      have hlen : coord.length + 8 ≤ (ascii "[[REF:" ++ (coord ++ (ascii "]]" ++ rest))).length := by
        simp only [List.length_append, h₁, h₂]
        omega
      simp only [Option.map_some, List.take_append_of_le_length hlen]
  behind s := rfl

/-! ## A1 references -/

theorem stripDollar_eq (s : Bytes) : s = stripDollar s ∨ s = 0x24 :: stripDollar s := by
  unfold stripDollar
  split
  · exact .inr rfl
  · exact .inl rfl

/-- The parts of a reference: letters and digits, each behind a dollar or nothing. -/
structure Shape (d₁ col d₂ row : Bytes) : Prop where
  dollar₁ : d₁ = [] ∨ d₁ = [0x24]
  col_alpha : ∀ c ∈ col, isAlpha c = true
  col_ne : col ≠ []
  dollar₂ : d₂ = [] ∨ d₂ = [0x24]
  row_decimal : ∀ c ∈ row, isDecimal c = true
  row_ne : row ≠ []

theorem a1RefAt_shape (h : a1RefAt before s = some (behind, coord)) :
    ∃ d₁ col d₂ row, Shape d₁ col d₂ row ∧ s = d₁ ++ (col ++ (d₂ ++ (row ++ behind))) := by
  have hdollar : ∀ s : Bytes, ∃ d, (d = [] ∨ d = [0x24]) ∧ s = d ++ stripDollar s := by
    intro s
    rcases stripDollar_eq s with hs | hs
    · exact ⟨[], .inl rfl, hs⟩
    · exact ⟨[0x24], .inr rfl, hs⟩
  unfold a1RefAt at h
  dsimp only at h
  split_ifs at h with h₁ h₂ h₃
  obtain ⟨rfl, -⟩ := Prod.mk.inj (Option.some.inj h)
  obtain ⟨d₁, hd₁, hs⟩ := hdollar s
  generalize hcol : ((stripDollar s).take 3).takeWhile isAlpha = col at *
  obtain ⟨d₂, hd₂, hs₂⟩ := hdollar ((stripDollar s).drop col.length)
  generalize hrow : ((stripDollar ((stripDollar s).drop col.length)).take 7).takeWhile isDecimal = row at *
  simp only [not_or] at h₂ h₃
  have hpre₁ : col <+: stripDollar s := hcol ▸ (List.takeWhile_prefix _).trans (List.take_prefix _ _)
  have hpre₂ : row <+: stripDollar ((stripDollar s).drop col.length) :=
    hrow ▸ (List.takeWhile_prefix _).trans (List.take_prefix _ _)
  refine ⟨d₁, col, d₂, row, ⟨hd₁, ?_, h₂.1, hd₂, ?_, h₃.1⟩, ?_⟩
  · exact fun c hc => List.all_eq_true.1 List.all_takeWhile c (hcol ▸ hc)
  · exact fun c hc => List.all_eq_true.1 List.all_takeWhile c (hrow ▸ hc)
  · have h₁ := List.prefix_iff_eq_append.1 hpre₁
    have h₂ := List.prefix_iff_eq_append.1 hpre₂
    rw [h₂, ← hs₂, h₁, ← hs]

/-- What is found has a letter and a digit, and nothing but letters, digits and dollars. -/
theorem a1RefAt_some (h : a1RefAt before s = some (behind, coord)) :
    ∃ found, s = found ++ behind ∧ 2 ≤ found.length ∧ ∀ c ∈ found, c = 0x24 ∨ isAlpha c = true ∨ isDecimal c = true := by
  obtain ⟨d₁, col, d₂, row, hshape, rfl⟩ := a1RefAt_shape h
  have hdollar : ∀ {d : Bytes} {c : UInt8}, d = [] ∨ d = [0x24] → c ∈ d → c = 0x24 := by
    rintro d c (rfl | rfl) hc
    · exact absurd hc List.not_mem_nil
    · exact List.mem_singleton.1 hc
  refine ⟨d₁ ++ (col ++ (d₂ ++ row)), by simp only [List.append_assoc], ?_, ?_⟩
  · have h₁ := List.length_pos_iff.2 hshape.col_ne
    have h₂ := List.length_pos_iff.2 hshape.row_ne
    simp only [List.length_append]
    omega
  · intro c hc
    simp only [List.mem_append] at hc
    rcases hc with hc | hc | hc | hc
    · exact .inl (hdollar hshape.dollar₁ hc)
    · exact .inr (.inl (hshape.col_alpha c hc))
    · exact .inl (hdollar hshape.dollar₂ hc)
    · exact .inr (.inr (hshape.row_decimal c hc))

theorem a1RefAt_nil (before : Option UInt8) : a1RefAt before [] = none := by simp [a1RefAt, stripDollar]

/-- What the loop over the A1 references does with one of them. -/
def a1Match : Matcher UInt8 := fun before s =>
  (a1RefAt before s).map fun (behind, coord) =>
    let n := s.length - behind.length
    (n, ((value coord).map quoteXLMStringLiteral).getD (s.take n))

theorem a1Match_some {found : Bytes} (h : a1RefAt before (found ++ behind) = some (behind, coord)) :
    a1Match value before (found ++ behind) =
      some (found.length, ((value coord).map quoteXLMStringLiteral).getD found) := by
  have hlen : (found ++ behind).length - behind.length = found.length := by
    rw [List.length_append, Nat.add_sub_cancel]
  simp only [a1Match, h, Option.map_some, hlen, List.take_left]

theorem within_a1 : Matcher.Within (a1Match value) := by
  intro before s n written h
  obtain ⟨⟨behind, coord⟩, hat, -⟩ := Option.map_eq_some_iff.1 h
  obtain ⟨found, rfl, hlen, -⟩ := a1RefAt_some hat
  rw [a1Match_some value hat] at h
  obtain ⟨rfl, -⟩ := Prod.mk.inj (Option.some.inj h)
  rw [List.length_append]
  omega

theorem break_a1 {b : UInt8} (hb : Break b) : Matcher.Break (a1Match value) b where
  append before x y := by
    cases hat : a1RefAt before x with
    | none => simp only [a1Match, a1RefAt_append hb, hat, Option.map_none]
    | some ref =>
      obtain ⟨behind, coord⟩ := ref
      obtain ⟨found, rfl, -⟩ := a1RefAt_some hat
      have hat' : a1RefAt before (found ++ (behind ++ b :: y)) = some (behind ++ b :: y, coord) := by
        rw [← List.append_assoc, a1RefAt_append hb, hat]
        rfl
      rw [List.append_assoc, a1Match_some value hat, a1Match_some value hat']
  behind s := by simp only [a1Match, a1RefAt_break hb]

end Value

/-! ## References as they are written -/

theorem not_alpha_of_decimal {c : UInt8} (h : isDecimal c = true) : isAlpha c = false := by
  simp only [isDecimal, isAlpha, isUpper, isLower, Bool.and_eq_true, decide_eq_true_eq, UInt8.le_iff_toNat_le,
    Bool.or_eq_false_iff, Bool.and_eq_false_iff, decide_eq_false_iff_not, UInt8.reduceToNat] at h ⊢
  omega

theorem takeWhile_take_stop {x y : Bytes} {n : Nat} (hx : ∀ c ∈ x, p c = true) (hn : x.length ≤ n)
    (hy : y.head?.any p = false) : ((x ++ y).take n).takeWhile p = x := by
  rw [List.take_append, List.take_of_length_le hn]
  refine takeWhile_append_stop hx fun c hc => ?_
  rw [Option.mem_def, List.head?_take] at hc
  split_ifs at hc
  rw [hc] at hy
  exact hy

theorem stripDollar_of_ne (h : s.head? ≠ some 0x24) : stripDollar s = s := by
  unfold stripDollar
  split
  · exact absurd rfl h
  · rfl

theorem head_ne_dollar (hp : p 0x24 = false) {x : Bytes} (hx : ∀ c ∈ x, p c = true) (hne : x ≠ []) (y : Bytes) :
    (x ++ y).head? ≠ some 0x24 := by
  obtain ⟨c, x, rfl⟩ := List.exists_cons_of_ne_nil hne
  intro h
  have hc := hx c List.mem_cons_self
  rw [List.cons_append, List.head?_cons, Option.some_inj] at h
  rw [h, hp] at hc
  exact absurd hc nofun

theorem stripDollar_optional (h : s.head? ≠ some 0x24) (d : Bool) :
    stripDollar ((if d then [0x24] else []) ++ s) = s := by
  cases d with
  | false => exact stripDollar_of_ne h
  | true => rfl

namespace A1Ref

/-- A reference is found as it is written. -/
theorem found (r : A1Ref) : a1RefAt none r.print = some ([], r.coord) := by
  have hcol : r.col ≠ [] := List.ne_nil_of_length_pos r.col_length.1
  have hrow : r.row ≠ [] := List.ne_nil_of_length_pos r.row_length.1
  have hrest : (((if r.rowDollar then [0x24] else []) ++ r.row).head?.any isAlpha) = false := by
    obtain ⟨c, row, hc⟩ := List.exists_cons_of_ne_nil hrow
    have hdigit := r.row_decimal c (by simp [hc])
    cases r.rowDollar with
    | false => simp [hc, not_alpha_of_decimal hdigit]
    | true => rfl
  have hstart : stripDollar r.print = r.col ++ ((if r.rowDollar then [0x24] else []) ++ r.row) := by
    rw [print, List.append_assoc, List.append_assoc]
    exact stripDollar_optional (head_ne_dollar (by decide) r.col_alpha hcol _) _
  have hmiddle : stripDollar ((if r.rowDollar then [0x24] else []) ++ r.row) = r.row := by
    refine stripDollar_optional ?_ _
    simpa using head_ne_dollar (by decide) r.row_decimal hrow []
  have hdigits : (r.row.take 7).takeWhile isDecimal = r.row := by
    simpa using takeWhile_take_stop r.row_decimal r.row_length.2 (y := []) rfl
  unfold a1RefAt
  simp only [hstart, takeWhile_take_stop r.col_alpha r.col_length.2 hrest, List.drop_left, hrest, hmiddle, hdigits]
  simp [hcol, hrow, coord]

theorem chars (r : A1Ref) : ∀ c ∈ r.print, c = 0x24 ∨ isAlpha c = true ∨ isDecimal c = true := by
  obtain ⟨found, hs, -, hchars⟩ := a1RefAt_some r.found
  rw [List.append_nil] at hs
  rwa [hs]

/-- It is no reference in R1C1 notation: behind its digits there is no letter. -/
theorem quiet_r1c1 (r : A1Ref) : Matcher.Quiet r1c1Match none r.print := by
  intro x y n written hxy hf
  obtain ⟨⟨row, col⟩, hat, -⟩ := Option.map_eq_some_iff.1 hf
  obtain ⟨rest, hy, hrow, -, hdigits, -⟩ := r1c1At_some hat
  have hprefix : ∀ c ∈ (if r.colDollar then [0x24] else []) ++ r.col ++ (if r.rowDollar then [0x24] else []),
      isDecimal c = false := by
    have hdollar : ∀ d : Bool, ∀ c ∈ (if d then [(0x24 : UInt8)] else []), isDecimal c = false := by
      intro d
      cases d <;> exact List.forall_iff_forall_mem.1 (by decide)
    intro c hc
    rcases List.mem_append.1 hc with hc | hc
    · rcases List.mem_append.1 hc with hc | hc
      · exact hdollar _ c hc
      · rw [← Bool.not_eq_true]
        exact fun hd => absurd (not_alpha_of_decimal hd) (by simp [r.col_alpha c hc])
    · exact hdollar _ c hc
  have hletter : ∀ z : Bytes, r.row ≠ row ++ 0x43 :: z ∧ ∀ w, r.row ≠ w ++ (row ++ 0x43 :: z) := by
    have hno : (0x43 : UInt8) ∉ r.row := fun hmem => absurd (r.row_decimal _ hmem) (by decide)
    exact fun z => ⟨fun h => hno (by simp [h]), fun w h => hno (by simp [h])⟩
  rw [print, hy, List.append_cons x] at hxy
  rcases List.append_eq_append_iff.1 hxy with ⟨w, -, hw⟩ | ⟨w, hw, hw'⟩
  · exact absurd hw ((hletter _).2 w)
  · cases w with
    | nil => exact absurd hw'.symm ((hletter _).1)
    | cons c w =>
      -- the first digit would stand before the digits of the reference
      obtain ⟨d, row, rfl⟩ := List.exists_cons_of_ne_nil hrow
      rw [List.cons_append, List.cons_append] at hw'
      obtain ⟨rfl, -⟩ := List.cons.inj hw'
      have := hprefix d (by rw [hw]; simp)
      rw [hdigits d List.mem_cons_self] at this
      exact absurd this nofun

theorem quiet_placeholder (value : Bytes → Option Bytes) (r : A1Ref) :
    Matcher.Quiet (placeholderMatch value) none r.print := by
  intro x y n written hxy hf
  obtain ⟨coord, hat, -⟩ := Option.map_eq_some_iff.1 hf
  obtain ⟨rest, hy, -⟩ := placeholderAt_some hat
  have hmem : (0x5b : UInt8) ∈ r.print := by
    rw [hxy, hy]
    exact List.mem_append_right _ List.mem_cons_self
  exact absurd (r.chars _ hmem) (by decide)

end A1Ref

theorem columnLetters_append (fuel n : Nat) (result : Bytes) :
    ∃ letters, columnLetters fuel n result = letters ++ result ∧ letters.length ≤ fuel ∧
      (0 < fuel → 0 < n → 1 ≤ letters.length) ∧ ∀ c ∈ letters, isUpper c = true := by
  induction fuel generalizing n result with
  | zero => exact ⟨[], rfl, le_rfl, nofun, by simp⟩
  | succ fuel ih =>
    by_cases hn : n = 0
    · exact ⟨[], by simp [columnLetters, hn], by simp, fun _ h => absurd hn h.ne', by simp⟩
    · obtain ⟨letters, heq, hlen, -, hupper⟩ := ih ((n - 1) / 26) (UInt8.ofNat (0x41 + (n - 1) % 26) :: result)
      refine ⟨letters ++ [UInt8.ofNat (0x41 + (n - 1) % 26)], ?_, ?_, ?_, ?_⟩
      · rw [columnLetters, if_neg hn, heq, List.append_assoc, List.singleton_append]
      · rw [List.length_append, List.length_singleton]
        omega
      · intro _ _
        rw [List.length_append, List.length_singleton]
        omega
      · intro c hc
        rcases List.mem_append.1 hc with hc | hc
        · exact hupper c hc
        · rw [List.mem_singleton.1 hc]
          have hall : ∀ k < 26, isUpper (UInt8.ofNat (0x41 + k)) = true := by decide
          exact hall _ (Nat.mod_lt _ (by decide))

theorem length_numeral {n k : Nat} (h : n < 10 ^ k) (hk : 1 ≤ k) : (numeral 10 n).length ≤ k := by
  unfold numeral
  split
  · simpa using hk
  · rw [List.length_reverse, List.length_map]
    exact (Nat.digits_length_le_iff (by decide) n).2 h

theorem isDecimal_numeral (n : Nat) : ∀ c ∈ numeral 10 n, isDecimal c = true := by
  intro c hc
  obtain ⟨h₁, h₂⟩ := digit_numeral hc
  simp only [isDecimal, Bool.and_eq_true, decide_eq_true_eq, UInt8.le_iff_toNat_le]
  exact ⟨h₁, h₂⟩

namespace R1C1Ref

theorem letters (r : R1C1Ref) :
    (columnLetters 3 r.col []).length ≤ 3 ∧ 1 ≤ (columnLetters 3 r.col []).length ∧
      ∀ c ∈ columnLetters 3 r.col [], isUpper c = true := by
  obtain ⟨letters, heq, hlen, hpos, hupper⟩ := columnLetters_append 3 r.col []
  rw [heq, List.append_nil]
  exact ⟨hlen, hpos (by decide) r.col_range.1, hupper⟩

/-- The same cell in A1 notation. -/
def toA1 (r : R1C1Ref) : A1Ref where
  colDollar := false
  col := columnLetters 3 r.col []
  rowDollar := false
  row := numeral 10 r.row
  col_alpha c hc := by simp [isAlpha, r.letters.2.2 c hc]
  col_length := ⟨r.letters.2.1, r.letters.1⟩
  row_decimal := isDecimal_numeral r.row
  row_length := ⟨List.length_pos_iff.2 (numeral_ne_nil _ _), length_numeral (by have := r.row_range; omega) (by decide)⟩

theorem print_toA1 (r : R1C1Ref) : r.toA1.print = r.coord := by simp [A1Ref.print, toA1, coord]

theorem coord_toA1 (r : R1C1Ref) : r.toA1.coord = r.coord := by
  have hupper : ∀ c ∈ columnLetters 3 r.col [], asciiUpper c = c := by
    intro c hc
    have h := r.letters.2.2 c hc
    simp only [isUpper, Bool.and_eq_true, decide_eq_true_eq, UInt8.le_iff_toNat_le, UInt8.reduceToNat] at h
    rw [asciiUpper, if_neg]
    simp only [Bool.and_eq_true, decide_eq_true_eq, UInt8.le_iff_toNat_le, UInt8.reduceToNat]
    omega
  rw [A1Ref.coord, coord]
  congr 1
  exact (List.map_congr_left hupper).trans (List.map_id _)

theorem r1c1At_print (r : R1C1Ref) : r1c1At r.print = some (numeral 10 r.row, numeral 10 r.col) := by
  have hrow : (numeral 10 r.row ++ 0x43 :: numeral 10 r.col).takeWhile isDecimal = numeral 10 r.row :=
    takeWhile_append_stop (isDecimal_numeral _) (by simp [isDecimal])
  have hlen : (numeral 10 r.row).length ≤ 7 := length_numeral (by have := r.row_range; omega) (by decide)
  have hcol : ((numeral 10 r.col).take 7).takeWhile isDecimal = numeral 10 r.col := by
    have hlen : (numeral 10 r.col).length ≤ 7 := length_numeral (by have := r.col_range; omega) (by decide)
    simpa using takeWhile_take_stop (isDecimal_numeral r.col) hlen (y := []) rfl
  simp only [print, List.cons_append, r1c1At, hrow, List.drop_left, hcol]
  rw [if_pos ⟨List.length_pos_iff.2 (numeral_ne_nil _ _), hlen, numeral_ne_nil _ _⟩]

theorem r1c1ToA1_numeral (r : R1C1Ref) : r1c1ToA1 (numeral 10 r.row) (numeral 10 r.col) = some r.coord := by
  have hr := r.row_range
  have hc := r.col_range
  have hletters : colNumToLetters r.col = some (columnLetters 3 r.col []) := by
    rw [colNumToLetters, if_neg (by omega), Int.toNat_natCast]
  have hitoa : Scan.itoa r.row = numeral 10 r.row := by
    rw [Scan.itoa, if_neg (by omega), Int.natAbs_natCast]
  simp only [r1c1ToA1, atoi_numeral, if_pos (show r.row < 2 ^ 63 by omega), if_pos (show r.col < 2 ^ 63 by omega),
    Option.bind_eq_bind, Option.bind_some, hletters, if_neg (show ¬ (r.row : Int) < 1 by omega), hitoa]
  rfl

theorem rewrite_print (r : R1C1Ref) : rewrite r1c1Match r.print = r.coord := by
  have hmatch : r1c1Match none r.print = some (r.print.length, r.coord) := by
    have hlen : (numeral 10 r.row).length + (numeral 10 r.col).length + 2 = r.print.length := by
      simp only [print, List.length_append, List.length_cons]
      omega
    simp [r1c1Match, r1c1At_print, hlen, r1c1ToA1_numeral]
  rw [rewrite_match hmatch, if_neg (by simp [print])]

end R1C1Ref

end MS.Xlm
