import Mailstrix.Proof.Extract.Xlm.Split

/-!
# Folding a printed formula

A constant formula that is nested less deep than the folder goes is printed, with or without an equals sign, and folded.
Literals, `CHAR` and concatenation are always folded to their values.  A call of `MID` is not in three cases:

* its text has the empty value: the folder takes that for a failure and cuts out of the printed text instead;
* the end of what it takes is no `int`: the sum overflows and the slice panics;
* one of its numbers is no `int`: it is kept as a call.

`Expr.fold_mid` says what a call of `MID` is folded to, and `foldXLMFormula_print` that there are no other cases.
-/

namespace MS.Xlm

open Framework
open Scan (ascii atoi isSpace)
open Extract (trimSpaceBytes)

/-! ## Calls -/

theorem indexByte_append {c : UInt8} {a : Bytes} (h : c ∉ a) (b : Bytes) : indexByte (a ++ c :: b) c = some a.length := by
  have hnone : a.findIdx? (· == c) = none := by
    rw [List.findIdx?_eq_none_iff]
    intro d hd
    exact beq_eq_false_iff_ne.2 fun hdc => h (hdc ▸ hd)
  simp [indexByte, List.findIdx?_append, hnone, List.findIdx?_cons]

theorem lastIndexByte_append {c : UInt8} {b : Bytes} (h : c ∉ b) (a : Bytes) :
    lastIndexByte (a ++ c :: b) c = some a.length := by
  have hrev : (a ++ c :: b).reverse = b.reverse ++ c :: a.reverse := by simp
  have hfound := indexByte_append (show c ∉ b.reverse by simpa using h) a.reverse
  rw [lastIndexByte, hrev, show List.findIdx? (· == c) (b.reverse ++ c :: a.reverse) = some b.reverse.length from hfound]
  simp

/-- The arguments of a call, also if more stands behind it. -/
theorem callArgs_call {name tail : Bytes} (hname : 0x28 ∉ name) (htail : 0x29 ∉ tail) (args : Bytes) :
    callArgs (name ++ 0x28 :: (args ++ 0x29 :: tail)) = some args := by
  have hdrop : (name ++ 0x28 :: (args ++ 0x29 :: tail)).drop (name.length + 1) = args ++ 0x29 :: tail := by
    rw [List.drop_append]
    simp
  rw [callArgs, indexByte_append hname]
  simp only [Option.bind_eq_bind, Option.bind_some, hdrop, lastIndexByte_append htail, Option.pure_def]
  simp

theorem slice_middle (a b c : Bytes) : slice (a ++ b ++ c) a.length (a.length + b.length) = .ok b := by
  have hstop : ((a.length : Int) + b.length).toNat = (a ++ b).length := by
    rw [List.length_append]
    omega
  rw [slice, if_pos (by simp only [List.length_append]; omega), hstop, List.take_left, Int.toNat_natCast, List.drop_left]

theorem toUpper_firm (U : Unicode) {x : Bytes} (h : ∀ c ∈ x, Firm c) (t : Bytes) :
    U.toUpper (x ++ t) = x ++ U.toUpper t := by
  induction x with
  | nil => rfl
  | cons c x ih =>
    simp only [List.forall_mem_cons] at h
    rw [List.cons_append, toUpper_cons U h.1, ih h.2, List.cons_append]

/-! ## One part -/

section Part

variable (U : Unicode) (D : Bytes → Go Bytes)

theorem solid_literal (s : Bytes) : Solid (0x22 :: double s ++ [0x22]) := by
  have hquote : Firm 0x22 := ⟨by decide, by decide, by decide⟩
  exact ⟨⟨0x22, double s ++ [0x22], rfl, hquote⟩, ⟨0x22 :: double s, 0x22, rfl, hquote⟩⟩

theorem foldPart_literal (s : Bytes) : foldPart U D (0x22 :: double s ++ [0x22]) = .ok (some s) := by
  have hquote : Firm 0x22 := ⟨by decide, by decide, by decide⟩
  rw [foldPart, trimSpaceBytes_solid (solid_literal s), List.cons_append, toUpper_cons U hquote, ← List.cons_append,
    literalText_quoted]
  rfl

theorem foldPart_lit (text : List Char) : foldPart U D (Expr.lit text).print = .ok (some (utf8 text)) := by
  rw [Expr.print_lit, foldPart_literal]

theorem toNat_charOf (n : Printable) : (Char.ofNat n).toNat = n := by
  have hvalid : (n : Nat).isValidChar := .inl (by have := n.2; omega)
  rw [Char.ofNat, dif_pos hvalid]
  rfl

theorem foldChar_numeral (n : Printable) : foldChar (numeral 10 n) = some (utf8 [Char.ofNat n]) := by
  obtain ⟨h₁, h₂⟩ := n.2
  have hprint : isPrint (n : Nat) = true := by
    simp only [isPrint, Bool.and_eq_true, decide_eq_true_eq]
    omega
  rw [foldChar, trimSpaceBytes_solid (solid_numeral _), atoi_numeral, if_pos (by omega)]
  simp only [hprint, Bool.not_true, Bool.false_and, Bool.false_eq_true, if_false]
  rw [if_neg (by omega), Int.toNat_natCast]
  simp [utf8, encodeRunes, toNat_charOf]

theorem foldPart_char (n : Printable) : foldPart U D (Expr.char n).print = .ok (some (utf8 [Char.ofNat n])) := by
  have hfirm : ∀ c ∈ (Expr.char n).print, Firm c := by
    have hlabel : ∀ c ∈ ascii "CHAR(" ++ ascii ")", c < 0x80 ∧ isSpace c.toNat = false ∧
        ¬ (0x61 ≤ c.toNat ∧ c.toNat ≤ 0x7a) :=
      List.forall_iff_forall_mem.1 (by decide)
    intro c hc
    simp only [Expr.print, List.mem_append] at hc
    rcases hc with (hc | hc) | hc
    · obtain ⟨h₁, h₂, h₃⟩ := hlabel c (List.mem_append_left _ hc)
      exact ⟨h₁, h₂, h₃⟩
    · exact (digit_numeral hc).firm
    · obtain ⟨h₁, h₂, h₃⟩ := hlabel c (List.mem_append_right _ hc)
      exact ⟨h₁, h₂, h₃⟩
  have hupper : U.toUpper (Expr.char n).print = (Expr.char n).print := by
    have := toUpper_firm U hfirm []
    rwa [List.append_nil, show U.toUpper [] = [] from rfl, List.append_nil] at this
  have hpre : (ascii "CHAR(").isPrefixOf (Expr.char n).print = true := by
    rw [List.isPrefixOf_iff_prefix, Expr.print, List.append_assoc]
    exact List.prefix_append _ _
  have hsuf : (ascii ")").isSuffixOf (Expr.char n).print = true := by
    rw [List.isSuffixOf_iff_suffix, Expr.print]
    exact List.suffix_append _ _
  have hslice : slice (Expr.char n).print 5 ((Expr.char n).print.length - 1) = .ok (numeral 10 n) := by
    have := slice_middle (ascii "CHAR(") (numeral 10 n) (ascii ")")
    rwa [show ((ascii "CHAR(").length : Int) + (numeral 10 n).length = (Expr.char n).print.length - 1 by
      rw [Expr.print, List.length_append, List.length_append]
      have : (ascii ")").length = 1 := rfl
      omega] at this
  simp only [foldPart, trimSpaceBytes_solid (Expr.solid_print _), hupper, hpre, hsuf, Bool.and_self, if_true]
  rw [hslice]
  exact congrArg Except.ok (foldChar_numeral n)

theorem toUpper_mid (x : Bytes) : U.toUpper (ascii "MID(" ++ x) = ascii "MID(" ++ U.toUpper x := by
  refine toUpper_firm U (fun c hc => ?_) x
  have hall : ∀ c ∈ ascii "MID(", c < 0x80 ∧ isSpace c.toNat = false ∧ ¬ (0x61 ≤ c.toNat ∧ c.toNat ≤ 0x7a) :=
      List.forall_iff_forall_mem.1 (by decide)
  obtain ⟨h₁, h₂, h₃⟩ := hall c hc
  exact ⟨h₁, h₂, h₃⟩

theorem foldMIDCall_mid (text : Expr) (start : ℕ+) (count : Nat) :
    foldMIDCall D (Expr.mid text start count).print = (do
      let folded ← D text.print
      if (start : Nat) < 2 ^ 63 ∧ count < 2 ^ 63 then do
        let taken ← midRunes (runes (if folded = [] then stripOuterQuotes text.print else folded)) start count
        pure (some (encodeRunes taken))
      else pure none) := by
  have hargs : callArgs (Expr.mid text start count).print = some (Expr.printArgs text.print start count) :=
    @callArgs_call (ascii "MID") [] (by decide) (by simp) _
  rw [foldMIDCall, hargs, Option.map_some, Expr.splitTopLevelArgs_printArgs]
  simp only [parseXLMIntArg_numeral]
  congr 1
  funext folded
  have hpos : ¬ (((start : Nat) : Int) ≤ 0 ∨ (count : Int) < 0) := by
    have := start.pos
    omega
  by_cases hs : (start : Nat) < 2 ^ 63
  · by_cases hc : count < 2 ^ 63
    · simp only [hs, hc, if_true, and_self, if_neg hpos]
    · simp only [hs, hc, if_true, if_false, and_false]
  · simp only [hs, if_false, false_and]

/-- What a call of `MID` is folded to if it is not read. -/
def wrapper (args : Bytes) : Bytes := ascii "=MID(" ++ args ++ ascii ")"

theorem foldFunctionCall_mid {tail : Bytes} (htail : 0x29 ∉ tail) (text : Expr) (start : ℕ+) (count : Nat) :
    foldFunctionCall U D ((Expr.mid text start count).print ++ tail) = (do
      let folded ← D (Expr.printArgs text.print start count)
      pure (wrapper (if folded = [] then Expr.printArgs text.print start count else folded))) := by
  have hcall : (Expr.mid text start count).print ++ tail =
      ascii "MID" ++ 0x28 :: (Expr.printArgs text.print start count ++ 0x29 :: tail) := by
    rw [Expr.print, show ascii "MID(" = ascii "MID" ++ [0x28] from rfl, show ascii ")" = [0x29] from rfl]
    simp only [List.append_assoc, List.cons_append, List.nil_append]
  have hname : U.toUpper (trimSpaceBytes (ascii "MID")) = ascii "MID" := by
    have hall : ∀ c ∈ ascii "MID", c < 0x80 ∧ isSpace c.toNat = false ∧ ¬ (0x61 ≤ c.toNat ∧ c.toNat ≤ 0x7a) :=
      List.forall_iff_forall_mem.1 (by decide)
    have := toUpper_firm U (fun c hc => ⟨(hall c hc).1, (hall c hc).2.1, (hall c hc).2.2⟩) []
    rwa [List.append_nil, show U.toUpper [] = [] from rfl, List.append_nil] at this
  rw [hcall, foldFunctionCall, indexByte_append (by decide), callArgs_call (by decide) htail]
  simp only [List.take_left, hname]
  rfl

/-- What `foldPart` asks of a text that begins with `MID(`. -/
theorem begins_mid (y : Bytes) :
    (ascii "CHAR(").isPrefixOf (ascii "MID(" ++ y) = false ∧ (ascii "MID(").isPrefixOf (ascii "MID(" ++ y) = true ∧
    indexByte (ascii "MID(" ++ y) 0x28 = some 3 ∧ isXLMFunctionName (trimSpaceBytes ((ascii "MID(" ++ y).take 3)) = true := by
  have hlabel : ascii "MID(" = ascii "MID" ++ [0x28] := by decide
  have hchar : ascii "CHAR(" = 0x43 :: ascii "HAR(" := by decide
  refine ⟨?_, ?_, ?_, ?_⟩
  · rw [hchar, show ascii "MID(" = 0x4d :: ascii "ID(" by decide, List.cons_append]
    rfl
  · rw [List.isPrefixOf_iff_prefix]
    exact List.prefix_append _ _
  · rw [hlabel, List.append_assoc]
    exact indexByte_append (by decide) y
  · rw [hlabel, List.append_assoc, show 3 = (ascii "MID").length by decide, List.take_left]
    decide

theorem foldPart_mid (text : Expr) (start : ℕ+) (count : Nat) :
    foldPart U D (Expr.mid text start count).print = (do
      let folded ← D text.print
      if (start : Nat) < 2 ^ 63 ∧ count < 2 ^ 63 then do
        let taken ← midRunes (runes (if folded = [] then stripOuterQuotes text.print else folded)) start count
        pure (some (encodeRunes taken))
      else do
        let folded ← D (Expr.printArgs text.print start count)
        pure (some (wrapper (if folded = [] then Expr.printArgs text.print start count else folded)))) := by
  have hclose : Firm 0x29 := ⟨by decide, by decide, by decide⟩
  have hupper : U.toUpper (Expr.mid text start count).print =
      ascii "MID(" ++ (U.toUpper (Expr.printArgs text.print start count) ++ [0x29]) := by
    rw [Expr.print, List.append_assoc, toUpper_mid, show ascii ")" = [0x29] by decide, toUpper_snoc U hclose]
  have hsuf : (ascii ")").isSuffixOf (U.toUpper (Expr.mid text start count).print) = true := by
    rw [List.isSuffixOf_iff_suffix, hupper, ← List.append_assoc]
    exact List.suffix_append _ _
  obtain ⟨hchar, hpre, hidx, hname⟩ := begins_mid (U.toUpper (Expr.printArgs text.print start count) ++ [0x29])
  rw [← hupper] at hchar hpre hidx hname
  have hlit : literalText (Expr.mid text start count).print = none := by
    refine if_neg fun h => ?_
    rw [Expr.print, show ascii "MID(" = 0x4d :: ascii "ID(" by decide] at h
    exact absurd h.2.1 (by simp)
  have hfun := @foldFunctionCall_mid U D [] (by simp) text start count
  rw [List.append_nil] at hfun
  simp only [foldPart, trimSpaceBytes_solid (Expr.solid_print _), hchar, hpre, hsuf, hidx, hlit, Bool.false_and,
    Bool.false_eq_true, if_false, Bool.and_self, if_true, foldMIDCall_mid, hfun]
  cases D text.print with
  | error p => rfl
  | ok folded =>
    simp only [Except.bind, Except.pure, Bind.bind, Pure.pure, Functor.map, Except.map]
    by_cases hrange : (start : Nat) < 2 ^ 63 ∧ count < 2 ^ 63
    · simp only [if_pos hrange]
      cases midRunes (runes (if folded = [] then stripOuterQuotes text.print else folded)) start count <;> rfl
    · simp only [if_neg hrange, hname, decide_true, Bool.and_self, if_true, show 0 < 3 by decide]
      cases D (Expr.printArgs text.print start count) <;> rfl

/-! A part with more arguments behind it: what `foldFunctionCall` makes of the arguments of a call of `MID`. -/

/-- The arguments behind the text. -/
structure Tail (tail : Bytes) : Prop where
  plain : ∀ c ∈ tail, c ≠ 0x22 ∧ c ≠ 0x28 ∧ c ≠ 0x29 ∧ c ≠ 0x26
  last : ∃ t c, tail = t ++ [c] ∧ Digit c

theorem tail_args (start : ℕ+) (count : Nat) : Tail (0x2c :: numeral 10 start ++ 0x2c :: numeral 10 count) := by
  have hnum : ∀ n, ∀ c ∈ 0x2c :: numeral 10 n, c ≠ 0x22 ∧ c ≠ 0x28 ∧ c ≠ 0x29 ∧ c ≠ 0x26 := by
    intro n c hc
    rcases List.mem_cons.1 hc with rfl | hc
    · decide
    · obtain ⟨h, -⟩ := digit_numeral hc
      refine ⟨?_, ?_, ?_, ?_⟩ <;> exact fun hc => absurd (hc ▸ h) (by decide)
  refine ⟨fun c hc => ?_, ?_⟩
  · exact (List.mem_append.1 hc).elim (hnum _ c) (hnum _ c)
  · obtain ⟨t, c, h⟩ := List.eq_nil_or_concat' (numeral 10 count) |>.resolve_left (numeral_ne_nil 10 count)
    refine ⟨0x2c :: numeral 10 start ++ 0x2c :: t, c, ?_, digit_numeral (h ▸ List.mem_concat_self)⟩
    simp [h]

section

variable {tail : Bytes} (h : Tail tail)
include h

theorem Tail.solid (e : Expr) : Solid (e.print ++ tail) := by
  obtain ⟨c, t, he, hc⟩ := e.solid_print.first
  obtain ⟨t', d, ht, hd⟩ := h.last
  exact ⟨⟨c, t ++ tail, by rw [he, List.cons_append], hc⟩, ⟨e.print ++ t', d, by rw [ht, List.append_assoc], hd.firm⟩⟩

theorem Tail.not_literal (x : Bytes) : literalText (x ++ tail) = none := by
  obtain ⟨t, d, ht, hd⟩ := h.last
  refine if_neg fun hlit => ?_
  rw [ht, ← List.append_assoc, List.getLast?_concat] at hlit
  rw [Option.some.inj hlit.2.2] at hd
  exact absurd hd (by unfold Digit; decide)

theorem Tail.not_closed (x : Bytes) : (ascii ")").isSuffixOf (U.toUpper (x ++ tail)) = false := by
  obtain ⟨t, d, ht, hd⟩ := h.last
  rw [ht, ← List.append_assoc, toUpper_snoc U hd.firm, ← Bool.not_eq_true, List.isSuffixOf_iff_suffix]
  rintro ⟨y, hy⟩
  have hlast := congrArg List.getLast? hy
  rw [show ascii ")" = [0x29] by decide, List.getLast?_concat, List.getLast?_concat, Option.some_inj] at hlast
  subst hlast
  exact absurd hd (by unfold Digit; decide)

/-- Such a part is neither a call of `CHAR`, nor a literal, nor a call of `MID`. -/
theorem Tail.foldPart (e : Expr) {name y : Bytes} (hupper : U.toUpper (e.print ++ tail) = name ++ y) :
    foldPart U D (e.print ++ tail) =
      match indexByte (name ++ y) 0x28 with
      | some idx =>
        if 0 < idx && isXLMFunctionName (trimSpaceBytes ((name ++ y).take idx)) then
          some <$> foldFunctionCall U D (e.print ++ tail)
        else pure none
      | none => pure none := by
  have hclosed := h.not_closed U e.print
  rw [hupper] at hclosed
  simp only [MS.Xlm.foldPart, trimSpaceBytes_solid (h.solid e), hupper, hclosed, h.not_literal, Bool.and_false,
    Bool.false_eq_true, if_false]
  cases indexByte (name ++ y) 0x28 <;> rfl

omit h in
/-- A text that begins with a quote is not trimmed at its beginning. -/
theorem trimSpaceBytes_quote (y : Bytes) (idx : Nat) :
    ∃ k, trimSpaceBytes ((0x22 :: y).take idx) = (0x22 :: y).take k := by
  cases idx with
  | zero => exact ⟨0, rfl⟩
  | succ idx =>
    have hfirst : (runes (0x22 :: y.take idx)).takeWhile isSpace = [] := by
      rw [runes_cons_ascii (by decide), List.takeWhile_cons_of_neg (by decide)]
    rw [List.take_succ_cons, trimSpaceBytes, hfirst, show (encodeRunes []).length = 0 from rfl, List.drop_zero,
      ← List.take_succ_cons, List.take_take]
    exact ⟨_, rfl⟩

omit h in
theorem not_functionName_quote (y : Bytes) (k : Nat) : isXLMFunctionName ((0x22 :: y).take k) = false := by
  have hnames : ∀ name ∈ functionNames, name.head? ≠ some 0x22 ∧ name ≠ [] := by decide
  rw [isXLMFunctionName, ← Bool.not_eq_true, List.contains_iff_mem]
  intro hmem
  obtain ⟨hquote, hempty⟩ := hnames _ hmem
  cases k with
  | zero => exact hempty rfl
  | succ k => exact hquote rfl

theorem foldPart_lit_tail (text : List Char) : foldPart U D ((Expr.lit text).print ++ tail) = .ok none := by
  have hquote : Firm 0x22 := ⟨by decide, by decide, by decide⟩
  obtain ⟨y, hy⟩ : ∃ y, (Expr.lit text).print ++ tail = 0x22 :: y := ⟨_, rfl⟩
  have hupper : U.toUpper ((Expr.lit text).print ++ tail) = [0x22] ++ U.toUpper y := by
    rw [hy, toUpper_cons U hquote, List.singleton_append]
  -- whatever stands before a parenthesis begins with the quote
  have hname : ∀ idx, isXLMFunctionName (trimSpaceBytes (([0x22] ++ U.toUpper y).take idx)) = false := by
    intro idx
    obtain ⟨k, hk⟩ := trimSpaceBytes_quote (U.toUpper y) idx
    rw [List.singleton_append, hk]
    exact not_functionName_quote (U.toUpper y) k
  rw [h.foldPart U D _ hupper]
  cases indexByte ([0x22] ++ U.toUpper y) 0x28 with
  | none => rfl
  | some idx =>
    simp only [hname, Bool.and_false]
    rfl

theorem foldPart_char_tail (n : Printable) : foldPart U D ((Expr.char n).print ++ tail) = .ok none := by
  obtain ⟨y, hupper⟩ : ∃ y, U.toUpper ((Expr.char n).print ++ tail) = ascii "CHAR" ++ 0x28 :: y := by
    have hall : ∀ c ∈ ascii "CHAR(", c < 0x80 ∧ isSpace c.toNat = false ∧ ¬ (0x61 ≤ c.toNat ∧ c.toNat ≤ 0x7a) :=
      List.forall_iff_forall_mem.1 (by decide)
    have hfirm : ∀ c ∈ ascii "CHAR(", Firm c := fun c hc => ⟨(hall c hc).1, (hall c hc).2.1, (hall c hc).2.2⟩
    refine ⟨U.toUpper (numeral 10 n ++ ascii ")" ++ tail), ?_⟩
    rw [Expr.print, List.append_assoc, List.append_assoc, toUpper_firm U hfirm,
      show ascii "CHAR(" = ascii "CHAR" ++ [0x28] by decide, List.append_assoc, List.append_assoc]
    rfl
  have hname : isXLMFunctionName (trimSpaceBytes ((ascii "CHAR" ++ 0x28 :: y).take (ascii "CHAR").length)) = false := by
    rw [List.take_left]
    decide
  rw [h.foldPart U D _ hupper, indexByte_append (by decide)]
  simp only [hname, Bool.and_false]
  rfl

theorem foldPart_mid_tail (text : Expr) (start : ℕ+) (count : Nat) :
    foldPart U D ((Expr.mid text start count).print ++ tail) = (do
      let folded ← D (Expr.printArgs text.print start count)
      pure (some (wrapper (if folded = [] then Expr.printArgs text.print start count else folded)))) := by
  obtain ⟨y, hupper⟩ : ∃ y, U.toUpper ((Expr.mid text start count).print ++ tail) = ascii "MID(" ++ y := by
    refine ⟨U.toUpper (Expr.printArgs text.print start count ++ ascii ")" ++ tail), ?_⟩
    rw [Expr.print, List.append_assoc, List.append_assoc, toUpper_mid, List.append_assoc]
  obtain ⟨-, -, hidx, hname⟩ := begins_mid y
  have hclose : 0x29 ∉ tail := fun hmem => (h.plain _ hmem).2.2.1 rfl
  rw [h.foldPart U D _ hupper, hidx]
  simp only [hname, show 0 < 3 by decide, decide_true, Bool.and_self, if_true, foldFunctionCall_mid U D hclose]
  cases D (Expr.printArgs text.print start count) <;> rfl

end

theorem foldParts_append (xs ys : List Bytes) :
    foldParts U D (xs ++ ys) = (do
      let a ← foldParts U D xs
      let b ← foldParts U D ys
      pure (a ++ b)) := by
  induction xs with
  | nil =>
    rw [List.nil_append]
    cases foldParts U D ys <;> rfl
  | cons x xs ih =>
    simp only [List.cons_append, foldParts, ih]
    split_ifs <;> simp only [bind_assoc, pure_bind, List.append_assoc]

theorem foldParts_singleton {x : Bytes} (h : Solid x) :
    foldParts U D [x] = (do
      let folded ← foldPart U D x
      pure (folded.getD [])) := by
  obtain ⟨c, t, hx, -⟩ := h.first
  have hne : x ≠ [] := by simp [hx]
  simp only [foldParts, trimSpaceBytes_solid h, if_neg hne, pure_bind, List.append_nil]

end Part

/-! ## A whole formula -/

namespace Expr

variable (U : Unicode)

theorem stripEquals_print (e : Expr) (tail : Bytes) : stripEquals (e.print ++ tail) = e.print ++ tail := by
  obtain ⟨c, t, he, hc⟩ := e.print_head
  rw [he, List.cons_append, stripEquals]
  intro rest hrest
  rw [(List.cons.inj hrest).1] at hc
  exact absurd hc (by decide)

/-- The sign before a formula makes no difference. -/
theorem fold_equals (e : Expr) (n : Nat) :
    foldXLMFormulaDepth U n (0x3d :: e.print) = foldXLMFormulaDepth U n e.print := by
  have hstrip := e.stripEquals_print []
  rw [List.append_nil] at hstrip
  cases n with
  | zero => rfl
  | succ n => rw [foldXLMFormulaDepth, foldXLMFormulaDepth, stripEquals, hstrip]

section

variable {tail : Bytes} (h : ∀ c ∈ tail, c ≠ 0x22 ∧ c ≠ 0x28 ∧ c ≠ 0x29 ∧ c ≠ 0x26)
include h

theorem fold_print (e : Expr) (n : Nat) :
    foldXLMFormulaDepth U (n + 1) (e.print ++ tail) =
      foldParts U (foldXLMFormulaDepth U n) (e.front ++ [e.back ++ tail]) := by
  rw [foldXLMFormulaDepth, stripEquals_print, splitOnConcat_print e h]

theorem fold_concat (a b : Expr) (n : Nat) :
    foldXLMFormulaDepth U (n + 1) ((concat a b).print ++ tail) = (do
      let x ← foldXLMFormulaDepth U (n + 1) a.print
      let y ← foldXLMFormulaDepth U (n + 1) (b.print ++ tail)
      pure (x ++ y)) := by
  have ha := @fold_print U [] (by simp) a n
  rw [List.append_nil, List.append_nil] at ha
  rw [fold_print U h, fold_print U h, ha, ← foldParts_append, front, back, List.append_assoc, List.append_assoc,
    List.cons_append, List.singleton_append]

/-- A formula of one part. -/
theorem fold_single {e : Expr} (hfront : e.front = []) (hback : e.back = e.print) (hsolid : Solid (e.print ++ tail))
    (n : Nat) :
    foldXLMFormulaDepth U (n + 1) (e.print ++ tail) = (do
      let folded ← foldPart U (foldXLMFormulaDepth U n) (e.print ++ tail)
      pure (folded.getD [])) := by
  rw [fold_print U h, hfront, hback, List.nil_append, foldParts_singleton U _ hsolid]

end

/-! ### When the value is found -/

/-- What is kept of the formula as the text of a call of `MID` that is not read. -/
def kept : Expr → Bytes
  | lit _ => []
  | char _ => []
  | concat a b => utf8 a.value ++ b.kept
  | mid text start count => wrapper (if text.kept = [] then printArgs text.print start count else text.kept)

/-- A call of `MID` with numbers that are no `int` is not read; its text is kept, and is the value only by chance.  If the
text of the call is empty, what it is printed as is taken for it: no character may be taken of that.  And the end of what
is taken must be an `int`, unless it begins behind the end of the text. -/
def MidFolds (text : Expr) (start : ℕ+) (count : Nat) : Prop :=
  if (start : Nat) < 2 ^ 63 ∧ count < 2 ^ 63 then
    if text.value = [] then (runes (stripOuterQuotes text.print)).length < start ∨ count = 0
    else (start : Nat) ≤ text.value.length → start - 1 + count < 2 ^ 63
  else utf8 (mid text start count).value = (mid text start count).kept

instance (text : Expr) (start : ℕ+) (count : Nat) : Decidable (MidFolds text start count) := by
  unfold MidFolds
  infer_instance

def Folds : Expr → Prop
  | mid text start count => MidFolds text start count
  | _ => True

instance : DecidablePred Folds
  | lit _ => .isTrue trivial
  | char _ => .isTrue trivial
  | concat _ _ => .isTrue trivial
  | mid text start count => inferInstanceAs (Decidable (MidFolds text start count))

/-- The formula is folded to its value, however deep it stands. -/
def Right (e : Expr) : Prop := ∀ n, e.nesting < n → foldXLMFormulaDepth U n e.print = .ok (utf8 e.value)

variable {U}

theorem self_mem_subterms (e : Expr) : e ∈ e.subterms := by
  cases e <;> simp [subterms]

/-- A formula with the other arguments of `MID` behind it. -/
theorem fold_kept {e : Expr} (hsub : ∀ u ∈ e.subterms, u.Right U) {tail : Bytes} (h : Tail tail) {n : Nat}
    (hn : e.nesting < n) : foldXLMFormulaDepth U n (e.print ++ tail) = .ok e.kept := by
  induction e generalizing n tail with
  | lit text =>
    obtain ⟨n, rfl⟩ := Nat.exists_eq_add_one_of_ne_zero (by omega : n ≠ 0)
    rw [fold_single U h.plain rfl rfl (h.solid _), foldPart_lit_tail U _ h]
    rfl
  | char c =>
    obtain ⟨n, rfl⟩ := Nat.exists_eq_add_one_of_ne_zero (by omega : n ≠ 0)
    rw [fold_single U h.plain rfl rfl (h.solid _), foldPart_char_tail U _ h]
    rfl
  | concat a b _ ihb =>
    obtain ⟨n, rfl⟩ := Nat.exists_eq_add_one_of_ne_zero (by omega : n ≠ 0)
    simp only [subterms, List.forall_mem_cons, List.forall_mem_append, nesting, max_lt_iff] at hsub hn
    rw [fold_concat U h.plain, hsub.2.1 a a.self_mem_subterms _ hn.1, ihb hsub.2.2 h hn.2]
    rfl
  | mid text start count ih =>
    obtain ⟨n, rfl⟩ := Nat.exists_eq_add_one_of_ne_zero (by omega : n ≠ 0)
    simp only [subterms, List.forall_mem_cons, nesting] at hsub hn
    have hargs := ih hsub.2 (tail_args start count) (by omega : text.nesting < n)
    rw [← List.append_assoc] at hargs
    rw [fold_single U h.plain rfl rfl (h.solid _), foldPart_mid_tail U _ h, printArgs, hargs]
    rfl

/-- What is taken of a text: a sum that is no `int` is negative, and no end of a slice. -/
theorem midRunes_eq (text : List Nat) {start count : Nat} (hpos : 1 ≤ start) (hs : start < 2 ^ 63) (hc : count < 2 ^ 63) :
    midRunes text start count =
      if start ≤ text.length ∧ count ≠ 0 ∧ 2 ^ 63 ≤ start - 1 + count then .error .bounds
      else .ok ((text.drop (start - 1)).take count) := by
  unfold midRunes
  by_cases hend : text.length < start ∨ count = 0
  · rw [if_pos (by omega), if_neg (by omega)]
    rcases hend with hend | rfl
    · rw [List.drop_eq_nil_of_le (by omega), List.take_nil]
    · rw [List.take_zero]
  · rw [if_neg (by omega)]
    by_cases hover : 2 ^ 63 ≤ start - 1 + count
    · have hwrap : wrap (start - 1 + count) < 0 := by
        rw [wrap, Int.bmod_def]
        omega
      simp only
      rw [if_neg (by omega : ¬ (text.length : Int) < wrap (start - 1 + count)), slice, if_neg (by omega),
        if_pos ⟨by omega, by omega, hover⟩]
    · have hwrap : wrap (start - 1 + count) = start - 1 + count := by
        rw [wrap, Int.bmod_def]
        omega
      have hstart : ((start : Int) - 1).toNat = start - 1 := by omega
      simp only [hwrap]
      have hfits : ¬ (start ≤ text.length ∧ count ≠ 0 ∧ 2 ^ 63 ≤ start - 1 + count) := fun h => hover h.2.2
      rw [if_neg hfits, slice, if_pos (by split_ifs <;> omega), List.drop_take, hstart]
      congr 1
      split_ifs with hlong
      · rw [List.take_of_length_le (by simp), List.take_of_length_le (by simp; omega)]
      · congr 1
        omega

/-- What a call of `MID` is folded to, if all of its text is folded to its value. -/
theorem fold_mid {text : Expr} (hsub : ∀ u ∈ text.subterms, u.Right U) {start : ℕ+} {count n : Nat}
    (hn : (mid text start count).nesting < n) :
    foldXLMFormulaDepth U n (mid text start count).print =
      if (start : Nat) < 2 ^ 63 ∧ count < 2 ^ 63 then
        encodeRunes <$> midRunes (runes (if text.value = [] then stripOuterQuotes text.print else utf8 text.value)) start count
      else .ok (mid text start count).kept := by
  obtain ⟨n, rfl⟩ := Nat.exists_eq_add_one_of_ne_zero (by omega : n ≠ 0)
  rw [nesting, Nat.add_lt_add_iff_right] at hn
  have htext : foldXLMFormulaDepth U n text.print = .ok (utf8 text.value) := hsub text text.self_mem_subterms n hn
  have hargs : foldXLMFormulaDepth U n (printArgs text.print start count) = .ok text.kept := by
    have := fold_kept hsub (tail_args start count) hn
    rwa [← List.append_assoc] at this
  have hfold := @fold_single U [] (by simp) (mid text start count) rfl rfl (by simpa using solid_print _) n
  rw [List.append_nil, foldPart_mid, htext, hargs] at hfold
  rw [hfold]
  by_cases hrange : (start : Nat) < 2 ^ 63 ∧ count < 2 ^ 63
  · simp only [if_pos hrange, Except.bind, Bind.bind, utf8_eq_nil]
    cases midRunes (runes (if text.value = [] then stripOuterQuotes text.print else utf8 text.value)) start count <;> rfl
  · simp only [if_neg hrange]
    rfl

/-- It is its value exactly if `MidFolds` says so. -/
theorem fold_mid_iff {text : Expr} (hsub : ∀ u ∈ text.subterms, u.Right U) {start : ℕ+} {count n : Nat}
    (hn : (mid text start count).nesting < n) :
    foldXLMFormulaDepth U n (mid text start count).print = .ok (utf8 (mid text start count).value) ↔
      MidFolds text start count := by
  rw [fold_mid hsub hn, MidFolds]
  split_ifs with hrange hnil
  · -- the text is empty, so is the value: nothing may be taken of what the text is printed as
    rw [midRunes_eq _ start.pos hrange.1 hrange.2, value, hnil]
    split_ifs with hover
    · refine iff_of_false nofun fun h => ?_
      omega
    · simp only [Functor.map, Except.map, Except.ok.injEq, List.drop_nil, List.take_nil]
      rw [show utf8 [] = [] from rfl, encodeRunes_eq_nil, List.take_eq_nil_iff, List.drop_eq_nil_iff]
      have := start.pos
      omega
  · rw [midRunes_eq _ start.pos hrange.1 hrange.2, runes_utf8, List.length_map]
    split_ifs with hover
    · exact iff_of_false nofun fun h => absurd (h hover.1) (by omega)
    · refine iff_of_true ?_ fun h => by omega
      simp only [Functor.map, Except.map, value, utf8, List.map_take, List.map_drop]
  · rw [Except.ok.injEq, eq_comm]

theorem nesting_le {e u : Expr} (h : u ∈ e.subterms) : u.nesting ≤ e.nesting := by
  induction e with
  | lit text => rw [List.mem_singleton.1 h]
  | char c => rw [List.mem_singleton.1 h]
  | concat a b iha ihb =>
    simp only [subterms, List.mem_cons, List.mem_append] at h
    rcases h with rfl | h | h
    · exact le_rfl
    · exact le_max_of_le_left (iha h)
    · exact le_max_of_le_right (ihb h)
  | mid text start count ih =>
    rcases List.mem_cons.1 h with rfl | h
    · exact le_rfl
    · exact Nat.le_succ_of_le (ih h)

theorem right_of_folds {e : Expr} (h : ∀ u ∈ e.subterms, u.Folds) : ∀ u ∈ e.subterms, u.Right U := by
  -- a formula of one part, with nothing behind it
  have hsingle : ∀ {u : Expr} {v : Bytes}, u.front = [] → u.back = u.print → (∀ D, foldPart U D u.print = .ok (some v)) →
      ∀ n, u.nesting < n → foldXLMFormulaDepth U n u.print = .ok v := by
    intro u v hfront hback hpart n hn
    obtain ⟨n, rfl⟩ := Nat.exists_eq_add_one_of_ne_zero (by omega : n ≠ 0)
    have hfold := @fold_single U [] (by simp) u hfront hback (by simpa using u.solid_print) n
    rw [List.append_nil, hpart] at hfold
    exact hfold
  induction e with
  | lit text =>
    intro u hu
    rw [List.mem_singleton.1 hu]
    exact hsingle rfl rfl fun D => foldPart_lit U D text
  | char c =>
    intro u hu
    rw [List.mem_singleton.1 hu]
    exact hsingle rfl rfl fun D => foldPart_char U D c
  | concat a b iha ihb =>
    simp only [subterms, List.forall_mem_cons, List.forall_mem_append] at h ⊢
    refine ⟨?_, iha h.2.1, ihb h.2.2⟩
    intro n hn
    obtain ⟨n, rfl⟩ := Nat.exists_eq_add_one_of_ne_zero (by omega : n ≠ 0)
    rw [nesting, max_lt_iff] at hn
    have hfold := @fold_concat U [] (by simp) a b n
    rw [List.append_nil, List.append_nil, iha h.2.1 a a.self_mem_subterms _ hn.1,
      ihb h.2.2 b b.self_mem_subterms _ hn.2] at hfold
    rw [hfold, value, utf8_append]
    rfl
  | mid text start count ih =>
    simp only [subterms, List.forall_mem_cons] at h ⊢
    exact ⟨fun n hn => (fold_mid_iff (ih h.2) hn).2 h.1, ih h.2⟩

theorem folds_of_right {e : Expr} (hn : e.nesting < maxXLMFoldDepth)
    (h : ∀ u ∈ e.subterms, foldXLMFormula U u.print = .ok (utf8 u.value)) : ∀ u ∈ e.subterms, u.Folds := by
  induction e with
  | lit text =>
    intro u hu
    rw [List.mem_singleton.1 hu]
    trivial
  | char c =>
    intro u hu
    rw [List.mem_singleton.1 hu]
    trivial
  | concat a b iha ihb =>
    rw [nesting, max_lt_iff] at hn
    simp only [subterms, List.forall_mem_cons, List.forall_mem_append] at h ⊢
    exact ⟨trivial, iha hn.1 h.2.1, ihb hn.2 h.2.2⟩
  | mid text start count ih =>
    simp only [subterms, List.forall_mem_cons] at h ⊢
    have htext := ih (Nat.lt_of_succ_lt hn) h.2
    exact ⟨(fold_mid_iff (right_of_folds htext) hn).1 h.1, htext⟩

end Expr

/-- A formula and all it is built from are folded to their values exactly if every call of `MID` among them is one that
`Expr.MidFolds` describes. -/
theorem foldXLMFormula_print (U : Unicode) (e : Expr) (h : e.nesting < maxXLMFoldDepth) :
    (∀ u ∈ e.subterms, ∀ formula ∈ [u.print, 0x3d :: u.print], foldXLMFormula U formula = .ok (utf8 u.value)) ↔
      ∀ u ∈ e.subterms, u.Folds := by
  simp only [List.forall_mem_cons, List.not_mem_nil, false_imp_iff, implies_true, and_true, foldXLMFormula,
    Expr.fold_equals, and_self]
  refine ⟨Expr.folds_of_right h, fun hfolds u hu => ?_⟩
  exact Expr.right_of_folds hfolds u hu _ ((Expr.nesting_le hu).trans_lt h)

/-- A table that leaves every character beyond ASCII as it is. -/
def asciiCase : Unicode where
  upper r := if 0x61 ≤ r ∧ r ≤ 0x7a then r - 0x20 else r
  upper_ascii _ _ := rfl

/-- `CHAR(104)&MID("at""p",2,1)` -/
def Expr.spliced : Expr := .concat (.char ⟨104, by decide⟩) (.mid (.lit ['a', 't', '"', 'p']) 2 1)

theorem foldXLMFormula_print_spliced :
    foldXLMFormula asciiCase Expr.spliced.print = .ok (utf8 Expr.spliced.value) :=
  (foldXLMFormula_print asciiCase Expr.spliced (by decide)).2 (by decide) _ (by simp [Expr.spliced, Expr.subterms]) _
    (by simp)

/-- `MID(MID("ab",5,1),1,3)` -/
def Expr.pastEnd : Expr := .mid (.mid (.lit ['a', 'b']) 5 1) 1 3

/-- The value is empty, but the first three characters of the inner call are found. -/
theorem foldXLMFormula_pastEnd :
    Expr.pastEnd.nesting < maxXLMFoldDepth ∧ utf8 Expr.pastEnd.value = [] ∧
    foldXLMFormula asciiCase Expr.pastEnd.print = .ok (ascii "MID") := by
  decide +kernel

/-- `MID("ab",2,9223372036854775807)` panics. -/
example : foldXLMFormula asciiCase (Expr.mid (.lit ['a', 'b']) 2 (2 ^ 63 - 1)).print = .error .bounds := by
  decide +kernel

end MS.Xlm
