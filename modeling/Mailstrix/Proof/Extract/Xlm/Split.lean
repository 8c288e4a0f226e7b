import Mailstrix.Impl.Extract.Xlm.Fold
import Mailstrix.Spec.Extract.Xlm

/-!
# Splitting a printed formula

The loops of the folder keep track of quotes and parentheses byte by byte.  Over a printed formula they find what was
printed:

* `literalText_quoted`: the text of a literal;
* `parseXLMIntArg_numeral`: a number, if it fits an `int`;
* `Expr.passes_print`: a printed formula is not split as an argument of a call;
* `Expr.splitOnConcat_print`: at its concatenations it is split into the parts `Expr.front` and `Expr.back`.
-/

namespace MS.Xlm

open Framework
open Scan (ascii atoi isSpace)
open Extract (trimSpaceBytes)

variable {sep : UInt8} {depth : Nat}

/-! ## Texts -/

/-- A character that is neither trimmed nor changed by `ToUpper`. -/
structure Firm (c : UInt8) : Prop where
  ascii : c < 0x80
  nonspace : isSpace c.toNat = false
  upper : ¬ (0x61 ≤ c.toNat ∧ c.toNat ≤ 0x7a)

/-- A text that begins and ends with such a character. -/
structure Solid (s : Bytes) : Prop where
  first : ∃ c t, s = c :: t ∧ Firm c
  last : ∃ t c, s = t ++ [c] ∧ Firm c

theorem trimSpaceBytes_solid {s : Bytes} (h : Solid s) : trimSpaceBytes s = s := by
  obtain ⟨⟨c, t, hs, hc⟩, ⟨t', c', hs', hc'⟩⟩ := h
  have hfirst : (runes s).takeWhile isSpace = [] := by
    rw [hs, runes_cons_ascii hc.ascii]
    simp [hc.nonspace]
  have hlast : (runes s).reverse.takeWhile isSpace = [] := by
    rw [hs', runes_append_ascii hc'.ascii]
    simp [runes, hc'.nonspace]
  simp [trimSpaceBytes, hfirst, hlast, encodeRunes]

section Upper

variable (U : Unicode) {c : UInt8} (h : Firm c)
include h

theorem encodeRune_upper : encodeRune (U.upper c.toNat) = [c] := by
  have hlt : c.toNat < 0x80 := h.ascii
  rw [U.upper_ascii _ hlt, if_neg h.upper, encodeRune, if_pos hlt, UInt8.ofNat_toNat]

theorem toUpper_cons (t : Bytes) : U.toUpper (c :: t) = c :: U.toUpper t := by
  simp only [Unicode.toUpper, runes_cons_ascii h.ascii, List.map_cons, encodeRunes, List.flatMap_cons,
    encodeRune_upper U h, List.singleton_append]

theorem toUpper_snoc (t : Bytes) : U.toUpper (t ++ [c]) = U.toUpper t ++ [c] := by
  simp only [Unicode.toUpper, runes_append_ascii h.ascii, runes, encodeRunes, List.map_append, List.map_cons,
    List.map_nil, List.flatMap_append, List.flatMap_cons, List.flatMap_nil, encodeRune_upper U h, List.append_nil]

end Upper

/-! ## Literals -/

theorem runes_utf8 (text : List Char) : runes (utf8 text) = text.map Char.toNat := by
  have h : ∀ r ∈ text.map Char.toNat, r.isValidChar := by
    intro r hr
    obtain ⟨c, -, rfl⟩ := List.mem_map.1 hr
    exact c.valid
  simpa [utf8, runes] using runes_encodeRunes h []

theorem utf8_append (a b : List Char) : utf8 (a ++ b) = utf8 a ++ utf8 b := by
  simp [utf8, encodeRunes]

theorem utf8_eq_nil {text : List Char} : utf8 text = [] ↔ text = [] := by
  rw [utf8, encodeRunes_eq_nil, List.map_eq_nil_iff]

theorem double_append (a b : Bytes) : double (a ++ b) = double a ++ double b := by simp [double]

theorem double_of_notMem {s : Bytes} (h : 0x22 ∉ s) : double s = s := by
  induction s with
  | nil => rfl
  | cons c s ih =>
    simp only [List.mem_cons, not_or] at h
    have hcons : double (c :: s) = c :: double s := by simp [double, Ne.symm h.1]
    rw [hcons, ih h.2]

/-- Only the quote is written with the byte of the quote. -/
theorem double_encodeRune {r : Nat} (h : r ≠ 0x22) : double (encodeRune r) = encodeRune r := by
  refine double_of_notMem fun hmem => ?_
  rcases mem_encodeRune hmem with h' | h'
  · exact h h'.symm
  · exact absurd h' (by decide)

theorem utf8_doubled (text : List Char) : utf8 (Expr.doubled text) = double (utf8 text) := by
  induction text with
  | nil => rfl
  | cons c text ih =>
    have hcons : utf8 (c :: text) = encodeRune c.toNat ++ utf8 text := by simp [utf8, encodeRunes]
    rw [hcons, double_append, ← ih]
    by_cases hc : c = '"'
    · subst hc
      rfl
    · have hn : c.toNat ≠ 0x22 := fun h => hc (Char.ext (UInt32.toNat_inj.1 h))
      rw [double_encodeRune hn]
      simp [Expr.doubled, hc, utf8, encodeRunes]

theorem undouble_double (s : Bytes) : undouble (double s) = s := by
  induction s with
  | nil => rfl
  | cons c s ih =>
    by_cases hc : c = 0x22
    · subst hc
      have : double (0x22 :: s) = 0x22 :: 0x22 :: double s := rfl
      rw [this, undouble, ih]
    · have : double (c :: s) = c :: double s := by simp [double, hc]
      rw [this, undouble, ih]
      intro rest h
      exact absurd h hc

theorem literalText_quoted (s : Bytes) : literalText (0x22 :: double s ++ [0x22]) = some s := by
  have hinner : (List.drop 1 (0x22 :: double s ++ [0x22])).dropLast = double s := by simp
  rw [literalText, if_pos ⟨by simp, rfl, List.getLast?_concat⟩, hinner, undouble_double]

/-! ## Numerals -/

def Digit (c : UInt8) : Prop := 0x30 ≤ c.toNat ∧ c.toNat ≤ 0x39

theorem digit_numeral {n : Nat} {c : UInt8} (h : c ∈ numeral 10 n) : Digit c := by
  have hdigit : ∀ d < 10, Digit (digit d) := by
    unfold Digit
    decide
  unfold numeral at h
  split at h
  · rw [List.mem_singleton.1 h]
    exact hdigit 0 (by decide)
  · obtain ⟨d, hd, rfl⟩ := List.mem_map.1 (List.mem_reverse.1 h)
    exact hdigit d (Nat.digits_lt_base (by decide) hd)

theorem Digit.firm {c : UInt8} (h : Digit c) : Firm c := by
  have hall : ∀ n, 0x30 ≤ n → n ≤ 0x39 → isSpace n = false := by
    intro n h₁ h₂
    have : ∀ k < 10, isSpace (0x30 + k) = false := by decide
    rw [show n = 0x30 + (n - 0x30) by omega]
    exact this _ (by omega)
  obtain ⟨h₁, h₂⟩ := h
  exact ⟨show c.toNat < 0x80 by omega, hall _ h₁ h₂, by omega⟩

/-- What the digits of a numeral add up to. -/
theorem foldl_numeral (n : Nat) :
    (numeral 10 n).foldl (fun (m : Int) c => m * 10 + ((c.toNat : Int) - 0x30)) 0 = n := by
  have hdigit : ∀ d < 10, ((digit d).toNat : Int) - 0x30 = d := by decide
  have hfold : ∀ ds : List Nat, (∀ d ∈ ds, d < 10) →
      (ds.map digit).foldr (fun c (m : Int) => m * 10 + ((c.toNat : Int) - 0x30)) 0 = (Nat.ofDigits 10 ds : Nat) := by
    intro ds hds
    induction ds with
    | nil => rfl
    | cons d ds ih =>
      simp only [List.forall_mem_cons] at hds
      rw [List.map_cons, List.foldr_cons, ih hds.2, hdigit d hds.1, Nat.ofDigits_cons]
      push_cast
      ring
  unfold numeral
  split
  · subst n
    decide
  · rw [List.foldl_reverse, hfold _ fun d hd => Nat.digits_lt_base (by decide) hd, Nat.ofDigits_digits]

theorem atoi_digits {ds : Bytes} (hds : ∀ c ∈ ds, Digit c) (hne : ds ≠ []) :
    atoi ds =
      if -2 ^ 63 ≤ ds.foldl (fun (m : Int) c => m * 10 + ((c.toNat : Int) - 0x30)) 0 ∧
          ds.foldl (fun (m : Int) c => m * 10 + ((c.toNat : Int) - 0x30)) 0 < 2 ^ 63 then
        some (ds.foldl (fun (m : Int) c => m * 10 + ((c.toNat : Int) - 0x30)) 0)
      else none := by
  have hall : ds.all (fun c => 0x30 ≤ c && c ≤ 0x39) = true := by
    rw [List.all_eq_true]
    intro c hc
    have := hds c hc
    simpa [Digit, UInt8.le_iff_toNat_le] using this
  obtain ⟨c, t, rfl⟩ := List.exists_cons_of_ne_nil hne
  have hc : c ≠ 0x2d ∧ c ≠ 0x2b := by
    constructor <;>
    · rintro rfl
      exact absurd (hds _ List.mem_cons_self) (by unfold Digit; decide)
  unfold atoi
  split
  rename_i negative digits hmatch
  split at hmatch
  · exact absurd (List.cons.inj ‹_›).1 hc.1
  · exact absurd (List.cons.inj ‹_›).1 hc.2
  · cases hmatch
    rw [if_neg (by simp [hall])]
    rfl

theorem atoi_numeral (n : Nat) : atoi (numeral 10 n) = if n < 2 ^ 63 then some (n : Int) else none := by
  rw [atoi_digits (fun c hc => digit_numeral hc) (numeral_ne_nil 10 n), foldl_numeral]
  split_ifs <;> first | rfl | omega

theorem solid_numeral (n : Nat) : Solid (numeral 10 n) := by
  have hfirm : ∀ c ∈ numeral 10 n, Firm c := fun c hc => (digit_numeral hc).firm
  obtain ⟨c, t, hct⟩ := List.exists_cons_of_ne_nil (numeral_ne_nil 10 n)
  obtain ⟨t', c', hct'⟩ := List.eq_nil_or_concat' (numeral 10 n) |>.resolve_left (numeral_ne_nil 10 n)
  exact ⟨⟨c, t, hct, hfirm c (by simp [hct])⟩, ⟨t', c', hct', hfirm c' (by simp [hct'])⟩⟩

theorem parseXLMIntArg_numeral (n : Nat) :
    parseXLMIntArg (numeral 10 n) = if n < 2 ^ 63 then some (n : Int) else none := by
  have hlit : literalText (numeral 10 n) = none := by
    refine if_neg fun h => ?_
    obtain ⟨-, hhead, -⟩ := h
    exact absurd (digit_numeral (List.mem_of_mem_head? hhead)) (by unfold Digit; decide)
  rw [parseXLMIntArg, stripOuterQuotes, trimSpaceBytes_solid (solid_numeral n), hlit, Option.getD_none,
    trimSpaceBytes_solid (solid_numeral n), atoi_numeral]

/-! ## Splitting -/

theorem splitTopLevel_cons {sep ch : UInt8} (h : ch ≠ 0x22) (depth : Nat) (cur rest : Bytes) :
    splitTopLevel sep false depth cur (ch :: rest) =
      if ch = 0x28 then splitTopLevel sep false (depth + 1) (cur ++ [ch]) rest
      else if ch = 0x29 then splitTopLevel sep false (depth - 1) (cur ++ [ch]) rest
      else if ch = sep ∧ depth = 0 then cur :: splitTopLevel sep false depth [] rest
      else splitTopLevel sep false depth (cur ++ [ch]) rest := by
  rw [splitTopLevel]
  · simp [h]
  · simp

theorem splitTopLevel_plain {x : Bytes}
    (h : ∀ c ∈ x, c ≠ 0x22 ∧ c ≠ 0x28 ∧ c ≠ 0x29 ∧ (c = sep → depth ≠ 0)) (cur rest : Bytes) :
    splitTopLevel sep false depth cur (x ++ rest) = splitTopLevel sep false depth (cur ++ x) rest := by
  induction x generalizing cur with
  | nil => simp
  | cons c x ih =>
    simp only [List.forall_mem_cons] at h
    obtain ⟨⟨hq, ho, hc, hs⟩, h⟩ := h
    rw [List.cons_append, splitTopLevel_cons hq, if_neg ho, if_neg hc, if_neg fun ⟨h₁, h₂⟩ => hs h₁ h₂, ih h]
    simp

/-- The rest of a literal. -/
theorem splitTopLevel_quoted (sep : UInt8) {rest : Bytes} (hrest : rest.head? ≠ some 0x22) (depth : Nat) (s cur : Bytes) :
    splitTopLevel sep true depth cur (double s ++ 0x22 :: rest) =
      splitTopLevel sep false depth (cur ++ double s ++ [0x22]) rest := by
  induction s generalizing cur with
  | nil =>
    cases rest with
    | nil => simp [double, splitTopLevel]
    | cons c rest =>
      rw [show double [] = [] from rfl, List.nil_append, splitTopLevel]
      · simp
      · intro rest' _ _ h
        rw [h] at hrest
        exact hrest rfl
  | cons c s ih =>
    by_cases hc : c = 0x22
    · subst hc
      rw [show double (0x22 :: s) = 0x22 :: 0x22 :: double s from rfl]
      simp only [List.cons_append]
      rw [splitTopLevel, ih]
      simp
    · rw [show double (c :: s) = c :: double s by simp [double, hc], List.cons_append, splitTopLevel]
      · simp [hc, ih]
      · exact fun _ _ h _ => hc h

/-- The loop takes `x` into the part it is in, if `x` does not end within a doubled quote. -/
def Passes (sep : UInt8) (depth : Nat) (x : Bytes) : Prop :=
  ∀ cur rest, rest.head? ≠ some 0x22 →
    splitTopLevel sep false depth cur (x ++ rest) = splitTopLevel sep false depth (cur ++ x) rest

theorem passes_plain {x : Bytes}
    (h : ∀ c ∈ x, c ≠ 0x22 ∧ c ≠ 0x28 ∧ c ≠ 0x29 ∧ (c = sep → depth ≠ 0)) : Passes sep depth x :=
  fun cur rest _ => splitTopLevel_plain h cur rest

theorem passes_plain_append {x y : Bytes}
    (h : ∀ c ∈ x, c ≠ 0x22 ∧ c ≠ 0x28 ∧ c ≠ 0x29 ∧ (c = sep → depth ≠ 0)) (hy : Passes sep depth y) :
    Passes sep depth (x ++ y) := by
  intro cur rest hrest
  rw [List.append_assoc, splitTopLevel_plain h, hy _ _ hrest, List.append_assoc]

theorem Passes.append {x y : Bytes} (hx : Passes sep depth x) (hy : Passes sep depth y)
    (hq : y.head? ≠ some 0x22) : Passes sep depth (x ++ y) := by
  intro cur rest hrest
  have hhead : (y ++ rest).head? ≠ some 0x22 := by
    cases y with
    | nil => simpa using hrest
    | cons c y => simpa using hq
  rw [List.append_assoc, hx _ _ hhead, hy _ _ hrest, List.append_assoc]

theorem passes_literal (sep : UInt8) (depth : Nat) (s : Bytes) : Passes sep depth (0x22 :: double s ++ [0x22]) := by
  intro cur rest hrest
  simp only [List.cons_append, List.append_assoc, List.nil_append]
  rw [splitTopLevel]
  · simp only [if_true, Bool.not_false]
    rw [splitTopLevel_quoted sep hrest]
    simp
  · simp

/-- A call, if its arguments pass within its parentheses. -/
theorem passes_call {name args : Bytes}
    (hname : Passes sep depth name) (hargs : Passes sep (depth + 1) args) :
    Passes sep depth (name ++ 0x28 :: (args ++ [0x29])) := by
  intro cur rest hrest
  simp only [List.append_assoc, List.cons_append, List.nil_append]
  rw [hname _ _ (by simp), splitTopLevel_cons (by decide), if_pos rfl, hargs _ _ (by simp),
    splitTopLevel_cons (by decide), if_neg (by decide), if_pos rfl]
  simp

theorem passes_name (hsep : sep = 0x2c ∨ sep = 0x26) (depth : Nat) {name : Bytes}
    (h : ∀ c ∈ name, 0x30 ≤ c.toNat) : Passes sep depth name := by
  refine passes_plain fun c hc => ?_
  have hc := h c hc
  refine ⟨?_, ?_, ?_, ?_⟩
  · exact fun h => absurd (h ▸ hc) (by decide)
  · exact fun h => absurd (h ▸ hc) (by decide)
  · exact fun h => absurd (h ▸ hc) (by decide)
  · rintro rfl
    rcases hsep with rfl | rfl <;> exact absurd hc (by decide)

theorem passes_numeral (hsep : sep = 0x2c ∨ sep = 0x26) (depth n : Nat) : Passes sep depth (numeral 10 n) :=
  passes_name hsep depth fun _ hc => (digit_numeral hc).1

namespace Expr

theorem print_lit (text : List Char) : (lit text).print = 0x22 :: double (utf8 text) ++ [0x22] := by
  rw [print, utf8_doubled]

theorem print_head (e : Expr) : ∃ c t, e.print = c :: t ∧ (c = 0x22 ∨ c = 0x43 ∨ c = 0x4d) := by
  induction e with
  | lit text => exact ⟨0x22, _, rfl, .inl rfl⟩
  | char n => exact ⟨0x43, _, rfl, .inr (.inl rfl)⟩
  | concat a b iha _ =>
    obtain ⟨c, t, ha, hc⟩ := iha
    exact ⟨c, t ++ 0x26 :: b.print, by rw [print, ha, List.cons_append], hc⟩
  | mid text start count _ => exact ⟨0x4d, _, rfl, .inr (.inr rfl)⟩

theorem print_last (e : Expr) : ∃ t c, e.print = t ++ [c] ∧ (c = 0x22 ∨ c = 0x29) := by
  induction e with
  | lit text => exact ⟨_, 0x22, rfl, .inl rfl⟩
  | char n => exact ⟨_, 0x29, rfl, .inr rfl⟩
  | concat a b _ ihb =>
    obtain ⟨t, c, hb, hc⟩ := ihb
    exact ⟨a.print ++ 0x26 :: t, c, by rw [print, hb, List.append_assoc, List.cons_append], hc⟩
  | mid text start count _ => exact ⟨_, 0x29, rfl, .inr rfl⟩

theorem solid_print (e : Expr) : Solid e.print := by
  obtain ⟨c, t, h, hc⟩ := e.print_head
  obtain ⟨t', c', h', hc'⟩ := e.print_last
  refine ⟨⟨c, t, h, ?_⟩, ⟨t', c', h', ?_⟩⟩
  · rcases hc with rfl | rfl | rfl <;> exact ⟨by decide, by decide, by decide⟩
  · rcases hc' with rfl | rfl <;> exact ⟨by decide, by decide, by decide⟩

/-- The arguments of `MID`, within its parentheses. -/
theorem passes_printArgs (hsep : sep = 0x2c ∨ sep = 0x26) {text : Bytes}
    (h : Passes sep (depth + 1) text) (start : ℕ+) (count : Nat) : Passes sep (depth + 1) (printArgs text start count) := by
  have hcomma : Passes sep (depth + 1) [0x2c] := passes_plain (by simp)
  have hnum : ∀ n, Passes sep (depth + 1) (0x2c :: numeral 10 n) := by
    intro n
    refine hcomma.append (passes_numeral hsep _ n) fun hq => ?_
    exact absurd (digit_numeral (List.mem_of_mem_head? hq)) (by unfold Digit; decide)
  exact (h.append (hnum start) (by simp)).append (hnum count) (by simp)

theorem passes_lit (sep : UInt8) (depth : Nat) (text : List Char) : Passes sep depth (lit text).print := by
  rw [print_lit]
  exact passes_literal sep depth _

theorem passes_char (hsep : sep = 0x2c ∨ sep = 0x26) (depth : Nat) (n : Printable) :
    Passes sep depth (char n).print := by
  have hname : Passes sep depth (ascii "CHAR") := passes_name hsep depth (List.forall_iff_forall_mem.1 (by decide))
  exact passes_call hname (passes_numeral hsep _ _)

theorem passes_mid (hsep : sep = 0x2c ∨ sep = 0x26) {text : Expr}
    (h : Passes sep (depth + 1) text.print) (start : ℕ+) (count : Nat) :
    Passes sep depth (mid text start count).print := by
  have hname : Passes sep depth (ascii "MID") := passes_name hsep depth (List.forall_iff_forall_mem.1 (by decide))
  exact passes_call hname (passes_printArgs hsep h start count)

/-- A printed formula is one argument; within parentheses it is not split at its concatenations either. -/
theorem passes_print (hsep : sep = 0x2c ∨ sep = 0x26 ∧ 0 < depth) (e : Expr) :
    Passes sep depth e.print := by
  have hsep' : sep = 0x2c ∨ sep = 0x26 := hsep.imp_right And.left
  induction e generalizing depth with
  | lit text => exact passes_lit sep depth text
  | char n => exact passes_char hsep' depth n
  | concat a b iha ihb =>
    have hamp : ∀ c ∈ [(0x26 : UInt8)], c ≠ 0x22 ∧ c ≠ 0x28 ∧ c ≠ 0x29 ∧ (c = sep → depth ≠ 0) := by
      rcases hsep with rfl | ⟨rfl, hd⟩
      · simp
      · simpa using hd.ne'
    exact (iha hsep).append (passes_plain_append hamp (ihb hsep)) (by simp)
  | mid text start count ih => exact passes_mid hsep' (ih (hsep'.imp_right fun h => ⟨h, by omega⟩)) start count

/-- The last of the parts of a printed formula between its concatenations. -/
def back : Expr → Bytes
  | concat _ b => b.back
  | e => e.print

/-- The parts before it. -/
def front : Expr → List Bytes
  | concat a b => a.front ++ a.back :: b.front
  | _ => []

theorem splitTopLevel_parts (e : Expr) {rest : Bytes} (hrest : rest.head? ≠ some 0x22) :
    splitTopLevel 0x26 false 0 [] (e.print ++ rest) = e.front ++ splitTopLevel 0x26 false 0 e.back rest := by
  induction e generalizing rest with
  | lit text => exact passes_lit _ 0 text [] rest hrest
  | char n => exact passes_char (.inr rfl) 0 n [] rest hrest
  | concat a b iha ihb =>
    rw [print, List.append_assoc, iha (by simp), List.cons_append, splitTopLevel_cons (by decide), if_neg (by decide),
      if_neg (by decide), if_pos ⟨rfl, rfl⟩, ihb hrest, front, back, List.append_assoc, List.cons_append]
  | mid text start count ih =>
    exact passes_mid (.inr rfl) (passes_print (.inr ⟨rfl, by omega⟩) text) start count [] rest hrest

theorem back_ne_nil (e : Expr) : e.back ≠ [] := by
  induction e with
  | concat a b _ ihb => exact ihb
  | lit | char | mid =>
    obtain ⟨c, t, h, -⟩ := print_head _
    rw [back, h]
    · exact List.cons_ne_nil c t
    · exact nofun

/-- Behind the formula may stand what the loop takes as it is. -/
theorem splitOnConcat_print (e : Expr) {tail : Bytes} (h : ∀ c ∈ tail, c ≠ 0x22 ∧ c ≠ 0x28 ∧ c ≠ 0x29 ∧ c ≠ 0x26) :
    splitOnConcat (e.print ++ tail) = e.front ++ [e.back ++ tail] := by
  have hquote : tail.head? ≠ some 0x22 := fun hq => (h _ (List.mem_of_mem_head? hq)).1 rfl
  have htail : splitTopLevel 0x26 false 0 e.back (tail ++ []) = splitTopLevel 0x26 false 0 (e.back ++ tail) [] := by
    refine splitTopLevel_plain (fun c hc => ?_) e.back []
    obtain ⟨h₁, h₂, h₃, h₄⟩ := h c hc
    exact ⟨h₁, h₂, h₃, fun hs => absurd hs h₄⟩
  rw [List.append_nil] at htail
  have hlast : e.back ++ tail ≠ [] := by simp [e.back_ne_nil]
  simp [splitOnConcat, splitTopLevel_parts e hquote, htail, splitTopLevel, hlast]

theorem splitTopLevelArgs_printArgs (e : Expr) (start : ℕ+) (count : Nat) :
    splitTopLevelArgs (printArgs e.print start count) = [e.print, numeral 10 start, numeral 10 count] := by
  have hcomma : ∀ cur rest, splitTopLevel 0x2c false 0 cur (0x2c :: rest) = cur :: splitTopLevel 0x2c false 0 [] rest :=
    fun cur rest => by rw [splitTopLevel_cons (by decide), if_neg (by decide), if_neg (by decide), if_pos ⟨rfl, rfl⟩]
  have hnum : ∀ n, Passes 0x2c 0 (numeral 10 n) := fun n => passes_numeral (.inl rfl) 0 n
  rw [splitTopLevelArgs, printArgs, List.append_assoc, passes_print (.inl rfl) e [] _ (by simp), List.cons_append, hcomma,
    hnum _ _ _ (by simp), hcomma, ← List.append_nil (numeral 10 count), hnum _ _ _ (by simp)]
  simp [splitTopLevel, trimSpaceBytes_solid e.solid_print, trimSpaceBytes_solid (solid_numeral _)]

end Expr

end MS.Xlm
