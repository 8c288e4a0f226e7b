import Mailstrix.Framework.Rewrite
import Mailstrix.Impl.Extract.Patterns
import Mailstrix.Impl.Extract.Xlm.Fold

/-!
# References in macro formulas

`xlm_emul_eval.go`, with `a1RefAt` and `normCoord` of `xlm_interp.go` and the placeholders of `xlm_emul_biff.go`: how
references to cells are found in the text of a formula and replaced by the values of the cells.

The loops of the source run over a text by an index.  Here they run over the rest of the text, with the byte before it
and, behind a match, the number of bytes that are still to be passed over.  Replacements of all matches of an expression
are `Framework.rewrite`.
-/

namespace MS.Xlm

open Framework
open Scan (ascii atoi)
open Extract (isAlpha isUpper isDecimal isWord trimSpaceBytes)

/-! ## A1 references -/

def asciiUpper (c : UInt8) : UInt8 := if 0x61 ≤ c && c ≤ 0x7a then c - 0x20 else c

/-- The text without the `$` it may begin with. -/
def stripDollar : Bytes → Bytes
  | 0x24 :: rest => rest
  | rest => rest

/-- `a1RefAt`, with the byte before: what is left behind the reference, and its coordinate. -/
def a1RefAt (before : Option UInt8) (s : Bytes) : Option (Bytes × Bytes) :=
  if before.any fun c => isWord c || c == 0x21 then none
  else
    let s := stripDollar s
    let col := (s.take 3).takeWhile isAlpha
    let s := s.drop col.length
    if col = [] ∨ s.head?.any isAlpha then none
    else
      let s := stripDollar s
      let row := (s.take 7).takeWhile isDecimal
      let s := s.drop row.length
      if row = [] ∨ s.head?.any isDecimal ∨ s.head?.any isWord then none
      else some (s, col.map asciiUpper ++ row)

/-- Column letters and row digits, without `$`; nothing if the text is no coordinate. -/
def normCoord (U : Unicode) (s : Bytes) : Option Bytes :=
  let s := stripDollar (U.toUpper (trimSpaceBytes s))
  let col := s.takeWhile isUpper
  let row := stripDollar (s.drop col.length)
  if 1 ≤ col.length ∧ col.length ≤ 3 ∧ 1 ≤ row.length ∧ row.length ≤ 7 ∧ row.all isDecimal then some (col ++ row) else none

/-! ## R1C1 references -/

/-- The digits of the base 26 without a zero. -/
def columnLetters : Nat → Nat → Bytes → Bytes
  | 0, _, result => result
  | fuel + 1, n, result =>
    if n = 0 then result else columnLetters fuel ((n - 1) / 26) (UInt8.ofNat (0x41 + (n - 1) % 26) :: result)

/-- Three letters are enough for the last column, `XFD`. -/
def colNumToLetters (n : Int) : Option Bytes :=
  if n < 1 ∨ 16384 < n then none else some (columnLetters 3 n.toNat [])

/-- A match of `reR1C1` at the beginning: the digits of row and column. -/
def r1c1At : Bytes → Option (Bytes × Bytes)
  | 0x52 :: s =>
    let row := s.takeWhile isDecimal
    match s.drop row.length with
    | 0x43 :: s =>
      let col := (s.take 7).takeWhile isDecimal
      if 1 ≤ row.length ∧ row.length ≤ 7 ∧ col ≠ [] then some (row, col) else none
    | _ => none
  | _ => none

def r1c1ToA1 (row col : Bytes) : Option Bytes := do
  let row ← atoi row
  let col ← atoi col
  let letters ← colNumToLetters col
  if row < 1 then none else pure (letters ++ Scan.itoa row)

/-- A match behind a letter, a digit or an underscore, or of no cell, is kept. -/
def r1c1Match : Matcher UInt8 := fun before s =>
  (r1c1At s).map fun (row, col) =>
    let n := row.length + col.length + 2
    (n, if before.any isWord then s.take n else (r1c1ToA1 row col).getD (s.take n))

def replaceR1C1 (s : Bytes) : Bytes := rewrite r1c1Match s

/-! ## Placeholders -/

/-- A match of `reRefPlaceholder` at the beginning: its coordinate. -/
def placeholderAt (s : Bytes) : Option Bytes :=
  if (ascii "[[REF:").isPrefixOf s then
    let s := s.drop 6
    let col := s.takeWhile isUpper
    let row := (s.drop col.length).takeWhile isDecimal
    if col ≠ [] ∧ row ≠ [] ∧ (ascii "]]").isPrefixOf (s.drop (col ++ row).length) then some (col ++ row) else none
  else none

section

-- the values of the cells of the sheet
variable (value : Bytes → Option Bytes)

def placeholderMatch : Matcher UInt8 := fun _ s =>
  (placeholderAt s).map fun coord =>
    let n := coord.length + 8
    (n, ((value coord).map quoteXLMStringLiteral).getD (s.take n))

def resolveRefPlaceholdersQuoted (s : Bytes) : Bytes := rewrite (placeholderMatch value) s

/-! ## Evaluation -/

def maxRefResolvePasses : Nat := 32

def maxResolvedExprLen : Nat := 2 ^ 16

/-- The text after a pass, whether a reference was replaced, and whether the text became too long. -/
structure Pass where
  text : Bytes
  changed : Bool
  capped : Bool
deriving DecidableEq, Repr

/-- The loop over the A1 references, with the text so far.  The set of cells under evaluation is empty whenever a reference
is looked up: a cell is in it only while its value is written. -/
def resolveA1From : Nat → Option UInt8 → Bytes → Bool → Bytes → Pass
  | _, _, b, changed, [] => ⟨b, changed, false⟩
  | skip + 1, _, b, changed, c :: rest => resolveA1From skip (some c) b changed rest
  | 0, before, b, changed, c :: rest =>
    match a1RefAt before (c :: rest) with
    | none => resolveA1From 0 (some c) (b ++ [c]) changed rest
    | some (behind, coord) =>
      let found := (c :: rest).take ((c :: rest).length - behind.length)
      match value coord with
      | none => resolveA1From (found.length - 1) (some c) (b ++ found) changed rest
      | some val =>
        let quoted := quoteXLMStringLiteral val
        if maxResolvedExprLen < b.length + quoted.length + behind.length then ⟨b ++ c :: rest, changed, true⟩
        else resolveA1From (found.length - 1) (some c) (b ++ quoted) true rest

def resolvePass (s : Bytes) : Pass :=
  resolveA1From value 0 none [] false (resolveRefPlaceholdersQuoted value (replaceR1C1 s))

/-- At most `n` passes. -/
def resolveRefs : Nat → Bytes → Bytes
  | 0, s => s
  | n + 1, s =>
    let pass := resolvePass value s
    if !pass.changed || pass.capped then pass.text else resolveRefs n pass.text

/-- `strings.TrimPrefix(s, "=")` is what `stripEquals` does. -/
def evalExpr (U : Unicode) (formula : Bytes) : Go Bytes := do
  let s := resolveRefs value maxRefResolvePasses formula
  let folded ← foldXLMFormula U s
  if folded ≠ [] ∧ !contains (U.toUpper folded) (ascii "MID(") then pure folded
  else do
    let (embedded, changed) ← foldEmbeddedMIDCalls U s
    pure (if changed then stripEquals embedded else folded)

end

end MS.Xlm
