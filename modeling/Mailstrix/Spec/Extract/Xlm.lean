import Mailstrix.Impl.Scan.Meta

/-!
# Constant macro formulas

What a constant formula of a macro sheet stands for: literals, `CHAR` of a printable character, concatenation and `MID`,
with the text it is written as (`Expr.print`) and the text it evaluates to (`Expr.value`).
-/

namespace MS.Xlm

open Framework
open Scan (ascii)

/-- A text in UTF-8. -/
def utf8 (text : List Char) : Bytes := encodeRunes (text.map Char.toNat)

abbrev Printable := { n : Nat // 0x20 ≤ n ∧ n ≤ 0x7e }

inductive Expr
  | lit (text : List Char)
  | char (n : Printable)
  | concat (a b : Expr)
  | mid (text : Expr) (start : ℕ+) (count : Nat)
deriving DecidableEq

namespace Expr

def value : Expr → List Char
  | lit text => text
  | char n => [Char.ofNat n]
  | concat a b => a.value ++ b.value
  | mid text start count => (text.value.drop (start - 1)).take count

/-- A text with its quotes doubled. -/
def doubled (text : List Char) : List Char := text.flatMap fun c => if c = '"' then ['"', '"'] else [c]

/-- What stands between `MID(` and the closing parenthesis. -/
def printArgs (text : Bytes) (start : ℕ+) (count : Nat) : Bytes :=
  text ++ 0x2c :: numeral 10 start ++ 0x2c :: numeral 10 count

def print : Expr → Bytes
  | lit text => 0x22 :: utf8 (doubled text) ++ [0x22]
  | char n => ascii "CHAR(" ++ numeral 10 n ++ ascii ")"
  | concat a b => a.print ++ 0x26 :: b.print
  | mid text start count => ascii "MID(" ++ printArgs text.print start count ++ ascii ")"

/-- How many calls of `MID` are nested. -/
def nesting : Expr → Nat
  | lit _ => 0
  | char _ => 0
  | concat a b => max a.nesting b.nesting
  | mid text _ _ => text.nesting + 1

/-- The expression and all it is built from. -/
def subterms : Expr → List Expr
  | lit text => [lit text]
  | char n => [char n]
  | concat a b => concat a b :: (a.subterms ++ b.subterms)
  | mid text start count => mid text start count :: text.subterms

end Expr

end MS.Xlm
