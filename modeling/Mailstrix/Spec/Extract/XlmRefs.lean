import Mailstrix.Impl.Extract.Xlm.Refs

/-!
# Formulas with references

Concatenations of quoted texts and references to cells.  A reference is written in A1 notation, each of its halves with or
without a `$`, or in R1C1 notation.
-/

namespace MS.Xlm

open Framework
open Extract (isAlpha isDecimal)

/-- The cells that have a value, with their values. -/
abbrev Grid := List (Bytes × Bytes)

/-- `getCellValue`: an empty value is none. -/
def Grid.value (U : Unicode) (g : Grid) (coord : Bytes) : Option Bytes :=
  (normCoord U coord).bind fun coord => (g.lookup coord).filter (· ≠ [])

structure A1Ref where
  colDollar : Bool
  col : Bytes
  rowDollar : Bool
  row : Bytes
  col_alpha : ∀ c ∈ col, isAlpha c = true
  col_length : 1 ≤ col.length ∧ col.length ≤ 3
  row_decimal : ∀ c ∈ row, isDecimal c = true
  row_length : 1 ≤ row.length ∧ row.length ≤ 7

namespace A1Ref

def coord (r : A1Ref) : Bytes := r.col.map asciiUpper ++ r.row

def print (r : A1Ref) : Bytes :=
  (if r.colDollar then [0x24] else []) ++ r.col ++ (if r.rowDollar then [0x24] else []) ++ r.row

end A1Ref

structure R1C1Ref where
  row : Nat
  col : Nat
  row_range : 1 ≤ row ∧ row ≤ 9999999
  col_range : 1 ≤ col ∧ col ≤ 16384

namespace R1C1Ref

def coord (r : R1C1Ref) : Bytes := columnLetters 3 r.col [] ++ numeral 10 r.row

def print (r : R1C1Ref) : Bytes := 0x52 :: numeral 10 r.row ++ 0x43 :: numeral 10 r.col

end R1C1Ref

inductive Item
  | text (t : Bytes)
  | a1 (r : A1Ref)
  | r1c1 (r : R1C1Ref)

namespace Item

def print : Item → Bytes
  | text t => quoteXLMStringLiteral t
  | a1 r => r.print
  | r1c1 r => r.print

/-- The item's text; a reference to a cell without a value has none. -/
def value (U : Unicode) (g : Grid) : Item → Option Bytes
  | text t => some t
  | a1 r => g.value U r.coord
  | r1c1 r => g.value U r.coord

end Item

/-- The parts of a concatenation. -/
def joinConcat : List Bytes → Bytes
  | [] => []
  | [p] => p
  | p :: q :: ps => p ++ 0x26 :: joinConcat (q :: ps)

def printItems (items : List Item) : Bytes := joinConcat (items.map Item.print)

end MS.Xlm
