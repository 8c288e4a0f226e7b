import Mailstrix.Impl.Extract.Pdf.Filters
import Mailstrix.Spec.Extract.Rtf

/-!
# Armoured texts

How bytes are written as text for the two filters, with whitespace anywhere between the digits.
-/

namespace MS.Extract

open Framework
open Scan (ascii)

/-- A text without its whitespace. -/
def digitsOf (text : Bytes) : Bytes := text.filter fun c => !isPDFWS c

/-- Hexadecimal text in any case, closed by `>`. -/
structure HexText (x : Bytes) where
  body : Bytes
  behind : Bytes
  spells : (digitsOf body).map nibbleOf = (nibbles x).map some

def HexText.text {x : Bytes} (t : HexText x) : Bytes := t.body ++ 0x3e :: t.behind

/-- The standard Ascii85 encoding, with or without the marks at both ends. -/
structure A85Text (x : Bytes) where
  before : Bytes
  opened : Bool
  body : Bytes
  closed : Option Bytes
  blank : ∀ c ∈ before, isPDFWS c = true
  spells : digitsOf body = Ascii85.encode x

namespace A85Text

variable {x : Bytes}

def text (t : A85Text x) : Bytes :=
  t.before ++ ((if t.opened then ascii "<~" else []) ++ (t.body ++ (t.closed.map (ascii "~>" ++ ·)).getD []))

/-- The length of the text from its mark, or from its first digit, to its end. -/
def span (t : A85Text x) : Nat := if t.opened then t.body.length else (t.body.dropWhile isPDFWS).length

end A85Text

/-- Bytes written for a filter. -/
inductive Armour (x : Bytes)
  | hex (name : Bytes) (t : HexText x) (h : name = ascii "ASCIIHexDecode" ∨ name = ascii "AHx")
  | a85 (name : Bytes) (t : A85Text x) (h : name = ascii "ASCII85Decode" ∨ name = ascii "A85")

namespace Armour

variable {x : Bytes}

def name : Armour x → Bytes
  | hex name _ _ => name
  | a85 name _ _ => name

def text : Armour x → Bytes
  | hex _ t _ => t.text
  | a85 _ t _ => t.text

/-- How many bytes the text may stand for: for Ascii85 four for five characters, and eight more. -/
def room : Armour x → Nat
  | hex _ _ _ => maxBytesPerPDFStream
  | a85 _ t _ => min (t.span / 5 * 4 + 8) maxBytesPerPDFStream

def Fits (a : Armour x) : Prop := x.length ≤ a.room

end Armour

/-- Bytes written for the filters of a chain, the last one first. -/
inductive Chain (x : Bytes) : List Bytes → Bytes → Type
  | nil : Chain x [] x
  | cons {filters : List Bytes} {y : Bytes} (a : Armour y) (c : Chain x filters y) : Chain x (a.name :: filters) a.text

def Chain.Fits {x : Bytes} : ∀ {filters : List Bytes} {text : Bytes}, Chain x filters text → Prop
  | _, _, .nil => True
  | _, _, .cons a c => a.Fits ∧ c.Fits

end MS.Extract
