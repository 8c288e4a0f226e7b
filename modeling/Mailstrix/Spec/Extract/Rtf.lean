import Mailstrix.Impl.Extract.Rtf

/-!
# Obfuscated objects

The hexadecimal digits of an object with noise among them: white space, control words, and groups that a reader is to
ignore.  What is inside a group is a text of any nesting; its `Shape` says how its groups are nested and which of them
are ignorable themselves.
-/

namespace MS.Extract

open Framework
open Scan (ascii)

/-- What is between two braces: a text, or a text, a group and what follows the group. -/
inductive Content
  | text (raw : Bytes)
  | group (raw : Bytes) (inner rest : Content)

namespace Content

def bytes : Content → Bytes
  | text raw => raw
  | group raw inner rest => raw ++ 0x7b :: (inner.bytes ++ 0x7d :: rest.bytes)

/-- The text up to the first brace. -/
def opening : Content → Bytes
  | text raw => raw
  | group raw _ _ => raw

end Content

/-- A group is ignorable if it is opened by `\*` or by a junk destination, behind white space. -/
def Ignorable (opening : Bytes) : Prop :=
  ∃ blanks rest, (∀ c ∈ blanks, isBlank c) ∧
    (opening = blanks ++ 0x5c :: 0x2a :: rest ∨
      ∃ dest ∈ rtfJunkDests, opening = blanks ++ 0x5c :: (dest ++ rest) ∧ ∀ c ∈ rest.head?, isLower c = false)

/-- A text within a group: it has no brace, no backslash that escapes the brace behind it, and no `\bin`. -/
structure Unbraced (raw : Bytes) : Prop where
  brace : ∀ c ∈ raw, c ≠ 0x7b ∧ c ≠ 0x7d
  escape : (raw.reverse.takeWhile (· == 0x5c)).length % 2 = 0
  bin : ∀ front rest, raw = front ++ 0x5c :: (ascii "bin" ++ rest) → ∃ c ∈ rest.head?, isLower c

def Content.Unbraced : Content → Prop
  | .text raw => MS.Extract.Unbraced raw
  | .group raw inner rest => MS.Extract.Unbraced raw ∧ inner.Unbraced ∧ rest.Unbraced

/-- The groups of a content: whether the first one is ignorable, what it holds, and those behind it. -/
inductive Shape
  | flat
  | nest (ignorable : Bool) (inner rest : Shape)
deriving DecidableEq

open Classical in
noncomputable def Content.shape : Content → Shape
  | .text _ => .flat
  | .group _ inner rest => .nest (decide (Ignorable inner.opening)) inner.shape rest.shape

namespace Shape

def depth : Shape → Nat
  | flat => 0
  | nest _ inner rest => max (inner.depth + 1) rest.depth

/-- Every group is ignorable. -/
def Covered : Shape → Prop
  | flat => True
  | nest ignorable inner rest => ignorable = true ∧ inner.Covered ∧ rest.Covered

end Shape

/-- The parameter of a control word. -/
def Parameter (p : Bytes) : Prop :=
  p = [] ∨ ∃ c digits, p = c :: digits ∧ (c = 0x2d ∨ isDecimal c) ∧ ∀ d ∈ digits, isDecimal d

inductive Noise
  | blank (c : UInt8)
  | word (letters parameter : Bytes)
  | group (content : Content)

namespace Noise

def bytes : Noise → Bytes
  | blank c => [c]
  | word letters parameter => 0x5c :: (letters ++ (parameter ++ [0x20]))
  | group content => 0x7b :: (content.bytes ++ [0x7d])

/-- Noise whose groups have one of the shapes `allowed`, none of them nested deeper than the stack. -/
def Within (allowed : Shape → Prop) : Noise → Prop
  | blank c => isBlank c
  | word letters parameter => letters ≠ [] ∧ (∀ c ∈ letters, isLower c) ∧ letters ≠ ascii "bin" ∧ Parameter parameter
  | group content =>
    Ignorable content.opening ∧ content.Unbraced ∧ content.shape.depth < maxSkipStack ∧ allowed content.shape

end Noise

def noiseText (noise : List Noise) : Bytes := noise.flatMap Noise.bytes

/-- Hexadecimal digits, with noise before the first and behind each of them. -/
structure Obfuscated where
  lead : List Noise
  digits : List (UInt8 × List Noise)

/-- The two halves of each byte. -/
def nibbles (object : Bytes) : Bytes := object.flatMap fun x : UInt8 => [x >>> 4, x &&& 0x0f]

namespace Obfuscated

def digitsText (digits : List (UInt8 × List Noise)) : Bytes := digits.flatMap fun d => d.1 :: noiseText d.2

def text (o : Obfuscated) : Bytes := noiseText o.lead ++ digitsText o.digits

/-- The digits, in either case, are those of `object`. -/
def Spells (o : Obfuscated) (object : Bytes) : Prop :=
  o.digits.map (fun d => nibbleOf d.1) = (nibbles object).map some

def Within (o : Obfuscated) (allowed : Shape → Prop) : Prop :=
  (∀ n ∈ o.lead, n.Within allowed) ∧ ∀ d ∈ o.digits, ∀ n ∈ d.2, n.Within allowed

end Obfuscated

end MS.Extract
