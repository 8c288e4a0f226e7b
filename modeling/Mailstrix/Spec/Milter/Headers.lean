import Mailstrix.Framework.Removal
import Mailstrix.Impl.Milter.Session

/-!
# The headers of a delivered message

What the MTA makes of the header operations that a milter issues, and what the two functions from outside do to a header
name of token characters.
-/

namespace MS.Milter

open Framework
open Scan (ascii)

abbrev Header := Bytes × Bytes

def asciiLower (c : UInt8) : UInt8 := if 0x41 ≤ c ∧ c ≤ 0x5a then c + 0x20 else c

def asciiUpper (c : UInt8) : UInt8 := if 0x61 ≤ c ∧ c ≤ 0x7a then c - 0x20 else c

/-- Two names, ignoring the case of ASCII letters. -/
def sameName (a b : Bytes) : Bool := a.map asciiLower == b.map asciiLower

/-- A name that begins with `X-Mailstrix-`, in any spelling. -/
def verdictName (name : Bytes) : Bool := (headerPrefix.map asciiLower).isPrefixOf (name.map asciiLower)

/-- A character of a header name that can be canonicalised. -/
def isTokenByte (c : UInt8) : Bool :=
  (0x30 ≤ c && c ≤ 0x39) || (0x41 ≤ c && c ≤ 0x5a) || (0x61 ≤ c && c ≤ 0x7a) || (ascii "!#$%&'*+-.^_`|~").contains c

/-- The first letter and each one behind a hyphen in upper case, the others in lower case. -/
def canonicalFrom (upper : Bool) : Bytes → Bytes
  | [] => []
  | c :: rest => (if upper then asciiUpper c else asciiLower c) :: canonicalFrom (c == 0x2d) rest

/-- `textproto.CanonicalMIMEHeaderKey` of a name of token characters, and `unicode.ToLower` of ASCII. -/
structure Env.Textual (env : Env) : Prop where
  canonical : ∀ name : Bytes, (∀ c ∈ name, isTokenByte c) → env.canonical name = canonicalFrom true name
  lower : ∀ c : UInt8, c < 0x80 → env.lower c.toNat = (asciiLower c).toNat

/-- `ChangeHeader` with an empty value: the header with that number, from one, among those of the name is deleted. -/
def deleteHeader (headers : List Header) (op : Nat × Bytes) : List Header :=
  removeNth (fun h => sameName op.2 h.1) (op.1 - 1) headers

/-- The headers of a message behind the operations that its end issued. -/
def deliver (headers : List Header) (o : Outcome) : List Header := o.strips.foldl deleteHeader headers ++ o.stamps

end MS.Milter
