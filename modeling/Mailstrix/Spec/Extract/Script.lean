import Mailstrix.Impl.Extract.Script

/-!
# The reference decoding of encoded scripts

`decode-vbe.py`, in two passes: the escapes are replaced, then the result is walked with a counter that
advances for every byte below 128, whether it stood in the text or was put there by the first pass.
-/

namespace MS.Extract.Reference

open Framework

/-- The bytes that may follow an `@`, with what the pair stands for. -/
def escapes : List (UInt8 × UInt8) := [(0x26, 0x0a), (0x23, 0x0d), (0x2a, 0x3e), (0x21, 0x3c), (0x24, 0x40)]

def replaceEscapes : Bytes → Bytes
  | [] => []
  | [c] => [c]
  | c :: e :: rest =>
    match escapes.lookup e with
    | some r => if c = 0x40 then r :: replaceEscapes rest else c :: replaceEscapes (e :: rest)
    | none => c :: replaceEscapes (e :: rest)

def walk : Nat → Bytes → Bytes
  | _, [] => []
  | index, c :: rest =>
    (if substituted c then decChar c (pickAt index) else c) :: walk (if c < 128 then index + 1 else index) rest

def decode (enc : Bytes) : Bytes := walk 0 (replaceEscapes enc)

/-- Every `@` starts one of the escapes. -/
def Escaped (enc : Bytes) : Prop :=
  ∀ before behind, enc = before ++ 0x40 :: behind → ∃ e ∈ escapes, behind.head? = some e.1

end MS.Extract.Reference
