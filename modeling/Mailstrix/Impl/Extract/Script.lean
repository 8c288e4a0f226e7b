import Mailstrix.Framework.Bytes

/-!
# Encoded scripts

`script.go`: the substitution that `screnc` applies to a script, and its inverse, byte by byte.
-/

namespace MS.Extract

open Framework

def maxDecodedScript : Nat := 4 * 2 ^ 20

/-- `decChar`: a row for each byte below 128, a column for each pick. -/
def decTable : List (UInt8 × UInt8 × UInt8) :=
  [ (0x00, 0x00, 0x00), (0x00, 0x00, 0x00), (0x00, 0x00, 0x00), (0x00, 0x00, 0x00),
    (0x00, 0x00, 0x00), (0x00, 0x00, 0x00), (0x00, 0x00, 0x00), (0x00, 0x00, 0x00),
    (0x00, 0x00, 0x00), (0x57, 0x6e, 0x7b), (0x4a, 0x4c, 0x41), (0x0b, 0x0b, 0x0b),
    (0x0c, 0x0c, 0x0c), (0x4a, 0x4c, 0x41), (0x0e, 0x0e, 0x0e), (0x0f, 0x0f, 0x0f),
    (0x10, 0x10, 0x10), (0x11, 0x11, 0x11), (0x12, 0x12, 0x12), (0x13, 0x13, 0x13),
    (0x14, 0x14, 0x14), (0x15, 0x15, 0x15), (0x16, 0x16, 0x16), (0x17, 0x17, 0x17),
    (0x18, 0x18, 0x18), (0x19, 0x19, 0x19), (0x1a, 0x1a, 0x1a), (0x1b, 0x1b, 0x1b),
    (0x1c, 0x1c, 0x1c), (0x1d, 0x1d, 0x1d), (0x1e, 0x1e, 0x1e), (0x1f, 0x1f, 0x1f),
    (0x2e, 0x2d, 0x32), (0x47, 0x75, 0x30), (0x7a, 0x52, 0x21), (0x56, 0x60, 0x29),
    (0x42, 0x71, 0x5b), (0x6a, 0x5e, 0x38), (0x2f, 0x49, 0x33), (0x26, 0x5c, 0x3d),
    (0x49, 0x62, 0x58), (0x41, 0x7d, 0x3a), (0x34, 0x29, 0x35), (0x32, 0x36, 0x65),
    (0x5b, 0x20, 0x39), (0x76, 0x7c, 0x5c), (0x72, 0x7a, 0x56), (0x43, 0x7f, 0x73),
    (0x38, 0x6b, 0x66), (0x39, 0x63, 0x4e), (0x70, 0x33, 0x45), (0x45, 0x2b, 0x6b),
    (0x68, 0x68, 0x62), (0x71, 0x51, 0x59), (0x4f, 0x66, 0x78), (0x09, 0x76, 0x5e),
    (0x62, 0x31, 0x7d), (0x44, 0x64, 0x4a), (0x23, 0x54, 0x6d), (0x75, 0x43, 0x71),
    (0x4a, 0x4c, 0x41), (0x7e, 0x3a, 0x60), (0x4a, 0x4c, 0x41), (0x5e, 0x7e, 0x53),
    (0x40, 0x4c, 0x40), (0x77, 0x45, 0x42), (0x4a, 0x2c, 0x27), (0x61, 0x2a, 0x48),
    (0x5d, 0x74, 0x72), (0x22, 0x27, 0x75), (0x4b, 0x37, 0x31), (0x6f, 0x44, 0x37),
    (0x4e, 0x79, 0x4d), (0x3b, 0x59, 0x52), (0x4c, 0x2f, 0x22), (0x50, 0x6f, 0x54),
    (0x67, 0x26, 0x6a), (0x2a, 0x72, 0x47), (0x7d, 0x6a, 0x64), (0x74, 0x39, 0x2d),
    (0x54, 0x7b, 0x20), (0x2b, 0x3f, 0x7f), (0x2d, 0x38, 0x2e), (0x2c, 0x77, 0x4c),
    (0x30, 0x67, 0x5d), (0x6e, 0x53, 0x7e), (0x6b, 0x47, 0x6c), (0x66, 0x34, 0x6f),
    (0x35, 0x78, 0x79), (0x25, 0x5d, 0x74), (0x21, 0x30, 0x43), (0x64, 0x23, 0x26),
    (0x4d, 0x5a, 0x76), (0x52, 0x5b, 0x25), (0x63, 0x6c, 0x24), (0x3f, 0x48, 0x2b),
    (0x7b, 0x55, 0x28), (0x78, 0x70, 0x23), (0x29, 0x69, 0x41), (0x28, 0x2e, 0x34),
    (0x73, 0x4c, 0x09), (0x59, 0x21, 0x2a), (0x33, 0x24, 0x44), (0x7f, 0x4e, 0x3f),
    (0x6d, 0x50, 0x77), (0x55, 0x09, 0x3b), (0x53, 0x56, 0x55), (0x7c, 0x73, 0x69),
    (0x3a, 0x35, 0x61), (0x5f, 0x61, 0x63), (0x65, 0x4b, 0x50), (0x46, 0x58, 0x67),
    (0x58, 0x3b, 0x51), (0x31, 0x57, 0x49), (0x69, 0x22, 0x4f), (0x6c, 0x6d, 0x46),
    (0x5a, 0x4d, 0x68), (0x48, 0x25, 0x7c), (0x27, 0x28, 0x36), (0x5c, 0x46, 0x70),
    (0x3d, 0x4a, 0x6e), (0x24, 0x32, 0x7a), (0x79, 0x41, 0x2f), (0x37, 0x3d, 0x5f),
    (0x60, 0x5f, 0x4b), (0x51, 0x4f, 0x5a), (0x20, 0x42, 0x2c), (0x36, 0x65, 0x57) ]

def decChar (c : UInt8) (pick : Nat) : UInt8 :=
  let row := decTable.getD c.toNat (0, 0, 0)
  match pick with
  | 0 => row.1
  | 1 => row.2.1
  | _ => row.2.2

def combination : List Nat :=
  [ 0, 1, 2, 0, 1, 2, 1, 2, 2, 1, 2, 1, 0, 2, 1, 2,
    0, 2, 1, 2, 0, 0, 1, 2, 2, 1, 0, 2, 1, 2, 2, 1,
    0, 0, 2, 1, 2, 1, 2, 0, 2, 0, 0, 1, 2, 0, 2, 1,
    0, 2, 1, 2, 0, 0, 1, 2, 2, 0, 0, 1, 2, 0, 2, 1 ]

/-- The column for the byte that the counter stands at. -/
def pickAt (index : Nat) : Nat := combination.getD (index % 64) 0

/-- Tab and the printable bytes, but for `<`, `>` and `@`. -/
def substituted (c : UInt8) : Bool :=
  (c == 9 || (32 ≤ c && c ≤ 127)) && c != 60 && c != 62 && c != 64

/-- What the byte behind an `@` stands for; an unknown one is dropped. -/
def escapeOf (e : UInt8) : Bytes :=
  if e = 0x26 then [0x0a]
  else if e = 0x23 then [0x0d]
  else if e = 0x2a then [0x3e]
  else if e = 0x21 then [0x3c]
  else if e = 0x24 then [0x40]
  else []

/-- One byte that starts no escape, with the counter at `index`. -/
def decodeByte (index : Nat) (c : UInt8) : UInt8 :=
  if c < 128 then
    if substituted c then decChar c (pickAt index) else c
  else c

/-- The counter behind that byte: only bytes below 128 advance it. -/
def advance (index : Nat) (c : UInt8) : Nat := if c < 128 then index + 1 else index

/-- The loop of `decodeScript`: what is left, the counter, what was written.  Behind an escape neither the counter
advances nor the cap is tested. -/
def decodeLoop : Bytes → Nat → Bytes → Bytes
  | [], _, out => out
  | [c], index, out => out ++ [decodeByte index c]
  | c :: e :: rest, index, out =>
    if c = 0x40 then decodeLoop rest index (out ++ escapeOf e)
    else
      let out := out ++ [decodeByte index c]
      if maxDecodedScript ≤ out.length then out else decodeLoop (e :: rest) (advance index c) out

def decodeScript (enc : Bytes) : Bytes := decodeLoop enc 0 []

end MS.Extract
