import Mailstrix.Framework.Bytes

/-!
# The dictionaries of LZMA and LZMA2 members

`lzmacap.go` and `lzma2cap.go`: the dictionary that a member of an archive asks for, and the one it is decoded with.
-/

namespace MS.Extract

open Framework

inductive LzmaError
  /-- `errLZMADictCap` -/
  | dictCap
  /-- `lzma: invalid properties length %d` -/
  | invalidLength (n : Nat)
  /-- `lzma2: invalid properties` -/
  | invalidProps
  /-- `lzma2: not enough properties` -/
  | missingProps
deriving DecidableEq, Repr

def lzmaDictCeiling : Nat := 8 * 2 ^ 20

def lzma2DictCeiling : Nat := 64 * 2 ^ 20

/-- What is taken from the decoding library: its smallest dictionary, `lzma.MinDictCap`. -/
structure LzmaLibrary where
  minDictCap : Nat
  min_le : minDictCap ≤ lzmaDictCeiling

/-- `binary.LittleEndian.Uint32`. -/
def uint32 (b : Bytes) : Nat := (b.take 4).foldr (fun c n => c.toNat + 256 * n) 0

/-- `binary.LittleEndian.PutUint32`. -/
def putUint32 (b : Bytes) (n : Nat) : Bytes := (bigEndian 4 n).reverse ++ b.drop 4

def boundedLZMADict (lib : LzmaLibrary) (props : Bytes) (unpack : UInt64) : Except LzmaError Bytes :=
  if props.length ≠ 5 then .error (.invalidLength props.length)
  else
    let declared := uint32 (props.drop 1)
    let eff := if unpack.toNat < declared then unpack.toNat else declared
    let eff := if eff < lib.minDictCap then lib.minDictCap else eff
    if lzmaDictCeiling < eff then .error .dictCap
    else if lzmaDictCeiling < declared then .ok (props.take 1 ++ putUint32 (props.drop 1) lzmaDictCeiling)
    else .ok props

def lzma2DictSize (p : UInt8) : Except LzmaError Nat :=
  if 40 < p then .error .invalidProps
  else if p = 40 then .ok 0xffffffff
  else .ok ((2 ||| p &&& 1).toNat <<< (p.toNat / 2 + 11))

def boundedLZMA2Dict (lib : LzmaLibrary) (props : Bytes) (unpack : UInt64) : Except LzmaError Nat :=
  match props with
  | [p] =>
    match lzma2DictSize p with
    | .error e => .error e
    | .ok declared =>
      let eff := if unpack.toNat < declared then unpack.toNat else declared
      let eff := if eff < lib.minDictCap then lib.minDictCap else eff
      if lzma2DictCeiling < eff then .error .dictCap else .ok eff
  | _ => .error .missingProps

end MS.Extract
