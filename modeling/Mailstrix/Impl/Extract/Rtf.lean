import Mailstrix.Impl.Scan.Meta

/-!
# The objects of an RTF document

`rtf.go`: the hexadecimal run behind an `\objdata` control word, among groups and control words that carry no data.
-/

namespace MS.Extract

open Framework
open Scan (ascii atoi)

def maxBytesPerRTFObject : Nat := 16 * 2 ^ 20

/-- The length of `skipStack`. -/
def maxSkipStack : Nat := 64

def rtfJunkDests : List Bytes :=
  [ascii "blipuid", ascii "nonshppict", ascii "objclass", ascii "objtime", ascii "oleclsid", ascii "themedata",
    ascii "colorschememapping", ascii "datastore", ascii "latentstyles", ascii "pntext", ascii "xmlnstbl"]

def isBlank (c : UInt8) : Bool := c == 0x20 || c == 0x09 || c == 0x0d || c == 0x0a

def isLower (c : UInt8) : Bool := 0x61 ≤ c && c ≤ 0x7a

def isDecimal (c : UInt8) : Bool := 0x30 ≤ c && c ≤ 0x39

def nibbleOf (c : UInt8) : Option UInt8 :=
  if 0x30 ≤ c ∧ c ≤ 0x39 then some (c - 0x30)
  else if 0x61 ≤ c ∧ c ≤ 0x66 then some (c - 0x61 + 10)
  else if 0x41 ≤ c ∧ c ≤ 0x46 then some (c - 0x41 + 10)
  else none

def rtfHexNibble (b : Bytes) : Option UInt8 := b.head?.bind nibbleOf

/-- Whether the group whose brace is before `b` is to be skipped. -/
def rtfPeekSkipGroup (b : Bytes) : Bool :=
  match b.dropWhile isBlank with
  | 0x5c :: 0x2a :: _ => true
  | 0x5c :: rest => rtfJunkDests.contains (rest.takeWhile isLower)
  | _ => false

/-- The variables of the loop of `decodeRTFHex`; the innermost group is the head of `skipStack`. -/
structure HexState where
  out : Bytes := []
  hi : Option UInt8 := none
  skipStack : List Bool := []
  overflow : Nat := 0
deriving DecidableEq

/-- A round of the loop: the end of it, or how many bytes behind the first one it consumed. -/
inductive HexTurn
  | done (out : Bytes)
  | next (st : HexState) (consumed : Nat)
deriving DecidableEq

def HexState.inSkipGroup (st : HexState) : Bool := decide (0 < st.overflow) || st.skipStack.headD false

/-- A byte was appended to `out`. -/
def HexState.appended (st : HexState) (out : Bytes) (consumed : Nat) : HexTurn :=
  if maxBytesPerRTFObject ≤ out.length then .done out else .next { st with out := out, hi := none } consumed

/-- How much `\binN` takes, behind its backslash; `none` if there is no `N`. -/
def binLength (b : Bytes) : Option Nat :=
  if (ascii "bin").isPrefixOf b then
    let digits := (b.drop 3).takeWhile isDecimal
    if digits = [] then none
    else
      let j := 3 + digits.length
      let j := if (b.drop j).head? = some 0x20 then j + 1 else j
      match atoi digits with
      | none => some b.length
      | some n => some (if n < 0 ∨ n > b.length - j then b.length else j + n.toNat)
  else none

/-- How much a control word or a control symbol takes, behind its backslash. -/
def controlLength (b : Bytes) : Nat :=
  let word := (b.takeWhile isLower).length
  if word = 0 then 1
  else
    let number := match b.drop word with
      | c :: digits => if c = 0x2d ∨ isDecimal c then 1 + (digits.takeWhile isDecimal).length else 0
      | [] => 0
    let delimiter := if (b.drop (word + number)).head? = some 0x20 then 1 else 0
    word + number + delimiter

/-- `\'HH`, from behind the apostrophe on: one byte, with the nibble that is pending written before it. -/
def escapedByte (st : HexState) (b : Bytes) : HexTurn :=
  match rtfHexNibble b with
  | none => .next st 1
  | some h₁ =>
    let out := st.out ++ st.hi.toList
    match rtfHexNibble (b.drop 1) with
    | some h₂ => st.appended (out ++ [h₁ <<< 4 ||| h₂]) 3
    | none => st.appended (out ++ [h₁]) 2

/-- Behind a backslash. -/
def control (st : HexState) (b : Bytes) : HexTurn :=
  match b with
  | [] => .done st.out
  | c :: rest =>
    match binLength b with
    | some n => .next st n
    | none => if c = 0x27 then escapedByte st rest else .next st (controlLength b)

/-- A round at the byte `c`, with `rest` behind it. -/
def hexTurn (st : HexState) (c : UInt8) (rest : Bytes) : HexTurn :=
  if c = 0x7b then
    if maxSkipStack ≤ st.skipStack.length then .next { st with overflow := st.overflow + 1 } 0
    else .next { st with skipStack := rtfPeekSkipGroup rest :: st.skipStack } 0
  else if c = 0x7d then
    if 0 < st.overflow then .next { st with overflow := st.overflow - 1 } 0
    else match st.skipStack with
      | [] => .done st.out
      | _ :: outer => .next { st with skipStack := outer } 0
  else if st.inSkipGroup then .next st 0
  else if c = 0x5c then control st rest
  else if isBlank c then .next st 0
  else match nibbleOf c with
    | none => .done st.out
    | some nibble =>
      match st.hi with
      | none => .next { st with hi := some nibble } 0
      | some hi => st.appended (st.out ++ [hi <<< 4 ||| nibble]) 0

def decodeHexFrom (st : HexState) : Bytes → Bytes
  | [] => st.out
  | c :: rest =>
    match hexTurn st c rest with
    | .done out => out
    | .next st consumed => decodeHexFrom st (rest.drop consumed)
termination_by b => b.length

def decodeRTFHex (b : Bytes) : Bytes := decodeHexFrom {} b

end MS.Extract
