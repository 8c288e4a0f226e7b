import Mailstrix.Impl.Extract.Mime

/-!
# Folding of macro formulas

`xlm_fold.go` and `stripOuterQuotes` of `xlm_interp.go`: the constant folding of the text of an Excel 4.0 macro formula.
The table of upper-case letters comes from outside.  A slice with bounds out of range panics; integers are those of a
64-bit machine.
-/

namespace MS.Xlm

open Framework
open Scan (ascii atoi)
open Extract (index trimSpaceBytes)

/-! ## Strings -/

inductive Panic
  | bounds
deriving DecidableEq, Repr

abbrev Go := Except Panic

/-- `unicode.ToUpper`. -/
structure Unicode where
  upper : Nat → Nat
  upper_ascii : ∀ r < 0x80, upper r = if 0x61 ≤ r ∧ r ≤ 0x7a then r - 0x20 else r

/-- `strings.ToUpper`. -/
def Unicode.toUpper (U : Unicode) (s : Bytes) : Bytes := encodeRunes ((runes s).map U.upper)

def slice {α : Type} (s : List α) (i j : Int) : Go (List α) :=
  if 0 ≤ i ∧ i ≤ j ∧ j ≤ s.length then .ok ((s.take j.toNat).drop i.toNat) else .error .bounds

/-- What a sum of two `int` values is. -/
def wrap (n : Int) : Int := n.bmod (2 ^ 64)

def indexByte (s : Bytes) (c : UInt8) : Option Nat := s.findIdx? (· == c)

def lastIndexByte (s : Bytes) (c : UInt8) : Option Nat := (s.reverse.findIdx? (· == c)).map (s.length - 1 - ·)

def contains (s pattern : Bytes) : Bool := (index pattern s).isSome

/-- `unicode.IsPrint`, on ASCII. -/
def isPrint (r : Int) : Bool := 0x20 ≤ r && r ≤ 0x7e

/-- Every `""` replaced by `"`. -/
def undouble : Bytes → Bytes
  | 0x22 :: 0x22 :: rest => 0x22 :: undouble rest
  | c :: rest => c :: undouble rest
  | [] => []

/-- Every `"` replaced by `""`. -/
def double (s : Bytes) : Bytes := s.flatMap fun c => if c = 0x22 then [0x22, 0x22] else [c]

def quoteXLMStringLiteral (s : Bytes) : Bytes := 0x22 :: double s ++ [0x22]

/-- The text of a quoted literal. -/
def literalText (trimmed : Bytes) : Option Bytes :=
  if 2 ≤ trimmed.length ∧ trimmed.head? = some 0x22 ∧ trimmed.getLast? = some 0x22 then
    some (undouble (trimmed.drop 1).dropLast)
  else none

def stripOuterQuotes (s : Bytes) : Bytes := (literalText (trimSpaceBytes s)).getD s

/-! ## Splitting -/

/-- The loop of `splitOnConcat` and `splitTopLevelArgs`, which split at the `sep` of the top level: whether it is in a
literal, how many parentheses are open, the part so far. -/
def splitTopLevel (sep : UInt8) : Bool → Nat → Bytes → Bytes → List Bytes
  | _, _, cur, [] => [cur]
  | true, depth, cur, 0x22 :: 0x22 :: rest => splitTopLevel sep true depth (cur ++ [0x22, 0x22]) rest
  | inQuote, depth, cur, ch :: rest =>
    if ch = 0x22 then splitTopLevel sep (!inQuote) depth (cur ++ [ch]) rest
    else if inQuote then splitTopLevel sep inQuote depth (cur ++ [ch]) rest
    else if ch = 0x28 then splitTopLevel sep inQuote (depth + 1) (cur ++ [ch]) rest
    else if ch = 0x29 then splitTopLevel sep inQuote (depth - 1) (cur ++ [ch]) rest
    else if ch = sep ∧ depth = 0 then cur :: splitTopLevel sep inQuote depth [] rest
    else splitTopLevel sep inQuote depth (cur ++ [ch]) rest

/-- An empty part at the end is not one. -/
def splitOnConcat (s : Bytes) : List Bytes :=
  let parts := splitTopLevel 0x26 false 0 [] s
  if parts.getLast? = some [] then parts.dropLast else parts

def splitTopLevelArgs (s : Bytes) : List Bytes := (splitTopLevel 0x2c false 0 [] s).map trimSpaceBytes

/-- The loop of `findMatchingParen`, at the index `i`. -/
def matchingParenFrom : Bool → Int → Nat → Bytes → Option Nat
  | _, _, _, [] => none
  | true, depth, i, 0x22 :: 0x22 :: rest => matchingParenFrom true depth (i + 2) rest
  | inQuote, depth, i, ch :: rest =>
    if ch = 0x22 then matchingParenFrom (!inQuote) depth (i + 1) rest
    else if inQuote then matchingParenFrom inQuote depth (i + 1) rest
    else if ch = 0x28 then matchingParenFrom inQuote (depth + 1) (i + 1) rest
    else if ch = 0x29 then if depth - 1 = 0 then some i else matchingParenFrom inQuote (depth - 1) (i + 1) rest
    else matchingParenFrom inQuote depth (i + 1) rest

def findMatchingParen (s : Bytes) (start : Nat) : Option Nat :=
  if s[start]? = some 0x28 then matchingParenFrom false 0 start (s.drop start) else none

/-! ## Folding -/

def maxXLMFoldDepth : Nat := 16

def functionNames : List Bytes :=
  [ascii "EXEC", ascii "CALL", ascii "REGISTER", ascii "FOPEN", ascii "FWRITE", ascii "HALT", ascii "FORMULA",
    ascii "FORMULA.FILL", ascii "SET.NAME", ascii "SET.VALUE", ascii "ALERT", ascii "INPUT", ascii "APP.MAXIMIZE",
    ascii "WORKBOOK.HIDE", ascii "RUN", ascii "GOTO", ascii "RETURN", ascii "IF", ascii "WHILE", ascii "ERROR",
    ascii "MID"]

def isXLMFunctionName (s : Bytes) : Bool := functionNames.contains s

def parseXLMIntArg (s : Bytes) : Option Int := atoi (trimSpaceBytes (stripOuterQuotes s))

/-- What stands between the first opening parenthesis of a call and the last closing one behind it. -/
def callArgs (call : Bytes) : Option Bytes := do
  let idx ← indexByte call 0x28
  let rest := call.drop (idx + 1)
  let close ← lastIndexByte rest 0x29
  pure (rest.take close)

/-- `count` runes of `text` from the position `start`, as `foldMIDCall` takes them. -/
def midRunes (text : List Nat) (start count : Int) : Go (List Nat) :=
  let i := start - 1
  if text.length ≤ i ∨ count = 0 then .ok []
  else
    let stop := wrap (i + count)
    slice text i (if text.length < stop then text.length else stop)

section

-- `deeper` is `foldXLMFormulaDepth`, one level deeper
variable (U : Unicode) (deeper : Bytes → Go Bytes)

def foldMIDCall (call : Bytes) : Go (Option Bytes) :=
  match (callArgs call).map splitTopLevelArgs with
  | some (text :: start :: count :: _) => do
    let folded ← deeper text
    let text := if folded = [] then stripOuterQuotes text else folded
    match parseXLMIntArg start, parseXLMIntArg count with
    | some start, some count =>
      if start ≤ 0 ∨ count < 0 then pure none
      else do
        let taken ← midRunes (runes text) start count
        pure (some (encodeRunes taken))
    | _, _ => pure none
  | _ => pure none

/-- The nesting limit is not reached here: `foldXLMFormulaDepth` has checked it. -/
def foldFunctionCall (call : Bytes) : Go Bytes :=
  match indexByte call 0x28, callArgs call with
  | some idx, some args => do
    let fname := U.toUpper (trimSpaceBytes (call.take idx))
    let folded ← deeper args
    pure (0x3d :: fname ++ 0x28 :: (if folded = [] then args else folded) ++ [0x29])
  | _, _ => pure call

def foldChar (inner : Bytes) : Option Bytes :=
  match atoi (trimSpaceBytes inner) with
  | none => none
  | some n =>
    if n < 0 ∨ 127 < n then none
    else if !isPrint n && n != 0x09 && n != 0x0a && n != 0x0d then none
    else some (encodeRune n.toNat)

def foldPart (part : Bytes) : Go (Option Bytes) :=
  let trimmed := trimSpaceBytes part
  let upper := U.toUpper trimmed
  if (ascii "CHAR(").isPrefixOf upper && (ascii ")").isSuffixOf upper then do
    let inner ← slice trimmed 5 (trimmed.length - 1)
    pure (foldChar inner)
  else
    match literalText trimmed with
    | some inner => pure (some inner)
    | none => do
      let mid ←
        if (ascii "MID(").isPrefixOf upper && (ascii ")").isSuffixOf upper then foldMIDCall deeper trimmed else pure none
      match mid, indexByte upper 0x28 with
      | some folded, _ => pure (some folded)
      | none, some idx =>
        if 0 < idx && isXLMFunctionName (trimSpaceBytes (upper.take idx)) then some <$> foldFunctionCall U deeper trimmed
        else pure none
      | none, none => pure none

/-- The loop over the parts. -/
def foldParts : List Bytes → Go Bytes
  | [] => pure []
  | part :: rest => do
    let part := trimSpaceBytes part
    let folded ← if part = [] then pure none else foldPart U deeper part
    let more ← foldParts rest
    pure (folded.getD [] ++ more)

end

/-- The formula without the sign it may begin with. -/
def stripEquals : Bytes → Bytes
  | 0x3d :: rest => rest
  | formula => formula

/-- By the number of levels that are left of `maxXLMFoldDepth`. -/
def foldXLMFormulaDepth (U : Unicode) : Nat → Bytes → Go Bytes
  | 0, _ => pure []
  | levels + 1, formula => foldParts U (foldXLMFormulaDepth U levels) (splitOnConcat (stripEquals formula))

def foldXLMFormula (U : Unicode) (formula : Bytes) : Go Bytes := foldXLMFormulaDepth U maxXLMFoldDepth formula

/-- The loop of `foldEmbeddedMIDCalls` from the index `i`, with the text so far and whether a call was folded. -/
def embeddedMIDFrom (U : Unicode) (deeper : Bytes → Go Bytes) (s upper : Bytes) :
    Nat → Nat → Bytes → Bool → Go (Bytes × Bool)
  | 0, _, b, changed => pure (b, changed)
  | fuel + 1, i, b, changed =>
    if s.length ≤ i then pure (b, changed)
    else do
      let rest ← slice upper i upper.length
      match index (ascii "MID(") rest with
      | none => pure (b ++ s.drop i, changed)
      | some rel =>
        let start := i + rel
        let paren := start + 3
        match findMatchingParen s paren with
        | none => pure (b ++ s.drop i, changed)
        | some close =>
          let head ← slice s i start
          let head := if (ascii "=").isSuffixOf head then head.dropLast else head
          let call ← slice s start (close + 1)
          let folded ← foldMIDCall deeper call
          match folded with
          | some folded => embeddedMIDFrom U deeper s upper fuel (close + 1) (b ++ head ++ folded) true
          | none =>
            let kept ← slice s start (paren + 1)
            embeddedMIDFrom U deeper s upper fuel (paren + 1) (b ++ head ++ kept) changed

/-- At depth zero.  Every round of the loop moves on by a byte at least. -/
def foldEmbeddedMIDCalls (U : Unicode) (s : Bytes) : Go (Bytes × Bool) :=
  embeddedMIDFrom U (foldXLMFormulaDepth U (maxXLMFoldDepth - 1)) s (U.toUpper s) (s.length + 1) 0 [] false

end MS.Xlm
