import Mailstrix.Impl.Extract.Runs

/-!
# Folds of VBA string expressions

`decode.go`: `foldVBAStrings` and what it calls.  As for the runs, each fold is given by the blobs it hands to `emit`.
-/

namespace MS.Extract

open Framework
open Framework.Regex
open Scan (ascii atoi)

/-- `maxMatches` and `maxVarMatches`. -/
def maxMatches : Nat := 64
def maxVarEntries : Nat := 256
def maxLiteralLen : Nat := 4096

/-! ## Strings -/

/-- The length of the first rune; a byte that begins none stands alone. -/
def runeWidth (b : Bytes) : Nat :=
  match runes b with
  | [] => 1
  | r :: _ => if (encodeRune r).isPrefixOf b then (encodeRune r).length else 1

def splitRunes (b : Bytes) : List Bytes :=
  if _ : b = [] then [] else b.take (runeWidth b) :: splitRunes (b.drop (max 1 (runeWidth b)))
termination_by b.length
decreasing_by
  have := List.length_pos_iff.2 ‹b ≠ []›
  rw [List.length_drop]
  omega

/-- The occurrences of `old`, which is not empty, from the left. -/
def replaceFrom (old new : Bytes) : Bytes → Bytes
  | [] => []
  | c :: rest =>
    if old.isPrefixOf (c :: rest) then new ++ replaceFrom old new (rest.drop (old.length - 1))
    else c :: replaceFrom old new rest
termination_by s => s.length

/-- `strings.ReplaceAll`: an empty `old` is found before every rune and at the end. -/
def replaceAll (s old new : Bytes) : Bytes :=
  if old = new then s
  else if old = [] then new ++ (splitRunes s).flatMap (· ++ new)
  else replaceFrom old new s

/-- A quoted text, with its doubled quotes undone. -/
def unquote (lit : Bytes) : Bytes := replaceAll lit [0x22, 0x22] [0x22]

/-- The text of a group; a group that was not matched has none. -/
def groupText (m : Found UInt8) (i : Nat) : Bytes := (m.groups.lookup i).getD []

def trimBlank (b : Bytes) : Bytes := ((b.dropWhile isReSpace).reverse.dropWhile isReSpace).reverse

/-! ## Folds of literals -/

/-- A literal or a call of `Chr` in a concatenation.  An empty literal is read as a call with no number. -/
def concatPart (tok : Found UInt8) : Bytes :=
  if groupText tok 1 ≠ [] then unquote (groupText tok 1)
  else
    let n := (atoi (groupText tok 2)).getD 0
    if n < 0 ∨ 0x10ffff < n then [] else encodeRune n.toNat

def foldConcat (src : Bytes) : List Bytes :=
  if src.any (fun c => c == 0x26 || c == 0x2b) && (src.contains 0x22 || containsFold (ascii "chr") src) then
    (reChrConcat.findAll maxMatches none src).map fun m =>
      (reChrTok.findAll m.text.length none m.text).flatMap concatPart
  else []

def foldReplace (src : Bytes) : List Bytes :=
  if containsFold (ascii "replace(") src then
    (reReplace.findAll maxMatches none src).map fun m =>
      replaceAll (unquote (groupText m 1)) (unquote (groupText m 2)) (unquote (groupText m 3))
  else []

/-- A number of the array; one that is no byte is dropped. -/
def xorPart (key : Int) (p : Bytes) : Option UInt8 :=
  match atoi (trimBlank p) with
  | none => none
  | some n => if n < 0 ∨ 255 < n then none else some (UInt8.ofNat (n.toNat ^^^ key.toNat))

def foldArrayXor (src : Bytes) : List Bytes :=
  if containsFold (ascii "array(") src then
    (reArrayXor.findAll maxMatches none src).map fun m =>
      ((groupText m 1).splitOn 0x2c).filterMap (xorPart ((atoi (trimBlank (groupText m 2))).getD 0))
  else []

def reverseString (s : Bytes) : Bytes := encodeRunes (runes s).reverse

def foldStrReverse (src : Bytes) : List Bytes :=
  if containsFold (ascii "strreverse(") src then
    (reStrReverse.findAll maxMatches none src).map fun m => reverseString (unquote (groupText m 1))
  else []

def foldEnviron (src : Bytes) : List Bytes :=
  if containsFold (ascii "environ") src then
    (reEnviron.findAll maxMatches none src).filterMap fun m =>
      let name := unquote (groupText m 1)
      if name = [] then none else some (ascii "VBA-ENVIRON %" ++ name ++ [0x25])
  else []

/-! ## Replace with variables -/

/-- `[A-Za-z]\w{0,63}`. -/
def identifier : Regex UInt8 := seq (set isAlpha) (upTo 63 (set isWord))

def lineBlanks : Regex UInt8 := seq (lineStart (· == 0x0a)) (star (set fun c => c == 0x20 || c == 0x09))

def reVBAStrAssign : Regex UInt8 :=
  seqs [lineBlanks, group 1 identifier, spaces, char 0x3d, spaces, quotedGroup 2]

def reVBAAlias : Regex UInt8 :=
  seqs [lineBlanks, group 1 identifier, spaces, char 0x3d, spaces, group 2 identifier, spaces, lineEnd (· == 0x0a)]

/-- An argument: a literal in the group `i`, or a name in the next one. -/
def varArgument (i : Nat) : Regex UInt8 := alt (quotedGroup i) (group (i + 1) identifier)

def reVBAVarReplace : Regex UInt8 :=
  seqs [fold "Replace(", spaces, varArgument 1, spaces, char 0x2c, spaces, varArgument 3, spaces, char 0x2c, spaces,
    varArgument 5, spaces, char 0x29]

/-- The first assignment of each name; the loop stops when the map is full. -/
def assignments : List (Found UInt8) → List (Bytes × Bytes) → List (Bytes × Bytes)
  | [], vars => vars
  | m :: ms, vars =>
    if maxVarEntries ≤ vars.length then vars
    else
      let val := unquote (groupText m 2)
      if maxLiteralLen < val.length ∨ (vars.lookup (groupText m 1)).isSome then assignments ms vars
      else assignments ms (vars ++ [(groupText m 1, val)])

def aliases : List (Found UInt8) → List (Bytes × Bytes) → List (Bytes × Bytes)
  | [], vars => vars
  | m :: ms, vars =>
    match vars.lookup (groupText m 1), vars.lookup (groupText m 2) with
    | none, some val => aliases ms (vars ++ [(groupText m 1, val)])
    | _, _ => aliases ms vars

def resolve (vars : List (Bytes × Bytes)) (lit id : Bytes) : Option Bytes :=
  if lit ≠ [] ∨ id = [] then some (unquote lit) else vars.lookup id

/-- A call with a variable among its arguments, if all of them are known. -/
def varReplaceCall (vars : List (Bytes × Bytes)) (m : Found UInt8) : Option Bytes :=
  if groupText m 2 = [] ∧ groupText m 4 = [] ∧ groupText m 6 = [] then none
  else do
    let subj ← resolve vars (groupText m 1) (groupText m 2)
    let old ← resolve vars (groupText m 3) (groupText m 4)
    let new ← resolve vars (groupText m 5) (groupText m 6)
    some (replaceAll subj old new)

def foldVBAVarReplace (src : Bytes) : List Bytes :=
  if containsFold (ascii "replace(") src then
    let vars := assignments (reVBAStrAssign.findAll src.length none src) []
    if vars = [] then []
    else
      let vars := aliases (reVBAAlias.findAll src.length none src) vars
      (reVBAVarReplace.findAll maxMatches none src).filterMap (varReplaceCall vars)
  else []

/-! ## Dridex -/

/-- The number that the digits of `s` make, with a zero for each other character if `zeros`. -/
def stripDigits (s : Bytes) (zeros : Bool) : Option Int :=
  if s.any isDecimal then
    atoi (s.flatMap fun c => if isDecimal c then [c] else if zeros then [0x30] else [])
  else none

/-- `b[i:j]`. -/
def slice (b : Bytes) (i j : Nat) : Bytes := (b.take j).drop i

/-- Groups of `n` characters, the last one perhaps shorter. -/
def groupsOf (n : Nat) (b : Bytes) : List Bytes :=
  if _ : n = 0 ∨ b = [] then [] else b.take n :: groupsOf n (b.drop n)
termination_by b.length
decreasing_by
  have h : ¬ (n = 0 ∨ b = []) := ‹_›
  have := List.length_pos_iff.2 fun hb => h (.inr hb)
  rw [List.length_drop]
  omega

/-- A printable character, or none. -/
def dridexChar (key : Int) (g : Bytes) : Option UInt8 := do
  let code := (← stripDigits g false) / key
  if code < 0x20 ∨ 0x7e < code then none else some (UInt8.ofNat code.toNat)

def dridexURLDecode (input : Bytes) : Option Bytes := do
  if input.length < 8 then none
  let work := slice input 4 (input.length - 4)
  if work.length < 4 then none
  let half := work.length / 2
  let keyEnc ← stripDigits (slice work (half - 2) half) true
  let keySize ← stripDigits (slice work half (half + 2)) true
  let nCharSize := keySize - keyEnc
  if nCharSize ≤ 0 ∨ 16 < nCharSize then none
  let n := nCharSize.toNat
  let work := work.take (half - 2) ++ work.drop (half + 2)
  let half := work.length / 2
  if half < n / 2 ∨ work.length < half + n / 2 then none
  let key ← stripDigits (slice work (half - n / 2) (half + n / 2)) false
  if key = 0 then none
  let work := work.take (half - n / 2) ++ work.drop (half + n / 2)
  if work = [] then none
  (groupsOf n work).mapM (dridexChar key)

def foldDridex (src : Bytes) : List Bytes :=
  (reDridex.findAll maxMatches none src).filterMap fun m =>
    let inner := slice m.text 1 (m.text.length - 1)
    if dridexNotHex.isMatch inner then dridexURLDecode inner else none

/-! ## All folds -/

def foldVBAStrings (src : Bytes) : List Bytes :=
  let src := window src
  foldConcat src ++ foldReplace src ++ foldArrayXor src ++ foldStrReverse src ++ foldEnviron src ++
    foldVBAVarReplace src ++ foldDridex src

/-- The chain of decoders, in the order in which it runs. -/
def decoders (codecs : Codecs) : List (Bytes → List Bytes) :=
  [decodeBase64Runs, decodeHexRuns, emitReversed, foldVBAStrings, decodeXEscRuns, decodeAmpHRuns, decodeUEscRuns,
    decodeDecSeqRuns, decodeNetbiosRuns, decodeBase32Runs codecs]

end MS.Extract
