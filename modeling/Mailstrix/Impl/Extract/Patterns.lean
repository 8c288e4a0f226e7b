import Mailstrix.Framework.Regex
import Mailstrix.Impl.Extract.Rtf

/-!
# What the static decoders look for

`decode.go`: the expressions of the decoders, the markers, and the two gates before them.  The expressions are read byte
by byte, with the case of ASCII letters folded where they say `(?i)`: none of them can begin or end within the bytes of
a rune.
-/

namespace MS.Extract

open Framework
open Framework.Regex
open Scan (ascii)

def minBase64Run : Nat := 24
def minHexRun : Nat := 32
def minPrefilterRun : Nat := 20
def minPrefilterDecRun : Nat := 23
def minXEscRun : Nat := 8
def minAmpHRun : Nat := 8
def minUEscRun : Nat := 8
def minDecSeqRun : Nat := 12
def minNetbiosRun : Nat := 32
def minBase32Run : Nat := 32
def maxFoldInput : Nat := 2 ^ 20
def textSample : Nat := 4096
def textPrintablePct : Nat := 90

/-! ## Bytes -/

def isUpper (c : UInt8) : Bool := 0x41 ≤ c && c ≤ 0x5a
def isAlpha (c : UInt8) : Bool := isUpper c || isLower c
def isAlnum (c : UInt8) : Bool := isAlpha c || isDecimal c
def isBase64 (c : UInt8) : Bool := isAlnum c || c == 0x2b || c == 0x2f
def isHexDigit (c : UInt8) : Bool := isDecimal c || (0x61 ≤ c && c ≤ 0x66) || (0x41 ≤ c && c ≤ 0x46)
def isNetbios (c : UInt8) : Bool := 0x41 ≤ c && c ≤ 0x50
def isBase32 (c : UInt8) : Bool := isUpper c || (0x32 ≤ c && c ≤ 0x37)
def isSeparator (c : UInt8) : Bool := c == 0x2c || c == 0x3b

/-- `\w`. -/
def isWord (c : UInt8) : Bool := isAlnum c || c == 0x5f

/-- `\s`. -/
def isReSpace (c : UInt8) : Bool := c == 0x09 || c == 0x0a || c == 0x0c || c == 0x0d || c == 0x20

def asciiLower (c : UInt8) : UInt8 := if isUpper c then c + 0x20 else c

/-- `containsASCIIFold` and `asciiContainsFold`: the needles of both are in lower case. -/
def containsFold (needle : Bytes) : Bytes → Bool
  | [] => needle.isEmpty
  | c :: rest => needle.isPrefixOf ((c :: rest).map asciiLower) || containsFold needle rest

/-! ## Expressions -/

/-- A literal under `(?i)`. -/
def fold (text : String) : Regex UInt8 := seqs ((ascii text).map fun c => set fun d => asciiLower d == asciiLower c)

def char (c : UInt8) : Regex UInt8 := set (· == c)
def digit : Regex UInt8 := set isDecimal
def hexDigit : Regex UInt8 := set isHexDigit
def spaces : Regex UInt8 := star (set isReSpace)

/-- What may stand between two quotes. -/
def quotedText : Regex UInt8 := star (alt (set (· != 0x22)) (seq (char 0x22) (char 0x22)))
def quoted : Regex UInt8 := seqs [char 0x22, quotedText, char 0x22]

/-- A quoted text whose inside is the group `i`. -/
def quotedGroup (i : Nat) : Regex UInt8 := seqs [char 0x22, group i quotedText, char 0x22]

/-- `[WB]?\$?\s*\(` behind `Chr`, then `number`. -/
def chrCall (number : Regex UInt8) : Regex UInt8 :=
  seqs [fold "Chr", opt (set fun c => asciiLower c == 0x77 || asciiLower c == 0x62), opt (char 0x24), spaces, char 0x28,
    number, char 0x29]

def number5 : Regex UInt8 := seq digit (upTo 4 digit)
def number3 : Regex UInt8 := seq digit (upTo 2 digit)

def concatToken : Regex UInt8 := alt quoted (chrCall number5)

def reBase64 : Regex UInt8 := seq (atLeast minBase64Run (set isBase64)) (upTo 2 (char 0x3d))
def reHex : Regex UInt8 := atLeast (minHexRun / 2) (seq hexDigit hexDigit)
def reChrConcat : Regex UInt8 :=
  seq concatToken (atLeast 1 (seqs [spaces, set fun c => c == 0x26 || c == 0x2b, spaces, concatToken]))
def reReplace : Regex UInt8 :=
  seqs [fold "Replace(", spaces, quotedGroup 1, spaces, char 0x2c, spaces, quotedGroup 2, spaces, char 0x2c, spaces,
    quotedGroup 3, spaces, char 0x29]
def reArrayXor : Regex UInt8 :=
  seqs [fold "Array(", group 1 (atLeast 1 (set fun c => isDecimal c || c == 0x2c || isReSpace c)), char 0x29, spaces,
    fold "Xor", atLeast 1 (set isReSpace), group 2 number3]
def reStrReverse : Regex UInt8 := seqs [fold "StrReverse(", spaces, quotedGroup 1, spaces, char 0x29]
def reEnviron : Regex UInt8 := seqs [fold "Environ", opt (char 0x24), char 0x28, spaces, quotedGroup 1, spaces, char 0x29]
def reChrTok : Regex UInt8 := alt (quotedGroup 1) (chrCall (group 2 number5))
def reDridex : Regex UInt8 := seqs [char 0x22, atLeast 20 (set isAlnum), char 0x22]
def dridexNotHex : Regex UInt8 := set fun c => (0x47 ≤ c && c ≤ 0x5a) || (0x67 ≤ c && c ≤ 0x7a)
def reXEsc : Regex UInt8 := atLeast minXEscRun (seqs [char 0x5c, char 0x78, hexDigit, hexDigit])
def reAmpH : Regex UInt8 :=
  atLeast minAmpHRun (seqs [char 0x26, set fun c => c == 0x48 || c == 0x68, hexDigit, hexDigit,
    star (set fun c => c == 0x2c || isReSpace c)])
def reAmpHTok : Regex UInt8 :=
  seqs [char 0x26, set fun c => c == 0x48 || c == 0x68, group 1 (seq hexDigit hexDigit)]
def reUEsc : Regex UInt8 :=
  atLeast minUEscRun (seqs [set fun c => c == 0x5c || c == 0x25, char 0x75, hexDigit, hexDigit, hexDigit, hexDigit])
def reDecSeq : Regex UInt8 := seq number3 (atLeast (minDecSeqRun - 1) (seq (set isSeparator) number3))
def reBase32 : Regex UInt8 := seq (atLeast minBase32Run (set isBase32)) (upTo 6 (char 0x3d))

/-! ## Gates -/

def reversedMarkers : List Bytes :=
  [ascii "llehsrewop", ascii "llehs.tpircsw", ascii "tcejboetaerc", ascii "exe.dmc", ascii "elifotevas",
    ascii "ptthnwod"]

def prefilterMarkers : List Bytes :=
  [ascii "\\x", ascii "\\u", ascii "%u", ascii "&h", ascii "chr", ascii "replace(", ascii "array(", ascii "strreverse",
    ascii "environ"]

/-- The window that both gates and the folds look at. -/
def window (b : Bytes) : Bytes := b.take maxFoldInput

/-- The variables of the loop of `mayBeEncoded`. -/
structure Prefilter where
  b64Run : Nat := 0
  decRun : Nat := 0
  hasQuote : Bool := false
  hasConcatOp : Bool := false

def Prefilter.next (p : Prefilter) (c : UInt8) : Prefilter where
  b64Run := if isBase64 c then p.b64Run + 1 else 0
  decRun := if isDecimal c || isSeparator c then p.decRun + 1 else 0
  hasQuote := p.hasQuote || c == 0x22
  hasConcatOp := p.hasConcatOp || c == 0x26 || c == 0x2b

/-- The loop: `none` if a run was long enough. -/
def prefilter (p : Prefilter) : Bytes → Option Prefilter
  | [] => some p
  | c :: rest =>
    if minPrefilterRun ≤ (p.next c).b64Run ∨ minPrefilterDecRun ≤ (p.next c).decRun then none
    else prefilter (p.next c) rest

def mayBeEncoded (b : Bytes) : Bool :=
  if b = [] then false
  else match prefilter {} (window b) with
    | none => true
    | some p =>
      (p.hasQuote && p.hasConcatOp) || prefilterMarkers.any (containsFold · (window b)) ||
        reversedMarkers.any (containsFold · (window b))

/-- What `looksEncoded` looks for behind the gate. -/
def encodedPatterns (scan : Bytes) : Bool :=
  reBase64.isMatch scan || reHex.isMatch scan || reversedMarkers.any (containsFold · scan) ||
    reChrConcat.isMatch scan || reReplace.isMatch scan || reArrayXor.isMatch scan || reStrReverse.isMatch scan ||
    reEnviron.isMatch scan || reDridex.isMatch scan || reXEsc.isMatch scan || reAmpH.isMatch scan ||
    reUEsc.isMatch scan || reDecSeq.isMatch scan || reBase32.isMatch scan

def looksEncoded (b : Bytes) : Bool := b != [] && mayBeEncoded b && encodedPatterns (window b)

def isPrintable (c : UInt8) : Bool := c == 0x09 || c == 0x0a || c == 0x0d || (0x20 ≤ c && c ≤ 0x7e)

def mostlyText (b : Bytes) : Bool :=
  let sample := b.take textSample
  b != [] && decide (sample.length * textPrintablePct ≤ sample.countP isPrintable * 100)

end MS.Extract
