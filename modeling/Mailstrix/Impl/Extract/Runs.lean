import Mailstrix.Impl.Extract.Patterns

/-!
# Runs of encoded text

`decode.go`: the decoders that look for a long run of an alphabet, or of escapes.  Each is given by the blobs it hands to
`emit`, in their order; a deadline is left out.  The base32 decoders of the standard library come from outside.
-/

namespace MS.Extract

open Framework
open Framework.Regex
open Scan (base64Decode)

def maxBytesPerDecodedBlob : Nat := 2 ^ 20
def maxB64Encoded : Nat := (maxBytesPerDecodedBlob / 3 + 1) * 4
def maxHexEncoded : Nat := maxBytesPerDecodedBlob * 2
def maxXEscEncoded : Nat := maxBytesPerDecodedBlob * 4
def maxAmpHEncoded : Nat := maxBytesPerDecodedBlob * 4
def maxUEscEncoded : Nat := maxBytesPerDecodedBlob * 6
def maxDecSeqEncoded : Nat := maxBytesPerDecodedBlob * 4
def maxNetbiosEncoded : Nat := maxBytesPerDecodedBlob * 2
def maxBase32Encoded : Nat := (maxBytesPerDecodedBlob / 5 + 1) * 8
def maxReverseInput : Nat := 2 ^ 20

/-- `base32.StdEncoding.Decode` and its form without padding. -/
structure Codecs where
  base32 : Bytes → Option Bytes
  rawBase32 : Bytes → Option Bytes

/-! ## Loops -/

/-- The loop of a decoder: what `next` finds, then again behind it. -/
def eachRun {α : Type} (next : Bytes → Option (α × Bytes)) (src : Bytes) : List α :=
  match next src with
  | none => []
  | some (run, rest) => run :: (if _ : rest.length < src.length then eachRun next rest else [])
termination_by src.length

/-- The leftmost maximal run of `inRun` of the least length, where `run` was read already. -/
def nextRun (inRun : UInt8 → Bool) (minimum : Nat) (run : Bytes) : Bytes → Option (Bytes × Bytes)
  | [] => if run ≠ [] ∧ minimum ≤ run.length then some (run, []) else none
  | c :: rest =>
    if inRun c then nextRun inRun minimum (run ++ [c]) rest
    else if run ≠ [] ∧ minimum ≤ run.length then some (run, c :: rest)
    else nextRun inRun minimum [] rest

/-- The next match of an expression. -/
def nextMatch (re : Regex UInt8) (src : Bytes) : Option (Bytes × Bytes) := (re.find none src).map fun m => (m.text, m.rest)

/-- Up to `n` signs `=`. -/
def padding (n : Nat) (rest : Bytes) : Bytes := (rest.take n).takeWhile (· == 0x3d)

/-! ## Base64 and hexadecimal runs -/

/-- `nextDecodeRun` for base64: the run with its padding, and whether it has hexadecimal digits only. -/
def nextBase64Run (src : Bytes) : Option ((Bytes × Bool) × Bytes) :=
  (nextRun isBase64 minBase64Run [] src).map fun (run, rest) =>
    let pad := padding 2 rest
    ((run ++ pad, run.all isHexDigit && pad.isEmpty), rest.drop pad.length)

def tryBase64 (run : Bytes) : Option Bytes :=
  let run := run.take maxB64Encoded
  (base64Decode true run).or
    (let s := trimRight 0x3d run
     if s.length % 4 = 1 then none else base64Decode false s)

def decodeBase64Runs (src : Bytes) : List Bytes :=
  (eachRun nextBase64Run src).filterMap fun (run, hexOnly) => if hexOnly then none else tryBase64 run

/-- `nextDecodeRun` for hexadecimal digits: an even number of them. -/
def nextHexRun (src : Bytes) : Option (Bytes × Bytes) :=
  (nextRun isHexDigit minHexRun [] src).map fun (run, rest) =>
    let even := run.length - run.length % 2
    (run.take even, run.drop even ++ rest)

/-- The byte of two hexadecimal digits. -/
def hexByte (hi lo : UInt8) : UInt8 := (nibbleOf hi).getD 0 <<< 4 ||| (nibbleOf lo).getD 0

def hexBytes : Bytes → Bytes
  | hi :: lo :: rest => hexByte hi lo :: hexBytes rest
  | _ => []

def decodeHexRuns (src : Bytes) : List Bytes := (eachRun nextHexRun src).map fun run => hexBytes (run.take maxHexEncoded)

/-! ## Escapes -/

def xEscBytes : Bytes → Bytes
  | _ :: _ :: hi :: lo :: rest => hexByte hi lo :: xEscBytes rest
  | _ => []

def decodeXEscRuns (src : Bytes) : List Bytes :=
  (eachRun (nextMatch reXEsc) src).map fun run =>
    xEscBytes (if maxXEscEncoded < run.length then run.take (maxXEscEncoded - maxXEscEncoded % 4) else run)

def decodeAmpHRuns (src : Bytes) : List Bytes :=
  (eachRun (nextMatch reAmpH) src).filterMap fun run =>
    let run := run.take maxAmpHEncoded
    let toks := reAmpHTok.findAll run.length none run
    if toks.isEmpty then none else some (toks.flatMap fun t => hexBytes ((t.groups.lookup 1).getD []))

/-- The value of a digit of `%uXXXX`. -/
def unitDigit (c : UInt8) : Nat := ((nibbleOf c).getD 0).toNat

def uEscUnits : Bytes → List Nat
  | _ :: _ :: h₃ :: h₂ :: h₁ :: h₀ :: rest =>
    (unitDigit h₃ * 4096 + unitDigit h₂ * 256 + unitDigit h₁ * 16 + unitDigit h₀) :: uEscUnits rest
  | _ => []

/-- One unit alone. -/
def unitRune (u : Nat) : Nat := if 0xd800 ≤ u ∧ u < 0xe000 then runeError else u

/-- `utf16.Decode`. -/
def utf16Decode : List Nat → List Nat
  | [] => []
  | [u] => [unitRune u]
  | hi :: lo :: rest =>
    if 0xd800 ≤ hi ∧ hi < 0xdc00 ∧ 0xdc00 ≤ lo ∧ lo < 0xe000 then
      (0x10000 + (hi - 0xd800) * 1024 + (lo - 0xdc00)) :: utf16Decode rest
    else unitRune hi :: utf16Decode (lo :: rest)

def decodeUEscRuns (src : Bytes) : List Bytes :=
  (eachRun (nextMatch reUEsc) src).filterMap fun run =>
    let run := if maxUEscEncoded < run.length then run.take (maxUEscEncoded - maxUEscEncoded % 6) else run
    let units := uEscUnits run
    if units.isEmpty then none else some (encodeRunes (utf16Decode units))

/-! ## Decimal sequences -/

/-- The variables of the loop of `nextDecSeqRunUntil`; `start` is none before the first digit. -/
structure DecSeq where
  start : Option Nat := none
  stop : Nat := 0
  tokens : Nat := 0
  digits : Nat := 0

/-- Where the next sequence starts and stops, from the byte with index `i` on. -/
def nextDecSeqRun (s : DecSeq) (i : Nat) : Bytes → Option (Nat × Nat)
  | [] => if minDecSeqRun ≤ s.tokens then some (s.start.getD 0, s.stop) else none
  | c :: rest =>
    if isDecimal c then
      if s.digits = 3 then
        if minDecSeqRun ≤ s.tokens then some (s.start.getD 0, s.stop)
        -- the last three digits of a number that is too long may begin a sequence
        else nextDecSeqRun ⟨some (i - 2), i + 1, 1, 3⟩ (i + 1) rest
      else
        nextDecSeqRun ⟨s.start.or (some i), i + 1, if s.digits = 0 then s.tokens + 1 else s.tokens, s.digits + 1⟩ (i + 1) rest
    else if isSeparator c && decide (0 < s.digits) then nextDecSeqRun { s with digits := 0 } (i + 1) rest
    else if minDecSeqRun ≤ s.tokens then some (s.start.getD 0, s.stop)
    else nextDecSeqRun {} (i + 1) rest

/-- A capped sequence without the number that the cap may have cut. -/
def trimDecSeq (run : Bytes) : Bytes :=
  if maxDecSeqEncoded < run.length then
    let run := run.take maxDecSeqEncoded
    if run.any isSeparator then (run.reverse.dropWhile (!isSeparator ·)).tail.reverse else run
  else run

/-- The numbers of a sequence, if none is above 255 and all separators are the same. -/
def parseDecSeq (sep : Option UInt8) (n : Nat) (dec : Bytes) : Bytes → Option Bytes
  | [] => if 255 < n then none else some (dec ++ [UInt8.ofNat n])
  | c :: rest =>
    if isDecimal c then parseDecSeq sep (n * 10 + (c.toNat - 0x30)) dec rest
    else if 255 < n then none
    else if sep.getD c = c then parseDecSeq (some c) 0 (dec ++ [UInt8.ofNat n]) rest
    else none

/-- The next sequence. -/
def nextDecSeq (src : Bytes) : Option (Bytes × Bytes) :=
  (nextDecSeqRun {} 0 src).map fun (start, stop) => ((src.take stop).drop start, src.drop stop)

def decSeqBytes (run : Bytes) : Option Bytes :=
  (parseDecSeq none 0 [] (trimDecSeq run)).filter fun dec => decide (minDecSeqRun ≤ dec.length)

def decodeDecSeqRuns (src : Bytes) : List Bytes := (eachRun nextDecSeq src).filterMap decSeqBytes

/-! ## NETBIOS and base32 -/

def netbiosBytes : Bytes → Bytes
  | hi :: lo :: rest => ((hi - 0x41) <<< 4 ||| (lo - 0x41)) :: netbiosBytes rest
  | _ => []

def hasContainerMagic (b : Bytes) : Bool :=
  [0x50, 0x4b].isPrefixOf b || [0xd0, 0xcf].isPrefixOf b || [0x4d, 0x5a].isPrefixOf b ||
    [0x25, 0x50, 0x44, 0x46].isPrefixOf b

def decodeNetbiosRuns (src : Bytes) : List Bytes :=
  (eachRun (nextRun isNetbios minNetbiosRun []) src).filterMap fun run =>
    let dec := netbiosBytes (run.take maxNetbiosEncoded)
    if mostlyText dec || hasContainerMagic dec then some dec else none

/-- `nextScalarRunUntil` for base32: the run with its padding, and whether it has a digit before the cap. -/
def nextBase32Run (src : Bytes) : Option ((Bytes × Bool) × Bytes) :=
  (nextRun isBase32 minBase32Run [] src).map fun (run, rest) =>
    let pad := padding 6 rest
    ((run ++ pad, (run.take maxBase32Encoded).any fun c => 0x32 ≤ c && c ≤ 0x37), rest.drop pad.length)

section

variable (codecs : Codecs)

def tryBase32 (run : Bytes) : Option Bytes :=
  (codecs.base32 run).or
    (let run := trimRight 0x3d run
     if run.any fun c => c == 0x0d || c == 0x0a then
       codecs.base32 (run ++ List.replicate ((run.length + 7) / 8 * 8 - run.length) 0x3d)
     else if run.length % 8 = 1 ∨ run.length % 8 = 3 ∨ run.length % 8 = 6 then none
     else if run.contains 0xff then none
     else codecs.rawBase32 run)

def decodeBase32Runs (src : Bytes) : List Bytes :=
  (eachRun nextBase32Run src).filterMap fun (run, hasDistinctive) =>
    let run := if maxBase32Encoded < run.length then run.take (maxBase32Encoded - maxBase32Encoded % 8) else run
    if hasDistinctive then tryBase32 codecs run else none

end

/-! ## The whole text, reversed -/

def emitReversed (src : Bytes) : List Bytes :=
  if src ≠ [] ∧ src.length ≤ maxReverseInput ∧ reversedMarkers.any (containsFold · src) then [src.reverse] else []

end MS.Extract
