import Mailstrix.Framework.Reader
import Mailstrix.Impl.Scan.Meta

/-!
# Chunked bodies

`icap.go`: the bounded line reader, the chunk-extension parser and the chunked-body reader.  An `int` is 64 bits wide.
-/

namespace MS.Icap

open Framework
open Scan (trimSpace)

def maxICAPChunkHeaderLine : Nat := 256

def icapChunkReadStep : Nat := 64 * 1024

inductive Err
  | lineTooLong
  | chunkExtension
  | badSize (raw : Bytes)
  | negativeSize (raw : Bytes)
  | bodyTooLarge
  | read (e : ReadError)
deriving DecidableEq, Repr

/-! ## Lines -/

/-- `strings.TrimRight(s, "\r")`. -/
def trimCR (text : Bytes) : Bytes := trimRight 0x0d text

/-- The loop of `readBoundedLine` behind the fragments `acc`.  A fragment of a full buffer has at least one byte, so
that `limit + 1` turns take it past the limit. -/
def lineLoop (limit : Int) : Nat → Bytes → Reader → Except Err Bytes × Reader
  | 0, _, r => (.error .lineTooLong, r)
  | fuel + 1, acc, r =>
    match r.readSlice 0x0a with
    | (.found line, r) =>
      if limit < (acc ++ line).length then (.error .lineTooLong, r) else (.ok (trimCR (acc ++ line)), r)
    | (.full part, r) =>
      if limit < (acc ++ part).length then (.error .lineTooLong, r) else lineLoop limit fuel (acc ++ part) r
    | (.ended part, r) =>
      if limit < (acc ++ part).length then (.error .lineTooLong, r) else (.error (.read r.ending), r)

def readBoundedLine (limit : Int) (r : Reader) : Except Err Bytes × Reader := lineLoop limit (limit.toNat + 1) [] r

/-! ## Chunk extensions -/

def isHTTPTokenByte (c : UInt8) : Bool :=
  (0x61 ≤ c && c ≤ 0x7a) || (0x41 ≤ c && c ≤ 0x5a) || (0x30 ≤ c && c ≤ 0x39) ||
    [0x21, 0x23, 0x24, 0x25, 0x26, 0x27, 0x2a, 0x2b, 0x2d, 0x2e, 0x5e, 0x5f, 0x60, 0x7c, 0x7e].contains c

def isBlank (c : UInt8) : Bool := c == 0x20 || c == 0x09

def skipWhitespace (text : Bytes) : Bytes := text.dropWhile isBlank

/-- A byte that may stand behind a backslash in a quoted value. -/
def quotable (c : UInt8) : Bool := c == 0x09 || !(c < 0x20 || c == 0x7f)

/-- A byte other than the quote and the backslash that may stand in a quoted value. -/
def quotedText (c : UInt8) : Bool := !(c == 0x0d || c == 0x0a || c == 0x7f || (c < 0x20 && c != 0x09))

/-- What follows the closing quote, from behind the opening one. -/
def skipQuoted : Bytes → Option Bytes
  | [] => none
  | [c] => if c = 0x22 then some [] else none
  | c :: d :: rest =>
    if c = 0x22 then some (d :: rest)
    else if c = 0x5c then
      if quotable d then skipQuoted rest else none
    else if quotedText c then skipQuoted (d :: rest)
    else none

/-- What follows a value and the blanks behind it, from behind the `=`. -/
def skipValue (text : Bytes) : Option Bytes :=
  match skipWhitespace text with
  | [] => none
  | c :: rest =>
    if c = 0x22 then (skipQuoted rest).map skipWhitespace
    else
      if (c :: rest).takeWhile isHTTPTokenByte = [] then none
      else some (skipWhitespace ((c :: rest).dropWhile isHTTPTokenByte))

/-- `strings.EqualFold` on a token. -/
def equalFold (name word : Bytes) : Bool :=
  name.map (fun c => if 0x41 ≤ c ∧ c ≤ 0x5a then c + 0x20 else c) == word

def ieofName : Bytes := [0x69, 0x65, 0x6f, 0x66]

/-- One extension, from behind its semicolon: whether it is a valueless `ieof`, and what follows it. -/
def parseExtension (text : Bytes) : Option (Bool × Bytes) :=
  let text := skipWhitespace text
  let name := text.takeWhile isHTTPTokenByte
  if name = [] then none
  else
    match skipWhitespace (text.dropWhile isHTTPTokenByte) with
    | [] => some (equalFold name ieofName, [])
    | c :: rest =>
      if c = 0x3d then (skipValue rest).map fun rest => (false, rest)
      else some (equalFold name ieofName, c :: rest)

/-- The loop of `parseICAPChunkExtensions`; each turn takes at least the semicolon. -/
def extensionLoop : Nat → Bool → Bytes → Option Bool
  | 0, hasIEOF, text => if text = [] then some hasIEOF else none
  | fuel + 1, hasIEOF, text =>
    match text with
    | [] => some hasIEOF
    | c :: rest =>
      if c = 0x3b then
        match parseExtension rest with
        | none => none
        | some (ieof, rest) => extensionLoop fuel (hasIEOF || ieof) rest
      else none

def parseICAPChunkExtensions (exts : Bytes) : Option Bool := extensionLoop exts.length false (skipWhitespace exts)

/-! ## Sizes -/

def hexDigit (c : Nat) : Option Nat :=
  if 0x30 ≤ c ∧ c ≤ 0x39 then some (c - 0x30)
  else if 0x61 ≤ c ∧ c ≤ 0x66 then some (c - 0x61 + 10)
  else if 0x41 ≤ c ∧ c ≤ 0x46 then some (c - 0x41 + 10)
  else none

/-- `strconv.ParseUint(s, 16, 64)`, but for the bound, which the caller's is below. -/
def parseUint (s : List Nat) : Option Nat :=
  if s = [] then none else (s.mapM hexDigit).map fun ds => ds.foldl (fun n d => 16 * n + d) 0

/-- `strconv.ParseInt(s, 16, 64)`. -/
def parseInt (s : List Nat) : Option Int64 :=
  match s with
  | [] => none
  | c :: rest =>
    let neg := c = 0x2d
    match parseUint (if c = 0x2b ∨ c = 0x2d then rest else c :: rest) with
    | none => none
    | some un =>
      if neg then
        if 2 ^ 63 < un then none else some (-Int64.ofNat un)
      else
        if 2 ^ 63 ≤ un then none else some (Int64.ofNat un)

/-- The size that a header line declares, and whether it has the `ieof` extension. -/
def chunkHeader (raw : Bytes) : Except Err (Int64 × Bool) :=
  match parseICAPChunkExtensions (raw.dropWhile (· != 0x3b)) with
  | none => .error .chunkExtension
  | some hasIEOF =>
    -- a rune beyond ASCII is no digit, so that the trimmed text is parsed as runes
    match parseInt (trimSpace (runes (raw.takeWhile (· != 0x3b)))) with
    | none => .error (.badSize raw)
    | some size => if size < 0 then .error (.negativeSize raw) else .ok (size, hasIEOF)

/-! ## Bodies -/

/-- `left` bytes, read in steps; each turn takes at least one, so that `left` turns suffice. -/
def readSteps : Nat → Nat → Bytes → Reader → Except Err Bytes × Reader
  | 0, _, out, r => (.ok out, r)
  | fuel + 1, left, out, r =>
    if left = 0 then (.ok out, r)
    else
      match r.readFull (min left icapChunkReadStep) [] with
      | (.error e, r) => (.error (.read e), r)
      | (.ok data, r) => readSteps fuel (left - min left icapChunkReadStep) (out ++ data) r

/-- The test of the allowance for `size` more bytes, on 64-bit integers. -/
def exceeds (maxBytes : Int64) (used : Nat) (size : Int64) : Prop :=
  maxBytes < Int64.ofNat used ∨ maxBytes - Int64.ofNat used < size

instance (maxBytes : Int64) (used : Nat) (size : Int64) : Decidable (exceeds maxBytes used size) :=
  inferInstanceAs (Decidable (_ ∨ _))

inductive Turn
  | more (out : Bytes)
  | done (out : Bytes) (ieof : Bool)

/-- One turn of `readICAPChunkedAppend`: a chunk, and the line behind it. -/
def readChunk (maxBytes : Int64) (out : Bytes) (r : Reader) : Except Err Turn × Reader :=
  match readBoundedLine maxICAPChunkHeaderLine r with
  | (.error e, r) => (.error e, r)
  | (.ok raw, r) =>
    match chunkHeader raw with
    | .error e => (.error e, r)
    | .ok (size, hasIEOF) =>
      if size = 0 then
        match readBoundedLine maxICAPChunkHeaderLine r with
        | (.ok _, r) => (.ok (.done out hasIEOF), r)
        | (.error e, r) => if e = .read .eof then (.ok (.done out hasIEOF), r) else (.error e, r)
      else
        if exceeds maxBytes out.length size then (.error .bodyTooLarge, r)
        else
          match readSteps size.toNatClampNeg size.toNatClampNeg out r with
          | (.error e, r) => (.error e, r)
          | (.ok out, r) =>
            match readBoundedLine maxICAPChunkHeaderLine r with
            | (.error e, r) => (.error e, r)
            | (.ok _, r) => (.ok (.more out), r)

/-- The loop; each turn takes at least the end of a line. -/
def readChunks (maxBytes : Int64) : Nat → Bytes → Reader → Except Err (Bytes × Bool) × Reader
  | 0, _, r => (.error (.read r.ending), r)
  | fuel + 1, out, r =>
    match readChunk maxBytes out r with
    | (.error e, r) => (.error e, r)
    | (.ok (.done out ieof), r) => (.ok (out, ieof), r)
    | (.ok (.more out), r) => readChunks maxBytes fuel out r

def readICAPChunkedAppend (r : Reader) (out : Bytes) (maxBytes : Int64) : Except Err (Bytes × Bool) × Reader :=
  readChunks maxBytes (r.ahead.length + 1) out r

end MS.Icap
