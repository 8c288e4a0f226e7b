import Mailstrix.Impl.Scan.Meta

/-!
# Message headers

`mime.go`: whether a buffer begins with the header block of a MIME message.  The Unicode lower-case table and
`mime.ParseMediaType` come from outside.
-/

namespace MS.Extract

open Framework
open Scan (ascii isSpace)

def maxMIMEHeaderBytes : Nat := 256 * 1024

inductive MimeHeaderClassification
  | ordinary
  | complete
  | incomplete
deriving DecidableEq, Repr

/-- `unicode.ToLower`, and whether `mime.ParseMediaType` accepts a text. -/
structure MimeEnv where
  lower : Nat → Nat
  parsesMediaType : Bytes → Bool

/-- `strings.ToLower`. -/
def MimeEnv.toLower (env : MimeEnv) (b : Bytes) : Bytes := encodeRunes ((runes b).map env.lower)

def contextHeaders : List Bytes :=
  [ascii "mime-version", ascii "from", ascii "to", ascii "cc", ascii "bcc", ascii "subject", ascii "date",
    ascii "received", ascii "message-id", ascii "return-path", ascii "reply-to", ascii "sender",
    ascii "delivered-to", ascii "dkim-signature", ascii "authentication-results"]

def isMIMEContextHeader (field : Bytes) : Bool :=
  (ascii "x-").isPrefixOf field || (ascii "arc-").isPrefixOf field || contextHeaders.contains field

/-- `bytes.TrimSpace`: the white space at both ends is well-formed text, so that its runes say how long it is. -/
def trimSpaceBytes (b : Bytes) : Bytes :=
  let b := b.drop (encodeRunes ((runes b).takeWhile isSpace)).length
  b.take (b.length - (encodeRunes ((runes b).reverse.takeWhile isSpace)).length)

/-- `bytes.Index`, for a pattern that is not empty. -/
def index (pattern : Bytes) : Bytes → Option Nat
  | [] => none
  | c :: rest => if pattern.isPrefixOf (c :: rest) then some 0 else (index pattern rest).map (· + 1)

/-- Behind the line feed before the first blank line, of either kind. -/
def headerEnd (head : Bytes) : Option Nat :=
  match index [0x0a, 0x0d, 0x0a] head, index [0x0a, 0x0a] head with
  | none, none => none
  | some crlf, none => some (crlf + 1)
  | none, some lf => some (lf + 1)
  | some crlf, some lf => if lf + 1 < crlf + 1 then some (lf + 1) else some (crlf + 1)

/-- The lines of a text behind the bytes `line`, each with whether it was ended by a line feed. -/
def linesFrom (line : Bytes) : Bytes → List (Bytes × Bool)
  | [] => if line = [] then [] else [(line, false)]
  | c :: rest => if c = 0x0a then (line, true) :: linesFrom [] rest else linesFrom (line ++ [c]) rest

structure Flags where
  hasType : Bool := false
  hasOther : Bool := false
  hasContext : Bool := false
deriving DecidableEq

def contentType : Bytes := ascii "content-type"

/-- Whether a value of `Content-Type` that was cut off begins with a media type. -/
def startsMediaType (env : MimeEnv) (value : Bytes) : Bool :=
  let mediaType := trimSpaceBytes (value.takeWhile (· != 0x3b))
  let slash := (mediaType.takeWhile (· != 0x2f)).length
  decide (0 < slash) && decide (slash < mediaType.length) &&
    env.parsesMediaType (if slash + 1 = mediaType.length then mediaType ++ [0x78] else mediaType)

/-- Behind the last line. -/
def classifyFlags (truncated terminated : Bool) (fl : Flags) : MimeHeaderClassification :=
  if terminated then
    if fl.hasType && fl.hasOther then .complete else .ordinary
  else if truncated && (fl.hasContext || (fl.hasType && fl.hasOther)) then .incomplete
  else if fl.hasType && fl.hasOther then .incomplete
  else .ordinary

def Flags.note (fl : Flags) (field : Bytes) : Flags :=
  if field = contentType then { fl with hasType := true }
  else { fl with hasOther := true, hasContext := fl.hasContext || isMIMEContextHeader field }

/-- The loop over the lines. -/
def classifyLines (env : MimeEnv) (truncated terminated : Bool) : List (Bytes × Bool) → Flags → MimeHeaderClassification
  | [], fl => classifyFlags truncated terminated fl
  | (raw, ended) :: rest, fl =>
    let completeLine := ended || !truncated
    match trimRight 0x0d raw with
    | [] => classifyLines env truncated terminated rest fl
    | c :: line =>
      if c = 0x20 ∨ c = 0x09 then classifyLines env truncated terminated rest fl
      else
        let name := (c :: line).takeWhile (· != 0x3a)
        if name.length = (c :: line).length ∨ name = [] ∨ name.any (fun d => d == 0x20 || d == 0x09) then
          if completeLine then .ordinary else classifyFlags truncated terminated fl
        else
          let field := env.toLower name
          if field = contentType ∧ completeLine = false then
            if startsMediaType env ((c :: line).drop (name.length + 1)) || fl.hasOther then .incomplete else .ordinary
          else if completeLine then classifyLines env truncated terminated rest (fl.note field)
          else classifyFlags truncated terminated (fl.note field)

def classifyMIMEMessage (env : MimeEnv) (buf : Bytes) : MimeHeaderClassification :=
  let head := buf.take maxMIMEHeaderBytes
  match headerEnd head with
  | some behind => classifyLines env false true (linesFrom [] (head.take behind)) {}
  | none => classifyLines env (decide (maxMIMEHeaderBytes < buf.length)) false (linesFrom [] head) {}

end MS.Extract
