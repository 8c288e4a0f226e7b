import Mailstrix.Framework.Ascii85
import Mailstrix.Impl.Extract.Mime
import Mailstrix.Impl.Extract.Rtf

/-!
# The text filters of PDF streams

`pdf_filters.go`: the decoders of the text armour that a stream may be wrapped in, and the walk over a chain of filters.
`encoding/ascii85` is `Framework.Ascii85.decode`.
-/

namespace MS.Extract

open Framework
open Scan (ascii)

def maxBytesPerPDFStream : Nat := 8 * 2 ^ 20

def isPDFWS (c : UInt8) : Bool := c == 0x20 || c == 0x09 || c == 0x0d || c == 0x0a || c == 0x0c || c == 0x00

/-- The loop of `decodeASCIIHexPDF`, with the first digit of a pair and the bytes so far. -/
def decodeASCIIHexFrom (hi : Option UInt8) (out : Bytes) : Bytes → Bytes
  | [] => out ++ (hi.map fun v : UInt8 => v <<< 4).toList
  | c :: rest =>
    if c = 0x3e then out ++ (hi.map fun v : UInt8 => v <<< 4).toList
    else
      (nibbleOf c).elim (decodeASCIIHexFrom hi out rest) fun v =>
        hi.elim (decodeASCIIHexFrom (some v) out rest) fun hi =>
          let out := out ++ [hi <<< 4 ||| v]
          if maxBytesPerPDFStream ≤ out.length then out else decodeASCIIHexFrom none out rest

def decodeASCIIHexPDF (src : Bytes) : Bytes := decodeASCIIHexFrom none [] src

/-- The digits, without the marks around them. -/
def ascii85Body (src : Bytes) : Bytes :=
  let s := src.dropWhile isPDFWS
  let s := if (ascii "<~").isPrefixOf s then s.drop 2 else s
  match index (ascii "~>") s with
  | some i => s.take i
  | none => s

def decodeASCII85PDF (src : Bytes) : Bytes :=
  let s := ascii85Body src
  if s = [] then []
  else
    let capN := s.length / 5 * 4 + 8
    let capN := if maxBytesPerPDFStream < capN then maxBytesPerPDFStream else capN
    -- a byte that is no digit leaves nothing
    (Ascii85.decode capN s).getD []

/-- The text filter of that name, if it is one. -/
def pdfPrefilter (f : Bytes) : Option (Bytes → Bytes) :=
  if f = ascii "ASCIIHexDecode" ∨ f = ascii "AHx" then some decodeASCIIHexPDF
  else if f = ascii "ASCII85Decode" ∨ f = ascii "A85" then some decodeASCII85PDF
  else none

/-- The loop of `applyPDFPrefilters`. -/
def applyPDFPrefiltersFrom (out : Bytes) (applied : Bool) : List Bytes → Bytes × Bool × Bool
  | [] => (out, applied, applied)
  | f :: filters =>
    match pdfPrefilter f with
    | none => (out, false, applied)
    | some decode => if decode out = [] then (out, false, applied) else applyPDFPrefiltersFrom (decode out) true filters

/-- The decoded bytes, whether they are the final cleartext, whether a filter was applied. -/
def applyPDFPrefilters (body : Bytes) (filters : List Bytes) : Bytes × Bool × Bool :=
  applyPDFPrefiltersFrom body false filters

end MS.Extract
