import Mailstrix.Impl.Icap.Chunk

/-!
# The grammar of chunked bodies

Chunks with their header lines, a last chunk of size zero and the empty line behind it.  A line ends with LF or CRLF.
Every value of these types is well formed: an `Encoding` is a body cut into chunks, with any extensions.
-/

namespace MS.Icap

open Framework

abbrev Blanks := { text : Bytes // ∀ c ∈ text, isBlank c }

abbrev Token := { text : Bytes // text ≠ [] ∧ ∀ c ∈ text, isHTTPTokenByte c }

abbrev HexDigits := { text : Bytes // text ≠ [] ∧ ∀ c ∈ text, (hexDigit c.toNat).isSome }

inductive QuotedItem
  | plain (c : UInt8) (h : c ≠ 0x22 ∧ c ≠ 0x5c ∧ quotedText c)
  | pair (c : UInt8) (h : quotable c)

def QuotedItem.text : QuotedItem → Bytes
  | .plain c _ => [c]
  | .pair c _ => [0x5c, c]

inductive Value
  | token (t : Token)
  | quoted (items : List QuotedItem)

def Value.text : Value → Bytes
  | .token t => t.1
  | .quoted items => 0x22 :: items.flatMap QuotedItem.text ++ [0x22]

structure Extension where
  lead : Blanks
  name : Token
  gap : Blanks
  value : Option (Blanks × Value × Blanks)

def Extension.valueText (e : Extension) : Bytes :=
  match e.value with
  | none => []
  | some (before, v, behind) => 0x3d :: (before.1 ++ v.text ++ behind.1)

/-- An extension behind its semicolon. -/
def Extension.body (e : Extension) : Bytes := e.lead.1 ++ e.name.1 ++ e.gap.1 ++ e.valueText

def Extension.text (e : Extension) : Bytes := 0x3b :: e.body

/-- The extension `ieof` without a value. -/
def Extension.isIEOF (e : Extension) : Bool := e.value.isNone && equalFold e.name.1 ieofName

inductive LineEnd
  | lf
  | crlf
deriving DecidableEq

/-- What of a line end stands before the LF. -/
def LineEnd.cr : LineEnd → Bytes
  | .lf => []
  | .crlf => [0x0d]

def hexValue (digits : List Nat) : Nat := (digits.filterMap hexDigit).foldl (fun n d => 16 * n + d) 0

structure Header where
  before : Blanks
  digits : HexDigits
  behind : Blanks
  exts : List Extension
  ending : LineEnd

namespace Header

def sizeText (h : Header) : Bytes := h.before.1 ++ h.digits.1 ++ h.behind.1

def content (h : Header) : Bytes := h.sizeText ++ h.exts.flatMap Extension.text

/-- The line without its LF. -/
def line (h : Header) : Bytes := h.content ++ h.ending.cr

def size (h : Header) : Nat := hexValue (h.digits.1.map UInt8.toNat)

def ieof (h : Header) : Bool := h.exts.any Extension.isIEOF

end Header

structure Chunk where
  header : Header
  data : Bytes
  closing : LineEnd
  size_eq : header.size = data.length
  data_ne : data ≠ []

def Chunk.text (c : Chunk) : Bytes := c.header.line ++ 0x0a :: (c.data ++ (c.closing.cr ++ [0x0a]))

/-- The empty line behind the last chunk, or the end of the input in its place. -/
inductive Closing
  | emptyLine (e : LineEnd)
  | endOfInput

@[simp] def Closing.text : Closing → Bytes
  | .emptyLine e => e.cr ++ [0x0a]
  | .endOfInput => []

structure Encoding where
  chunks : List Chunk
  last : Header
  last_size : last.size = 0

namespace Encoding

/-- The encoding up to the line of the last chunk. -/
def text (e : Encoding) : Bytes := e.chunks.flatMap Chunk.text ++ (e.last.line ++ [0x0a])

def data (e : Encoding) : Bytes := e.chunks.flatMap Chunk.data

def ieof (e : Encoding) : Bool := e.last.ieof

end Encoding

end MS.Icap
