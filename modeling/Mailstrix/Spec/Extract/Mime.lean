import Mailstrix.Impl.Extract.Mime

/-!
# Header blocks

The header of a message as a list of fields and a blank line.  The carriage return of a line that ends with CRLF is the
last byte of its text.
-/

namespace MS.Extract

open Framework

/-- A field: its name, what follows the colon on the first line, and its continuation lines. -/
structure Field where
  name : Bytes
  value : Bytes
  folds : List Bytes
  name_ne : name ≠ []
  name_plain : ∀ c ∈ name, c ≠ 0x3a ∧ c ≠ 0x20 ∧ c ≠ 0x09 ∧ c ≠ 0x0d ∧ c ≠ 0x0a
  value_line : 0x0a ∉ value
  folds_line : ∀ l ∈ folds, 0x0a ∉ l ∧ ∃ c rest, l = c :: rest ∧ (c = 0x20 ∨ c = 0x09)

namespace Field

def firstLine (f : Field) : Bytes := f.name ++ 0x3a :: f.value

def lines (f : Field) : List Bytes := f.firstLine :: f.folds

end Field

/-- Lines, each with its line feed. -/
def linesText (ls : List Bytes) : Bytes := ls.flatMap (· ++ [0x0a])

def Field.text (f : Field) : Bytes := linesText f.lines

def fieldsText (fs : List Field) : Bytes := fs.flatMap Field.text

/-- The line behind the fields. -/
def blankLine (crlf : Bool) : Bytes := (if crlf then [0x0d] else []) ++ [0x0a]

section

variable (env : MimeEnv)

def Field.isType (f : Field) : Bool := env.toLower f.name = contentType

def Field.isContext (f : Field) : Bool := !f.isType env && isMIMEContextHeader (env.toLower f.name)

/-- The header of a MIME message: a `Content-Type` field and another one, in any order. -/
structure MimeHeader where
  fields : List Field
  crlf : Bool
  has_type : ∃ f ∈ fields, f.isType env = true
  has_other : ∃ f ∈ fields, f.isType env = false

end

/-- The header with its blank line. -/
def MimeHeader.text {env : MimeEnv} (h : MimeHeader env) : Bytes := fieldsText h.fields ++ blankLine h.crlf

/-! ## A cut through a header -/

/-- The colon of a field of some kind is among the first `n` bytes of a header. -/
def ColonWithin (fs : List Field) (p : Field → Bool) (n : Nat) : Prop :=
  ∃ before f behind, fs = before ++ f :: behind ∧ p f ∧ (fieldsText before).length + f.name.length < n

/-- The first `n` bytes of a header end within the first line of a `Content-Type` field, behind a media type. -/
def TypeWithin (env : MimeEnv) (fs : List Field) (n : Nat) : Prop :=
  ∃ before f behind, fs = before ++ f :: behind ∧ f.isType env ∧
    (fieldsText before).length + f.name.length < n ∧ n ≤ (fieldsText before).length + f.firstLine.length ∧
    startsMediaType env (trimRight 0x0d (f.value.take (n - ((fieldsText before).length + f.name.length + 1))))

end MS.Extract
