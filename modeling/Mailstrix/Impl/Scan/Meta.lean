import Mailstrix.Framework.Utf8

/-!
# Scan requests and their verdict keys

`scanner.go`, `server.go`, `clamd.go`, `icap.go`: how a request becomes a `ScanMeta`, and how the meta,
the rules fingerprint and the body hash become the one text that the verdict cache and the flights are
keyed by.

Go strings are byte lists.  The two hash functions and the Unicode lower-case table come from outside
and are parameters.
-/

namespace MS.Scan

open Framework

/-- A string literal of ASCII characters. -/
def ascii (s : String) : Bytes := s.toList.map fun c => UInt8.ofNat c.toNat

/-- `xxh3.Hash128` as its low and high word, `xxhash.Sum64` of what was written, `unicode.ToLower`. -/
structure Hashes where
  hash128 : Bytes → UInt64 × UInt64
  sum64 : Bytes → UInt64
  toLower : Nat → Nat

/-! ## Attachment names -/

@[ext]
structure ScanMeta where
  filename : Bytes := []
  extension : Bytes := []
  fileType : Bytes := []
  effort : Int := 0
  rawKey : Bytes := List.replicate 16 0
  pwCandidates : List Bytes := []
  /-- Set only by the admission scan of the sandbox, which is never cached. -/
  requireComplete : Bool := false
deriving DecidableEq, Repr

def maxFilenameLen : Nat := 255

/-- `unicode.IsSpace`. -/
def isSpace (r : Nat) : Bool :=
  (0x09 ≤ r && r ≤ 0x0d) || (0x2000 ≤ r && r ≤ 0x200a) ||
    [0x20, 0x85, 0xa0, 0x1680, 0x2028, 0x2029, 0x202f, 0x205f, 0x3000].contains r

/-- `strings.TrimSpace`, on runes. -/
def trimSpace (rs : List Nat) : List Nat :=
  ((rs.dropWhile isSpace).reverse.dropWhile isSpace).reverse

theorem mem_of_mem_trimSpace {rs : List Nat} {r : Nat} (h : r ∈ trimSpace rs) : r ∈ rs := by
  have h₁ := (List.dropWhile_sublist _).subset (List.mem_reverse.mp h)
  exact (List.dropWhile_sublist _).subset (List.mem_reverse.mp h₁)

/-- The rune is no control character: what the two `strings.Map` calls keep. -/
def printable (r : Nat) : Bool := !(r < 0x20 || r == 0x7f)

/-- Control characters dropped, then trimmed.  `strings.Map` leaves well-formed text, so that trimming
its runes is trimming the text. -/
def cleaned (b : Bytes) : Bytes := encodeRunes (trimSpace ((runes b).filter printable))

/-- What follows the last path separator of either kind. -/
def basename (name : Bytes) : Bytes :=
  (name.reverse.takeWhile fun c => c != 0x2f && c != 0x5c).reverse

/-- What follows the last dot, dot included: none for a name that begins or ends with that dot. -/
def dotSuffix (name : Bytes) : Bytes :=
  let tail := name.reverse.takeWhile (· != 0x2e)
  if tail ≠ [] ∧ tail.length + 1 < name.length then 0x2e :: tail.reverse else []

def fileTypeFromExtension (ext : Bytes) : Bytes :=
  if ext = ascii ".msg" ∨ ext = ascii ".oft" then ascii "outlook" else []

section Meta

variable (H : Hashes)

/-- `strings.ToLower`. -/
def toLower (b : Bytes) : Bytes := encodeRunes ((runes b).map H.toLower)

def newScanMeta (name : Bytes) : ScanMeta :=
  let name := (cleaned (basename name)).take maxFilenameLen
  if name = [] then {}
  else
    let ext := toLower H (dotSuffix name)
    { filename := name, extension := ext, fileType := fileTypeFromExtension ext }

/-! ## Request headers -/

/-- A base64 character's value. -/
def base64Value (c : UInt8) : Option Nat :=
  if 0x41 ≤ c ∧ c ≤ 0x5a then some (c.toNat - 0x41)
  else if 0x61 ≤ c ∧ c ≤ 0x7a then some (c.toNat - 0x61 + 26)
  else if 0x30 ≤ c ∧ c ≤ 0x39 then some (c.toNat - 0x30 + 52)
  else if c = 0x2b then some 62
  else if c = 0x2f then some 63
  else none

/-- The bytes of two, three or four base64 characters. -/
def base64Group (cs : Bytes) : Option Bytes := do
  match ← cs.mapM base64Value with
  | [a, b] => some [UInt8.ofNat (a * 4 + b / 16)]
  | [a, b, c] => some [UInt8.ofNat (a * 4 + b / 16), UInt8.ofNat (b * 16 + c / 4)]
  | [a, b, c, d] => some [UInt8.ofNat (a * 4 + b / 16), UInt8.ofNat (b * 16 + c / 4), UInt8.ofNat (c * 64 + d)]
  | _ => none

/-- `StdEncoding.DecodeString` when `padded`, `RawStdEncoding.DecodeString` otherwise. -/
def base64Decode (padded : Bool) : Bytes → Option Bytes
  | a :: b :: c :: d :: rest =>
    if padded && d == 0x3d && rest.isEmpty then
      if c == 0x3d then base64Group [a, b] else base64Group [a, b, c]
    else do
      let group ← base64Group [a, b, c, d]
      let others ← base64Decode padded rest
      some (group ++ others)
  | [] => some []
  | cs => if padded then none else base64Group cs

def decodeFilenameB64 (s : Bytes) : Option Bytes :=
  let s := s.filter fun c => !(c == 0x0a || c == 0x0d || c == 0x20 || c == 0x09)
  (base64Decode true s).or (base64Decode false s)

def maxHeaderPWCandidates : Nat := 32

def maxHeaderPWCandidateLen : Nat := 64

/-- The loop over the lines of the candidate header; what is kept so far is also what was seen. -/
def pwCandidateLines : List Bytes → List Bytes → List Bytes
  | out, [] => out
  | out, line :: rest =>
    let c := cleaned line
    if c = [] ∨ maxHeaderPWCandidateLen < c.length then pwCandidateLines out rest
    else if c ∈ out then pwCandidateLines out rest
    else if maxHeaderPWCandidates ≤ (out ++ [c]).length then out ++ [c]
    else pwCandidateLines (out ++ [c]) rest

def pwCandidatesFromRequest (header : Bytes) : List Bytes :=
  if header = [] then []
  else match decodeFilenameB64 header with
    | none => []
    | some dec =>
      pwCandidateLines [] ((dec.take (maxHeaderPWCandidates * (maxHeaderPWCandidateLen + 1))).splitOn 0x0a)

/-- `strconv.Atoi`. -/
def atoi (b : Bytes) : Option Int :=
  let (negative, digits) := match b with
    | 0x2d :: t => (true, t)
    | 0x2b :: t => (false, t)
    | t => (false, t)
  if digits = [] ∨ ¬ digits.all fun c => 0x30 ≤ c && c ≤ 0x39 then none
  else
    let n : Int := digits.foldl (fun n c => n * 10 + (c.toNat - 0x30)) 0
    let n := if negative then -n else n
    if -2 ^ 63 ≤ n ∧ n < 2 ^ 63 then some n else none

/-- The value of the effort header, if it carries an integer. -/
def effortHeader (header : Bytes) : Option Int :=
  let raw := encodeRunes (trimSpace (runes header))
  if raw = [] then none else atoi raw

def resolveEffortLevel (header : Option Int) (envDefault effortMax : Int) : Int :=
  let level := header.getD envDefault
  let effortMax := if effortMax < 1 then 1 else effortMax
  let level := if level < 1 then 1 else level
  if level > effortMax then effortMax else level

/-! ## The verdict key -/

/-- `strconv.Itoa`. -/
def itoa (n : Int) : Bytes := if n < 0 then 0x2d :: numeral 10 n.natAbs else numeral 10 n.natAbs

/-- The suffix that carries the candidate passwords, absent when there are none. -/
def pwSuffix (candidates : List Bytes) : Bytes :=
  if candidates = [] then []
  else 0 :: (ascii "pw:" ++ numeral 16 (H.sum64 (frames candidates)).toNat)

def ScanMeta.cacheKey (m : ScanMeta) : Bytes :=
  m.filename ++ 0 :: (m.extension ++ 0 :: (m.fileType ++ 0 :: (itoa m.effort ++ pwSuffix H m.pwCandidates)))

def littleEndian64 (n : UInt64) : Bytes := (bigEndian 8 n.toNat).reverse

def streamDedupKey (b : Bytes) : Bytes :=
  littleEndian64 (H.hash128 b).1 ++ littleEndian64 (H.hash128 b).2

/-- `extract.Version`. -/
def extractVersion : Bytes :=
  ascii "ole2+msi+vbe+msg+onenote+archive+olepkg+lnk+pdf+rtf+decode+tmplinj+dde+xlm+" ++
  ascii "stomp+userform+docprops+strfold+rtftricks+xlmfold+strrev+environ+dridex+oleid+" ++
  ascii "bounds+ole2link+pdfdeepen+msd+pdflex+nested+pdfendstr+pdffilter+defang+msdenc+" ++
  ascii "msddeep+xlmbiff+xlsb+slk+xlminterp+oledir+oletimes+enctype+digsig+pdfendstr2+" ++
  ascii "rtfquote+csvdde+effort4+xlmbinop+xlmdde+xlmname+dsf+defaultpw+defaultpwrc4+" ++
  ascii "pptvba+xlmemul+xlmemulbiff+xlmemuldepth+oleid2+ddews+docsec+dcufpayload+" ++
  ascii "xlmstack+oleextra+htmlsmuggle+encarchive+polyglot+xll+htmlnested+encarchivehdr+" ++
  ascii "onenoterec+rtfcfbole+fmtcaplocal+csvquote+nestedooxmlopts+ddeparts+oleidorder+" ++
  ascii "utf16decode+vbastream+officesibling+mhtmlrel+svgpayload+fibenc+pptenc+" ++
  ascii "b64pecarve+tnef+olemeta+htmldatauri+peanalyze+xlmfuncarity+biffcontinue+xlsbdde+" ++
  ascii "vbsvarreplace+shrfmla+cabcarve+batcarve+jarunpack+sibcarriermit+biff12arity+" ++
  ascii "biff12attr+pptzcap+oleparsehard+staticdedup+biff12fmla+oleparsefat+" ++
  ascii "launcherfields+msixfields+launcherutf16+mimeidentity+decoderstatus+" ++
  ascii "retainedlimit+xxh3key"

/-- `hex.EncodeToString`. -/
def hexText (b : Bytes) : Bytes := b.flatMap fun c => [digit (c.toNat / 16), digit (c.toNat % 16)]

/-- The identity of what a lease pins: the first eight bytes of the SHA-256 of the rule names, of the
rule sources and of the denylist, each absent before the first load, and of the scoring policy. -/
structure Identity where
  fp : Option Bytes := none
  contentFP : Option Bytes := none
  denylistFP : Option Bytes := none
  policy : Bytes
deriving DecidableEq, Repr

def Identity.fingerprint (i : Identity) : Bytes :=
  let text (x : Option Bytes) : Bytes := hexText (x.getD [])
  extractVersion ++ 0x3a :: (text i.fp ++ 0x3a :: (text i.contentFP ++ 0x3a ::
    (text i.denylistFP ++ 0x3a :: hexText i.policy)))

/-! ## Requests -/

/-- The three front ends.  Only HTTP carries headers: the attachment name, the candidate passwords and
the effort. -/
inductive Request where
  | http (filename pwCandidates effort body : Bytes)
  | clamd (body : Bytes)
  | icap (body : Bytes)
deriving DecidableEq, Repr

def Request.body : Request → Bytes
  | .http _ _ _ body | .clamd body | .icap body => body

def Request.isIcap : Request → Bool
  | .icap _ => true
  | _ => false

/-- A request as a server takes it in hand: the server's settings, the default effort that the admission
gate yields at that moment, and the identity that its lease pins. -/
structure Arrival where
  archivePW : Bool
  effortMax : Int
  envDefault : Int
  identity : Identity
  request : Request
deriving DecidableEq, Repr

def scanMetaFromRequest (filename pwCandidates : Bytes) (archivePW : Bool) : ScanMeta :=
  let m := if filename = [] then {} else ((decodeFilenameB64 filename).map (newScanMeta H)).getD {}
  if archivePW then { m with pwCandidates := pwCandidatesFromRequest pwCandidates } else m

namespace Arrival

/-- `handleScan`, the clamd worker and `handleICAPMod` up to the lookup. -/
def scanMeta (a : Arrival) : ScanMeta :=
  match a.request with
  | .http filename pwCandidates effort body =>
    { scanMetaFromRequest H filename pwCandidates a.archivePW with
      effort := resolveEffortLevel (effortHeader effort) a.envDefault a.effortMax
      rawKey := streamDedupKey H body }
  | .clamd body | .icap body =>
    { effort := resolveEffortLevel none a.envDefault a.effortMax, rawKey := streamDedupKey H body }

/-- The ICAP front end keys its requests apart. -/
def partition (a : Arrival) : Bytes :=
  if a.request.isIcap then ascii "icap" ++ 0 :: (a.scanMeta H).cacheKey H else (a.scanMeta H).cacheKey H

/-- `lookupScanOutcomeStarted`'s key. -/
def key (a : Arrival) : Bytes :=
  a.identity.fingerprint ++ 0x3a :: (a.partition H ++ 0x3a :: (a.scanMeta H).rawKey)

end Arrival

end Meta

end MS.Scan
