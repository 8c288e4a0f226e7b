import Mailstrix.Impl.Scan.Meta

/-!
# The scanner

`scanner.go`, `scan_extracted.go`, `extmismatch.go`: one scan of one body.  The raw bytes are scanned
first, then every stream that the extractor found, then the out-of-band markers; reputation feeds and
response tags come last.

What the scanner does not decide is the `World` of a scan: the clock, what each native scan returns, what
the extractor returns, what the feeds know.  Compiled rulesets are an arbitrary type `R`.
-/

namespace MS.Scan

open Framework

/-! ## Matches and channels -/

/-- A matched rule; `info` is its `Meta` map. -/
structure Match where
  rule : Bytes
  ns : Bytes := []
  tags : List Bytes := []
  info : List (Bytes × Bytes) := []
deriving DecidableEq, Repr

/-- `matchKey`. -/
def Match.key (m : Match) : Bytes × Bytes := (m.ns, m.rule)

def markerTag : Bytes := ascii "marker"

def matchIsMarker (m : Match) : Bool := m.tags.contains markerTag

def filterMarkerChannel (ms : List Match) (markerChannel : Bool) : List Match :=
  ms.filter fun m => matchIsMarker m == markerChannel

inductive ScanError where
  | noRules
  | native (code : Nat)
  | extractor
  | incomplete
  | deadline
  | panicked
deriving DecidableEq, Repr

/-! ## What the extractor returns -/

inductive TopType where
  | none | ole | zip | archive | pdf | rtf | lnk | oneNote | tnef | slk | spreadsheetML | mime
deriving DecidableEq, Repr

/-- A stop of the extractor at one of its caps while input was left. -/
inductive CapStop where
  /-- `stopHit` or `capHit` is called with this kind. -/
  | hit (kind : Bytes)
  /-- Nothing is called: so the budgets of the static decoders (`fromEncoded`), of macro containers (`fromOOXML`) and of
  their modules (`codes`). -/
  | silent
deriving DecidableEq, Repr

/-- `Result.capHit` at the stops that call it: each kind once, in first-hit order. -/
def capHit (hits : List Bytes) : CapStop → List Bytes
  | .hit kind => if kind ∈ hits then hits else hits ++ [kind]
  | .silent => hits

/-- The part of `extract.Result` that a verdict depends on, and in `stops` the caps that the extractor ran into. -/
structure Extraction where
  streams : List Bytes := []
  markers : List Bytes := []
  vbaStreams : List Bytes := []
  contentStreams : Nat := 0
  mimeAttachments : List Bytes := []
  topType : TopType := .none
  isRTF : Bool := false
  isMSI : Bool := false
  isLNK : Bool := false
  isOneNote : Bool := false
  isOLEPackage : Bool := false
  isDoc : Bool := false
  failed : Bool := false
  panicked : Bool := false
  retainedTruncated : Bool := false
  stops : List CapStop := []
deriving DecidableEq, Repr

def Extraction.capHits (res : Extraction) : List Bytes := res.stops.foldl capHit []

/-- The format extractors' streams come first, smallest first; what static decoding added follows in
its own order. -/
def streamScanOrder (res : Extraction) : List Bytes :=
  (res.streams.take res.contentStreams).insertionSort (fun a b => a.length ≤ b.length) ++
    res.streams.drop res.contentStreams

/-! ## Renamed containers -/

def extMismatchMarkerPrefix : Bytes := ascii "EXT-MISMATCH"

def benignExts : List Bytes :=
  [".txt", ".text", ".log", ".csv", ".rtf", ".jpg", ".jpeg", ".png", ".gif", ".bmp", ".webp", ".pdf", ".html",
    ".htm", ".xml", ".json", ".mp3", ".mp4", ".wav", ".avi", ".mov", ".dat", ".bin", ".tmp"].map ascii

def officeExts : List Bytes :=
  [".doc", ".docx", ".docm", ".dot", ".dotx", ".dotm", ".xls", ".xlsx", ".xlsm", ".xlsb", ".xlt", ".xltx",
    ".xltm", ".xla", ".xlam", ".xlm", ".ppt", ".pptx", ".pptm", ".pps", ".ppsx", ".ppsm", ".ppa", ".ppam",
    ".pot", ".potx", ".potm", ".sldm", ".sldx", ".xps"].map ascii

/-- The benign extension that names a top-level type correctly. -/
def topTypeOwnExt : TopType → Option Bytes
  | .pdf => some (ascii ".pdf")
  | .tnef => some (ascii ".dat")
  | .spreadsheetML => some (ascii ".xml")
  | _ => none

/-- `strings.TrimPrefix(ext, ".")`. -/
def claimed : Bytes → Bytes
  | 0x2e :: t => t
  | ext => ext

/-- A container of kind `actual` wears a benign extension that is none of its own. -/
def coat (actual : String) (own : List Bytes) (ext : Bytes) : Option Bytes :=
  if ext ∈ own then none
  else if ext ∈ benignExts then some (ascii actual ++ claimed ext)
  else none

/-- The most specific recovered type decides. -/
def extMismatch (H : Hashes) (res : Extraction) (ext : Bytes) : Option Bytes :=
  if ext = [] then none
  else
    let ext := toLower H ext
    if res.isRTF then coat "rtf:" [ascii ".rtf", ascii ".doc"] ext
    else if res.isMSI then coat "msi:" [ascii ".msi", ascii ".msp"] ext
    else if res.isLNK then coat "lnk:" [ascii ".lnk"] ext
    else if res.isOneNote then coat "onenote:" [ascii ".one", ascii ".onepkg"] ext
    else if res.isOLEPackage then coat "ole-package:" [] ext
    else if res.isDoc then coat "office-doc:" (officeExts ++ (topTypeOwnExt res.topType).toList) ext
    else none

/-- The marker that the scanner builds itself. -/
def mismatchMarker (H : Hashes) (res : Extraction) (ext : Bytes) : Option Bytes :=
  (extMismatch H res ext).map fun d => extMismatchMarkerPrefix ++ 0x20 :: d

/-! ## The world of a scan -/

structure ScanVars where
  vba : Bool := false
  filename : Bytes := []
  extension : Bytes := []
  fileType : Bytes := []
deriving DecidableEq, Repr

def second : Int := 1000000000

/-- What `EffortProfileFor` grants: no time limit, or at least `minScanTimeout`. -/
structure EffortProfile where
  scanTimeout : Int
  reputationFeeds : Bool
  floor : scanTimeout = 0 ∨ second ≤ scanTimeout

structure Scanner where
  bigFileThreshold : Int
  scanTimeout : Int
  allowlist : List Bytes := []
  canary : Bool := false

/-- The rulesets and the denylist that one lease pins. -/
structure Generation (R : Type) where
  rules : Option R
  bigRules : Option R := none
  markerRules : Option R := none
  deny : List Bytes := []

/-- A feed's rule name and the digest or URL that it knows. -/
structure FeedHit where
  rule : Bytes
  ioc : Bytes
deriving DecidableEq, Repr

/-- Readings of the clock never go back.  The outcome of a native scan may depend on everything,
also on how many were made before. -/
structure World (R : Type) where
  clock : Nat → Int
  monotone : Monotone clock
  native : Nat → R → Bytes → ScanVars → Int → Except ScanError (List Match)
  extraction : Extraction
  extractorReads : Nat
  sha256 : Bytes → Bytes
  mbazaar : Option (Bytes → List FeedHit) := none
  urlhaus : Option (Bytes → List FeedHit) := none
  threatfox : Option (Bytes → List FeedHit) := none
  panics : Bool := false

/-! ## The sweep over streams and markers -/

/-- What became of one entry of the sweep. -/
inductive Visited where
  | duplicate
  | outOfTime
  | failed
  | scanned
deriving DecidableEq, Repr

structure Visit where
  entry : Bytes
  markerChannel : Bool
  result : Visited
deriving DecidableEq, Repr

/-- The state of `extractScan`.  `scans` and `reads` count native scans and clock readings so far;
`visits` records what the sweep did and decides nothing. -/
structure Sweep where
  seen : List Bytes
  matchSeen : List (Bytes × Bytes)
  out : List Match
  incomplete : Bool
  completionErr : Option ScanError
  scans : Nat
  reads : Nat
  visits : List Visit := []

/-- What stays fixed during a sweep. -/
structure SweepContext (R : Type) where
  scanner : Scanner
  generation : Generation R
  rules : R
  scanMeta : ScanMeta
  deadline : Option Int
  vbaKeys : List Bytes
  world : World R

def Sweep.merge (x : Sweep) : List Match → Sweep
  | [] => x
  | m :: ms =>
    if m.key ∈ x.matchSeen then x.merge ms
    else { x with matchSeen := m.key :: x.matchSeen, out := x.out ++ [m] }.merge ms

def Sweep.visit (x : Sweep) (entry : Bytes) (markerChannel : Bool) (result : Visited) : Sweep :=
  { x with visits := x.visits ++ [⟨entry, markerChannel, result⟩] }

/-- The ruleset for `n` bytes of content. -/
def contentRules {R : Type} (s : Scanner) (g : Generation R) (rules : R) (b : Bytes) : R :=
  if 0 < s.bigFileThreshold ∧ s.bigFileThreshold < b.length then g.bigRules.getD rules else rules

namespace SweepContext

variable {R : Type} (H : Hashes) (c : SweepContext R)

def streamRules (stream : Bytes) (markerChannel : Bool) : R :=
  if markerChannel then c.generation.markerRules.getD c.rules
  else contentRules c.scanner c.generation c.rules stream

/-- Markers are scanned with no external variable set. -/
def streamVars (stream : Bytes) (markerChannel : Bool) : ScanVars :=
  if markerChannel then {}
  else
    { vba := c.vbaKeys.contains (streamDedupKey H stream)
      filename := c.scanMeta.filename
      extension := c.scanMeta.extension
      fileType := c.scanMeta.fileType }

/-- One entry through dedup, the shared budget and merge; the second result stops the loop. -/
def scan (x : Sweep) (stream : Bytes) (markerChannel : Bool) : Sweep × Bool :=
  let h := streamDedupKey H stream
  if h ∈ x.seen then (x.visit stream markerChannel .duplicate, false)
  else
    let x := { x with seen := h :: x.seen }
    let budget := match c.deadline with
      | none => c.scanner.scanTimeout
      | some d => d - c.world.clock x.reads
    let x := if c.deadline.isSome then { x with reads := x.reads + 1 } else x
    if c.deadline.isSome && budget < second then
      ({ x with incomplete := true }.visit stream markerChannel .outOfTime, true)
    else
      let found := c.world.native x.scans (c.streamRules stream markerChannel) stream
        (c.streamVars H stream markerChannel) budget
      let x := { x with scans := x.scans + 1 }
      match found with
      | .error e =>
        ({ x with completionErr := some e, incomplete := true }.visit stream markerChannel .failed, false)
      | .ok ms => ((x.merge (filterMarkerChannel ms markerChannel)).visit stream markerChannel .scanned, false)

def scanEach (markerChannel : Bool) : Sweep → List Bytes → Sweep
  | x, [] => x
  | x, stream :: rest =>
    let r := c.scan H x stream markerChannel
    if r.2 then r.1 else scanEach markerChannel r.1 rest

/-- Streams, then the renamed-container marker, then the extractor's markers. -/
def scanStreamLoop (x : Sweep) : Sweep :=
  let res := c.world.extraction
  let x := c.scanEach H false x (streamScanOrder res)
  let x := match mismatchMarker H res c.scanMeta.extension with
    | none => x
    | some marker => (c.scan H x marker true).1
  c.scanEach H true x res.markers

end SweepContext

/-! ## Reputation feeds -/

/-- What a feed pass found; `looked` lists the buffers it got to. -/
structure FeedRun where
  hits : List Match := []
  incomplete : Bool := false
  reads : Nat
  looked : List Bytes := []

/-- `!deadline.IsZero() && !time.Now().Before(deadline)`. -/
def passed (clock : Nat → Int) (reads : Nat) : Option Int → Bool
  | none => false
  | some d => !(clock reads < d)

/-- One reading of the clock if there is a deadline to compare it with. -/
def readsFor (deadline : Option Int) : Nat := if deadline.isSome then 1 else 0

section Feeds

variable {R : Type} (H : Hashes) (w : World R) (deadline : Option Int)

/-- The loop of `mbazaarMatches`; files with one digest are looked up once. -/
def mbazaarLoop (check : Bytes → List FeedHit) (f : FeedRun) (seen : List Bytes) : List Bytes → FeedRun
  | [] => f
  | file :: rest =>
    if passed w.clock f.reads deadline then { f with incomplete := true, reads := f.reads + 1 }
    else
      let digest := w.sha256 file
      let f := { f with reads := f.reads + readsFor deadline, looked := f.looked ++ [file] }
      if digest ∈ seen then mbazaarLoop check f seen rest
      else
        let hits := (check digest).map fun h =>
          { rule := h.rule, tags := [ascii "malwarebazaar"], info := [(ascii "sha256", h.ioc)] }
        mbazaarLoop check { f with hits := f.hits ++ hits } (digest :: seen) rest

def mbazaarFiles (buf : Bytes) (res : Extraction) : List Bytes :=
  if res.topType = .mime then res.mimeAttachments else [buf]

/-- The hits of one feed on one buffer, each URL once over the whole pass. -/
def feedHits (tag : String) (seen : List Bytes) : List FeedHit → List Match × List Bytes
  | [] => ([], seen)
  | h :: rest =>
    if h.ioc ∈ seen then feedHits tag seen rest
    else
      let (ms, seen) := feedHits tag (h.ioc :: seen) rest
      ({ rule := h.rule, tags := [ascii tag], info := [(ascii "url", h.ioc)] } :: ms, seen)

/-- URLs already reported, for each of the two feeds. -/
structure FeedSeen where
  url : List Bytes := []
  tf : List Bytes := []

def addFeedHits (f : FeedRun) (seen : FeedSeen) (b : Bytes) : FeedRun × FeedSeen :=
  let (uh, url) := feedHits "urlhaus" seen.url ((w.urlhaus.map (· b)).getD [])
  let (tf, tfs) := feedHits "threatfox" seen.tf ((w.threatfox.map (· b)).getD [])
  ({ f with hits := f.hits ++ uh ++ tf, looked := f.looked ++ [b] }, { url := url, tf := tfs })

/-- The loop of `urlFeedMatches` over the streams, in extractor order. -/
def urlFeedLoop (f : FeedRun) (seen : FeedSeen) (fed : List Bytes) : List Bytes → FeedRun
  | [] => f
  | stream :: rest =>
    if passed w.clock f.reads deadline then { f with incomplete := true, reads := f.reads + 1 }
    else
      let f := { f with reads := f.reads + readsFor deadline }
      let k := streamDedupKey H stream
      if k ∈ fed then urlFeedLoop { f with looked := f.looked ++ [stream] } seen fed rest
      else
        let r := addFeedHits w f seen stream
        urlFeedLoop r.1 r.2 (k :: fed) rest

def urlFeedMatches (reads : Nat) (buf rawSeed : Bytes) (res : Extraction) : FeedRun :=
  let r := addFeedHits w { reads := reads } {} buf
  urlFeedLoop H w deadline r.1 r.2 [rawSeed] res.streams

end Feeds

/-! ## The verdict -/

def filterDenied (H : Hashes) (deny : List Bytes) (ms : List Match) : List Match :=
  ms.filter fun m => !deny.contains (toLower H m.rule)

def Scanner.applyResponseTags (H : Hashes) (s : Scanner) (ms : List Match) : List Match :=
  ms.map fun m =>
    let allow := if s.allowlist.contains (toLower H m.rule) then [(ascii "mailstrix_allow", ascii "1")] else []
    let canary := if s.canary then [(ascii "mailstrix_canary", ascii "1")] else []
    { m with info := canary ++ allow ++ m.info }

def scanIncompleteMatch : Match where
  rule := ascii "MAILSTRIX_SCAN_INCOMPLETE"
  tags := [ascii "scan-incomplete"]
  info := [(ascii "description",
      ascii "SCAN-INCOMPLETE: not every extracted stream was scanned (budget, scan error or extractor panic)"),
    (ascii "mailstrix_allow", ascii "1")]

/-- `late` says whether the deadline has passed by now. -/
def finalScanVerdict (out : List Match) (incomplete : Bool) (completionErr rawErr : Option ScanError)
    (requireComplete late : Bool) : List Match × Option ScanError :=
  let completionErr := if incomplete then completionErr.or (some .incomplete) else completionErr
  let out := if incomplete then out ++ [scanIncompleteMatch] else out
  let completionErr := if late then some .deadline else completionErr
  if requireComplete && completionErr.isSome then (out, completionErr)
  else if rawErr.isSome && out.isEmpty then ([], rawErr)
  else if incomplete then (out, some .incomplete)
  else (out, none)

def extractionIncomplete (res : Extraction) (late : Bool) : Bool :=
  late || res.panicked || res.retainedTruncated || !res.capHits.isEmpty

/-- A scan from beginning to end.  `verdict` is what `scanGeneration` returns; the other fields say what
happened on the way. -/
structure Scanned where
  rawErr : Option ScanError
  /-- The extractor's deadline, and the number of the first clock reading that it took. -/
  extractDeadline : Option Int
  extractStart : Nat
  sweep : Sweep
  mbazaar : FeedRun
  urlFeeds : FeedRun
  verdict : List Match × Option ScanError

section Scan

variable {R : Type} (H : Hashes) (s : Scanner) (profile : EffortProfile) (g : Generation R)
variable (buf : Bytes) (m : ScanMeta) (w : World R)

def rawVars : ScanVars := { filename := m.filename, extension := m.extension, fileType := m.fileType }

/-- The raw bytes' native scan: the first that a scan makes. -/
def rawOutcome (rules : R) : Except ScanError (List Match) :=
  w.native 0 (contentRules s g rules buf) buf (rawVars m) profile.scanTimeout

/-- The raw channel: matches that are not a marker's, or the error. -/
def scanRawChannel (rules : R) : List Match × Option ScanError :=
  match rawOutcome s profile g buf m w rules with
  | .error e => ([], some e)
  | .ok ms => (filterMarkerChannel ms false, none)

def rawSeed : Bytes := if m.rawKey = List.replicate 16 0 then streamDedupKey H buf else m.rawKey

def scanDeadline : Option Int := if 0 < profile.scanTimeout then some (w.clock 0 + profile.scanTimeout) else none

/-- Extraction gets half of what the raw scan left. -/
def extractDeadline : Option Int :=
  (scanDeadline profile w).map fun d => w.clock 1 + (d - w.clock 2).tdiv 2

def extractStart : Nat := if 0 < profile.scanTimeout then 3 else 0

def sweepContext (rules : R) : SweepContext R where
  scanner := s
  generation := g
  rules := rules
  scanMeta := m
  deadline := scanDeadline profile w
  vbaKeys := w.extraction.vbaStreams.map (streamDedupKey H)
  world := w

/-- The sweep's state before its first entry. -/
def sweepStart (rules : R) : Sweep :=
  let raw := scanRawChannel s profile g buf m w rules
  let extracted := extractStart profile + w.extractorReads
  let late := passed w.clock extracted (extractDeadline profile w)
  let failed := (w.extraction.failed || w.extraction.panicked) && raw.2.isNone
  { seen := [rawSeed H buf m]
    matchSeen := raw.1.map Match.key
    out := raw.1
    incomplete := extractionIncomplete w.extraction late
    completionErr := if failed then some .extractor else raw.2
    scans := 1
    reads := extracted + readsFor (extractDeadline profile w) }

def scanRules (rules : R) : Scanned :=
  let x := (sweepContext H s profile g m w rules).scanStreamLoop H (sweepStart H s profile g buf m w rules)
  let deadline := scanDeadline profile w
  let out := filterDenied H g.deny x.out
  let mb := match w.mbazaar with
    | some check =>
      if profile.reputationFeeds then
        mbazaarLoop w deadline check { reads := x.reads } [] (mbazaarFiles buf w.extraction)
      else { reads := x.reads }
    | none => { reads := x.reads }
  let uf :=
    if profile.reputationFeeds && (w.urlhaus.isSome || w.threatfox.isSome) then
      urlFeedMatches H w deadline mb.reads buf (rawSeed H buf m) w.extraction
    else { reads := mb.reads }
  let out := s.applyResponseTags H (out ++ mb.hits ++ uf.hits)
  let incomplete := x.incomplete || mb.incomplete || uf.incomplete
  { rawErr := (scanRawChannel s profile g buf m w rules).2
    extractDeadline := extractDeadline profile w
    extractStart := extractStart profile
    sweep := x
    mbazaar := mb
    urlFeeds := uf
    verdict := finalScanVerdict out incomplete x.completionErr (scanRawChannel s profile g buf m w rules).2
      m.requireComplete (passed w.clock uf.reads deadline) }

def scanGeneration : List Match × Option ScanError :=
  match g.rules with
  | none => ([], some .noRules)
  | some rules => (scanRules H s profile g buf m w rules).verdict

/-- A panic of the scanner becomes an error. -/
def dispatchLease : List Match × Option ScanError :=
  if w.panics then ([], some .panicked) else scanGeneration H s profile g buf m w

/-- What the leader of a flight puts into the verdict cache: the matches of a scan without an error. -/
def cachePut : Option (List Match) :=
  match dispatchLease H s profile g buf m w with
  | (ms, none) => some ms
  | (_, some _) => none

end Scan

end MS.Scan
