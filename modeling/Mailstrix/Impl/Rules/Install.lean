import Mailstrix.Framework.Prog
import Mailstrix.Framework.Run

/-!
# Installing rules into the cache directory

`fetchrules.go`, `fetchrules_marker.go` and `fetchrules_marker_retry.go`: fetchers that share a cache
directory.  A fetcher alternates between work outside the lock, whose answers come from the network,
and sections under `.rules.lock`, which are programs of file-system calls.  Any call may fail.

A fetcher's temporary files have names nobody else uses, so it has them to itself; the directory's
public names are shared.  A rename either happens or fails without a change.  Instants count
nanoseconds from Go's zero time.
-/

namespace MS.Rules

open Framework

/-! ## Records -/

structure RuleSource where
  name : String
  repo : String
  license : String
  ref : String
  set : String := ""
deriving DecidableEq

/-- `RulesManifest`, the fields of its JSON form. -/
structure RulesManifest where
  version : Int := 0
  generated : String := ""
  checksum : String := ""
  libyara : String := ""
  rules : Int := 0
  size : Int := 0
  sources : List RuleSource := []
deriving DecidableEq

structure RulesMarker where
  asset : String
  sha256 : String
  size : Int
  libyaraSHA256 : String
  compilerSHA256 : String
  mainSHA256 : String
deriving DecidableEq

structure MarkerRetryState where
  marker : RulesMarker
  attempts : Int
  after : Int
deriving DecidableEq

/-- `localRulesRecord` -/
structure LocalRulesRecord where
  manifest : RulesManifest := {}
  markerRetry : Option MarkerRetryState := none
deriving DecidableEq

/-- A manifest from the network, with its validated marker field or why that was ignored. -/
structure RemoteManifest where
  manifest : RulesManifest
  marker : Option RulesMarker := none
  markerErr : Option String := none

/-! ## Files -/

/-- `markerTreeDirs` and `markerTreeFiles` -/
inductive Entry
  | compilerInputs
  | markerArtifact
  | libyaraVersion
  | sources
deriving DecidableEq

def markerTreeEntries : List Entry := [.compilerInputs, .markerArtifact, .libyaraVersion, .sources]

/-- The public names of the cache directory: `compiled.yac`, its manifest, its backup and the marker
tree. -/
inductive Name
  | bundle
  | record
  | backup
  | entry (e : Entry)
deriving DecidableEq

inductive Path
  | live (n : Name)
  /-- The rollback copy of a public file, and the marker tree moved aside. -/
  | saved (n : Name)
  | aside (e : Entry)
  /-- The downloaded bundle and the staged marker tree. -/
  | download
  | staged (e : Entry)
  /-- The bundle a marker retry is staged against. -/
  | snapshot
  /-- The temporary file of a copy or a manifest write. -/
  | temp
deriving DecidableEq

/-- A file, or a directory with the files below it. -/
inductive Node (C : Type)
  | file (c : C)
  | dir (files : List (String × C))

/-- What stands for the code this development does not contain: file contents with their size and
sha256, in hex; the rules a bundle holds when libyara loads it; `encoding/json` on the local record;
and the identity of the linked compiler. -/
structure Platform where
  Content : Type
  size : Content → Int
  digest : Content → String
  ruleCount : Content → Option Int
  encode : LocalRulesRecord → Content
  decode : Content → Option LocalRulesRecord
  decode_encode : ∀ r, decode (encode r) = some r
  markerABIMatches : RulesMarker → Bool

/-- `errors.Is(err, os.ErrNotExist)`, a file that is not what the call needs, and any failure. -/
inductive Errno
  | notExist
  | invalid
  | io
deriving DecidableEq

inductive Op (C : Type)
  | ctxErr
  | clock
  | reload
  | mkdir
  | flock
  | readFile (p : Path)
  | fileSize (p : Path)
  | hashFile (p : Path)
  | loadRules (p : Path)
  | stat (p : Path)
  | openFile (p : Path)
  | createTemp
  | copyTemp (src : Path)
  | writeTemp (c : C)
  | sync
  | close
  | chmod
  | link (src dst : Path)
  | rename (src dst : Path)
  | remove (p : Path)
  | removeAll (p : Path)

inductive Reply (C : Type)
  | done
  | content (c : C)
  | isDir (b : Bool)
  | size (n : Int)
  | digest (s : String)
  | count (n : Int)
  | time (t : Int)

abbrev Answer (C : Type) : Type := Except Errno (Reply C)

/-- What a section sees: the files, how many of its calls have been made to fail, and whether one that
reads the local record or the bundle for `trustedLocalManifest` was. -/
structure View (C : Type) where
  fs : Path → Option (Node C)
  failures : Nat := 0
  misread : Bool := false

/-- What decides an answer besides the files: whether the call fails, what the clock or the size of a
directory reads, and what a failed call leaves of what it was changing. -/
structure Input (C : Type) where
  fault : Bool := false
  value : Int := 0
  left : Option (Node C) := none

section
variable {C : Type}

def View.set (s : View C) (p : Path) (n : Option (Node C)) : View C := { s with fs := Function.update s.fs p n }

/-- `os.Rename` replaces nothing but a file, and that by a file. -/
def Node.replaces : Node C → Option (Node C) → Bool
  | _, none => true
  | .file _, some (.file _) => true
  | _, _ => false

def Op.fallible : Op C → Bool
  | .clock => false
  | _ => true

/-- Reads made by `trustedLocalManifest`. -/
def Op.trusts : Op C → Bool
  | .readFile (.live _) | .fileSize (.live _) | .hashFile (.live _) => true
  | _ => false

/-- What a failed call may have changed. -/
def Op.spoils : Op C → Option Path
  | .copyTemp _ | .writeTemp _ => some .temp
  | .removeAll p => some p
  | _ => none

/-- A call that fails for no reason of its own. -/
def View.fail (s : View C) (op : Op C) (left : Option (Node C)) : View C :=
  let s := { s with failures := s.failures + 1, misread := s.misread || op.trusts }
  match op.spoils with
  | some p => s.set p left
  | none => s

/-- A call that has the file `p` to work on. -/
def View.onFile (s : View C) (p : Path) (f : C → Answer C × View C) : Answer C × View C :=
  match s.fs p with
  | some (.file c) => f c
  | some (.dir _) => (.error .invalid, s)
  | none => (.error .notExist, s)

def View.rename (s : View C) (src dst : Path) : Answer C × View C :=
  match s.fs src with
  | none => (.error .notExist, s)
  | some n =>
    if n.replaces (s.fs dst) then (.ok .done, (s.set src none).set dst (some n)) else (.error .invalid, s)

end

variable (pf : Platform)

def perform (i : Input pf.Content) (op : Op pf.Content) (s : View pf.Content) : Answer pf.Content × View pf.Content :=
  if i.fault && op.fallible then (.error .io, s.fail op i.left) else
  match op with
  | .ctxErr | .reload | .mkdir | .flock | .createTemp | .sync | .close | .chmod => (.ok .done, s)
  | .clock => (.ok (.time i.value), s)
  | .readFile p => s.onFile p fun c => (.ok (.content c), s)
  | .fileSize p => match s.fs p with
    | some (.file c) => (.ok (.size (pf.size c)), s)
    | some (.dir _) => (.ok (.size i.value), s)
    | none => (.error .notExist, s)
  | .hashFile p => s.onFile p fun c => (.ok (.digest (pf.digest c)), s)
  | .loadRules p => s.onFile p fun c => match pf.ruleCount c with
    | some n => (.ok (.count n), s)
    | none => (.error .invalid, s)
  | .stat p => match s.fs p with
    | some (.file _) => (.ok (.isDir false), s)
    | some (.dir _) => (.ok (.isDir true), s)
    | none => (.error .notExist, s)
  | .openFile p => match s.fs p with
    | some _ => (.ok .done, s)
    | none => (.error .notExist, s)
  | .copyTemp src => s.onFile src fun c => (.ok .done, s.set .temp (some (.file c)))
  | .writeTemp c => (.ok .done, s.set .temp (some (.file c)))
  | .link src dst => s.onFile src fun c => (.ok .done, s.set dst (some (.file c)))
  | .rename src dst => s.rename src dst
  | .remove p => match s.fs p with
    | some (.file _) | some (.dir []) => (.ok .done, s.set p none)
    | some (.dir _) => (.error .invalid, s)
    | none => (.error .notExist, s)
  | .removeAll p => (.ok .done, s.set p none)

/-- A section under the lock. -/
abbrev Locked (C α : Type) : Type := Prog (Op C) (Answer C) α

section
variable {C : Type}

def call (op : Op C) : Locked C (Answer C) := Prog.ask op

/-- One call after the other, up to the first that fails. -/
def attempt : List (Op C) → Locked C (Except Errno Unit)
  | [] => return .ok ()
  | op :: ops => do
    match ← call op with
    | .error e => return .error e
    | .ok _ => attempt ops

/-- `os.RemoveAll` and, with `errors.Is(err, os.ErrNotExist)` let pass, `os.Remove` do not complain of
what is not there. -/
def complaint (op : Op C) (a : Answer C) : List Errno :=
  match op, a with
  | _, .ok _ => []
  | .remove _, .error .notExist => []
  | _, .error e => [e]

/-- Every call, the errors joined. -/
def joinAll : List (Op C) → Locked C (List Errno)
  | [] => return []
  | op :: ops => do
    let a ← call op
    let rest ← joinAll ops
    return complaint op a ++ rest

/-- `copyFileAtomic` -/
def copyFileAtomic (src dst : Path) : Locked C (Except Errno Unit) :=
  attempt [.openFile src, .createTemp, .copyTemp src, .sync, .close, .chmod, .rename .temp dst]

/-- `fileExists` -/
def fileExists (p : Path) : Locked C Bool := do
  match ← call (.stat p) with
  | .ok (.isDir dir) => return !dir
  | _ => return false

end

def writeLocalManifest (r : LocalRulesRecord) : Locked pf.Content (Except Errno Unit) :=
  attempt [.createTemp, .writeTemp (pf.encode r), .close, .chmod, .rename .temp (.live .record)]

/-! ## The trusted record -/

def trimPrefix (pre s : String) : String := if pre.isPrefixOf s then (s.drop pre.length).toString else s

/-- `strings.EqualFold`, one side being a hex digest. -/
def equalFold (s t : String) : Bool := s.toLower = t.toLower

def RulesManifest.wanted (m : RulesManifest) : String := trimPrefix "sha256:" m.checksum

/-- The bytes are those a manifest describes. -/
def verifies (m : RulesManifest) (c : pf.Content) : Bool :=
  !(0 < m.size && pf.size c != m.size) && m.wanted != "" && equalFold (pf.digest c) m.wanted

def readLocalManifest : Locked pf.Content LocalRulesRecord := do
  match ← call (.readFile (.live .record)) with
  | .ok (.content c) => return (pf.decode c).getD {}
  | _ => return {}

def verifyBundle (p : Path) (m : RulesManifest) : Locked pf.Content Bool := do
  match ← call (.fileSize p) with
  | .ok (.size n) =>
    if 0 < m.size ∧ n ≠ m.size then return false
    if m.wanted = "" then return false
    match ← call (.hashFile p) with
    | .ok (.digest got) => return equalFold got m.wanted
    | _ => return false
  | _ => return false

def trustedLocalManifest : Locked pf.Content LocalRulesRecord := do
  let m ← readLocalManifest pf
  if m.manifest.version ≤ 0 then return {}
  if ← verifyBundle pf (.live .bundle) m.manifest then return m
  return {}

/-! ## Options, results and errors -/

/-- `fetchOptions`, the linked libyara and the operator's override of the drop guard. -/
structure FetchOptions where
  minimumVersion : Int := 0
  liveCount : Int := 0
  reload : Bool := false
  markersOff : Bool := false
  ourLibyara : String := ""
  allowCountDrop : Bool := false

structure FetchResult where
  updated : Bool := false
  localVersion : Int := 0
  newVersion : Int := 0
  reason : String := ""
  publishedVersion : Int := 0
  marker : String := ""

inductive FetchError
  | plain (text : String)
  | ruleCountDrop (text : String)
  | io (text : String) (e : Errno)
  /-- A cause, and what went wrong when it was undone. -/
  | rollback (cause : FetchError) (text : String) (recovery : List Errno)

/-- The error reports a failed rollback. -/
def FetchError.rollbackFailed : FetchError → Bool
  | .rollback .. => true
  | _ => false

def markerStatusAbsent : String := "absent"
def markerStatusDisabled : String := "disabled"
def markerStatusSkipped : String := "skipped"
def markerStatusRejected : String := "rejected"
def markerStatusInstalled : String := "installed"

/-! ## The marker tree -/

/-- `markerDownloadError`, as `newMarkerRetry` looks into it. -/
structure DownloadError where
  status : Option Int := none
  timeout : Bool := false
  operation : Bool := false
  unexpectedEOF : Bool := false
  eof : Bool := false

structure StageError where
  text : String
  canceled : Bool := false
  deadlineExceeded : Bool := false
  download : Option DownloadError := none

/-- How the attempt to stage the tree went, where one is made. -/
inductive StageAnswer (C : Type)
  /-- `markerTreeContext` leaves no time. -/
  | noBudget
  | failed (e : StageError)
  /-- A tree `loadMarkerArtifact` accepts: it has read every entry. -/
  | staged (tree : Entry → Node C)

/-- What `prepareRemoteMarkerTreeLease` returns: the staged tree, the status and the error. -/
structure Prepared (C : Type) where
  stage : Option (Entry → Node C) := none
  status : String
  err : Option StageError := none

def prepareRemoteMarkerTreeLease (opts : FetchOptions) (remote : RemoteManifest) (a : StageAnswer pf.Content) :
    Prepared pf.Content :=
  if opts.markersOff then { status := markerStatusDisabled } else
  match remote.markerErr, remote.marker with
  | some e, _ => { status := markerStatusRejected ++ ": " ++ e }
  | none, none => { status := markerStatusAbsent }
  | none, some m =>
    if !pf.markerABIMatches m then
      { status := markerStatusSkipped ++ ": linked libyara/compiler identity differs" }
    else match a with
    | .noBudget =>
      { status := markerStatusSkipped ++ ": fetch budget below the reserve kept for the compiled.yac install"
        err := some { text := "context deadline exceeded", deadlineExceeded := true } }
    | .failed e => { status := markerStatusRejected ++ ": " ++ e.text, err := some e }
    | .staged tree => { stage := some tree, status := markerStatusInstalled }

def markerRetryMaxAttempts : Int := 7

def minute : Int := 60000000000

def StageError.transient (e : StageError) : Bool :=
  match e.download with
  | none => e.deadlineExceeded
  | some d =>
    (match d.status with
      | some s => s = 408 || s = 425 || s = 429 || (500 ≤ s && s ≤ 599)
      | none => false) ||
    d.timeout || d.operation || d.unexpectedEOF || d.eof

def newMarkerRetry (marker : Option RulesMarker) (err : Option StageError) (attempts now : Int) :
    Option MarkerRetryState :=
  match marker, err with
  | some m, some e =>
    if e.canceled || !e.transient then none
    else
      let attempts := min (max attempts 0) (markerRetryMaxAttempts - 1) + 1
      let delay := min (minute * 2 ^ (attempts - 1).toNat) (60 * minute)
      some { marker := m, attempts := attempts, after := now + delay }
  | _, _ => none

def markerRetryMatches (loc : LocalRulesRecord) (remote : RemoteManifest) (opts : FetchOptions) : Bool :=
  match loc.markerRetry, remote.marker with
  | some r, some m =>
    !opts.markersOff && remote.markerErr.isNone && pf.markerABIMatches m &&
    loc.manifest.version = remote.manifest.version && loc.manifest.checksum = remote.manifest.checksum &&
    loc.manifest.size = remote.manifest.size && loc.manifest.libyara = remote.manifest.libyara &&
    1 ≤ r.attempts && r.attempts ≤ markerRetryMaxAttempts && r.after != 0 && r.marker = m
  | _, _ => false

/-- `markerTreeSwap` -/
structure MarkerTreeSwap where
  moved : List Entry := []
  installed : List Entry := []

section
variable {C : Type}

def MarkerTreeSwap.retireFrom (w : MarkerTreeSwap) : List Entry → Locked C (MarkerTreeSwap × Option Errno)
  | [] => return (w, none)
  | e :: es => do
    match ← call (.stat (.live (.entry e))) with
    | .error .notExist => w.retireFrom es
    | .error err => return (w, some err)
    | .ok _ =>
      match ← call (.rename (.live (.entry e)) (.aside e)) with
      | .error err => return (w, some err)
      | .ok _ => retireFrom { w with moved := w.moved ++ [e] } es

def MarkerTreeSwap.retire (w : MarkerTreeSwap) : Locked C (MarkerTreeSwap × Option Errno) := do
  match ← call .mkdir with
  | .error err => return (w, some err)
  | .ok _ => w.retireFrom markerTreeEntries

def MarkerTreeSwap.installFrom (w : MarkerTreeSwap) : List Entry → Locked C (MarkerTreeSwap × Option Errno)
  | [] => return (w, none)
  | e :: es => do
    match ← call (.rename (.staged e) (.live (.entry e))) with
    | .error err => return (w, some err)
    | .ok _ => installFrom { w with installed := w.installed ++ [e] } es

def MarkerTreeSwap.install (w : MarkerTreeSwap) : Locked C (MarkerTreeSwap × Option Errno) :=
  w.installFrom markerTreeEntries

def MarkerTreeSwap.restore (w : MarkerTreeSwap) : Locked C (List Errno) := do
  let removed ← joinAll (w.installed.map fun e => .removeAll (.live (.entry e)))
  let renamed ← joinAll (w.moved.map fun e => .rename (.aside e) (.live (.entry e)))
  return removed ++ renamed

end

/-- The `rollback` of `installRetriedMarker`. -/
def rollbackRetry (w : MarkerTreeSwap) (loc : LocalRulesRecord) (cause : FetchError) : Locked pf.Content FetchError := do
  let restored ← w.restore
  let written ← writeLocalManifest pf loc
  let recovery := match written with
    | .ok () => restored
    | .error e => restored ++ [e]
  if recovery = [] then return cause
  return .rollback cause "marker retry rollback failed; disk cache needs recovery" recovery

def installRetriedMarker (loc : LocalRulesRecord) (opts : FetchOptions) : Locked pf.Content (Option FetchError) := do
  match ← call .ctxErr with
  | .error e => return some (.io "" e)
  | .ok _ =>
  match ← call .mkdir with
  | .error e => return some (.io "" e)
  | .ok _ =>
  match ← ({} : MarkerTreeSwap).retire with
  | (w, some e) => return some (← rollbackRetry pf w loc (.io "retire marker tree" e))
  | (w, none) =>
  match ← w.install with
  | (w, some e) => return some (← rollbackRetry pf w loc (.io "install marker tree" e))
  | (w, none) =>
  match ← writeLocalManifest pf { loc with markerRetry := none } with
  | .error e => return some (← rollbackRetry pf w loc (.io "" e))
  | .ok () =>
  if opts.reload then
    match ← call .reload with
    | .error e => return some (← rollbackRetry pf w loc (.io "reload recovered marker tree" e))
    | .ok _ => return none
  else return none

/-! ## The drop guard -/

def minRuleCountPercent : Int := 50

def checkRuleCountDrop (opts : FetchOptions) (curCount newCount : Int) : Option FetchError :=
  if opts.allowCountDrop then none
  else if newCount ≤ 0 then
    some (.ruleCountDrop "new bundle has 0 rules (set MAILSTRIX_RULES_ALLOW_COUNT_DROP to override)")
  else if 0 < curCount ∧ newCount * 100 < curCount * minRuleCountPercent then
    some (.ruleCountDrop ("new bundle has " ++ toString newCount ++ " rules, current has " ++ toString curCount ++
      " (below 50%; set MAILSTRIX_RULES_ALLOW_COUNT_DROP to override)"))
  else none

/-- The baseline when the bundle that is there cannot be counted. -/
def uncounted (opts : FetchOptions) : Except FetchError Int :=
  let cur := max opts.liveCount 0
  if opts.allowCountDrop ∨ 0 < cur then .ok cur
  else .error (.ruleCountDrop "existing bundle is unreadable; set MAILSTRIX_RULES_ALLOW_COUNT_DROP to override")

def currentRuleCount {C : Type} (opts : FetchOptions) : Locked C (Except FetchError Int) := do
  match ← call (.stat (.live .bundle)) with
  | .error .notExist => return .ok (max opts.liveCount 0)
  | .error _ => return uncounted opts
  | .ok _ =>
    match ← call (.loadRules (.live .bundle)) with
    | .ok (.count n) => return .ok (max (max opts.liveCount 0) n)
    | _ => return uncounted opts

/-! ## The install transaction -/

/-- `paths` of `fetchRules` -/
def cacheFiles : List Name := [.bundle, .record, .backup]

/-- The rollback copies; which of the files are there. -/
def saveFiles {C : Type} (existed : List Name) : List Name → Locked C (Except Errno (List Name))
  | [] => return .ok existed
  | n :: ns => do
    match ← call (.stat (.live n)) with
    | .error .notExist => saveFiles existed ns
    | .error e => return .error e
    | .ok _ =>
      match ← copyFileAtomic (.live n) (.saved n) with
      | .error e => return .error e
      | .ok () => saveFiles (existed ++ [n]) ns

/-- A file gets its rollback copy back, or goes if there was none. -/
def putBack {C : Type} (existed : List Name) (n : Name) : Op C :=
  if n ∈ existed then .rename (.saved n) (.live n) else .remove (.live n)

/-- The `rollback` of `fetchRules`. -/
def rollbackInstall {C : Type} (w : MarkerTreeSwap) (existed : List Name) (cause : FetchError) : Locked C FetchError := do
  let restored ← w.restore
  let files ← joinAll (cacheFiles.map (putBack existed))
  if restored ++ files = [] then return cause
  return .rollback cause "cache rollback failed; active rules retained but disk cache needs recovery"
    (restored ++ files)

/-- `fetchRules` from the retirement of the old tree to the reload. -/
def swapIn (opts : FetchOptions) (remote : LocalRulesRecord) (staged : Bool) (existed : List Name) :
    Locked pf.Content (Option FetchError) := do
  match ← ({} : MarkerTreeSwap).retire with
  | (w, some e) => return some (← rollbackInstall w existed (.io "retire marker tree" e))
  | (w, none) =>
  match ← (if staged then w.install else pure (w, none)) with
  | (w, some e) => return some (← rollbackInstall w existed (.io "install marker tree" e))
  | (w, none) =>
  match ← call (.rename .download (.live .bundle)) with
  | .error e => return some (← rollbackInstall w existed (.io "install bundle" e))
  | .ok _ =>
  match ← writeLocalManifest pf remote with
  | .error e => return some (← rollbackInstall w existed (.io "write local manifest" e))
  | .ok () =>
  if opts.reload then
    match ← call .reload with
    | .error e => return some (← rollbackInstall w existed (.io "reload downloaded rules" e))
    | .ok _ => return none
  else return none

/-- `fetchRules` from the rollback directory on. -/
def transact (opts : FetchOptions) (remote : LocalRulesRecord) (staged : Bool) :
    Locked pf.Content (Option FetchError) := do
  match ← call .mkdir with
  | .error e => return some (.io "" e)
  | .ok _ =>
  match ← saveFiles [] cacheFiles with
  | .error e => return some (.io "" e)
  | .ok existed =>
  match ← call .ctxErr with
  | .error e => return some (.io "" e)
  | .ok _ =>
  if ← fileExists (.live .bundle) then
    match ← copyFileAtomic (.live .bundle) (.live .backup) with
    | .error e => return some (.io "backup current bundle" e)
    | .ok () => swapIn pf opts remote staged existed
  else swapIn pf opts remote staged existed

/-! ## A fetcher -/

/-- Where a fetcher stands: `fetchRules` from its start to the install, `retryRemoteMarker`, and its
return. -/
inductive Phase (C : Type)
  | start (opts : FetchOptions)
  | manifest (opts : FetchOptions) (res : FetchResult) (loc : LocalRulesRecord)
  | download (opts : FetchOptions) (res : FetchResult) (remote : RemoteManifest)
  | stage (opts : FetchOptions) (res : FetchResult) (remote : RemoteManifest) (newCount : Int)
  | install (opts : FetchOptions) (res : FetchResult) (remote : RemoteManifest) (newCount : Int)
      (retry : Option MarkerRetryState) (staged : Bool) (status : String)
  | claim (opts : FetchOptions) (res : FetchResult) (remote : RemoteManifest)
  | retryStage (opts : FetchOptions) (res : FetchResult) (remote : RemoteManifest) (claim : MarkerRetryState)
      (now : Int)
  | retryInstall (opts : FetchOptions) (res : FetchResult) (remote : RemoteManifest) (claim : MarkerRetryState)
      (now : Int) (prepared : Prepared C)
  | returned (res : FetchResult) (err : Option FetchError)

section
variable {C : Type}

def upToDate (res : FetchResult) (remote : RemoteManifest) : String :=
  "up to date (local v" ++ toString res.localVersion ++ ", remote v" ++ toString remote.manifest.version ++ ")"

def recovered (loc : LocalRulesRecord) : String :=
  "marker tree recovered for v" ++ toString loc.manifest.version

end

/-- The manifest has arrived. -/
def gotManifest (opts : FetchOptions) (res : FetchResult) (loc : LocalRulesRecord) :
    Except FetchError RemoteManifest → Phase pf.Content
  | .error e => .returned res (some e)
  | .ok remote =>
    let res := { res with publishedVersion := remote.manifest.version }
    if remote.manifest.version < opts.minimumVersion then
      .returned res (some (.plain ("published version " ++ toString remote.manifest.version ++
        " is older than loaded version " ++ toString opts.minimumVersion)))
    else if remote.manifest.version ≤ loc.manifest.version then
      if remote.manifest.version = loc.manifest.version ∧ markerRetryMatches pf loc remote opts then
        .claim opts { res with reason := upToDate res remote } remote
      else .returned { res with reason := upToDate res remote } none
    else if opts.ourLibyara ≠ "" ∧ remote.manifest.libyara ≠ opts.ourLibyara then
      .returned res (some (.plain ("refusing update: remote bundle libyara " ++ remote.manifest.libyara ++
        " != ours " ++ opts.ourLibyara)))
    else .download opts res remote

/-- The bundle has arrived. -/
def gotBundle (opts : FetchOptions) (res : FetchResult) (remote : RemoteManifest) :
    Except FetchError pf.Content → Phase pf.Content
  | .error e => .returned res (some e)
  | .ok c =>
    if !verifies pf remote.manifest c then .returned res (some (.plain "verify bundle"))
    else match pf.ruleCount c with
    | none => .returned res (some (.plain "downloaded bundle does not load (keeping current cache)"))
    | some n => .stage opts res remote n

/-- `fetchRules` under the install lock. -/
def installSection (opts : FetchOptions) (res : FetchResult) (remote : RemoteManifest) (newCount : Int)
    (retry : Option MarkerRetryState) (staged : Bool) (status : String) : Locked pf.Content (Phase pf.Content) := do
  let loc ← trustedLocalManifest pf
  let res := { res with localVersion := loc.manifest.version, newVersion := loc.manifest.version }
  if remote.manifest.version ≤ loc.manifest.version then
    let res := { res with reason := "up to date after concurrent update" }
    if staged ∧ markerRetryMatches pf loc remote opts then
      match ← installRetriedMarker pf loc opts with
      | some e => return .returned res (some e)
      | none => return .returned { res with marker := markerStatusInstalled, reason := recovered loc } none
    else return .returned res none
  else
  match ← currentRuleCount opts with
  | .error e => return .returned res (some e)
  | .ok curCount =>
  match checkRuleCountDrop opts curCount newCount with
  | some e => return .returned res (some e)
  | none =>
  match ← transact pf opts { manifest := remote.manifest, markerRetry := retry } staged with
  | some e => return .returned res (some e)
  | none =>
    return .returned { res with
      updated := true, marker := status, newVersion := remote.manifest.version
      reason := "updated v" ++ toString loc.manifest.version ++ " -> v" ++ toString remote.manifest.version } none

/-- `snapshotMarkerRetryBundle` -/
def snapshotMarkerRetryBundle {C : Type} : Locked C (Except Errno Unit) := do
  match ← call (.stat (.live .bundle)) with
  | .error e => return .error e
  | .ok (.isDir false) =>
    match ← call (.link (.live .bundle) .snapshot) with
    | .ok _ => return .ok ()
    | .error _ => copyFileAtomic (.live .bundle) .snapshot
  | .ok _ => copyFileAtomic (.live .bundle) .snapshot

/-- `retryRemoteMarker` under its first lock: the claim. -/
def claimSection (opts : FetchOptions) (res : FetchResult) (remote : RemoteManifest) :
    Locked pf.Content (Phase pf.Content) := do
  let loc ← trustedLocalManifest pf
  let res := { res with localVersion := loc.manifest.version, newVersion := loc.manifest.version }
  match ← call .clock with
  | .ok (.time now) =>
    match loc.markerRetry with
    | none => return .returned res none
    | some r =>
    if !markerRetryMatches pf loc remote opts || now < r.after then return .returned res none
    else
    match ← attempt [.mkdir, .flock] with
    | .error e => return .returned res (some (.io "" e))
    | .ok () =>
    match ← snapshotMarkerRetryBundle with
    | .error e => return .returned res (some (.io "" e))
    | .ok () =>
    match newMarkerRetry remote.marker (some { text := "", deadlineExceeded := true }) r.attempts now with
    | none => return .returned res none
    | some claim =>
    match ← writeLocalManifest pf { loc with markerRetry := some claim } with
    | .error e => return .returned res (some (.io "" e))
    | .ok () => return .retryStage opts res remote claim now
  | _ => return .returned res none

/-- The claim in the record is the one that was made. -/
def stillClaimed (loc : LocalRulesRecord) (claim : MarkerRetryState) : Bool :=
  match loc.markerRetry with
  | some r => r.attempts = claim.attempts && r.after = claim.after
  | none => false

/-- `retryRemoteMarker` under the install lock. -/
def retryInstallSection (opts : FetchOptions) (res : FetchResult) (remote : RemoteManifest) (claim : MarkerRetryState)
    (now : Int) (prepared : Prepared pf.Content) : Locked pf.Content (Phase pf.Content) := do
  let loc ← trustedLocalManifest pf
  let res := { res with localVersion := loc.manifest.version, newVersion := loc.manifest.version }
  if !markerRetryMatches pf loc remote opts || !stillClaimed loc claim then
    return .returned { res with reason := "up to date after concurrent update" } none
  else if prepared.stage.isNone then
    let res := { res with marker := prepared.status }
    match newMarkerRetry remote.marker prepared.err claim.attempts now with
    | some _ => return .returned res none
    | none =>
      match ← writeLocalManifest pf { loc with markerRetry := none } with
      | .error e => return .returned res (some (.io "" e))
      | .ok () => return .returned res none
  else
  match ← installRetriedMarker pf loc opts with
  | some e => return .returned res (some e)
  | none => return .returned { res with marker := markerStatusInstalled, reason := recovered loc } none

/-- What a fetcher that waits for the lock does once it has it. -/
def Phase.section : Phase pf.Content → Option (FetchResult × Locked pf.Content (Phase pf.Content))
  | .start opts => some ({}, do
      let loc ← trustedLocalManifest pf
      return .manifest opts { localVersion := loc.manifest.version, newVersion := loc.manifest.version } loc)
  | .install opts res remote newCount retry staged status =>
    some (res, installSection pf opts res remote newCount retry staged status)
  | .claim opts res remote => some (res, claimSection pf opts res remote)
  | .retryInstall opts res remote taken now prepared =>
    some (res, retryInstallSection pf opts res remote taken now prepared)
  | _ => none

/-! ## Fetchers on one directory -/

structure Fetcher (C : Type) where
  phase : Phase C := .returned {} none
  /-- Its temporary files. -/
  files : Path → Option (Node C) := fun _ => none

/-- The section in progress. -/
structure Holder (C : Type) where
  fetcher : Nat
  phase : Phase C
  before : Name → Option (Node C)
  rest : Locked C (Phase C)
  failures : Nat := 0
  misread : Bool := false

/-- A section that has ended: the directory when it took and when it released the lock, what it was
and what it came to. -/
structure Transaction (C : Type) where
  before : Name → Option (Node C)
  after : Name → Option (Node C)
  phase : Phase C
  outcome : Phase C
  failures : Nat
  misread : Bool

def Holder.transaction {C : Type} (h : Holder C) (after : Name → Option (Node C)) (outcome : Phase C) : Transaction C where
  before := h.before
  after := after
  phase := h.phase
  outcome := outcome
  failures := h.failures
  misread := h.misread

structure World (C : Type) where
  live : Name → Option (Node C) := fun _ => none
  fetchers : Nat → Fetcher C := fun _ => {}
  holder : Option (Holder C) := none
  log : List (Transaction C) := []

inductive Event (C : Type)
  | begin (i : Nat) (opts : FetchOptions)
  | manifest (i : Nat) (a : Except FetchError RemoteManifest)
  | bundle (i : Nat) (a : Except FetchError C)
  | stage (i : Nat) (now : Int) (a : StageAnswer C)
  | lock (i : Nat)
  | lockFailed (i : Nat) (e : FetchError)
  | step (i : Input C)
  | unlock

section
variable {C : Type}

/-- The files fetcher `i` sees. -/
def merge (live : Name → Option (Node C)) (own : Path → Option (Node C)) : Path → Option (Node C)
  | .live n => live n
  | p => own p

def World.view (w : World C) (h : Holder C) : View C :=
  { fs := merge w.live (w.fetchers h.fetcher).files, failures := h.failures, misread := h.misread }

def World.setFetcher (w : World C) (i : Nat) (f : Fetcher C) : World C :=
  { w with fetchers := Function.update w.fetchers i f }

def World.setPhase (w : World C) (i : Nat) (p : Phase C) : World C := w.setFetcher i { w.fetchers i with phase := p }

/-- Fetcher `i` does not hold the lock. -/
def World.free (w : World C) (i : Nat) : Bool :=
  match w.holder with
  | some h => h.fetcher != i
  | none => true

def placeTree (files : Path → Option (Node C)) (tree : Option (Entry → Node C)) : Path → Option (Node C)
  | .staged e => tree.map (· e)
  | p => files p

end

def World.exec (w : World pf.Content) : Event pf.Content → Option (World pf.Content)
  | .begin i opts => match (w.fetchers i).phase with
    | .returned _ _ => if w.free i then some (w.setFetcher i { phase := .start opts }) else none
    | _ => none
  | .manifest i a => match (w.fetchers i).phase with
    | .manifest opts res loc => if w.free i then some (w.setPhase i (gotManifest pf opts res loc a)) else none
    | _ => none
  | .bundle i a => match (w.fetchers i).phase with
    | .download opts res remote =>
      if w.free i then
        some (w.setFetcher i
          { phase := gotBundle pf opts res remote a
            files := Function.update (w.fetchers i).files .download (a.toOption.map .file) })
      else none
    | _ => none
  | .stage i now a => match (w.fetchers i).phase with
    | .stage opts res remote newCount =>
      if w.free i then
        let p := prepareRemoteMarkerTreeLease pf opts remote a
        some (w.setFetcher i
          { phase := .install opts res remote newCount (newMarkerRetry remote.marker p.err 0 now) p.stage.isSome p.status
            files := placeTree (w.fetchers i).files p.stage })
      else none
    | .retryStage opts res remote claim started =>
      if w.free i then
        let p := prepareRemoteMarkerTreeLease pf opts remote a
        some (w.setFetcher i
          { phase := .retryInstall opts res remote claim started p
            files := placeTree (w.fetchers i).files p.stage })
      else none
    | _ => none
  | .lock i => match w.holder, (w.fetchers i).phase.section pf with
    | none, some (_, body) =>
      some { w with holder := some { fetcher := i, phase := (w.fetchers i).phase, before := w.live, rest := body } }
    | _, _ => none
  | .lockFailed i e => match (w.fetchers i).phase.section pf with
    | some (res, _) => if w.free i then some (w.setPhase i (.returned res (some e))) else none
    | none => none
  | .step input => match w.holder with
    | some h => match h.rest with
      | .call op next =>
        let (a, s) := perform pf input op (w.view h)
        some { w.setFetcher h.fetcher { w.fetchers h.fetcher with files := s.fs } with
          live := fun n => s.fs (.live n)
          holder := some { h with rest := next a, failures := s.failures, misread := s.misread } }
      | .ret _ => none
    | none => none
  | .unlock => match w.holder with
    | some h => match h.rest with
      | .ret p =>
        some { w.setPhase h.fetcher p with
          holder := none
          log := w.log ++ [h.transaction w.live p] }
      | .call _ _ => none
    | none => none

/-- Any number of fetchers on a directory of any contents. -/
def installSystem : System (World pf.Content) (Event pf.Content) where
  init w := w.holder = none ∧ w.log = [] ∧ ∀ i, w.fetchers i = {}
  step w e w' := w.exec pf e = some w'

end MS.Rules
