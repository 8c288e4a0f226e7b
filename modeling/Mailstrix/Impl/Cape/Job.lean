import Mathlib

/-!
# The durable job record

The row type of the sandbox job store and the pure functions over one row:
`terminal`, `terminate`, `reusable`, `appendSubmissionTasks` and the small predicates the
scheduler and the store share.  Everything that touches the table is in `Store.lean`.
-/

namespace MS.Cape

/-! ## Time

A `time.Time` is its distance in nanoseconds from Go's zero `Time`, so `0` is exactly the value
`IsZero` recognises.  The counters of a row are kept as unbounded integers: each call adds at most one. -/

def second : Nat := 1000000000
def minute : Nat := 60 * second
def hour : Nat := 60 * minute

/-- Nanoseconds from Go's zero `Time` to the Unix epoch. -/
def unixEpoch : Nat := 62135596800 * second

/-- A reading of the wall clock; its `UnixNano` is an `int64`. -/
structure Stamp where
  val : Nat
  range : unixEpoch ≤ val + 2 ^ 63 ∧ val < unixEpoch + 2 ^ 63
deriving DecidableEq

/-- A `time.Duration`. -/
abbrev Duration := { d : Int // -2 ^ 63 ≤ d ∧ d < 2 ^ 63 }

/-- No reading and no time a `Duration` after one is later. -/
def lastTime : Nat := unixEpoch + 2 ^ 64

/-! ## Limits -/

def maxAttachmentLimit : Int := 10 * 2 ^ 20
def maxTaskIDs : Nat := 16
def maxTaskID : Int := 2 ^ 31 - 1
def jobMetadataLimit : Int := 4 * 2 ^ 10
def jobResultLimit : Int := 16 * 2 ^ 10
def physicalLimit : Int := 2 * 2 ^ 30
def stateReserve : Int := 128 * 2 ^ 20
def databaseLimit : Int := 64 * 2 ^ 20
def ingressLimit : Nat := 30 * second
def clockTolerance : Nat := 5 * second
def maintenanceBatchSize : Nat := 256

/-! ## Codes and errors -/

/-- A local outcome code.  `empty` is the empty string of a success; `other` is any string outside
the fixed set, which `safeOutcome` rejects. -/
inductive Code
  | empty | invalid | closed | credential | unauthorized | throttled | transport | deadline
  | protocol | tooLarge | remote | notFound
  | other (text : String)
deriving DecidableEq

def safeOutcome : Code → Bool
  | .other _ => false
  | _ => true

/-- The errors of the store: its four sentinels, `&Error{Code, RetryAfter}`, and any foreign error
value (a context error, a driver error). -/
inductive Err
  | storeUnavailable | quota | conflict | clock
  | code (c : Code) (retryAfter : Int := 0)
  | foreign
deriving DecidableEq

/-- The code recorded for an error: the code of an `Error` when it is a known one, `transport` for
everything else. -/
def outcomeCode : Option Err → Code
  | none => .empty
  | some (.code c _) => if safeOutcome c then c else .transport
  | some _ => .transport

/-! ## The row -/

inductive JobState
  | staging | queued | submitting | submitUncertain | remotePending | fetching
  | completed | failed | expired | cancelled
deriving DecidableEq

def terminal : JobState → Bool
  | .completed | .failed | .expired | .cancelled => true
  | _ => false

/-- The values of the `Cleanup` column.  `purgeConfirmed` is tested for but written nowhere. -/
inductive Cleanup
  | notSubmitted | deletePending | deleteFailed | deleteAcknowledged | purgeConfirmed
deriving DecidableEq

/-- A job id is the hexadecimal text of sixteen random bytes, kept here as its value; texts of one
length order as their values do. -/
abbrev JobID := Nat

structure TaskRef where
  id : Int
  generation : String
deriving DecidableEq

/-- What one upload attempt learnt: `NoBytesSent` is the transport's positive proof. -/
structure Submission where
  tasks : List TaskRef := []
  unknownDebt : Bool := false
  noBytesSent : Bool := false
deriving DecidableEq

structure Job where
  id : JobID
  tenant : String
  generation : String
  submissionPolicy : String
  resultPolicy : String
  digest : String := ""
  staticVerdict : String := ""
  correlation : Nat := 0
  state : JobState
  version : Int
  reservedBytes : Int := 0
  payloadBytes : Int := 0
  createdAt : Nat := 0
  ingressDeadline : Nat := 0
  queueDeadline : Nat := 0
  analysisDeadline : Nat := 0
  terminalAt : Nat := 0
  nextAttempt : Nat := 0
  attemptAt : Nat := 0
  retryAfterUntil : Nat := 0
  attempts : Int := 0
  submissionVersion : Int := 0
  submissionRecorded : Bool := false
  taskIDs : List Int := []
  deleteAcknowledgedIDs : List Int := []
  cleanup : Cleanup
  unknownDebt : Bool := false
  dedupBarrier : Bool := false
  suppressed : Bool := false
  reason : Code := .empty
  result : List UInt8 := []
  pollWakeAt : Nat := 0
  readAttempts : Nat := 0
  cleanupDeadlineExceeded : Bool := false
deriving DecidableEq

/-! ## Functions of one row -/

/-- `terminate` keeps the first terminal time, and turns an attempt that may have sent bytes into
recorded remote debt. -/
def terminate (j : Job) (state : JobState) (reason : Code) (now : Nat) : Job :=
  let j := if j.terminalAt = 0 then { j with terminalAt := now } else j
  let j := if j.state = .submitting ∨ j.state = .submitUncertain then
      { j with unknownDebt := true, dedupBarrier := true, cleanup := .deleteFailed }
    else j
  let j := { j with state := state, reason := reason, result := [] }
  if state = .cancelled then { j with suppressed := true } else j

/-- May an upload of the same content under the same key be answered with this row? -/
def reusable (j : Job) (now : Nat) : Bool :=
  j.dedupBarrier ||
    match j.state with
    | .queued | .submitting | .submitUncertain | .remotePending | .fetching => true
    | .completed => !j.suppressed && j.terminalAt != 0 && decide (now < j.terminalAt + 24 * hour)
    | _ => false

/-- The loop of `appendSubmissionTasks`: the ids accepted so far and whether one was rejected. -/
def scanTasks (generation : String) : List TaskRef → List Int → Bool → List Int × Bool
  | [], seen, invalid => (seen, invalid)
  | t :: ts, seen, invalid =>
    if t.id < 1 ∨ maxTaskID < t.id ∨ t.generation ≠ generation ∨ t.id ∈ seen then
      scanTasks generation ts seen true
    else
      scanTasks generation ts (seen ++ [t.id]) invalid

/-- Appends the valid ids of a response to the row, and reports whether the response held an
invalid one (or too many). -/
def appendSubmissionTasks (j : Job) (tasks : List TaskRef) : Job × Bool :=
  let r := scanTasks j.generation (tasks.take maxTaskIDs) [] (decide (maxTaskIDs < tasks.length))
  ({ j with taskIDs := j.taskIDs ++ r.1 }, r.2)

/-- Late outcome of an attempt whose row has become terminal meanwhile. -/
def applyTerminalSubmission (j previous : Job) (submission : Submission) (outcome : Code)
    (invalid : Bool) : Job :=
  let noSend := submission.noBytesSent && submission.tasks.isEmpty && !invalid
  let debt := j.unknownDebt || !noSend && (outcome ≠ .empty || j.taskIDs.length ≠ 1)
  let j := { j with reason := previous.reason, unknownDebt := debt }
  if noSend && !submission.unknownDebt then
    { j with unknownDebt := false, dedupBarrier := false, cleanup := .notSubmitted }
  else
    { j with cleanup := if j.unknownDebt then .deleteFailed else .deletePending }

def singleOwnedTask (j : Job) (task : TaskRef) : Bool :=
  j.taskIDs = [task.id] && j.generation = task.generation && !j.unknownDebt

def readThrottled (j : Job) (now : Nat) : Bool :=
  let callbackWake := j.pollWakeAt ≠ 0 && decide (j.pollWakeAt ≤ now)
  let retryAfter := j.retryAfterUntil ≠ 0 && decide (now < j.retryAfterUntil)
  decide (now < j.nextAttempt) && (!callbackWake || retryAfter)

/-- The first owned task whose deletion has not been acknowledged, while cleanup is due. -/
def cleanupTask (j : Job) : Option TaskRef :=
  if !terminal j.state || j.cleanupDeadlineExceeded then none
  else (j.taskIDs.find? (· ∉ j.deleteAcknowledgedIDs)).map fun id => ⟨id, j.generation⟩

end MS.Cape
