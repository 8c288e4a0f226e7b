import Mailstrix.Impl.Cape.Store

/-!
# The job store: the life of a published row

Submission attempts, report transitions, cancellation, deletion responses, maintenance and the
scheduler's bookkeeping, each as the body of its transaction.
-/

namespace MS.Cape

open Framework

/-! ## Submission -/

def submittingJob (j : Job) (now : Stamp) : Job :=
  { j with
    state := .submitting, version := j.version + 1, submissionVersion := j.version + 1
    submissionRecorded := false, attempts := j.attempts + 1, attemptAt := now.val, nextAttempt := 0 }

/-- Commits ownership of one attempt before any byte may be sent. -/
def beginSubmission (cfg : StoreConfig) (env : Env) (liveAttempts : List (JobID × String)) (db : Db)
    (tenant : String) (id : JobID) (version : Int) : Except Err (Db × Job) := do
  let j ← readJob db id tenant
  check (j.state = .queued ∧ j.version = version) .conflict
  admissionGeneration db j.generation
  let (db, now) ← storeNow env db
  check (now.val < j.queueDeadline ∧ now.val < j.analysisDeadline) (.code .deadline)
  check (¬ now.val < j.nextAttempt) (.code .throttled)
  check ((liveAttempts.length : Int) < cfg.submissionConcurrency ∧
    ((liveAttempts.filter fun a => a.2 = tenant).length : Int) < cfg.tenantSubmissionConcurrency)
    (.code .throttled)
  takeToken env
  let next := submittingJob j now
  let db ← putJob env db next j
  return (db, next)

/-- The retry delay of a queued row stays between five seconds and five minutes. -/
def clampBackoff (backoff : Int) : Nat :=
  (max (5 * second : Int) (min backoff (5 * minute : Int))).toNat

/-- The row with the response's outcome, tasks and debt, and whether the response was invalid. -/
def respondedJob (previous : Job) (submission : Submission) (outcome : Code) : Job × Bool :=
  let j := { previous with
    version := previous.version + 1, submissionRecorded := true, reason := outcome }
  let r := appendSubmissionTasks j submission.tasks
  ({ r.1 with unknownDebt := submission.unknownDebt || r.2, dedupBarrier := true }, r.2)

/-- More than one task for one sample: the attempt ends as failed, with debt. -/
def ambiguousJob (j : Job) (clock : Stamp) : Job :=
  { j with
    state := .failed, unknownDebt := true, reason := .protocol, cleanup := .deleteFailed
    terminalAt := if clock.val < j.attemptAt then j.attemptAt else clock.val }

def ownedJob (j : Job) : Job := { j with state := .remotePending, cleanup := .deletePending }

/-- The transport proved that nothing was sent: the row waits for another attempt. -/
def requeuedJob (j : Job) (next : Nat) : Job :=
  { j with state := .queued, cleanup := .notSubmitted, dedupBarrier := false, nextAttempt := next }

def unsureJob (j : Job) : Job :=
  { j with
    state := .submitUncertain, unknownDebt := true, cleanup := .deleteFailed
    reason := if j.reason = .empty then .protocol else j.reason }

/-- Where an outcome leaves a row.  `j` already carries the response's tasks and debt. -/
def applySubmissionOutcome (env : Env) (db : Db) (j previous : Job) (submission : Submission)
    (outcome : Code) (invalid : Bool) (backoff : Int) : Except Err (Db × Job) :=
  if terminal previous.state then
    .ok (db, applyTerminalSubmission j previous submission outcome invalid)
  else if 1 < submission.tasks.length then
    .ok (db, ambiguousJob j env.clock)
  else if outcome = .empty ∧ !invalid ∧ !submission.unknownDebt ∧ !submission.noBytesSent ∧
      j.taskIDs.length = 1 then
    .ok (db, ownedJob j)
  else if outcome ≠ .empty ∧ submission.noBytesSent ∧ !invalid ∧ !submission.unknownDebt ∧
      submission.tasks.length = 0 then do
    let (db, now) ← storeNow env db
    return (db, requeuedJob j (now.val + clampBackoff backoff))
  else
    .ok (db, unsureJob j)

/-- The attempt `version` of this row is open and may still be recorded. -/
def recordable (j : Job) (version : Int) : Bool :=
  !(version < 1 ∨ j.submissionRecorded ∨
    (j.state ≠ .submitting ∧ !terminal j.state ∧ j.state ≠ .submitUncertain) ∨
    (j.submissionVersion ≠ version ∧
      ¬ (j.submissionVersion = 0 ∧ j.state = .submitting ∧ j.version = version)))

/-- Persists every valid id of a response, also of a failed one. -/
def recordSubmission (env : Env) (db : Db) (tenant : String) (id : JobID) (version : Int)
    (submission : Submission) (outcome : Code) (backoff : Int) : Except Err (Db × Job) := do
  check (safeOutcome outcome = true ∧ 0 ≤ backoff) (.code .invalid)
  let previous ← readJob db id tenant
  check (recordable previous version = true) .conflict
  let (j, invalid) := respondedJob previous submission outcome
  let (db, j) ← applySubmissionOutcome env db j previous submission outcome invalid backoff
  let db ← putJob env db j previous
  return (db, j)

def interruptedJob (j : Job) : Job :=
  { j with
    state := .submitUncertain, version := j.version + 1, unknownDebt := true, dedupBarrier := true
    cleanup := .deleteFailed, reason := .transport }

/-- Startup turns an attempt that a crash interrupted into an uncertain one. -/
def recoverSubmitting (env : Env) (db : Db) (id : JobID) : Except Err (Db × Job) := do
  let j ← need (db.jobs.get? id) (.code .notFound)
  check (j.state = .submitting) .conflict
  let next := interruptedJob j
  let db ← putJob env db next j
  return (db, next)

/-! ## Reports -/

/-- Every accepted report transition consumes the callback hint. -/
def polledJob (j : Job) : Job := { j with pollWakeAt := 0, version := j.version + 1 }

/-- A change of a row that waits for its one remote task, against the exact snapshot. -/
def transitionReport (env : Env) (db : Db) (tenant : String) (id : JobID) (version : Int)
    (task : TaskRef) (expected : JobState) (change : Job → Stamp → Except Err Job) :
    Except Err (Db × Job) := do
  let previous ← readJob db id tenant
  check (previous.version = version ∧ previous.state = expected ∧ previous.suppressed = false ∧
    singleOwnedTask previous task = true) .conflict
  let (db, now) ← storeNow env db
  check (now.val < previous.analysisDeadline) (.code .deadline)
  let j ← change previous now
  let j := polledJob j
  let db ← putJob env db j previous
  return (db, j)

/-- Only `reported` permits fetching; the other active statuses keep the state. -/
def statusChange (status : Status) (j : Job) (now : Stamp) : Except Err Job :=
  match status with
  | .reported => .ok { j with state := .fetching }
  | .pending | .running | .distributed | .completed | .recovered | .distributedCompleted => .ok j
  | .banned | .failedAnalysis | .failedProcessing | .failedReporting =>
    .ok (terminate j .failed .remote now.val)
  | .other _ => .error (.code .protocol)

def recordStatus (env : Env) (db : Db) (tenant : String) (id : JobID) (version : Int)
    (task : TaskRef) (status : Status) : Except Err (Db × Job) :=
  transitionReport env db tenant id version task .remotePending (statusChange status)

/-- A report whose mapping fails ends the job as unavailable, never as clean. -/
def reportChange (mapper : Option ResultMapper) (report : Option Report) (task : TaskRef) (j : Job)
    (now : Stamp) : Except Err Job :=
  match normalize mapper report task j with
  | none => .ok (terminate j .failed .protocol now.val)
  | some result => .ok { terminate j .completed .empty now.val with result := result }

def completeReport (env : Env) (db : Db) (tenant : String) (id : JobID) (version : Int)
    (task : TaskRef) (report : Option Report) (mapper : Option ResultMapper) : Except Err (Db × Job) :=
  transitionReport env db tenant id version task .fetching (reportChange mapper report task)

def recordReportError (env : Env) (db : Db) (tenant : String) (id : JobID) (version : Int)
    (task : TaskRef) (code : Code) : Except Err (Db × Job) :=
  let code := if code = .empty ∨ !safeOutcome code then .transport else code
  transitionReport env db tenant id version task .fetching fun j _ => .ok { j with reason := code }

/-! ## Cancellation and deletion -/

/-- Restrictive cancellation also works while the clock is refused: it then uses the recorded
high-water time, which exists because the clock was refused against it. -/
def cancelNow (env : Env) (db : Db) : Except Err (Db × Stamp) :=
  match storeNow env db with
  | .error .clock => do return (db, ← need db.latest .storeUnavailable)
  | r => r

/-- A row that ends without a result. -/
def endedJob (j : Job) (state : JobState) (reason : Code) (now : Stamp) : Job :=
  { terminate j state reason now.val with version := j.version + 1 }

/-- A staging row is left to its writer, which the call only signals. -/
def cancel (env : Env) (db : Db) (tenant : String) (id : JobID) : Except Err (Db × Job) := do
  let j ← readJob db id tenant
  if j.state = .staging ∨ j.state = .cancelled then return (db, j)
  let (db, now) ← cancelNow env db
  let next := endedJob j .cancelled .empty now
  let db ← putJob env db next j
  return (db, next)

/-- The row after one native deletion response for an owned task. -/
def deletionJob (j : Job) (task : TaskRef) (outcome : Code) : Job :=
  let acked := if outcome ≠ .empty ∨ task.id ∈ j.deleteAcknowledgedIDs then j.deleteAcknowledgedIDs
    else j.deleteAcknowledgedIDs ++ [task.id]
  let cleanup :=
    if outcome ≠ .empty ∨ j.unknownDebt then .deleteFailed
    else if acked.length = j.taskIDs.length then .deleteAcknowledged else .deletePending
  { j with
    deleteAcknowledgedIDs := acked, cleanup := cleanup, dedupBarrier := true, version := j.version + 1 }

def recordDeletion (env : Env) (db : Db) (tenant : String) (id : JobID) (version : Int)
    (task : TaskRef) (state : DeleteState) (outcome : Code) : Except Err (Db × Job) := do
  check (safeOutcome outcome = true ∧ (outcome = .empty → state = .acknowledgedUnverified) ∧
    (outcome ≠ .empty → state = .empty)) (.code .invalid)
  let j ← readJob db id tenant
  check (j.version = version ∧ task.generation = j.generation ∧ terminal j.state = true) .conflict
  check (task.id ∈ j.taskIDs) .conflict
  let next := deletionJob j task outcome
  let db ← putJob env db next j
  return (db, next)

/-! ## Maintenance -/

def deadlineStates (s : JobState) : Bool := !terminal s

def cleanupStates (s : JobState) : Bool := terminal s || s = .remotePending || s = .fetching

def cleanupDeadlineStates (s : JobState) : Bool := terminal s

def schedulerStates (s : JobState) : Bool := cleanupStates s || s = .queued

/-- `WHERE state IN (...) AND id>? ORDER BY id LIMIT 256`; the empty cursor precedes every id. -/
def batchAfter (db : Db) (states : JobState → Bool) (cursor : Option JobID) : List Job :=
  ((db.jobs.rows.filter fun j => states j.state && cursor.all (· < j.id)).insertionSort
    fun a b => a.id ≤ b.id).take maintenanceBatchSize

/-- A batch and the cursor after it; a finished sweep starts again at the beginning. -/
def nextMaintenanceBatch (db : Db) (states : JobState → Bool) (cursor : Option JobID) :
    List Job × Option JobID :=
  let jobs := batchAfter db states cursor
  let jobs := if jobs.isEmpty && cursor.isSome then batchAfter db states none else jobs
  (jobs, jobs.getLast?.map (·.id))

/-- The absolute deadlines of one row; an overdue staging row is left to its writer. -/
def expireJob (env : Env) (now : Stamp) (db : Db) (j : Job) : Except Err Db :=
  if j.state = .staging then .ok db
  else if !terminal j.state ∧ (j.analysisDeadline ≤ now.val ∨
      j.state = .queued ∧ j.queueDeadline ≤ now.val) then
    putJob env db (endedJob j .expired .deadline now) j
  else .ok db

/-- The first transaction of `Maintain`. -/
def maintainDeadlines (env : Env) (cursor : Option JobID) (db : Db) :
    Except Err (Db × Stamp × Option JobID) := do
  let (db, now) ← storeNow env db
  let batch := nextMaintenanceBatch db deadlineStates cursor
  let db ← batch.1.foldlM (expireJob env now) db
  return (db, now, batch.2)

/-- A terminal row past retention is deleted when nothing remote can be owed for it. -/
def deletable (j : Job) : Bool :=
  !j.unknownDebt && (j.cleanup = .notSubmitted || j.cleanup = .purgeConfirmed)

/-- What a retained row gives up: its result and its static verdict, never its dedup key. -/
def minimizedJob (j : Job) : Job :=
  { j with result := [], suppressed := true, dedupBarrier := true, staticVerdict := "" }

def retainedJob (j : Job) : Job := { minimizedJob j with version := j.version + 1 }

/-- Retention of one row.  Its payload has been removed before. -/
def retainJob (env : Env) (now : Stamp) (db : Db) (j : Job) : Except Err Db :=
  if !terminal j.state ∨ j.terminalAt = 0 ∨ now.val < j.terminalAt + 24 * hour then .ok db
  else if deletable j then .ok { db with jobs := db.jobs.erase j.id }
  else
    if minimizedJob j = j then .ok db
    else putJob env db (retainedJob j) j

/-- The second transaction of `Maintain`; `now` is the time the first one read. -/
def maintainCleanup (env : Env) (now : Stamp) (cursor : Option JobID) (db : Db) :
    Except Err (Db × Option JobID) := do
  let batch := nextMaintenanceBatch db cleanupStates cursor
  let db ← batch.1.foldlM (retainJob env now) db
  return (db, batch.2)

/-! ## The scheduler's bookkeeping -/

def readJobReserved (j : Job) (next : Nat) : Job :=
  { j with
    nextAttempt := next, retryAfterUntil := 0
    readAttempts := if j.readAttempts < 16 then j.readAttempts + 1 else j.readAttempts
    pollWakeAt := 0, version := j.version + 1 }

/-- Reserves one read or delete request before it is dispatched. -/
def reserveRead (env : Env) (db : Db) (snapshot : Job) (delay : Duration) : Except Err (Db × Job) := do
  let j ← readJob db snapshot.id snapshot.tenant
  check (j.version = snapshot.version ∧ j.state = snapshot.state) .conflict
  let (db, now) ← storeNow env db
  check (readThrottled j now.val = false) (.code .throttled)
  if terminal j.state then
    check (j.attemptAt ≠ 0 ∧ now.val < j.attemptAt + 48 * hour) (.code .deadline)
  else
    check ((j.state = .remotePending ∨ j.state = .fetching) ∧ now.val < j.analysisDeadline ∧
      j.suppressed = false) .conflict
  takeToken env
  let next := readJobReserved j (now.val + delay.val).toNat
  let db ← putJob env db next j
  return (db, next)

def delayedJob (j : Job) (next : Nat) : Job :=
  { j with
    nextAttempt := max next j.nextAttempt, retryAfterUntil := max next j.retryAfterUntil
    version := j.version + 1 }

/-- Never moves a retry time earlier. -/
def extendRetry (env : Env) (db : Db) (snapshot : Job) (delay : Duration) : Except Err (Db × Job) := do
  let j ← readJob db snapshot.id snapshot.tenant
  let (db, now) ← storeNow env db
  let next := (now.val + delay.val).toNat
  if next ≤ j.nextAttempt ∧ next ≤ j.retryAfterUntil then return (db, j)
  let later := delayedJob j next
  let db ← putJob env db later j
  return (db, later)

/-- Cleanup of the row has been due for 48 hours. -/
def cleanupOverdue (now : Stamp) (j : Job) : Bool :=
  !j.cleanupDeadlineExceeded && j.attemptAt ≠ 0 && j.attemptAt + 48 * hour ≤ now.val && j.dedupBarrier

def overdueJob (j : Job) : Job := { j with cleanupDeadlineExceeded := true, version := j.version + 1 }

def markOverdue (env : Env) (db : Db) (j : Job) : Except Err Db := putJob env db (overdueJob j) j

def markCleanupDeadlines (env : Env) (cursor : Option JobID) (db : Db) :
    Except Err (Db × Option JobID) := do
  let (db, now) ← storeNow env db
  let batch := nextMaintenanceBatch db cleanupDeadlineStates cursor
  let db ← (batch.1.filter (cleanupOverdue now)).foldlM (markOverdue env) db
  return (db, batch.2)

def setGenerationAdmission (db : Db) (generation : String) (enabled : Bool) : Except Err Db := do
  check (identifier generation 128 = true) (.code .invalid)
  return { db with paused :=
    if enabled then db.paused.filter (· ≠ generation)
    else if generation ∈ db.paused then db.paused else db.paused ++ [generation] }

/-- A payload is opened only for the attempt that owns the row. -/
def openPayload (db : Db) (tenant : String) (id : JobID) (version : Int) : Except Err Job := do
  let j ← readJob db id tenant
  check (j.state = .submitting ∧ j.version = version) .conflict
  return j

end MS.Cape
