import Mailstrix.Framework.Prog
import Mailstrix.Impl.Cape.Ops

/-!
# The scheduler

`Scheduler.Run`, its request goroutines and the rest of the process as steps of one `World`.  A call of
the store is one step, so everything else may happen between two calls.  `persist` and the maintenance
of one round are programs of such calls; the position of `Run` is a `Pc`.

Contexts and timers only decide when a call or a request gives up.  A call may fail at any time and a
request may end at any time here, so they add nothing: cancelling a live request is not a step.
-/

namespace MS.Cape

open Framework

/-! ## Calls of the store -/

/-- How a call ends. -/
inductive Outcome
  /-- Committed, and it says so. -/
  | ok (r : Ret)
  /-- Committed, and then an error: a payload removal or a checkpoint failed. -/
  | late (e : Err)
  /-- `Commit` itself reported an error and yet committed; the memory was not updated. -/
  | lost (e : Err)
  | failed (e : Err)

/-- What the caller sees. -/
def Outcome.answer : Outcome → Except Err Ret
  | .ok r => .ok r
  | .late e | .lost e | .failed e => .error e

def Outcome.committed : Outcome → Bool
  | .failed _ => false
  | _ => true

inductive Call (cfg : StoreConfig) (op : StoreOp) : Store → Outcome → Store → Prop
  | ok {env : Env} {s s' : Store} {r : Ret} : exec cfg env op s = .ok (s', r) → Call cfg op s (.ok r) s'
  | late {env : Env} {s s' : Store} {r : Ret} {e : Err} : exec cfg env op s = .ok (s', r) →
      Call cfg op s (.late e) s'
  | lost {env : Env} {s s' : Store} {r : Ret} {e : Err} : exec cfg env op s = .ok (s', r) →
      Call cfg op s (.lost e) { s with db := s'.db }
  | failed {s : Store} {e : Err} : Call cfg op s (.failed e) s

abbrev StoreProg := Prog StoreOp (Except Err Ret)

/-! ## Packets -/

inductive Kind
  | submit | beginError | status | report | delete
deriving DecidableEq

/-- A `schedulerResult`. -/
structure Packet where
  job : Job
  kind : Kind
  task : TaskRef := ⟨0, ""⟩
  submission : Submission := {}
  status : Status := .other ""
  report : Option Report := none
  deleted : DeleteState := .empty
  err : Option Err := none

structure SchedulerConfig where
  store : StoreConfig
  /-- The generations that have a client. -/
  clients : List String
  mapper : Option ResultMapper
  workers : Nat

/-- The longest `retryDelay` for this many attempts. -/
def retryCeiling (attempt : Int) : Int := min (5 * second * 2 ^ (min attempt 6).toNat) (5 * minute)

/-- `retryDelay` is drawn from this range. -/
def RetryDelay (delay : Int → Duration) : Prop := ∀ n, 5 * second ≤ (delay n).val ∧ (delay n).val ≤ retryCeiling n

/-! ## Persisting a packet -/

/-- The error of a call whose result is not needed. -/
def failure : Except Err Ret → Option Err
  | .ok _ => none
  | .error e => some e

/-- The wait a throttled request asks for, within the range of `retryDelay`. -/
def throttleDelay (retryAfter : Int) : Duration :=
  ⟨min (max retryAfter (5 * second)) (5 * minute), by simp only [minute, second]; omega⟩

/-- `extendRetry` for a throttled request. -/
def persistThrottle (j : Job) (r : Packet) : StoreProg (Option Err) :=
  match r.err with
  | some (.code .throttled retryAfter) => do
    return failure (← Prog.ask (.extendRetry j (throttleDelay retryAfter)))
  | _ => return none

/-- The outcome of an upload, once. -/
def persistSubmit (delay : Int → Duration) (j : Job) (r : Packet) : StoreProg (Option Err) :=
  if j.submissionRecorded then return none
  else do
    return failure (← Prog.ask (.recordSubmission j.tenant j.id r.job.submissionVersion r.submission
      (outcomeCode r.err) (delay r.job.attempts).val))

/-- The result of a status or report request; an expired row belongs to `Maintain`. -/
def persistRead (j : Job) (r : Packet) (op : StoreOp) : StoreProg (Option Err) := do
  match ← Prog.ask op with
  | .ok _ => persistThrottle j r
  | .error e => return if outcomeCode (some e) = .deadline then none else some e

/-- `persist` with the row `j` it has looked up.  After a failed `BeginSubmission` the row tells
whether the attempt exists; nobody knows what became of it then. -/
def persistRow (mapper : Option ResultMapper) (delay : Int → Duration) (r : Packet) (j : Job) :
    StoreProg (Option Err) :=
  match r.kind with
  | .beginError =>
    if j.submissionVersion ≤ r.job.version ∨ j.submissionRecorded = true then return none
    else persistSubmit delay j { r with
      job := j, kind := .submit, submission := { unknownDebt := true }, err := some (.code .transport) }
  | .submit => persistSubmit delay j r
  | .delete =>
    if r.task.id ∈ j.deleteAcknowledgedIDs then return none
    else do
      match ← Prog.ask (.recordDeletion j.tenant j.id j.version r.task r.deleted (outcomeCode r.err)) with
      | .ok _ => persistThrottle j r
      | .error e => return some e
  | kind =>
    if j.state ≠ r.job.state ∨ terminal j.state = true ∨ j.suppressed = true then return none
    else if r.err = none then
      persistRead j r (if kind = .status then .recordStatus j.tenant j.id j.version r.task r.status
        else .completeReport j.tenant j.id j.version r.task r.report mapper)
    else if kind = .report then
      persistRead j r (.recordReportError j.tenant j.id j.version r.task (outcomeCode r.err))
    else persistThrottle j r

def persistLookup (mapper : Option ResultMapper) (delay : Int → Duration) (r : Packet) : StoreProg (Option Err) := do
  match ← Prog.ask (.lookup r.job.tenant r.job.id) with
  | .ok (.job j) => persistRow mapper delay r j
  | .ok _ => return some .storeUnavailable
  | .error e => return some e

def persist (mapper : Option ResultMapper) (delay : Int → Duration) (r : Packet) : StoreProg (Option Err) :=
  if outcomeCode r.err = .unauthorized then do
    match ← Prog.ask (.setGenerationAdmission r.job.generation false) with
    | .ok _ => persistLookup mapper delay r
    | .error e => return some e
  else persistLookup mapper delay r

/-- `Maintain` and then `markCleanupDeadlines`. -/
def maintenance : StoreProg (Option Err) := do
  match ← Prog.ask .maintainDeadlines with
  | .ok (.time now) =>
    match ← Prog.ask (.maintainCleanup now) with
    | .ok _ => return failure (← Prog.ask .markCleanupDeadlines)
    | .error e => return some e
  | .ok _ => return some .storeUnavailable
  | .error e => return some e

/-! ## Choosing what to send -/

/-- Per-tenant queues, oldest row first. -/
def sortJobs (jobs : List Job) : List Job :=
  jobs.insertionSort fun a b => a.tenant < b.tenant ∨ a.tenant = b.tenant ∧ a.createdAt ≤ b.createdAt

/-- Deletions go first: priority `0` takes the rows with a task to delete, `1` the others. -/
def eligible (cfg : SchedulerConfig) (live : List JobID) (now priority : Nat) (j : Job) : Bool :=
  j.generation ∈ cfg.clients && j.id ∉ live && !readThrottled j now &&
    (decide (priority = 0) == (cleanupTask j).isSome) &&
    ((cleanupTask j).isSome || j.state = .queued || j.state = .remotePending || j.state = .fetching)

/-- The candidate scan of `dispatch`: the first eligible row of a tenant after `last`, or else the
first eligible row. -/
def selectFrom (ok : Nat → Job → Bool) (last : String) : Nat → Option Nat → List Job → Option Nat
  | _, selected, [] => selected
  | i, selected, j :: js =>
    if ok i j then
      if last < j.tenant then some i else selectFrom ok last (i + 1) (selected.or (some i)) js
    else selectFrom ok last (i + 1) selected js

/-- The request for a row. -/
def requestFor (j : Job) : Packet :=
  match cleanupTask j with
  | some task => { job := j, kind := .delete, task := task }
  | none =>
    let task : TaskRef := match j.taskIDs with
      | [id] => ⟨id, j.generation⟩
      | _ => ⟨0, ""⟩
    { job := j, task := task
      kind := if j.state = .fetching then .report else if j.state = .queued then .submit else .status }

/-! ## The process -/

/-- How far a request goroutine has come. -/
inductive Stage
  | start | opened | uploading | finished
deriving DecidableEq

structure Request where
  packet : Packet
  stage : Stage := .start

/-- A pass of `dispatch`: the candidates that are left. -/
structure Pass where
  priority : Nat := 0
  jobs : List Job

/-- Where `Run` is. -/
inductive Pc
  | stopped
  /-- The head of the loop. -/
  | top
  /-- `persistPendingContext`: the packets to keep and those still to look at. -/
  | persisting (draining : Bool) (kept todo : List Packet)
  | persistingOne (draining : Bool) (kept : List Packet) (r : Packet) (todo : List Packet)
      (prog : StoreProg (Option Err))
  | maintaining (prog : StoreProg (Option Err))
  | dispatching (pass : Pass)
  /-- The packet of a failed `BeginSubmission` is persisted on the spot. -/
  | reconciling (pass : Pass) (r : Packet) (prog : StoreProg (Option Err))
  | selecting
  /-- Cancelled: `Run` joins its requests, then drains. -/
  | joining
  | draining

structure World where
  store : Store := {}
  /-- `OpenStore` has not returned yet. -/
  recovering : Bool := true
  live : List Request := []
  pending : List Packet := []
  lastTenant : Nat → String := fun _ => ""
  pc : Pc := .stopped

inductive Label
  | call (op : StoreOp) (out : Outcome)
  /-- `Submit` calls the transport. -/
  | upload (id : JobID) (version : Int)
  | crash
  | internal

/-- The calls made outside `Run` and its requests: the API, its callbacks and the administrator. -/
def apiOp : StoreOp → Bool
  | .reserve .. | .publish .. | .cleanupStaging .. | .cancel .. | .callback .. | .setGenerationAdmission ..
  | .takeRequestToken | .lookup .. => true
  | _ => false

/-- What `recover` does to one row. -/
def recoverOp : StoreOp → Bool
  | .cleanupStaging .. | .recoverSubmitting .. => true
  | _ => false

/-- `request` of an upload after `OpenPayload`.  A failure proves nothing about the durable row. -/
def Request.opened (q : Request) (answer : Except Err Ret) : Request :=
  match answer with
  | .ok _ => { q with stage := .opened }
  | .error e =>
    { packet := { q.packet with submission := { q.packet.submission with unknownDebt := true }, err := some e }
      stage := .finished }

/-- `Submit` returns ahead of the transport, with the proof that nothing was sent. -/
def Request.unsent (q : Request) (e : Err) : Request :=
  { packet := { q.packet with submission := { noBytesSent := true }, err := some e }, stage := .finished }

/-- `Submit` returns from the transport with the tasks it could parse. -/
def Request.sent (q : Request) (tasks : List TaskRef) (err : Option Err) : Request :=
  { packet := { q.packet with submission := { tasks := tasks, unknownDebt := err.isSome }, err := err }
    stage := .finished }

/-- A status, report or delete request returns. -/
def Request.answered (q : Request) (status : Status) (report : Option Report) (deleted : DeleteState)
    (err : Option Err) : Request :=
  { packet := { q.packet with status := status, report := report, deleted := deleted, err := err }
    stage := .finished }

/-- The candidate of a pass; the clock is read once for each row. -/
def World.candidate (cfg : SchedulerConfig) (w : World) (clock : Nat → Nat) (pass : Pass) : Option Nat :=
  selectFrom (fun i j => eligible cfg (w.live.map (·.packet.job.id)) (clock i) pass.priority j)
    (w.lastTenant pass.priority) 0 none pass.jobs

/-- Each candidate is inspected at most once in a pass. -/
def Pass.without (pass : Pass) (i : Nat) : Pass := { pass with jobs := pass.jobs.eraseIdx i }

/-- The row is reserved and its request starts. -/
def World.send (w : World) (pass : Pass) (j reserved : Job) : World :=
  { w with
    live := { packet := { requestFor j with job := reserved } } :: w.live
    lastTenant := Function.update w.lastTenant pass.priority j.tenant }

inductive Step (cfg : SchedulerConfig) : World → Label → World → Prop
  /- The process. -/
  | crash {w : World} : Step cfg w .crash { store := { w.store with mem := {} } }
  | recover {w : World} {op : StoreOp} {out : Outcome} {s : Store} : w.recovering = true → recoverOp op = true →
      Call cfg.store op w.store out s → Step cfg w (.call op out) { w with store := s }
  | recovered {w : World} : w.recovering = true →
      (∀ j ∈ w.store.db.jobs.rows, j.state ≠ .staging ∧ j.state ≠ .submitting) →
      Step cfg w .internal { w with recovering := false }
  | api {w : World} {op : StoreOp} {out : Outcome} {s : Store} : w.recovering = false → apiOp op = true →
      Call cfg.store op w.store out s → Step cfg w (.call op out) { w with store := s }
  /- Requests. -/
  | openPayload {w : World} {l r : List Request} {q : Request} {out : Outcome} {s : Store} :
      w.live = l ++ q :: r → q.stage = .start → q.packet.kind = .submit →
      Call cfg.store (.openPayload q.packet.job.tenant q.packet.job.id q.packet.job.version) w.store out s →
      Step cfg w (.call (.openPayload q.packet.job.tenant q.packet.job.id q.packet.job.version) out)
        { w with store := s, live := l ++ q.opened out.answer :: r }
  | refuse {w : World} {l r : List Request} {q : Request} {e : Err} : w.live = l ++ q :: r → q.stage = .opened →
      Step cfg w .internal { w with live := l ++ q.unsent e :: r }
  | upload {w : World} {l r : List Request} {q : Request} : w.live = l ++ q :: r → q.stage = .opened →
      Step cfg w (.upload q.packet.job.id q.packet.job.submissionVersion)
        { w with live := l ++ { q with stage := .uploading } :: r }
  | submit {w : World} {l r : List Request} {q : Request} {tasks : List TaskRef} {err : Option Err} :
      w.live = l ++ q :: r → q.stage = .uploading →
      Step cfg w .internal { w with live := l ++ q.sent tasks err :: r }
  | answer {w : World} {l r : List Request} {q : Request} {status : Status} {report : Option Report}
      {deleted : DeleteState} {err : Option Err} :
      w.live = l ++ q :: r → q.stage = .start → q.packet.kind ≠ .submit →
      Step cfg w .internal { w with live := l ++ q.answered status report deleted err :: r }
  /- The loop of `Run`. -/
  | run {w : World} : w.recovering = false → w.pc = .stopped → Step cfg w .internal { w with pc := .top }
  | cancelled {w : World} : w.pc = .top → Step cfg w .internal { w with pc := .joining }
  | persistPending {w : World} : w.pc = .top →
      Step cfg w .internal { w with pc := .persisting false [] w.pending }
  | keep {w : World} {d : Bool} {kept todo : List Packet} {r : Packet} : w.pc = .persisting d kept (r :: todo) →
      Step cfg w .internal { w with pc := .persisting d (kept ++ [r]) todo }
  | persist {w : World} {d : Bool} {kept todo : List Packet} {r : Packet} {delay : Int → Duration} :
      w.pc = .persisting d kept (r :: todo) → RetryDelay delay →
      Step cfg w .internal { w with pc := .persistingOne d kept r todo (MS.Cape.persist cfg.mapper delay r) }
  | persistCall {w : World} {d : Bool} {kept todo : List Packet} {r : Packet} {op : StoreOp}
      {next : Except Err Ret → StoreProg (Option Err)} {out : Outcome} {s : Store} :
      w.pc = .persistingOne d kept r todo (.call op next) → Call cfg.store op w.store out s →
      Step cfg w (.call op out) { w with store := s, pc := .persistingOne d kept r todo (next out.answer) }
  | persistRet {w : World} {d : Bool} {kept todo : List Packet} {r : Packet} {e : Option Err} :
      w.pc = .persistingOne d kept r todo (.ret e) →
      Step cfg w .internal { w with pc := .persisting d (if e.isSome then kept ++ [r] else kept) todo }
  | persisted {w : World} {d : Bool} {kept : List Packet} : w.pc = .persisting d kept [] →
      Step cfg w .internal { w with pending := kept, pc := if d then .draining else .maintaining maintenance }
  | maintainCall {w : World} {op : StoreOp} {next : Except Err Ret → StoreProg (Option Err)} {out : Outcome}
      {s : Store} :
      w.pc = .maintaining (.call op next) → Call cfg.store op w.store out s →
      Step cfg w (.call op out) { w with store := s, pc := .maintaining (next out.answer) }
  | maintained {w : World} {e : Option Err} : w.pc = .maintaining (.ret e) → e ≠ none ∨ w.pending ≠ [] →
      Step cfg w .internal { w with pc := .selecting }
  | receive {w : World} {l r : List Request} {q : Request} : w.pc = .selecting → w.live = l ++ q :: r →
      q.stage = .finished →
      Step cfg w .internal { w with live := l ++ r, pending := w.pending ++ [q.packet], pc := .top }
  | tick {w : World} : w.pc = .selecting → Step cfg w .internal { w with pc := .top }
  | join {w : World} {l r : List Request} {q : Request} : w.pc = .joining → w.live = l ++ q :: r →
      q.stage = .finished → Step cfg w .internal { w with live := l ++ r, pending := w.pending ++ [q.packet] }
  | joined {w : World} : w.pc = .joining → w.live = [] → Step cfg w .internal { w with pc := .draining }
  | drain {w : World} : w.pc = .draining → w.pending ≠ [] →
      Step cfg w .internal { w with pc := .persisting true [] w.pending }
  | drained {w : World} : w.pc = .draining → Step cfg w .internal { w with pc := .stopped }
  /- `dispatch`. -/
  | dispatch {w : World} {out : Outcome} {s : Store} : w.pc = .maintaining (.ret none) → w.pending = [] →
      Call cfg.store .schedulerJobs w.store out s →
      Step cfg w (.call .schedulerJobs out)
        { w with
          store := s
          pc := match out.answer with
            | .ok (.jobs jobs) => .dispatching { jobs := sortJobs jobs }
            | _ => .selecting }
  | nextPriority {w : World} {pass : Pass} {clock : Nat → Nat} : w.pc = .dispatching pass →
      cfg.workers ≤ w.live.length ∨ w.candidate cfg clock pass = none →
      Step cfg w .internal
        { w with pc := if pass.priority = 0 then .dispatching { pass with priority := 1 } else .selecting }
  | begin {w : World} {pass : Pass} {clock : Nat → Nat} {i : Nat} {j reserved : Job} {out : Outcome} {s : Store} :
      w.pc = .dispatching pass → w.live.length < cfg.workers → w.candidate cfg clock pass = some i →
      pass.jobs[i]? = some j → (requestFor j).kind = .submit →
      Call cfg.store (.beginSubmission j.tenant j.id j.version) w.store out s → out.answer = .ok (.job reserved) →
      Step cfg w (.call (.beginSubmission j.tenant j.id j.version) out)
        { w.send pass j reserved with store := s, pc := .dispatching (pass.without i) }
  | beginError {w : World} {pass : Pass} {clock : Nat → Nat} {i : Nat} {j : Job} {out : Outcome} {s : Store}
      {e : Err} {delay : Int → Duration} :
      w.pc = .dispatching pass → w.live.length < cfg.workers → w.candidate cfg clock pass = some i →
      pass.jobs[i]? = some j → (requestFor j).kind = .submit →
      Call cfg.store (.beginSubmission j.tenant j.id j.version) w.store out s → out.answer = .error e →
      RetryDelay delay →
      Step cfg w (.call (.beginSubmission j.tenant j.id j.version) out)
        { w with
          store := s
          pc := .reconciling (pass.without i) { job := j, kind := .beginError, err := some e }
            (MS.Cape.persist cfg.mapper delay { job := j, kind := .beginError, err := some e }) }
  | reconcileCall {w : World} {pass : Pass} {r : Packet} {op : StoreOp}
      {next : Except Err Ret → StoreProg (Option Err)} {out : Outcome} {s : Store} :
      w.pc = .reconciling pass r (.call op next) → Call cfg.store op w.store out s →
      Step cfg w (.call op out) { w with store := s, pc := .reconciling pass r (next out.answer) }
  | reconciled {w : World} {pass : Pass} {r : Packet} : w.pc = .reconciling pass r (.ret none) →
      Step cfg w .internal { w with pc := .dispatching pass }
  | unreconciled {w : World} {pass : Pass} {r : Packet} {e : Err} : w.pc = .reconciling pass r (.ret (some e)) →
      Step cfg w .internal { w with pending := w.pending ++ [r], pc := .selecting }
  | reserveRead {w : World} {pass : Pass} {clock : Nat → Nat} {i : Nat} {j : Job} {out : Outcome} {s : Store}
      {delay : Int → Duration} :
      w.pc = .dispatching pass → w.live.length < cfg.workers → w.candidate cfg clock pass = some i →
      pass.jobs[i]? = some j → (requestFor j).kind ≠ .submit → RetryDelay delay →
      Call cfg.store (.reserveRead j (delay j.readAttempts)) w.store out s →
      Step cfg w (.call (.reserveRead j (delay j.readAttempts)) out)
        { (match out.answer with
            | .ok (.job reserved) => w.send pass j reserved
            | _ => w) with
          store := s, pc := .dispatching (pass.without i) }

def schedulerSystem (cfg : SchedulerConfig) : System World Label where
  init w := w = {}
  step := Step cfg

end MS.Cape
