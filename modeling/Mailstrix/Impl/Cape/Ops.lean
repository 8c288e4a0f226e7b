import Mailstrix.Framework.Run
import Mailstrix.Impl.Cape.Callback

/-!
# The store as a transition system

`StoreOp` names every transaction with its arguments and `exec` runs one.  The steps of the system
are the commits, also those whose report is lost, and crashes, which keep the tables and lose the
memory.
-/

namespace MS.Cape

open Framework

inductive StoreOp
  | reserve (r : EnqueueRequest) (id : JobID) (correlation : Nat)
  | publish (id : JobID) (currentStatic : String) (size : Int) (digest : String)
  | cleanupStaging (id : JobID)
  | beginSubmission (tenant : String) (id : JobID) (version : Int)
  | recordSubmission (tenant : String) (id : JobID) (version : Int) (submission : Submission)
      (outcome : Code) (backoff : Int)
  | recoverSubmitting (id : JobID)
  | recordStatus (tenant : String) (id : JobID) (version : Int) (task : TaskRef) (status : Status)
  | completeReport (tenant : String) (id : JobID) (version : Int) (task : TaskRef)
      (report : Option Report) (mapper : Option ResultMapper)
  | recordReportError (tenant : String) (id : JobID) (version : Int) (task : TaskRef) (code : Code)
  | cancel (tenant : String) (id : JobID)
  | recordDeletion (tenant : String) (id : JobID) (version : Int) (task : TaskRef)
      (state : DeleteState) (outcome : Code)
  | maintainDeadlines
  | maintainCleanup (now : Stamp)
  | reserveRead (snapshot : Job) (delay : Duration)
  | extendRetry (snapshot : Job) (delay : Duration)
  | markCleanupDeadlines
  | callback (key : CallbackKey) (e : CallbackEvent)
  | setGenerationAdmission (generation : String) (enabled : Bool)
  | takeRequestToken
  | lookup (tenant : String) (id : JobID)
  | schedulerJobs
  | openPayload (tenant : String) (id : JobID) (version : Int)

inductive Ret
  | unit
  | job (j : Job)
  | jobs (js : List Job)
  | admission (a : Admission)
  | time (t : Stamp)

/-- The checks of `enqueue` ahead of its reservation. -/
def validRequest (cfg : StoreConfig) (r : EnqueueRequest) : Except Err Unit := do
  check (identifier r.tenant 128 = true ∧ identifier r.generation 128 = true ∧
    identifier r.submissionPolicy 128 = true ∧ identifier r.resultPolicy 128 = true ∧
    validVerdict r.staticVerdict = true) (.code .invalid)
  check (r.tenant ∈ cfg.tenants) (.code .unauthorized)

/-- A transaction that returns the row it worked on and leaves the memory alone. -/
def Store.withJob (s : Store) (r : Except Err (Db × Job)) : Except Err (Store × Ret) := do
  let (db, j) ← r
  return ({ s with db := db }, .job j)

/-- One committed call: its transaction and what it does to the memory after the commit. -/
def exec (cfg : StoreConfig) (env : Env) (op : StoreOp) (s : Store) : Except Err (Store × Ret) :=
  match op with
  | .reserve r id correlation => do
    validRequest cfg r
    let (db, j) ← reserve cfg env s.db r id correlation
    return (⟨db, { s.mem with ingress := j :: s.mem.ingress }⟩, .job j)
  | .publish id currentStatic size digest => do
    let j ← need (s.mem.ingress.find? fun j => j.id = id) (.code .closed)
    let (db, a) ← publish env s.db j currentStatic size digest
    return (⟨db, { s.mem with
      ingress := if a.reused then s.mem.ingress else s.mem.ingress.filter fun j => j.id ≠ id }⟩,
      .admission a)
  | .cleanupStaging id => do
    let db ← cleanupStaging s.db id
    return (⟨db, { s.mem with ingress := s.mem.ingress.filter fun j => j.id ≠ id }⟩, .unit)
  | .beginSubmission tenant id version => do
    let (db, j) ← beginSubmission cfg env s.mem.liveAttempts s.db tenant id version
    return (⟨db, { s.mem with
      liveAttempts := (j.id, j.tenant) :: s.mem.liveAttempts.filter fun a => a.1 ≠ j.id }⟩, .job j)
  | .recordSubmission tenant id version submission outcome backoff => do
    let (db, j) ← recordSubmission env s.db tenant id version submission outcome backoff
    return (⟨db, { s.mem with
      liveAttempts := s.mem.liveAttempts.filter fun a => a.1 ≠ j.id }⟩, .job j)
  | .recoverSubmitting id => s.withJob (recoverSubmitting env s.db id)
  | .recordStatus tenant id version task status =>
    s.withJob (recordStatus env s.db tenant id version task status)
  | .completeReport tenant id version task report mapper =>
    s.withJob (completeReport env s.db tenant id version task report mapper)
  | .recordReportError tenant id version task code =>
    s.withJob (recordReportError env s.db tenant id version task code)
  | .cancel tenant id => s.withJob (cancel env s.db tenant id)
  | .recordDeletion tenant id version task state outcome =>
    s.withJob (recordDeletion env s.db tenant id version task state outcome)
  | .maintainDeadlines => do
    let (db, now, cursor) ← maintainDeadlines env s.mem.maintenanceDeadlineCursor s.db
    return (⟨db, { s.mem with maintenanceDeadlineCursor := cursor }⟩, .time now)
  | .maintainCleanup now => do
    let (db, cursor) ← maintainCleanup env now s.mem.maintenanceCleanupCursor s.db
    return (⟨db, { s.mem with maintenanceCleanupCursor := cursor }⟩, .unit)
  | .reserveRead snapshot delay => s.withJob (reserveRead env s.db snapshot delay)
  | .extendRetry snapshot delay => s.withJob (extendRetry env s.db snapshot delay)
  | .markCleanupDeadlines => do
    let (db, cursor) ← markCleanupDeadlines env s.mem.cleanupDeadlineCursor s.db
    return (⟨db, { s.mem with cleanupDeadlineCursor := cursor }⟩, .unit)
  | .callback key e => s.withJob (persistCallback env s.db key e)
  | .setGenerationAdmission generation enabled => do
    let db ← setGenerationAdmission s.db generation enabled
    return ({ s with db := db }, .unit)
  | .takeRequestToken => do
    let (db, now) ← storeNow env s.db
    takeToken env
    return ({ s with db := db }, .time now)
  | .lookup tenant id => do
    let j ← readJob s.db id tenant
    return (s, .job j)
  | .schedulerJobs =>
    let batch := nextMaintenanceBatch s.db schedulerStates s.mem.schedulerCursor
    .ok (⟨s.db, { s.mem with schedulerCursor := batch.2 }⟩, .jobs batch.1)
  | .openPayload tenant id version => do
    let j ← openPayload s.db tenant id version
    return (s, .job j)

/-- One durable step of the store.  A call that is refused or rolled back is none. -/
inductive StoreEvent
  /-- A call whose transaction committed.  It may still report an error: a payload removal or a
  checkpoint that fails after the commit. -/
  | commit (op : StoreOp) (ret : Ret)
  /-- A call whose transaction committed while `Commit` itself reported an error, so that the memory
  was not updated. -/
  | lost (op : StoreOp) (ret : Ret)
  /-- The process ends; the tables stay. -/
  | crash

/-- The call of a durable step. -/
def StoreEvent.op? : StoreEvent → Option StoreOp
  | .commit op _ => some op
  | .lost op _ => some op
  | .crash => none

def storeSystem (cfg : StoreConfig) : System Store StoreEvent where
  init s := s = {}
  step s e s' :=
    match e with
    | .commit op ret => ∃ env, exec cfg env op s = .ok (s', ret)
    | .lost op ret => ∃ env s₁, exec cfg env op s = .ok (s₁, ret) ∧ s' = { s with db := s₁.db }
    | .crash => s' = { s with mem := {} }

end MS.Cape
