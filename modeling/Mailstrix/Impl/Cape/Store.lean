import Mailstrix.Framework.Table
import Mailstrix.Framework.Except
import Mailstrix.Impl.Cape.Report

/-!
# The job store: tables and transactions

The SQLite tables, the memory a store keeps beside them, and the body of every transaction as a
function from the tables to new tables or an error.  A body that returns an error has changed
nothing: the transaction rolls back.

Left to the environment of each call (`Env`): the wall clock, the verdict of the token buckets
(`float64` balances), the free space of the volume and whether a row still encodes within its size
limit.  What is left out because no modelled function reads it: the WAL pragmas and the checkpoint,
whose only effect on a caller is an error after the commit.
-/

namespace MS.Cape

open Framework

/-! ## Configuration -/

structure StoreLimits where
  maxAttachment : Int := 0
  maxJobs : Int := 0
  tenantJobs : Int := 0
  maxBytes : Int := 0
  tenantBytes : Int := 0
  submitPerMinute : Int := 0
  tenantSubmitPerMinute : Int := 0
  requestsPerMinute : Int := 0
  submissionConcurrency : Int := 0
  tenantSubmissionConcurrency : Int := 0
deriving DecidableEq

/-- Zero limits select the frozen defaults. -/
def StoreLimits.withDefaults (c : StoreLimits) : StoreLimits :=
  let default := fun v d : Int => if v = 0 then d else v
  { maxAttachment := default c.maxAttachment maxAttachmentLimit
    maxJobs := default c.maxJobs 1000
    tenantJobs := default c.tenantJobs 100
    maxBytes := default c.maxBytes (2 ^ 30)
    tenantBytes := default c.tenantBytes (100 * 2 ^ 20)
    submitPerMinute := default c.submitPerMinute 5
    tenantSubmitPerMinute := default c.tenantSubmitPerMinute 2
    requestsPerMinute := default c.requestsPerMinute 5
    submissionConcurrency := default c.submissionConcurrency 2
    tenantSubmissionConcurrency := default c.tenantSubmissionConcurrency 1 }

/-- The bounds `ValidateStoreLimits` checks after applying the defaults. -/
structure StoreLimits.Valid (c : StoreLimits) : Prop where
  maxAttachment : 1 ≤ c.maxAttachment ∧ c.maxAttachment ≤ maxAttachmentLimit
  maxJobs : 1 ≤ c.maxJobs ∧ c.maxJobs ≤ 10000
  tenantJobs : 1 ≤ c.tenantJobs ∧ c.tenantJobs ≤ c.maxJobs
  maxBytes : 1 ≤ c.maxBytes ∧ c.maxBytes ≤ physicalLimit - stateReserve - 3 * databaseLimit
  tenantBytes : 1 ≤ c.tenantBytes ∧ c.tenantBytes ≤ c.maxBytes
  submitPerMinute : 1 ≤ c.submitPerMinute ∧ c.submitPerMinute ≤ 10000
  tenantSubmitPerMinute : 1 ≤ c.tenantSubmitPerMinute ∧ c.tenantSubmitPerMinute ≤ c.submitPerMinute
  requestsPerMinute : c.submitPerMinute ≤ c.requestsPerMinute ∧ c.requestsPerMinute ≤ 10000
  submissionConcurrency : 1 ≤ c.submissionConcurrency ∧ c.submissionConcurrency ≤ 100
  tenantSubmissionConcurrency :
    1 ≤ c.tenantSubmissionConcurrency ∧ c.tenantSubmissionConcurrency ≤ c.submissionConcurrency

/-- A configuration a store can be opened with. -/
structure StoreConfig extends StoreLimits where
  tenants : List String
  valid : toStoreLimits.Valid

/-! ## State -/

/-- One row of `cape_events`. -/
structure EventRow where
  event : String
  tenant : String
  keyID : String
  accepted : Nat
  expires : Nat
deriving DecidableEq

/-- The durable tables. -/
structure Db where
  jobs : Table Job.id := ∅
  latest : Option Stamp := none
  paused : List String := []
  events : List EventRow := []
  eventClock : Option Stamp := none

/-- What the process remembers: the rows its ingress writers hold, the attempts in flight and the
maintenance cursors (`none` is the empty cursor). -/
structure Mem where
  ingress : List Job := []
  liveAttempts : List (JobID × String) := []
  maintenanceDeadlineCursor : Option JobID := none
  maintenanceCleanupCursor : Option JobID := none
  cleanupDeadlineCursor : Option JobID := none
  schedulerCursor : Option JobID := none

structure Store where
  db : Db := {}
  mem : Mem := {}

structure Capacity where
  total : Int
  available : Int
  block : Int

def validCapacity (c : Capacity) : Bool :=
  stateReserve + 3 * databaseLimit < c.total && c.total ≤ physicalLimit && 0 ≤ c.available &&
    c.available ≤ c.total && 0 < c.block && c.block ≤ 2 ^ 20

/-- What one call meets outside the store. -/
structure Env where
  clock : Stamp
  /-- The reading a callback takes of its own, just before the store takes `clock`. -/
  actual : Stamp := clock
  /-- The verdict of the token buckets, `none` when every token asked for is granted. -/
  tokens : Option Err := none
  capacity : Option Capacity := none
  /-- `encodeJob` keeps within the metadata and result limits. -/
  encodes : Job → Bool := fun _ => true

/-! ## The statements the transactions share -/

/-- `SELECT document FROM jobs WHERE id=? AND tenant=?` -/
def readJob (db : Db) (id : JobID) (tenant : String) : Except Err Job :=
  need ((db.jobs.get? id).filter fun j => j.tenant = tenant) (.code .notFound)

/-- Overwrites the row if it still has the expected state and version. -/
def putJob (env : Env) (db : Db) (j expected : Job) : Except Err Db := do
  check (env.encodes j = true) (.code .tooLarge)
  let row ← need (db.jobs.get? j.id) .conflict
  check (row.tenant = j.tenant ∧ row.state = expected.state ∧ row.version = expected.version) .conflict
  return { db with jobs := db.jobs.set j }

/-- The store's clock never runs backwards: a reading slightly behind the recorded one is replaced
by it, one further behind is refused. -/
def storeNow (env : Env) (db : Db) : Except Err (Db × Stamp) :=
  match db.latest with
  | none => .ok ({ db with latest := some env.clock }, env.clock)
  | some previous =>
    if env.clock.val < previous.val - clockTolerance then .error .clock
    else
      let now := if env.clock.val < previous.val then previous else env.clock
      .ok ({ db with latest := some now }, now)

def admissionGeneration (db : Db) (generation : String) : Except Err Unit :=
  check (generation ∉ db.paused) (.code .unauthorized)

def takeToken (env : Env) : Except Err Unit :=
  match env.tokens with
  | none => .ok ()
  | some e => .error e

/-! ## Ingress -/

structure EnqueueRequest where
  tenant : String
  generation : String
  submissionPolicy : String
  resultPolicy : String
  staticVerdict : String

structure Admission where
  job : Job
  reused : Bool := false

def validVerdict (v : String) : Bool :=
  v = "clean" || v = "unknown" || v = "suspicious" || v = "malicious"

def reserved (rows : List Job) : Int := (rows.map (·.reservedBytes)).sum

/-- Refuses a tenant with remote debt older than a week. -/
def checkTenantDebt (db : Db) (tenant : String) (now : Stamp) : Except Err Unit :=
  check (∀ j ∈ db.jobs.rows, j.tenant = tenant →
    j.cleanup = .notSubmitted ∨ j.cleanup = .purgeConfirmed ∨
      now.val < (if j.attemptAt = 0 then j.createdAt else j.attemptAt) + 7 * 24 * hour) .quota

/-- The row a reservation inserts, before its deadlines are known. -/
def stagingJob (cfg : StoreConfig) (r : EnqueueRequest) (id : JobID) (correlation : Nat) : Job :=
  { id := id, tenant := r.tenant, generation := r.generation, submissionPolicy := r.submissionPolicy
    resultPolicy := r.resultPolicy, staticVerdict := r.staticVerdict, correlation := correlation
    state := .staging, version := 1, cleanup := .notSubmitted
    reservedBytes := cfg.maxAttachment + jobMetadataLimit + jobResultLimit }

def withDeadlines (j : Job) (now : Stamp) : Job :=
  { j with
    createdAt := now.val, ingressDeadline := now.val + ingressLimit
    queueDeadline := now.val + hour, analysisDeadline := now.val + 24 * hour }

def reserve (cfg : StoreConfig) (env : Env) (db : Db) (r : EnqueueRequest) (id : JobID)
    (correlation : Nat) : Except Err (Db × Job) := do
  let j := stagingJob cfg r id correlation
  let (db, now) ← storeNow env db
  admissionGeneration db r.generation
  let capacity ← need (env.capacity.filter validCapacity) .storeUnavailable
  let rows := db.jobs.rows
  let own := rows.filter fun j => j.tenant = r.tenant
  let staging := rows.filter fun j => j.state = .staging
  check (0 ≤ reserved rows ∧ 0 ≤ reserved own ∧ 0 ≤ reserved staging ∧
    reserved staging ≤ physicalLimit ∧ staging.length ≤ 10000) .storeUnavailable
  check ((rows.length : Int) < cfg.maxJobs ∧ (own.length : Int) < cfg.tenantJobs ∧
    reserved rows ≤ cfg.maxBytes - j.reservedBytes ∧
    reserved own ≤ cfg.tenantBytes - j.reservedBytes) .quota
  checkTenantDebt db r.tenant now
  check (stateReserve + 3 * databaseLimit + reserved staging + j.reservedBytes +
    (staging.length + 1) * capacity.block ≤ capacity.available) .quota
  let j := withDeadlines j now
  check (env.encodes j = true) (.code .tooLarge)
  let jobs ← need (db.jobs.insert? j) .storeUnavailable
  return ({ db with jobs := jobs }, j)

/-- The rows an upload is compared with: same tenant, content and policies. -/
def dedupKey (j : Job) : String × String × String × String × String :=
  (j.tenant, j.digest, j.generation, j.submissionPolicy, j.resultPolicy)

def publishedJob (j : Job) (currentStatic : String) (size : Int) (digest : String) : Job :=
  { j with
    staticVerdict := currentStatic, state := .queued, version := j.version + 1, payloadBytes := size
    reservedBytes := size + jobMetadataLimit + jobResultLimit, digest := digest }

/-- The publication of a staged attachment, `j` being the row its writer reserved: an existing
reusable row with the same key is returned in its place. -/
def publish (env : Env) (db : Db) (j : Job) (currentStatic : String) (size : Int) (digest : String) :
    Except Err (Db × Admission) := do
  let (db, now) ← storeNow env db
  check (now.val < j.ingressDeadline) (.code .deadline)
  let key := dedupKey { j with digest := digest }
  match db.jobs.rows.find? fun r => dedupKey r = key ∧ reusable r now.val = true with
  | some existing => return (db, { job := existing, reused := true })
  | none =>
    let queued := publishedJob j currentStatic size digest
    let db ← putJob env db queued j
    return (db, { job := queued })

/-- Erases a staging row; refuses every other state. -/
def cleanupStaging (db : Db) (id : JobID) : Except Err Db := do
  let j ← need (db.jobs.get? id) (.code .notFound)
  check (j.state = .staging) .storeUnavailable
  return { db with jobs := db.jobs.erase id }

end MS.Cape
