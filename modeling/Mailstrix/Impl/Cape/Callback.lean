import Mailstrix.Impl.Cape.Lifecycle

/-!
# Authenticated callbacks

The transaction of an accepted event hint: the key's validity window and the signed time, the job
the event names, the replay table and at last the wake-up of the row.  Authentication comes before
it and is not part of the transaction.
-/

namespace MS.Cape

open Framework

/-- The parts of a bridge key the transaction reads. -/
structure CallbackKey where
  id : String
  notBefore : Nat
  notAfter : Nat

structure CallbackEvent where
  eventID : String
  tenant : String
  jobID : JobID
  generation : String
  taskID : Int
  /-- The signed time, in seconds since the Unix epoch. -/
  timestamp : Nat

/-- The events clock is strict, and the signed time lies within five minutes of it. -/
def validateCallbackClock (env : Env) (db : Db) (key : CallbackKey) (seconds : Nat) : Except Err Unit := do
  let actual := env.actual.val
  check (∀ latest ∈ db.eventClock, latest.val ≤ actual) .clock
  let signed := unixEpoch + seconds * second
  check (key.notBefore ≤ actual ∧ actual < key.notAfter ∧ actual - 5 * minute ≤ signed ∧
    signed ≤ actual + 5 * minute) (.code .invalid)

/-- The job of an event: same tenant, same generation, and exactly this one task. -/
def callbackJob (db : Db) (e : CallbackEvent) : Except Err Job := do
  let j ← need ((db.jobs.get? e.jobID).filter fun j => j.tenant = e.tenant) (.code .invalid)
  check (j.generation = e.generation ∧ j.taskIDs = [e.taskID]) (.code .invalid)
  return j

/-- Expired rows go, then the replay, total, tenant and rate limits are checked in this order. -/
def reserveCallbackEvent (db : Db) (keyID event tenant : String) (now : Stamp) : Except Err Db := do
  let events := db.events.filter fun r => now.val < r.expires
  check (∀ r ∈ events, r.event ≠ event) .conflict
  check (events.length < 10000 ∧ (events.filter fun r => r.tenant = tenant).length < 1000 ∧
    (events.filter fun r => r.keyID = keyID ∧ now.val - minute < r.accepted).length < 10) .quota
  let row : EventRow :=
    { event := event, tenant := tenant, keyID := keyID
      accepted := now.val, expires := now.val + 11 * minute }
  return { db with events := events ++ [row] }

def wokenJob (j : Job) (now : Stamp) : Job := { j with pollWakeAt := now.val, version := j.version + 1 }

/-- The row is woken only while it waits for its remote task. -/
def persistCallback (env : Env) (db : Db) (key : CallbackKey) (e : CallbackEvent) :
    Except Err (Db × Job) := do
  validateCallbackClock env db key e.timestamp
  let (db, now) ← storeNow env db
  let j ← callbackJob db e
  let db ← reserveCallbackEvent db key.id e.eventID e.tenant now
  let db := { db with eventClock := some env.actual }
  if (j.state ≠ .remotePending ∧ j.state ≠ .fetching) ∨ j.suppressed ∨ j.analysisDeadline ≤ now.val then
    return (db, j)
  let next := wokenJob j now
  let db ← putJob env db next j
  return (db, next)

end MS.Cape
