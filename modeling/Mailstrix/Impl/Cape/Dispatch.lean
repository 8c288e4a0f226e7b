import Mailstrix.Impl.Cape.Scheduler

/-!
# A pass of dispatch

`dispatch` in which every reservation succeeds, as a function of the batch, the live requests, the
last tenant served in each class and the clock, which is read once for each row of each scan.  Each
served row is kept with what the scan that chose it found.
-/

namespace MS.Cape

/-- What a scan finds. -/
structure Round where
  live : List JobID
  lastTenant : Nat → String
  /-- The rows that have not been inspected. -/
  jobs : List Job
  /-- The scans made so far. -/
  scans : Nat := 0

/-- A served row. -/
structure Turn where
  priority : Nat
  found : Round
  job : Job

variable (cfg : SchedulerConfig) (clock : Nat → Nat → Nat)

/-- The time of row `i` is read as `clock scan i`. -/
def Round.eligible (r : Round) (priority i : Nat) (j : Job) : Bool :=
  MS.Cape.eligible cfg r.live (clock r.scans i) priority j

def Round.candidate (r : Round) (priority : Nat) : Option Nat :=
  selectFrom (r.eligible cfg clock priority) (r.lastTenant priority) 0 none r.jobs

/-- The row is reserved, its request is live, and the cursor of its class moves to its tenant. -/
def Round.serve (r : Round) (priority i : Nat) (j : Job) : Round where
  live := j.id :: r.live
  lastTenant := Function.update r.lastTenant priority j.tenant
  jobs := r.jobs.eraseIdx i
  scans := r.scans + 1

/-- What a scan leaves that finds no row. -/
def Round.scanned (r : Round) : Round := { r with scans := r.scans + 1 }

/-- The loop of one class, for at most as many scans as given. -/
def serveClass (priority : Nat) : Nat → Round → List Turn × Round
  | 0, r => ([], r)
  | n + 1, r =>
    if cfg.workers ≤ r.live.length then ([], r)
    else
      match r.candidate cfg clock priority with
      | none => ([], r.scanned)
      | some i =>
        match r.jobs[i]? with
        | none => ([], r)
        | some j =>
          let rest := serveClass priority n (r.serve priority i j)
          (⟨priority, r, j⟩ :: rest.1, rest.2)

/-- The loop inspects a row in each turn, so a scan for each row and one more are enough. -/
def serveAll (priority : Nat) (r : Round) : List Turn × Round :=
  serveClass cfg clock priority (r.jobs.length + 1) r

/-- Deletions first, then everything else. -/
def dispatchPass (live : List JobID) (lastTenant : Nat → String) (batch : List Job) : List Turn × Round :=
  let deletions := serveAll cfg clock 0 { live := live, lastTenant := lastTenant, jobs := sortJobs batch }
  let others := serveAll cfg clock 1 deletions.2
  (deletions.1 ++ others.1, others.2)

end MS.Cape
