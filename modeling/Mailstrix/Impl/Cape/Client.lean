import Mailstrix.Impl.Cape.Scheduler

/-!
# What the sandbox client returns

The results of `Client.Status`, `Client.Report` and `Client.Delete` as functions of the decoded
response, and `request`, which keeps them in a packet.  The request, the transport and the decoding of
the response are the client's `read`: any document or any of its errors.
-/

namespace MS.Cape

/-- The errors of `Client.read`. -/
inductive ReadErr
  | invalid | closed | credential | deadline | unauthorized | transport | notFound | remote | protocol | tooLarge
  | throttled (retryAfter : Int)

def ReadErr.err : ReadErr → Err
  | .invalid => .code .invalid
  | .closed => .code .closed
  | .credential => .code .credential
  | .deadline => .code .deadline
  | .unauthorized => .code .unauthorized
  | .transport => .code .transport
  | .notFound => .code .notFound
  | .remote => .code .remote
  | .protocol => .code .protocol
  | .tooLarge => .code .tooLarge
  | .throttled retryAfter => .code .throttled retryAfter

/-- The pinned upstream states. -/
def pinnedStatus : String → Option Status
  | "pending" => some .pending
  | "running" => some .running
  | "distributed" => some .distributed
  | "completed" => some .completed
  | "recovered" => some .recovered
  | "reported" => some .reported
  | "banned" => some .banned
  | "failed_analysis" => some .failedAnalysis
  | "failed_processing" => some .failedProcessing
  | "failed_reporting" => some .failedReporting
  | "distributed_completed" => some .distributedCompleted
  | _ => none

/-- `doc["error"].(bool)` and `doc["data"].(string)`. -/
structure StatusDocument where
  error : Option Bool
  data : Option String

def clientStatus (doc : Except ReadErr StatusDocument) : Status × Option Err :=
  match doc with
  | .error e => (.other "", some e.err)
  | .ok d =>
    if d.error = some false then
      match d.data.bind pinnedStatus with
      | some s => (s, none)
      | none => (.other "", some (.code .protocol))
    else (.other "", some (.code .protocol))

/-- The members of a report document that are checked. -/
structure ReportDocument where
  infoID : Option Int
  infoCategory : Option String
  targetCategory : Option String
  fileSHA256 : Option String

def clientReport (task : TaskRef) (digest : String) (doc : Except ReadErr ReportDocument) :
    Option Report × Option Err :=
  match doc with
  | .error e => (none, some e.err)
  | .ok d =>
    if d.infoID = some task.id ∧ d.fileSHA256 = some digest ∧ d.infoCategory = some "file" ∧
        d.targetCategory = some "file" then
      (some { task := task, digest := digest, infoID := d.infoID, infoCategory := d.infoCategory
              targetCategory := d.targetCategory, fileSHA256 := d.fileSHA256 }, none)
    else (none, some (.code .protocol))

/-- The number of members of the document and `doc["data"]`, when it is a text. -/
structure DeleteDocument where
  members : Nat
  data : Option String

def clientDelete (task : TaskRef) (doc : Except ReadErr DeleteDocument) : DeleteState × Option Err :=
  match doc with
  | .error e => (.empty, some e.err)
  | .ok d =>
    if d.members = 1 ∧ d.data = some ("Task(s) ID(s) " ++ toString task.id ++ " has been deleted") then
      (.acknowledgedUnverified, none)
    else (.empty, some (.code .protocol))

/-- What `request` may bring back for a packet.  A report is not asked for when the row's digest
is not that of thirty-two bytes.  The outcome of an upload is that of `Submit` or an error of
`OpenPayload`; nothing in it matters here. -/
def Packet.Returned (r : Packet) : Prop :=
  match r.kind with
  | .status => ∃ doc, (r.status, r.err) = clientStatus doc
  | .report => (r.report, r.err) = (none, some (.code .protocol)) ∨
      ∃ doc, (r.report, r.err) = clientReport r.task r.job.digest doc
  | .delete => ∃ doc, (r.deleted, r.err) = clientDelete r.task doc
  | .submit | .beginError => True

end MS.Cape
