import Mailstrix.Impl.Cape.Job

/-!
# Sandbox reports and the normalized result

What the store keeps of a report is a `NormalizedResult`, produced by an administrator's mapper
and admitted only by `normalizedBytes`.
-/

namespace MS.Cape

/-- A bounded local identifier: ASCII letters, digits, `-`, `_` and `.`. -/
def identifier (s : String) (maxLength : Nat) : Bool :=
  decide (s.utf8ByteSize ≠ 0) && decide (s.utf8ByteSize ≤ maxLength) &&
    s.toList.all fun r => (r.isAlphanum || r == '-' || r == '_' || r == '.')

inductive Evidence
  | malicious | suspicious | noSignal
  | other (text : String)
deriving DecidableEq

def Evidence.text : Evidence → String
  | .malicious => "malicious"
  | .suspicious => "suspicious"
  | .noSignal => "no_signal"
  | .other t => t

structure NormalizedResult where
  version : Int
  policy : String
  evidence : Evidence
  signals : List String := []
deriving DecidableEq

/-- `json.Marshal` of a result whose texts are identifiers, which need no escaping. -/
def NormalizedResult.marshal (r : NormalizedResult) : List UInt8 :=
  let quote := fun s : String => "\"" ++ s ++ "\""
  let signals := if r.signals.isEmpty then ""
    else ",\"signals\":[" ++ ",".intercalate (r.signals.map quote) ++ "]"
  ("\x7b\"version\":" ++ toString r.version ++ ",\"policy\":" ++ quote r.policy ++
    ",\"evidence\":" ++ quote r.evidence.text ++ signals ++ "\x7d").toUTF8.toList

/-- The evidence and the number of signals fit together. -/
def evidenceMatches (r : NormalizedResult) : Bool :=
  match r.evidence with
  | .malicious | .suspicious => !r.signals.isEmpty
  | .noSignal => r.signals.isEmpty
  | .other _ => false

/-- The bytes stored for a result, when it passes every check. -/
def normalizedBytes (r : NormalizedResult) (policy : String) : Except Err (List UInt8) :=
  if r.version ≠ 1 ∨ r.policy ≠ policy ∨ !identifier policy 128 ∨ 128 < r.signals.length then
    .error (.code .protocol)
  else if !evidenceMatches r then .error (.code .protocol)
  else if !(r.signals.all (identifier · 128)) ∨ ¬ r.signals.Nodup then .error (.code .protocol)
  else if jobResultLimit < r.marshal.length then .error (.code .tooLarge)
  else .ok r.marshal

/-- The parts of a fetched report that its identity check reads.  `none` stands for a JSON member
that is missing or has another type. -/
structure Report where
  task : TaskRef
  /-- The digest the report was requested for, in hexadecimal. -/
  digest : String
  infoID : Option Int
  infoCategory : Option String
  targetCategory : Option String
  fileSHA256 : Option String

/-- A report belongs to the task and to the attachment with this digest. -/
def reportIdentity (r : Option Report) (task : TaskRef) (digest : String) : Bool :=
  match r with
  | none => false
  | some r => r.task = task && r.digest = digest && r.infoID = some task.id &&
      r.infoCategory = some "file" && r.targetCategory = some "file" && r.fileSHA256 = some digest

/-- A `ResultMapper`: trusted code outside the store, `none` when it returns an error. -/
abbrev ResultMapper := Report → String → Option NormalizedResult

/-- What `CompleteReport` computes before its transaction: the bytes to store, or nothing. -/
def normalize (mapper : Option ResultMapper) (report : Option Report) (task : TaskRef) (j : Job) :
    Option (List UInt8) :=
  match mapper, report with
  | some m, some r =>
    if reportIdentity (some r) task j.digest then
      (m r j.resultPolicy).bind fun n => (normalizedBytes n j.resultPolicy).toOption
    else none
  | _, _ => none

/-- The statuses a poll can return. -/
inductive Status
  | reported
  | pending | running | distributed | completed | recovered | distributedCompleted
  | banned | failedAnalysis | failedProcessing | failedReporting
  | other (text : String)
deriving DecidableEq

inductive DeleteState
  | empty
  | acknowledgedUnverified
  | other (text : String)
deriving DecidableEq

end MS.Cape
