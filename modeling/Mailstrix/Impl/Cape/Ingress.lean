import Mailstrix.Impl.Cape.Spool

/-!
# The running store and its spool

The steps of a store in use, each one durable step: a committed transaction, a file operation, a sync.
Ingress writers run beside everything else and write their own files (`Phase`).  Whoever holds the
store's mutex may have files to remove as well, inside the transaction of `cleanupStaging` and of
`Maintain` or after the one of `Cancel` and of `RecordSubmission` (`Lock`).  Every I/O error, deadline
and cancellation is a step that gives up.  A power failure may follow any step, also one of recovery.
-/

namespace MS.Cape

open Framework

/-! ## Encoding -/

def Job.times (j : Job) : List Nat :=
  [j.createdAt, j.ingressDeadline, j.queueDeadline, j.analysisDeadline, j.terminalAt, j.nextAttempt, j.attemptAt,
    j.retryAfterUntil, j.pollWakeAt]

/-- The texts and times a store writes: no character to escape, no year of five digits. -/
structure Job.Short (j : Job) : Prop where
  tenant : identifier j.tenant 128 = true
  generation : identifier j.generation 128 = true
  submissionPolicy : identifier j.submissionPolicy 128 = true
  resultPolicy : identifier j.resultPolicy 128 = true
  digest : j.digest = "" ∨ identifier j.digest 64 = true
  staticVerdict : j.staticVerdict = "" ∨ validVerdict j.staticVerdict = true
  times : ∀ t ∈ j.times, t < lastTime

/-- A row with neither tasks nor a result. -/
structure Job.Compact (j : Job) : Prop extends j.Short where
  tasks : j.taskIDs = []
  acked : j.deleteAcknowledgedIDs = []
  result : j.result = []
  reason : safeOutcome j.reason = true

/-- Which rows `encodeJob` accepts.  `json.Marshal` needs less than half of `JobMetadataLimit` for a
compact row: 34 members, texts of 686 bytes, and numbers and times of fixed width. -/
structure Codec where
  encodes : Job → Bool
  compact : ∀ j, j.Compact → encodes j = true

/-! ## The process -/

/-- How far an ingress writer is.  The inode of its file and the bytes written to it are what it
counts in `size`. -/
inductive Phase
  | staged
  | writing (inode : Inode) (size : Nat)
  | synced (inode : Inode) (size : Nat)
  | renamed (inode : Inode) (size : Nat)
  | durable (inode : Inode) (size : Nat)
  | stopped

/-- The next step of `cleanupStaging`. -/
inductive CleanStep
  | tmp | blob | sync | commit

/-- What the holder of the mutex is in the middle of. -/
inductive Lock
  | free
  /-- `cleanupStaging`, inside its transaction. -/
  | cleaning (id : JobID) (step : CleanStep)
  /-- `removePayload` for each id.  With a time it is inside the second transaction of `Maintain`,
  otherwise after a commit. -/
  | removing (todo : List JobID) (unsynced : Bool) (maintain : Option Stamp)

structure Spooled where
  store : Store := {}
  spool : Spool := {}
  writers : JobID → Option Phase := fun _ => none
  lock : Lock := .free

def Spooled.write (w : Spooled) (id : JobID) (phase : Option Phase) : Spooled :=
  { w with writers := Function.update w.writers id phase }

/-- The calls whose transaction does not depend on the spool. -/
def plain : StoreOp → Bool
  | .reserve .. | .publish .. | .cleanupStaging _ | .maintainCleanup _ | .recoverSubmitting _ => false
  | _ => true

/-- The payloads a call removes after its commit. -/
def removals : StoreOp → Option Ret → List JobID
  | .cancel .., some (.job j) => if j.state = .staging then [] else [j.id]
  | .recordSubmission .., some (.job j) =>
    if j.state = .remotePending ∨ terminal j.state = true then [j.id] else []
  | _, _ => []

/-- A writer is done when its row was published; otherwise its files and its row have to go. -/
def afterPublish : Option Ret → Option Phase
  | some (.admission a) => if a.reused then some .stopped else none
  | _ => some .stopped

/-- A committed transaction.  No answer means that `Commit` reported an error all the same. -/
inductive Commits (cfg : StoreConfig) (codec : Codec) (op : StoreOp) (s : Store) : Option Ret → Store → Prop
  | done {env : Env} {s' : Store} {ret : Ret} : env.encodes = codec.encodes →
      exec cfg env op s = .ok (s', ret) → Commits cfg codec op s (some ret) s'
  | lost {env : Env} {s' : Store} {ret : Ret} : env.encodes = codec.encodes →
      exec cfg env op s = .ok (s', ret) → Commits cfg codec op s none { s with db := s'.db }

inductive SpoolEvent
  | call (op : StoreOp)
  | ingress (id : JobID)
  | locked
  | crash
  | reopen

inductive UpStep (cfg : StoreConfig) (codec : Codec) : Spooled → SpoolEvent → Spooled → Prop
  | call {w : Spooled} {op : StoreOp} {r : Option Ret} {s : Store} : w.lock = .free → plain op = true →
      Commits cfg codec op w.store r s →
      UpStep cfg codec w (.call op) { w with store := s, lock := .removing (removals op r) false none }
  /-- Callbacks are persisted without the mutex. -/
  | callback {w : Spooled} {key : CallbackKey} {e : CallbackEvent} {r : Option Ret} {s : Store}
      {todo : List JobID} {unsynced : Bool} : w.lock = .removing todo unsynced none →
      Commits cfg codec (.callback key e) w.store r s →
      UpStep cfg codec w (.call (.callback key e)) { w with store := s }
  | reserve {w : Spooled} {request : EnqueueRequest} {id : JobID} {c : Nat} {r : Option Ret} {s : Store} :
      w.lock = .free → Commits cfg codec (.reserve request id c) w.store r s →
      UpStep cfg codec w (.call (.reserve request id c))
        ({ w with store := s }.write id (r.map fun _ => .staged))
  | create {w : Spooled} {id : JobID} : w.writers id = some .staged →
      w.spool.live.get? ⟨id, .tmp⟩ = none →
      UpStep cfg codec w (.ingress id)
        ({ w with spool := w.spool.create id }.write id (some (.writing ⟨id, w.spool.serial⟩ 0)))
  | write {w : Spooled} {id : JobID} {i : Inode} {size : Nat} {bytes : List UInt8} :
      w.writers id = some (.writing i size) → (size + bytes.length : Int) ≤ cfg.maxAttachment →
      UpStep cfg codec w (.ingress id)
        ({ w with spool := w.spool.write i bytes }.write id (some (.writing i (size + bytes.length))))
  | syncFile {w : Spooled} {id : JobID} {i : Inode} {size : Nat} :
      w.writers id = some (.writing i size) → size ≠ 0 →
      UpStep cfg codec w (.ingress id)
        ({ w with spool := w.spool.syncFile i }.write id (some (.synced i size)))
  /-- `RENAME_NOREPLACE` -/
  | rename {w : Spooled} {id : JobID} {i : Inode} {size : Nat} {e : Entry} :
      w.writers id = some (.synced i size) → w.spool.live.get? ⟨id, .tmp⟩ = some e →
      w.spool.live.get? ⟨id, .blob⟩ = none →
      UpStep cfg codec w (.ingress id)
        ({ w with spool := w.spool.rename id e.inode }.write id (some (.renamed i size)))
  | syncRenamed {w : Spooled} {id : JobID} {i : Inode} {size : Nat} :
      w.writers id = some (.renamed i size) →
      UpStep cfg codec w (.ingress id)
        ({ w with spool := w.spool.sync }.write id (some (.durable i size)))
  | publish {w : Spooled} {id : JobID} {i : Inode} {size : Nat} {v digest : String} {r : Option Ret}
      {s : Store} : w.lock = .free → w.writers id = some (.durable i size) → validVerdict v = true →
      identifier digest 64 = true → Commits cfg codec (.publish id v size digest) w.store r s →
      UpStep cfg codec w (.call (.publish id v size digest))
        ({ w with store := s }.write id (afterPublish r))
  | stop {w : Spooled} {id : JobID} {phase : Phase} : w.writers id = some phase →
      UpStep cfg codec w (.ingress id) (w.write id (some .stopped))
  /-- `cleanupStaging` itself fails: it refuses a row that is not staging, or cannot begin. -/
  | leave {w : Spooled} {id : JobID} : w.writers id = some .stopped →
      UpStep cfg codec w (.ingress id) (w.write id none)
  | clean {w : Spooled} {id : JobID} {j : Job} : w.lock = .free → w.writers id = some .stopped →
      w.store.db.jobs.get? id = some j → j.state = .staging →
      UpStep cfg codec w (.ingress id) ({ w with lock := .cleaning id .tmp }.write id none)
  | cleanTmp {w : Spooled} {id : JobID} : w.lock = .cleaning id .tmp →
      UpStep cfg codec w .locked
        { w with spool := (w.spool.removeStoreFile ⟨id, .tmp⟩).2, lock := .cleaning id .blob }
  | cleanBlob {w : Spooled} {id : JobID} : w.lock = .cleaning id .blob →
      UpStep cfg codec w .locked
        { w with spool := (w.spool.removeStoreFile ⟨id, .blob⟩).2, lock := .cleaning id .sync }
  | cleanSync {w : Spooled} {id : JobID} : w.lock = .cleaning id .sync →
      UpStep cfg codec w .locked { w with spool := w.spool.sync, lock := .cleaning id .commit }
  | cleanCommit {w : Spooled} {id : JobID} {r : Option Ret} {s : Store} :
      w.lock = .cleaning id .commit → Commits cfg codec (.cleanupStaging id) w.store r s →
      UpStep cfg codec w (.call (.cleanupStaging id)) { w with store := s, lock := .free }
  | maintain {w : Spooled} {now : Stamp} : w.lock = .free →
      UpStep cfg codec w .locked
        { w with lock := .removing ((nextMaintenanceBatch w.store.db cleanupStates
            w.store.mem.maintenanceCleanupCursor).1.map Job.id) false (some now) }
  | removeFile {w : Spooled} {id : JobID} {todo : List JobID} {now : Option Stamp} :
      w.lock = .removing (id :: todo) false now →
      UpStep cfg codec w .locked
        { w with
          spool := (w.spool.removeStoreFile ⟨id, .blob⟩).2
          lock := .removing todo (w.spool.removeStoreFile ⟨id, .blob⟩).1 now }
  | removeSync {w : Spooled} {todo : List JobID} {now : Option Stamp} :
      w.lock = .removing todo true now →
      UpStep cfg codec w .locked { w with spool := w.spool.sync, lock := .removing todo false now }
  | maintainCommit {w : Spooled} {now : Stamp} {r : Option Ret} {s : Store} :
      w.lock = .removing [] false (some now) → Commits cfg codec (.maintainCleanup now) w.store r s →
      UpStep cfg codec w (.call (.maintainCleanup now)) { w with store := s, lock := .free }
  /-- The mutex is released, at the end or after an error. -/
  | unlock {w : Spooled} : UpStep cfg codec w .locked { w with lock := .free }

def Spooled.disk (w : Spooled) : Disk := ⟨w.store.db, w.spool⟩

/-- A machine with an open store, or one that has failed or not yet opened it. -/
inductive Machine
  | up (w : Spooled)
  | down (d : Disk)

inductive MachineStep (cfg : StoreConfig) (codec : Codec) : Machine → SpoolEvent → Machine → Prop
  | run {w w' : Spooled} {e : SpoolEvent} : UpStep cfg codec w e w' →
      MachineStep cfg codec (.up w) e (.up w')
  | crash {w : Spooled} {d : Disk} : w.disk.Crash d → MachineStep cfg codec (.up w) .crash (.down d)
  /-- Recovery gets to `t` and fails there. -/
  | crashAgain {env : Env} {order : Order} {d t d' : Disk} : env.encodes = codec.encodes →
      t ∈ (recover env order d).1 → t.Crash d' → MachineStep cfg codec (.down d) .crash (.down d')
  | reopen {env : Env} {order : Order} {d d' : Disk} : env.encodes = codec.encodes →
      (recover env order d).2 = .ok ((), d') →
      MachineStep cfg codec (.down d) .reopen (.up { store := ⟨d'.db, {}⟩, spool := d'.spool })

/-- It starts with empty tables and an empty directory. -/
def spoolSystem (cfg : StoreConfig) (codec : Codec) : System Machine SpoolEvent where
  init m := m = .down {}
  step := MachineStep cfg codec

end MS.Cape
