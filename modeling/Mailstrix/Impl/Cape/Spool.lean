import Mailstrix.Framework.Durable
import Mailstrix.Framework.WriteBack
import Mailstrix.Impl.Cape.Ops

/-!
# The spool directory and recovery

The payload of a row is a file in the spool directory.  A directory entry is durable once the
directory has been synced, the content of a file once the file has been; `Spool.Crash` is what a power
failure does to both.  `recover` is the reconciliation a start runs before the store is used.

Not modelled: owner, mode and device of a file, which no operation of the store changes, and names
outside `<id>.tmp` and `<id>.blob`, which none creates.
-/

namespace MS.Cape

open Framework

/-! ## Files -/

inductive Ext
  | tmp | blob
deriving DecidableEq

/-- `<id>.tmp` while an upload is written, `<id>.blob` from then on. -/
structure Name where
  id : JobID
  ext : Ext
deriving DecidableEq

/-- A file, whatever its names are: the job it was created for and its number in order of creation. -/
structure Inode where
  id : JobID
  serial : Nat
deriving DecidableEq

structure File where
  data : List UInt8 := []
  synced : Bool := false

structure Entry where
  name : Name
  inode : Inode
deriving DecidableEq

abbrev Dir := Table Entry.name

inductive DirOp
  | create (id : JobID) (inode : Inode)
  | rename (id : JobID) (inode : Inode)
  | unlink (name : Name)

def DirOp.apply (d : Dir) : DirOp → Dir
  | .create id inode => d.put ⟨⟨id, .tmp⟩, inode⟩
  | .rename id inode => (d.erase ⟨id, .tmp⟩).put ⟨⟨id, .blob⟩, inode⟩
  | .unlink name => d.erase name

structure Spool where
  dir : WriteBack Dir DirOp := ⟨∅, []⟩
  files : Inode → File := fun _ => {}
  serial : Nat := 0

namespace Spool

/-- The directory as the process sees it. -/
def live (s : Spool) : Dir := s.dir.view DirOp.apply

/-- The directory as a power failure may leave it. -/
def Image (s : Spool) (d : Dir) : Prop := s.dir.Image DirOp.apply d

/-- `O_CREATE|O_EXCL` of `<id>.tmp`. -/
def create (s : Spool) (id : JobID) : Spool where
  dir := s.dir.push (.create id ⟨id, s.serial⟩)
  files := Function.update s.files ⟨id, s.serial⟩ {}
  serial := s.serial + 1

def write (s : Spool) (i : Inode) (bytes : List UInt8) : Spool :=
  { s with files := Function.update s.files i ⟨(s.files i).data ++ bytes, false⟩ }

def syncFile (s : Spool) (i : Inode) : Spool :=
  { s with files := Function.update s.files i { s.files i with synced := true } }

/-- `<id>.tmp` becomes `<id>.blob`. -/
def rename (s : Spool) (id : JobID) (i : Inode) : Spool := { s with dir := s.dir.push (.rename id i) }

def unlink (s : Spool) (n : Name) : Spool := { s with dir := s.dir.push (.unlink n) }

/-- Whether there was a file to remove, and the spool without it. -/
def removeStoreFile (s : Spool) (n : Name) : Bool × Spool :=
  if (s.live.get? n).isSome then (true, s.unlink n) else (false, s)

def sync (s : Spool) : Spool := { s with dir := s.dir.flush DirOp.apply }

def nlink (s : Spool) (i : Inode) : Nat := (s.live.rows.filter fun e => e.inode = i).length

def openStoreFile (s : Spool) (n : Name) : Except Err File := do
  let e ← need (s.live.get? n) .storeUnavailable
  check (s.nlink e.inode = 1) .storeUnavailable
  return s.files e.inode

/-- A power failure.  What a file that was not synced holds afterwards is arbitrary, but stays. -/
structure Crash (s s' : Spool) : Prop where
  image : s.Image s'.dir.base
  settled : s'.dir.pending = []
  kept : ∀ i, (s.files i).synced = true → s'.files i = s.files i
  stable : ∀ i, (s'.files i).synced = true
  serial : s'.serial = s.serial

end Spool

/-! ## Recovery -/

/-- What survives a power failure. -/
structure Disk where
  db : Db := {}
  spool : Spool := {}

structure Disk.Crash (d d' : Disk) : Prop where
  db : d'.db = d.db
  spool : d.spool.Crash d'.spool

abbrev Recovery := Durable Disk Err

variable {α : Type}

def transaction (f : Db → Except Err (Db × α)) : Recovery α := Durable.act fun d => do
  let (db, a) ← f d.db
  return (a, { d with db := db })

def onSpool (f : Spool → α × Spool) : Recovery α :=
  Durable.act fun d => .ok ((f d.spool).1, { d with spool := (f d.spool).2 })

def require (p : Disk → Prop) [DecidablePred p] : Recovery Unit := Durable.act fun d => do
  check (p d) .storeUnavailable
  return ((), d)

/-- The orders in which a start meets the rows (a Go map) and the directory entries. -/
structure Order where
  jobs : List Job → List Job
  jobs_perm : ∀ l, (jobs l).Perm l
  entries : List Entry → List Entry
  entries_perm : ∀ l, (entries l).Perm l

def loadRecoveryJobs : Recovery (List Job) := do
  require fun d => d.db.jobs.rows.length ≤ 10000
  transaction fun db => .ok (db, db.jobs.rows)

/-- `cleanupStaging` under exclusive startup ownership: removed files are synced before the row goes. -/
def recoverStaging (id : JobID) : Recovery Unit := do
  require fun d => ((d.db.jobs.get? id).filter fun j => j.state = .staging).isSome
  let _ ← onSpool (·.removeStoreFile ⟨id, .tmp⟩)
  let _ ← onSpool (·.removeStoreFile ⟨id, .blob⟩)
  onSpool fun s => ((), s.sync)
  transaction fun db => do return (← cleanupStaging db id, ())

def reconcileRecoveryJob (env : Env) (j : Job) : Recovery (Option Job) :=
  if j.state = .staging then do
    recoverStaging j.id
    return none
  else if j.state = .submitting then do
    let j ← transaction fun db => recoverSubmitting env db j.id
    return some j
  else if cleanupStates j.state then do
    let _ ← onSpool (·.removeStoreFile ⟨j.id, .blob⟩)
    return some j
  else return some j

/-- The rows left, as the transactions left them. -/
def reconcileRecoveryJobs (env : Env) : List Job → Recovery (List Job)
  | [] => return []
  | j :: js => do
    let kept ← reconcileRecoveryJob env j
    let rest ← reconcileRecoveryJobs env js
    return kept.toList ++ rest

/-- The row sends its payload, or may have to send it again. -/
def awaits (j : Job) : Bool := j.state = .queued || j.state = .submitUncertain

/-- The row whose payload the file is; any other file is removed. -/
def reconcileRecoveryEntry (jobs : List Job) (count : Nat) (n : Name) : Recovery (Option JobID) := do
  require fun _ => count ≤ 20000
  let f ← Durable.act fun d => do return (← d.spool.openStoreFile n, d)
  match (jobs.find? fun j => j.id = n.id).filter fun j => n.ext = .blob && awaits j with
  | some j =>
    require fun _ => (f.data.length : Int) = j.payloadBytes ∧ 1 ≤ j.payloadBytes ∧
      j.payloadBytes ≤ maxAttachmentLimit
    return some n.id
  | none =>
    let _ ← onSpool (·.removeStoreFile n)
    return none

def reconcileRecoveryEntries (jobs : List Job) : Nat → List Name → Recovery (List JobID)
  | _, [] => return []
  | count, n :: ns => do
    let seen ← reconcileRecoveryEntry jobs (count + 1) n
    let rest ← reconcileRecoveryEntries jobs (count + 1) ns
    return seen.toList ++ rest

/-- The ids whose payload was found. -/
def reconcileRecoverySpool (order : Order) (jobs : List Job) : Recovery (List JobID) := do
  let entries ← onSpool fun s => (order.entries s.live.rows, s)
  let seen ← reconcileRecoveryEntries jobs 0 (entries.map Entry.name)
  onSpool fun s => ((), s.sync)
  return seen

def recover (env : Env) (order : Order) : Recovery Unit := do
  let jobs ← loadRecoveryJobs
  let jobs ← reconcileRecoveryJobs env (order.jobs jobs)
  let seen ← reconcileRecoverySpool order jobs
  require fun _ => ∀ j ∈ jobs, awaits j → j.id ∈ seen

end MS.Cape
