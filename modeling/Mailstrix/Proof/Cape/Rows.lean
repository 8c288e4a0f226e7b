import Mailstrix.Proof.Cape.Clock

/-!
# What a transaction can do to a row

`RowStep op before after` lists every change a committed `op` can make to the row with one id, with
the guards that allowed it, and `exec_rows` reads any committed call as such a change of every row
of the table; `storeStep_later` says what it does besides.  All invariants of rows are proved from `RowStep`;
the transactions are not opened again.
-/

namespace MS.Cape

open Framework

variable {j : Job} {now : Stamp} {db db' : Db} {ingress : List Job} {env : Env} {op : StoreOp}
variable {expected j₁ : Job} {cfg : StoreConfig} {task : TaskRef} {status : Status} {mapper : Option ResultMapper}
  {report : Option Report} {cursor c : Option JobID} {s s' : Store} {r : Ret}

/-- The changes of one row.  `ingress` are the rows the ingress writers hold. -/
inductive RowStep (ingress : List Job) : StoreOp → Option Job → Option Job → Prop
  | reserve {cfg : StoreConfig} {r : EnqueueRequest} {id : JobID} {c : Nat} {now : Stamp} :
      RowStep ingress (.reserve r id c) none (some (withDeadlines (stagingJob cfg r id c) now))
  | publish {w j : Job} {v : String} {size : Int} {digest : String} :
      w ∈ ingress → j.id = w.id → j.tenant = w.tenant → j.state = w.state → j.version = w.version →
      RowStep ingress (.publish w.id v size digest) (some j) (some (publishedJob w v size digest))
  | cleanupStaging {j : Job} : j.state = .staging →
      RowStep ingress (.cleanupStaging j.id) (some j) none
  | begin {j : Job} {now : Stamp} : j.state = .queued →
      RowStep ingress (.beginSubmission j.tenant j.id j.version) (some j) (some (submittingJob j now))
  | recordTerminal {j : Job} {v : Int} {s : Submission} {o : Code} {b : Int} :
      recordable j v = true → terminal j.state = true →
      RowStep ingress (.recordSubmission j.tenant j.id v s o b) (some j)
        (some (applyTerminalSubmission (respondedJob j s o).1 j s o (respondedJob j s o).2))
  | recordMany {j : Job} {v : Int} {s : Submission} {o : Code} {b : Int} {clock : Stamp} :
      recordable j v = true → terminal j.state = false → 1 < s.tasks.length →
      RowStep ingress (.recordSubmission j.tenant j.id v s o b) (some j)
        (some (ambiguousJob (respondedJob j s o).1 clock))
  | recordOwned {j : Job} {v : Int} {s : Submission} {o : Code} {b : Int} :
      recordable j v = true → terminal j.state = false → s.tasks.length ≤ 1 →
      (respondedJob j s o).2 = false → s.unknownDebt = false → s.noBytesSent = false →
      (respondedJob j s o).1.taskIDs.length = 1 →
      RowStep ingress (.recordSubmission j.tenant j.id v s o b) (some j)
        (some (ownedJob (respondedJob j s o).1))
  | recordRequeue {j : Job} {v : Int} {s : Submission} {o : Code} {b : Int} {next : Nat} :
      recordable j v = true → terminal j.state = false → s.tasks = [] → s.unknownDebt = false →
      s.noBytesSent = true → next < lastTime →
      RowStep ingress (.recordSubmission j.tenant j.id v s o b) (some j)
        (some (requeuedJob (respondedJob j s o).1 next))
  | recordUnsure {j : Job} {v : Int} {s : Submission} {o : Code} {b : Int} :
      recordable j v = true → terminal j.state = false → s.tasks.length ≤ 1 →
      RowStep ingress (.recordSubmission j.tenant j.id v s o b) (some j)
        (some (unsureJob (respondedJob j s o).1))
  | interrupted {j : Job} : j.state = .submitting →
      RowStep ingress (.recoverSubmitting j.id) (some j) (some (interruptedJob j))
  | status {j j' : Job} {task : TaskRef} {status : Status} {now : Stamp} :
      j.state = .remotePending → j.suppressed = false → singleOwnedTask j task = true →
      statusChange status j now = .ok j' →
      RowStep ingress (.recordStatus j.tenant j.id j.version task status) (some j) (some (polledJob j'))
  | report {j j' : Job} {task : TaskRef} {report : Option Report} {mapper : Option ResultMapper}
      {now : Stamp} :
      j.state = .fetching → j.suppressed = false → singleOwnedTask j task = true →
      reportChange mapper report task j now = .ok j' →
      RowStep ingress (.completeReport j.tenant j.id j.version task report mapper) (some j)
        (some (polledJob j'))
  | reportError {j : Job} {task : TaskRef} {code reason : Code} :
      j.state = .fetching → j.suppressed = false → singleOwnedTask j task = true →
      RowStep ingress (.recordReportError j.tenant j.id j.version task code) (some j)
        (some (polledJob { j with reason := reason }))
  | cancel {j : Job} {now : Stamp} : j.state ≠ .staging → j.state ≠ .cancelled →
      RowStep ingress (.cancel j.tenant j.id) (some j) (some (endedJob j .cancelled .empty now))
  | deletion {j : Job} {task : TaskRef} {d : DeleteState} {o : Code} :
      terminal j.state = true → task.generation = j.generation → task.id ∈ j.taskIDs →
      RowStep ingress (.recordDeletion j.tenant j.id j.version task d o) (some j)
        (some (deletionJob j task o))
  | expire {j : Job} {now : Stamp} : j.state ≠ .staging → terminal j.state = false →
      RowStep ingress .maintainDeadlines (some j) (some (endedJob j .expired .deadline now))
  | forget {j : Job} {now : Stamp} : terminal j.state = true → deletable j = true →
      RowStep ingress (.maintainCleanup now) (some j) none
  | minimize {j : Job} {now : Stamp} : terminal j.state = true → deletable j = false →
      RowStep ingress (.maintainCleanup now) (some j) (some (retainedJob j))
  | reserveRead {j snapshot : Job} {delay : Duration} {next : Nat} :
      terminal j.state = true ∨ j.state = .remotePending ∨ j.state = .fetching → next < lastTime →
      RowStep ingress (.reserveRead snapshot delay) (some j) (some (readJobReserved j next))
  | extendRetry {j snapshot : Job} {delay : Duration} {next : Nat} : next < lastTime →
      RowStep ingress (.extendRetry snapshot delay) (some j) (some (delayedJob j next))
  | overdue {j : Job} : terminal j.state = true → j.dedupBarrier = true →
      RowStep ingress .markCleanupDeadlines (some j) (some (overdueJob j))
  | callback {j : Job} {key : CallbackKey} {e : CallbackEvent} {now : Stamp} :
      j.state = .remotePending ∨ j.state = .fetching →
      RowStep ingress (.callback key e) (some j) (some (wokenJob j now))

/-! ## The shared statements -/

theorem readJob_ok {db : Db} {id : JobID} {tenant : String} :
    readJob db id tenant = .ok j ↔ db.jobs.get? id = some j ∧ j.tenant = tenant := by
  simp [readJob, need_ok, Option.filter_eq_some_iff]

theorem storeNow_jobs (h : storeNow env db = .ok (db', now)) : db'.jobs = db.jobs := (storeNow_waits h).jobs

theorem putJob_ok {j : Job} :
    putJob env db j expected = .ok db' ↔ env.encodes j = true ∧ ∃ row, db.jobs.get? j.id = some row ∧
      (row.tenant = j.tenant ∧ row.state = expected.state ∧ row.version = expected.version) ∧
      { db with jobs := db.jobs.set j } = db' := by
  simp only [putJob, bind_ok, check_ok, need_ok, pure_ok, exists_const]

/-- The row a transaction has read and then overwrites. -/
theorem putJob_jobs {j : Job} (h : putJob env db j expected = .ok db') : db'.jobs = db.jobs.set j := by
  obtain ⟨-, row, -, -, rfl⟩ := putJob_ok.1 h
  rfl

theorem putJob_later (h : putJob env db j expected = .ok db') : db.Later db' := by
  obtain ⟨-, row, -, -, rfl⟩ := putJob_ok.1 h
  exact .jobs ..

/-- Any call but a callback. -/
def StoreOp.Plain (op : StoreOp) : Prop := ∀ key e, op ≠ .callback key e

/-- A transaction has replaced one row, and `j'` is now in its place. -/
structure Replaced (ingress : List Job) (op : StoreOp) (db db' : Db) (j' : Job) : Prop where
  row : ∃ j, db.jobs.get? j'.id = some j ∧ RowStep ingress op (some j) (some j')
  jobs : db'.jobs = db.jobs.set j'
  later : op.Plain → db.Later db'

theorem Replaced.get {j' : Job}
    (h : Replaced ingress op db db' j') : db'.jobs.get? j'.id = some j' := by
  obtain ⟨j, hj, -⟩ := h.row
  simp [h.jobs, Table.get?_set, hj]

theorem Replaced.other {j' : Job}
    (h : Replaced ingress op db db' j') {id : JobID} (hid : id ≠ j'.id) : db'.jobs.get? id = db.jobs.get? id := by
  rw [h.jobs, Table.get?_set, if_neg hid.symm]

/-- The shape of every write: the row `j` was read, the clock may have moved, `j'` is put. -/
theorem Replaced.of_put {db db₁ db' : Db} {j j' : Job} (hj : db.jobs.get? j.id = some j) (hid : j'.id = j.id)
    (h₁ : db.Waits db₁) (hput : putJob env db₁ j' expected = .ok db')
    (hstep : RowStep ingress op (some j) (some j')) : Replaced ingress op db db' j' :=
  ⟨⟨j, hid ▸ hj, hstep⟩, by rw [putJob_jobs hput, h₁.jobs], fun _ => h₁.trans (putJob_later hput)⟩

/-! ## Submission -/

section
variable {ingress : List Job} {env : Env} {db db' : Db} {tenant : String} {id : JobID} {version : Int} {j' : Job}

theorem beginSubmission_ok {live : List (JobID × String)}
    (h : beginSubmission cfg env live db tenant id version = .ok (db', j')) :
    Replaced ingress (.beginSubmission tenant id version) db db' j' := by
  simp only [beginSubmission, admissionGeneration, bind_ok, check_ok, readJob_ok, pure_ok, Prod.exists,
    exists_const] at h
  obtain ⟨j, ⟨hj, rfl⟩, ⟨hs, rfl⟩, -, db₁, now, hnow, -, -, -, -, -, db₂, hput, he⟩ := h
  cases he
  obtain rfl := Table.key_of_get? hj
  exact .of_put hj rfl (storeNow_waits hnow) hput (.begin hs)

theorem applyTerminalSubmission_id (j p : Job) (s : Submission) (o : Code) (i : Bool) :
    (applyTerminalSubmission j p s o i).id = j.id := by
  simp only [applyTerminalSubmission]
  split_ifs <;> rfl

theorem applySubmissionOutcome_ok {j : Job} {db₁ : Db} {submission : Submission} {outcome : Code} {backoff : Int}
    (hrec : recordable j version = true)
    (h : applySubmissionOutcome env db (respondedJob j submission outcome).1 j submission outcome
      (respondedJob j submission outcome).2 backoff = .ok (db₁, j₁)) :
    j₁.id = j.id ∧ db.Waits db₁ ∧
      RowStep ingress (.recordSubmission j.tenant j.id version submission outcome backoff) (some j) (some j₁) := by
  unfold applySubmissionOutcome at h
  split at h
  · cases h
    exact ⟨applyTerminalSubmission_id .., .refl _, .recordTerminal hrec ‹_›⟩
  rename_i hterm
  rw [Bool.not_eq_true] at hterm
  split at h
  · cases h
    exact ⟨rfl, .refl _, .recordMany hrec hterm ‹_›⟩
  rename_i hmany
  split at h
  · rename_i hown
    cases h
    simp only [Bool.not_eq_eq_eq_not, Bool.not_true] at hown
    obtain ⟨-, hinv, hdebt, hsent, hlen⟩ := hown
    exact ⟨rfl, .refl _, .recordOwned hrec hterm (by omega) hinv hdebt hsent hlen⟩
  split at h
  · rename_i hnone
    simp only [bind_ok, pure_ok, Prod.exists] at h
    obtain ⟨db₃, now, hnow, he⟩ := h
    cases he
    simp only [Bool.not_eq_eq_eq_not, Bool.not_true, List.length_eq_zero_iff] at hnone
    obtain ⟨-, hsent, -, hdebt, htasks⟩ := hnone
    exact ⟨rfl, storeNow_waits hnow, .recordRequeue hrec hterm htasks hdebt hsent (now.backoff_lt _)⟩
  · cases h
    exact ⟨rfl, .refl _, .recordUnsure hrec hterm (by omega)⟩

theorem recordSubmission_ok {submission : Submission} {outcome : Code} {backoff : Int}
    (h : recordSubmission env db tenant id version submission outcome backoff = .ok (db', j')) :
    Replaced ingress (.recordSubmission tenant id version submission outcome backoff) db db' j' := by
  simp only [recordSubmission, bind_ok, check_ok, readJob_ok, pure_ok, Prod.exists, exists_const] at h
  obtain ⟨-, j, ⟨hj, rfl⟩, hrec, db₁, j₁, hout, db₂, hput, he⟩ := h
  cases he
  obtain rfl := Table.key_of_get? hj
  obtain ⟨hid, hdb, hstep⟩ := applySubmissionOutcome_ok hrec hout
  exact .of_put hj hid hdb hput hstep

theorem recoverSubmitting_ok (h : recoverSubmitting env db id = .ok (db', j')) :
    Replaced ingress (.recoverSubmitting id) db db' j' := by
  simp only [recoverSubmitting, bind_ok, check_ok, need_ok, pure_ok, exists_const] at h
  obtain ⟨j, hj, hs, db₂, hput, he⟩ := h
  cases he
  obtain rfl := Table.key_of_get? hj
  exact .of_put hj rfl (.refl _) hput (.interrupted hs)

/-! ## Reports -/

/-- The guards of `transitionReport`, for any change. -/
theorem transitionReport_ok {expected : JobState} {change : Job → Stamp → Except Err Job}
    (h : transitionReport env db tenant id version task expected change = .ok (db', j')) :
    ∃ j j₁ now db₁, db.jobs.get? j.id = some j ∧ j.id = id ∧ j.tenant = tenant ∧ j.version = version ∧
      j.state = expected ∧ j.suppressed = false ∧ singleOwnedTask j task = true ∧
      change j now = .ok j₁ ∧ j' = polledJob j₁ ∧ db.Waits db₁ ∧
      putJob env db₁ j' j = .ok db' := by
  simp only [transitionReport, bind_ok, check_ok, readJob_ok, pure_ok, Prod.exists, exists_const] at h
  obtain ⟨j, ⟨hj, ht⟩, ⟨hv, hs, hsup, hown⟩, db₁, now, hnow, -, j₁, hch, db₂, hput, he⟩ := h
  cases he
  have hid := Table.key_of_get? hj
  exact ⟨j, j₁, now, db₁, hid ▸ hj, hid, ht, hv, hs, hsup, hown, hch, rfl, storeNow_waits hnow, hput⟩

@[simp] theorem terminate_id (j : Job) (st : JobState) (c : Code) (now : Nat) :
    (terminate j st c now).id = j.id := by
  simp only [terminate]
  split_ifs <;> rfl

/-- A status moves the row on, leaves it or ends it. -/
theorem statusChange_cases {j : Job} (h : statusChange status j now = .ok j₁) :
    j₁ = { j with state := .fetching } ∨ j₁ = j ∨ j₁ = terminate j .failed .remote now.val := by
  cases status <;> simp only [statusChange, Except.ok.injEq, reduceCtorEq] at h <;> subst h <;> simp

theorem reportChange_cases {j : Job} (h : reportChange mapper report task j now = .ok j₁) :
    j₁ = terminate j .failed .protocol now.val ∨
      ∃ result, normalize mapper report task j = some result ∧
        j₁ = { terminate j .completed .empty now.val with result := result } := by
  unfold reportChange at h
  split at h
  case h_1 => exact .inl (Except.ok.inj h).symm
  case h_2 result hresult => exact .inr ⟨result, hresult, (Except.ok.inj h).symm⟩

theorem statusChange_id {j : Job} (h : statusChange status j now = .ok j₁) : j₁.id = j.id := by
  rcases statusChange_cases h with rfl | rfl | rfl <;> simp

theorem reportChange_id {j : Job} (h : reportChange mapper report task j now = .ok j₁) : j₁.id = j.id := by
  rcases reportChange_cases h with rfl | ⟨result, -, rfl⟩ <;> simp

theorem recordStatus_ok (h : recordStatus env db tenant id version task status = .ok (db', j')) :
    Replaced ingress (.recordStatus tenant id version task status) db db' j' := by
  obtain ⟨j, j₁, now, db₁, hj, rfl, rfl, rfl, hs, hsup, hown, hch, rfl, hdb, hput⟩ := transitionReport_ok h
  have hid : j₁.id = j.id := statusChange_id hch
  exact .of_put hj hid hdb hput (.status hs hsup hown hch)

theorem completeReport_ok (h : completeReport env db tenant id version task report mapper = .ok (db', j')) :
    Replaced ingress (.completeReport tenant id version task report mapper) db db' j' := by
  obtain ⟨j, j₁, now, db₁, hj, rfl, rfl, rfl, hs, hsup, hown, hch, rfl, hdb, hput⟩ := transitionReport_ok h
  have hid : j₁.id = j.id := reportChange_id hch
  exact .of_put hj hid hdb hput (.report hs hsup hown hch)

theorem recordReportError_ok {code : Code} (h : recordReportError env db tenant id version task code = .ok (db', j')) :
    Replaced ingress (.recordReportError tenant id version task code) db db' j' := by
  unfold recordReportError at h
  obtain ⟨j, j₁, now, db₁, hj, rfl, rfl, rfl, hs, hsup, hown, hch, rfl, hdb, hput⟩ := transitionReport_ok h
  cases hch
  exact .of_put hj rfl hdb hput (.reportError hs hsup hown)

/-! ## Cancellation, deletion and the scheduler's bookkeeping -/

theorem cancelNow_waits (h : cancelNow env db = .ok (db', now)) : db.Waits db' := by
  unfold cancelNow at h
  split at h
  · simp only [bind_ok, need_ok, pure_ok] at h
    obtain ⟨_, -, he⟩ := h
    cases he
    exact .refl _
  · exact storeNow_waits h

@[simp] theorem endedJob_id (j : Job) (st : JobState) (c : Code) (now : Stamp) :
    (endedJob j st c now).id = j.id := terminate_id ..

theorem cancel_ok (h : cancel env db tenant id = .ok (db', j')) :
    (db' = db ∧ db.jobs.get? j'.id = some j' ∧ (j'.state = .staging ∨ j'.state = .cancelled)) ∨
      Replaced ingress (.cancel tenant id) db db' j' := by
  simp only [cancel, bind_ok, readJob_ok] at h
  obtain ⟨j, ⟨hj, rfl⟩, h⟩ := h
  obtain rfl := Table.key_of_get? hj
  split at h
  · rw [pure_ok] at h
    cases h
    exact .inl ⟨rfl, hj, ‹_›⟩
  · rename_i hs
    simp only [bind_ok, pure_ok, Prod.exists] at h
    obtain ⟨db₁, now, hnow, db₂, hput, he⟩ := h
    cases he
    rw [not_or] at hs
    exact .inr (.of_put hj (endedJob_id ..) (cancelNow_waits hnow) hput (.cancel hs.1 hs.2))

theorem recordDeletion_ok {d : DeleteState} {o : Code}
    (h : recordDeletion env db tenant id version task d o = .ok (db', j')) :
    Replaced ingress (.recordDeletion tenant id version task d o) db db' j' := by
  simp only [recordDeletion, bind_ok, check_ok, readJob_ok, pure_ok, exists_const] at h
  obtain ⟨-, j, ⟨hj, rfl⟩, ⟨rfl, hg, ht⟩, hown, db₂, hput, he⟩ := h
  cases he
  obtain rfl := Table.key_of_get? hj
  exact .of_put hj rfl (.refl _) hput (.deletion ht hg hown)

/-- A read or a deletion is reserved on the row as it was read, at a store time that is not throttled. -/
theorem reserveRead_spec {snapshot : Job} {delay : Duration}
    (h : reserveRead env db snapshot delay = .ok (db', j')) :
    ∃ j db₁ now, db.jobs.get? snapshot.id = some j ∧ j.state = snapshot.state ∧
      (terminal j.state = true ∨ j.state = .remotePending ∨ j.state = .fetching) ∧
      storeNow env db = .ok (db₁, now) ∧ readThrottled j now.val = false ∧
      j' = readJobReserved j (now.val + delay.val).toNat ∧ putJob env db₁ j' j = .ok db' := by
  simp only [reserveRead, bind_ok, check_ok, readJob_ok, Prod.exists, exists_const] at h
  obtain ⟨j, ⟨hj, -⟩, ⟨-, hstate⟩, db₁, now, hnow, hfree, h⟩ := h
  split at h
  · simp only [bind_ok, check_ok, pure_ok, exists_const] at h
    obtain ⟨-, -, -, db₂, hput, he⟩ := h
    cases he
    exact ⟨j, db₁, now, hj, hstate, .inl ‹_›, hnow, hfree, rfl, hput⟩
  · simp only [bind_ok, check_ok, pure_ok, exists_const] at h
    obtain ⟨⟨hs, -⟩, -, -, db₂, hput, he⟩ := h
    cases he
    exact ⟨j, db₁, now, hj, hstate, .inr hs, hnow, hfree, rfl, hput⟩

theorem reserveRead_ok {snapshot : Job} {delay : Duration}
    (h : reserveRead env db snapshot delay = .ok (db', j')) :
    Replaced ingress (.reserveRead snapshot delay) db db' j' := by
  obtain ⟨j, db₁, now, hj, -, hs, hnow, -, rfl, hput⟩ := reserveRead_spec h
  exact .of_put (Table.get?_key hj) rfl (storeNow_waits hnow) hput (.reserveRead hs (now.add_lt delay))

theorem extendRetry_ok {snapshot : Job} {delay : Duration}
    (h : extendRetry env db snapshot delay = .ok (db', j')) :
    db.Waits db' ∨ Replaced ingress (.extendRetry snapshot delay) db db' j' := by
  simp only [extendRetry, bind_ok, readJob_ok, Prod.exists] at h
  obtain ⟨j, ⟨hj, -⟩, db₁, now, hnow, h⟩ := h
  split at h
  · rw [pure_ok] at h
    cases h
    exact .inl (storeNow_waits hnow)
  · simp only [bind_ok, pure_ok] at h
    obtain ⟨db₂, hput, he⟩ := h
    cases he
    exact .inr (.of_put (Table.get?_key hj) rfl (storeNow_waits hnow) hput (.extendRetry (now.add_lt delay)))

theorem reserveCallbackEvent_jobs {keyID event tenant : String}
    (h : reserveCallbackEvent db keyID event tenant now = .ok db') : db'.jobs = db.jobs := by
  simp only [reserveCallbackEvent, bind_ok, check_ok, pure_ok, exists_const] at h
  obtain ⟨-, -, rfl⟩ := h
  rfl

theorem persistCallback_ok {key : CallbackKey} {e : CallbackEvent}
    (h : persistCallback env db key e = .ok (db', j')) :
    db'.jobs = db.jobs ∨ Replaced ingress (.callback key e) db db' j' := by
  simp only [persistCallback, callbackJob, bind_ok, check_ok, need_ok, pure_ok, Prod.exists,
    Option.filter_eq_some_iff, exists_const] at h
  obtain ⟨-, -, db₁, now, hnow, _, ⟨j, ⟨hj, -⟩, -, rfl⟩, db₂, hres, h⟩ := h
  have hjobs : db₂.jobs = db.jobs := (reserveCallbackEvent_jobs hres).trans (storeNow_jobs hnow)
  rw [storeNow_jobs hnow] at hj
  split at h
  · rw [pure_ok] at h
    cases h
    exact .inl hjobs
  · rename_i hs
    simp only [bind_ok, pure_ok] at h
    obtain ⟨db₃, hput, he⟩ := h
    cases he
    have hs' : j.state = .remotePending ∨ j.state = .fetching := by
      by_contra hn
      exact hs (.inl (not_or.1 hn))
    refine .inr ⟨⟨j, Table.get?_key hj, .callback hs'⟩, ?_, fun hop => absurd rfl (hop key e)⟩
    rw [putJob_jobs hput, hjobs]
end

/-! ## Batches -/

/-- Every row is unchanged or takes one step. -/
def Changes (ingress : List Job) (op : StoreOp) (t t' : Table Job.id) : Prop :=
  ∀ id, t'.get? id = t.get? id ∨ RowStep ingress op (t.get? id) (t'.get? id)

theorem Changes.of_eq {t t' : Table Job.id} (h : t' = t) :
    Changes ingress op t t' := fun _ => .inl (h ▸ rfl)

theorem Replaced.changes {j' : Job}
    (h : Replaced ingress op db db' j') : Changes ingress op db.jobs db'.jobs := by
  obtain ⟨⟨j, hj, hstep⟩, hjobs, -⟩ := h
  intro id
  rw [hjobs, Table.get?_set]
  split_ifs with hid
  · subst hid
    rw [hj]
    exact .inr hstep
  · exact .inl rfl

/-- What a transaction does to the tables. -/
structure TxEffect (ingress : List Job) (op : StoreOp) (db db' : Db) : Prop where
  rows : Changes ingress op db.jobs db'.jobs
  later : op.Plain → db.Later db'

theorem Db.Waits.effect (h : db.Waits db') : TxEffect ingress op db db' := ⟨.of_eq h.jobs, fun _ => h.toLater⟩

theorem Replaced.effect {j' : Job} (h : Replaced ingress op db db' j') : TxEffect ingress op db db' :=
  ⟨h.changes, h.later⟩

/-- The clock is read before the rest. -/
theorem TxEffect.after {db₁ : Db} (h : TxEffect ingress op db₁ db') (hw : db.Waits db₁) : TxEffect ingress op db db' :=
  ⟨hw.jobs ▸ h.rows, fun hop => hw.trans (h.later hop)⟩

/-- One transaction works on one row: the others keep their value. -/
structure OnRow (ingress : List Job) (op : StoreOp) (db db' : Db) (j : Job) : Prop where
  other : ∀ id, id ≠ j.id → db'.jobs.get? id = db.jobs.get? id
  row : db'.jobs.get? j.id = some j ∨ RowStep ingress op (some j) (db'.jobs.get? j.id)
  later : db.Later db'

/-- The loop of a maintenance transaction.  The batch was read before the loop, so the induction
carries that the rows still to come are as they were read. -/
theorem foldlM_rows {f : Db → Job → Except Err Db} {P : Job → Prop}
    (hf : ∀ db db' j, P j → db.jobs.get? j.id = some j → f db j = .ok db' → OnRow ingress op db db' j) :
    ∀ (l : List Job) (db db' : Db), (l.map Job.id).Nodup → (∀ j ∈ l, P j) →
      (∀ j ∈ l, db.jobs.get? j.id = some j) → l.foldlM f db = .ok db' →
      (∀ id, id ∉ l.map Job.id → db'.jobs.get? id = db.jobs.get? id) ∧ TxEffect ingress op db db'
  | [], db, db', _, _, _, h => by
    rw [List.foldlM_nil, pure_ok] at h
    subst h
    exact ⟨fun _ _ => rfl, (Db.Waits.refl db).effect⟩
  | j :: l, db, db', hnd, hP, hrows, h => by
    rw [List.foldlM_cons, bind_ok] at h
    obtain ⟨db₁, h₁, h⟩ := h
    rw [List.map_cons, List.nodup_cons] at hnd
    have hon := hf db db₁ j (hP j List.mem_cons_self) (hrows j List.mem_cons_self) h₁
    have hrest : ∀ j' ∈ l, db₁.jobs.get? j'.id = some j' := fun j' hj' => by
      rw [hon.other _ fun he => hnd.1 (he ▸ List.mem_map_of_mem hj')]
      exact hrows j' (List.mem_cons_of_mem _ hj')
    obtain ⟨hkeep, heff⟩ := foldlM_rows hf l db₁ db' hnd.2 (fun j' hj' => hP j' (List.mem_cons_of_mem _ hj'))
      hrest h
    refine ⟨fun id hid => ?_, fun id => ?_, fun hop => hon.later.trans (heff.later hop)⟩
    · rw [List.map_cons, List.mem_cons, not_or] at hid
      rw [hkeep id hid.2, hon.other id hid.1]
    · by_cases hid : id = j.id
      · subst hid
        rw [hkeep _ hnd.1, hrows j List.mem_cons_self]
        exact hon.row
      · rw [← hon.other id hid]
        exact heff.rows id

theorem mem_batchAfter {db : Db} {states : JobState → Bool} (h : j ∈ batchAfter db states cursor) :
    db.jobs.get? j.id = some j ∧ states j.state = true := by
  have h := List.mem_of_mem_take h
  rw [List.mem_insertionSort, List.mem_filter, Bool.and_eq_true] at h
  exact ⟨Table.mem_rows.1 h.1, h.2.1⟩

theorem nodup_batchAfter (db : Db) (states : JobState → Bool) (cursor : Option JobID) :
    ((batchAfter db states cursor).map Job.id).Nodup := by
  have hperm := List.perm_insertionSort (fun a b : Job => a.id ≤ b.id)
    (db.jobs.rows.filter fun j => states j.state && cursor.all (· < j.id))
  have hnd : ((db.jobs.rows.filter fun j => states j.state && cursor.all (· < j.id)).map Job.id).Nodup :=
    db.jobs.nodup.sublist (List.filter_sublist.map _)
  exact ((hperm.map Job.id).nodup_iff.2 hnd).sublist ((List.take_sublist _ _).map _)

/-- A batch is one of two `batchAfter`s. -/
theorem nextMaintenanceBatch_eq (db : Db) (states : JobState → Bool) (cursor : Option JobID) :
    ∃ c, (nextMaintenanceBatch db states cursor).1 = batchAfter db states c := by
  simp only [nextMaintenanceBatch]
  split_ifs
  · exact ⟨none, rfl⟩
  · exact ⟨cursor, rfl⟩

theorem batch_effect {f : Db → Job → Except Err Db} {states : JobState → Bool} {p : Job → Bool}
    (hf : ∀ db db' j, states j.state = true ∧ p j = true → db.jobs.get? j.id = some j → f db j = .ok db' →
      OnRow ingress op db db' j) (h : ((nextMaintenanceBatch db states cursor).1.filter p).foldlM f db = .ok db') :
    TxEffect ingress op db db' := by
  obtain ⟨c, hc⟩ := nextMaintenanceBatch_eq db states cursor
  rw [hc] at h
  refine (foldlM_rows hf _ db db' ?_ ?_ ?_ h).2
  · exact (nodup_batchAfter db states c).sublist (List.filter_sublist.map _)
  · intro j hj
    obtain ⟨hj, hp⟩ := List.mem_filter.1 hj
    exact ⟨(mem_batchAfter hj).2, hp⟩
  · intro j hj
    exact (mem_batchAfter (List.mem_filter.1 hj).1).1

theorem OnRow.of_eq {db : Db} (hj : db.jobs.get? j.id = some j) : OnRow ingress op db db j :=
  ⟨fun _ _ => rfl, .inl hj, .refl db⟩

theorem OnRow.of_put {j j' : Job} (hj : db.jobs.get? j.id = some j) (hid : j'.id = j.id)
    (hput : putJob env db j' expected = .ok db') (hstep : RowStep ingress op (some j) (some j')) :
    OnRow ingress op db db' j := by
  rw [← hid] at hj
  refine ⟨fun id hne => ?_, .inr ?_, putJob_later hput⟩
  · rw [putJob_jobs hput, Table.get?_set, if_neg (hid.trans_ne hne.symm)]
  · rw [putJob_jobs hput, Table.get?_set, if_pos hid, ← hid, hj]
    exact hstep

theorem expireJob_row
    (hj : db.jobs.get? j.id = some j) (h : expireJob env now db j = .ok db') :
    OnRow ingress .maintainDeadlines db db' j := by
  unfold expireJob at h
  split at h
  · cases h; exact .of_eq hj
  split at h
  · rename_i hs hdue
    rw [Bool.not_eq_true'] at hdue
    exact .of_put hj (endedJob_id ..) h (.expire hs hdue.1)
  · cases h; exact .of_eq hj

theorem retainJob_row
    (hj : db.jobs.get? j.id = some j) (h : retainJob env now db j = .ok db') :
    OnRow ingress (.maintainCleanup now) db db' j := by
  unfold retainJob at h
  split at h
  · cases h; exact .of_eq hj
  rename_i hdue
  have hterm : terminal j.state = true := by
    by_contra hn
    exact hdue (.inl (by simpa using hn))
  split at h
  · rename_i hdel
    cases h
    refine ⟨fun id hne => ?_, .inr ?_, .jobs ..⟩
    · simp only [Table.get?_erase, if_neg hne.symm]
    · simp only [Table.get?_erase, if_true]
      exact .forget hterm hdel
  rename_i hdel
  split at h
  · cases h; exact .of_eq hj
  · have hid : (retainedJob j).id = j.id := rfl
    exact .of_put hj hid h (.minimize hterm (by simpa using hdel))

theorem maintainDeadlines_ok (h : maintainDeadlines env cursor db = .ok (db', now, c)) :
    TxEffect ingress .maintainDeadlines db db' := by
  simp only [maintainDeadlines, bind_ok, pure_ok, Prod.exists] at h
  obtain ⟨db₁, now₁, hnow, db₂, hfold, he⟩ := h
  cases he
  rw [← List.filter_true (nextMaintenanceBatch db₁ _ _).1] at hfold
  exact (batch_effect (fun _ _ _ _ hj h => expireJob_row hj h) hfold).after (storeNow_waits hnow)

theorem maintainCleanup_ok (h : maintainCleanup env now cursor db = .ok (db', c)) :
    TxEffect ingress (.maintainCleanup now) db db' := by
  simp only [maintainCleanup, bind_ok, pure_ok] at h
  obtain ⟨db₂, hfold, he⟩ := h
  cases he
  rw [← List.filter_true (nextMaintenanceBatch db _ _).1] at hfold
  exact batch_effect (fun _ _ _ _ hj h => retainJob_row hj h) hfold

theorem markCleanupDeadlines_ok (h : markCleanupDeadlines env cursor db = .ok (db', c)) :
    TxEffect ingress .markCleanupDeadlines db db' := by
  simp only [markCleanupDeadlines, bind_ok, pure_ok, Prod.exists] at h
  obtain ⟨db₁, now, hnow, db₂, hfold, he⟩ := h
  cases he
  refine (batch_effect (fun db db' j hp hj h => ?_) hfold).after (storeNow_waits hnow)
  have hid : (overdueJob j).id = j.id := rfl
  have hbar : j.dedupBarrier = true := by
    have := hp.2
    simp only [cleanupOverdue, Bool.and_eq_true] at this
    exact this.2
  exact .of_put hj hid h (.overdue hp.1 hbar)

/-! ## Ingress -/

theorem reserve_ok {r : EnqueueRequest} {id : JobID} {c : Nat} (h : reserve cfg env db r id c = .ok (db', j)) :
    (∃ now, j = withDeadlines (stagingJob cfg r id c) now) ∧ db.jobs.insert? j = some db'.jobs ∧ db.Later db' := by
  simp only [reserve, admissionGeneration, checkTenantDebt, bind_ok, check_ok, need_ok, pure_ok, Prod.exists,
    exists_const] at h
  obtain ⟨db₁, now, hnow, -, cap, -, -, -, -, -, -, jobs, hins, he⟩ := h
  cases he
  rw [storeNow_jobs hnow] at hins
  exact ⟨⟨now, rfl⟩, hins, (storeNow_waits hnow).trans (.jobs ..)⟩

theorem reserve_effect {r : EnqueueRequest} {id : JobID} {c : Nat} (h : reserve cfg env db r id c = .ok (db', j)) :
    TxEffect ingress (.reserve r id c) db db' := by
  obtain ⟨⟨now, rfl⟩, hins, hlater⟩ := reserve_ok h
  have hid : (withDeadlines (stagingJob cfg r id c) now).id = id := rfl
  refine ⟨fun id' => ?_, fun _ => hlater⟩
  rw [Table.get?_insert hins, hid]
  split_ifs with he
  · subst he
    rw [← hid, Table.get?_of_insert hins]
    exact .inr .reserve
  · exact .inl rfl

theorem publish_ok {w : Job} {v : String} {size : Int}
    {digest : String} {a : Admission} (hw : w ∈ ingress)
    (h : publish env db w v size digest = .ok (db', a)) :
    (∃ now : Stamp, a.reused = true ∧ db.Waits db' ∧ a.job ∈ db.jobs.rows ∧
      dedupKey a.job = dedupKey { w with digest := digest } ∧ reusable a.job now.val = true) ∨
    (∃ now : Stamp, a.reused = false ∧ a.job = publishedJob w v size digest ∧
      (∀ r ∈ db.jobs.rows, dedupKey r = dedupKey { w with digest := digest } → reusable r now.val = false) ∧
      Replaced ingress (.publish w.id v size digest) db db' a.job) := by
  simp only [publish, bind_ok, check_ok, Prod.exists, exists_const] at h
  obtain ⟨db₁, now, hnow, -, h⟩ := h
  have hwaits := storeNow_waits hnow
  have hjobs := hwaits.jobs
  split at h
  · rename_i existing hfind
    rw [pure_ok] at h
    cases h
    have hprop := List.find?_some hfind
    rw [decide_eq_true_eq] at hprop
    exact .inl ⟨now, rfl, hwaits, hjobs ▸ List.mem_of_find?_eq_some hfind, hprop.1, hprop.2⟩
  · rename_i hfind
    simp only [bind_ok, pure_ok] at h
    obtain ⟨db₂, hput, he⟩ := h
    cases he
    obtain ⟨-, row, hrow, ⟨ht, hs, hv⟩, rfl⟩ := putJob_ok.1 hput
    rw [hjobs] at hrow hfind
    refine .inr ⟨now, rfl, rfl, fun r hr hk => ?_, ⟨⟨row, hrow, ?_⟩, ?_, fun _ => hwaits.trans (.jobs ..)⟩⟩
    · have := List.find?_eq_none.1 hfind r hr
      simpa [hk] using this
    · exact .publish hw (Table.key_of_get? hrow) ht hs hv
    · simp only [hjobs]

theorem cleanupStaging_ok {id : JobID} (h : cleanupStaging db id = .ok db') :
    TxEffect ingress (.cleanupStaging id) db db' := by
  simp only [cleanupStaging, bind_ok, check_ok, need_ok, pure_ok, exists_const] at h
  obtain ⟨j, hj, hs, rfl⟩ := h
  refine ⟨fun id' => ?_, fun _ => .jobs ..⟩
  rw [Table.get?_erase]
  split_ifs with he
  · subst he
    obtain rfl := Table.key_of_get? hj
    rw [hj]
    exact .inr (.cleanupStaging hs)
  · exact .inl rfl

/-! ## Every call -/

theorem withJob_ok {x : Except Err (Db × Job)} (h : s.withJob x = .ok (s', r)) :
    ∃ db j, x = .ok (db, j) ∧ s' = { s with db := db } ∧ r = .job j := by
  simp only [Store.withJob, bind_ok, pure_ok, Prod.exists] at h
  obtain ⟨db, j, hx, he⟩ := h
  cases he
  exact ⟨db, j, hx, rfl, rfl⟩

/-- The memory after a committed call that returned `r`. -/
def Mem.after (s : Store) : StoreOp → Ret → Mem
  | .reserve _ _ _, .job j => { s.mem with ingress := j :: s.mem.ingress }
  | .publish id _ _ _, .admission a =>
    { s.mem with ingress := if a.reused then s.mem.ingress else s.mem.ingress.filter fun j => j.id ≠ id }
  | .cleanupStaging id, _ => { s.mem with ingress := s.mem.ingress.filter fun j => j.id ≠ id }
  | .beginSubmission _ _ _, .job j =>
    { s.mem with liveAttempts := (j.id, j.tenant) :: s.mem.liveAttempts.filter fun a => a.1 ≠ j.id }
  | .recordSubmission _ _ _ _ _ _, .job j =>
    { s.mem with liveAttempts := s.mem.liveAttempts.filter fun a => a.1 ≠ j.id }
  | .maintainDeadlines, _ => { s.mem with
      maintenanceDeadlineCursor := (nextMaintenanceBatch s.db deadlineStates s.mem.maintenanceDeadlineCursor).2 }
  | .maintainCleanup _, _ => { s.mem with
      maintenanceCleanupCursor := (nextMaintenanceBatch s.db cleanupStates s.mem.maintenanceCleanupCursor).2 }
  | .markCleanupDeadlines, _ => { s.mem with
      cleanupDeadlineCursor := (nextMaintenanceBatch s.db cleanupDeadlineStates s.mem.cleanupDeadlineCursor).2 }
  | .schedulerJobs, _ =>
    { s.mem with schedulerCursor := (nextMaintenanceBatch s.db schedulerStates s.mem.schedulerCursor).2 }
  | _, _ => s.mem

/-- What a committed call does to the store. -/
structure Executed (op : StoreOp) (s s' : Store) (r : Ret) : Prop where
  effect : TxEffect s.mem.ingress op s.db s'.db
  mem : s'.mem = Mem.after s op r

theorem exec_executed (h : exec cfg env op s = .ok (s', r)) : Executed op s s' r := by
  cases op with
  | reserve q id c =>
    simp only [exec, bind_ok, pure_ok, Prod.exists] at h
    obtain ⟨-, -, db, j, hr, he⟩ := h
    cases he
    exact ⟨reserve_effect hr, rfl⟩
  | publish id v size digest =>
    simp only [exec, bind_ok, need_ok, pure_ok, Prod.exists] at h
    obtain ⟨w, hw, db, a, hp, he⟩ := h
    cases he
    have hid : w.id = id := by simpa using List.find?_some hw
    subst hid
    rcases publish_ok (List.mem_of_find?_eq_some hw) hp with ⟨_, -, hwaits, -⟩ | ⟨_, -, -, -, hrep⟩
    · exact ⟨hwaits.effect, rfl⟩
    · exact ⟨hrep.effect, rfl⟩
  | cleanupStaging id =>
    simp only [exec, bind_ok, pure_ok] at h
    obtain ⟨db, hc, he⟩ := h
    cases he
    exact ⟨cleanupStaging_ok hc, rfl⟩
  | beginSubmission tenant id version =>
    simp only [exec, bind_ok, pure_ok, Prod.exists] at h
    obtain ⟨db, j, hb, he⟩ := h
    cases he
    exact ⟨(beginSubmission_ok hb).effect, rfl⟩
  | recordSubmission tenant id version sub o b =>
    simp only [exec, bind_ok, pure_ok, Prod.exists] at h
    obtain ⟨db, j, hb, he⟩ := h
    cases he
    exact ⟨(recordSubmission_ok hb).effect, rfl⟩
  | recoverSubmitting id =>
    obtain ⟨db, j, hx, rfl, -⟩ := withJob_ok h
    exact ⟨(recoverSubmitting_ok hx).effect, rfl⟩
  | recordStatus tenant id version task status =>
    obtain ⟨db, j, hx, rfl, -⟩ := withJob_ok h
    exact ⟨(recordStatus_ok hx).effect, rfl⟩
  | completeReport tenant id version task report mapper =>
    obtain ⟨db, j, hx, rfl, -⟩ := withJob_ok h
    exact ⟨(completeReport_ok hx).effect, rfl⟩
  | recordReportError tenant id version task code =>
    obtain ⟨db, j, hx, rfl, -⟩ := withJob_ok h
    exact ⟨(recordReportError_ok hx).effect, rfl⟩
  | cancel tenant id =>
    obtain ⟨db, j, hx, rfl, -⟩ := withJob_ok h
    rcases cancel_ok hx with ⟨rfl, -⟩ | hrep
    · exact ⟨(Db.Waits.refl _).effect, rfl⟩
    · exact ⟨hrep.effect, rfl⟩
  | recordDeletion tenant id version task d o =>
    obtain ⟨db, j, hx, rfl, -⟩ := withJob_ok h
    exact ⟨(recordDeletion_ok hx).effect, rfl⟩
  | maintainDeadlines =>
    simp only [exec, bind_ok, pure_ok, Prod.exists] at h
    obtain ⟨db, now, c, hm, he⟩ := h
    cases he
    refine ⟨maintainDeadlines_ok hm, ?_⟩
    simp only [maintainDeadlines, bind_ok, pure_ok, Prod.exists] at hm
    obtain ⟨db₁, now₁, hnow, db₂, -, he⟩ := hm
    cases he
    obtain ⟨rfl, -⟩ := storeNow_spec hnow
    rfl
  | maintainCleanup now =>
    simp only [exec, bind_ok, pure_ok, Prod.exists] at h
    obtain ⟨db, c, hm, he⟩ := h
    cases he
    refine ⟨maintainCleanup_ok hm, ?_⟩
    simp only [maintainCleanup, bind_ok, pure_ok] at hm
    obtain ⟨db₂, -, he⟩ := hm
    cases he
    rfl
  | reserveRead snapshot delay =>
    obtain ⟨db, j, hx, rfl, -⟩ := withJob_ok h
    exact ⟨(reserveRead_ok hx).effect, rfl⟩
  | extendRetry snapshot delay =>
    obtain ⟨db, j, hx, rfl, -⟩ := withJob_ok h
    rcases extendRetry_ok hx with hwaits | hrep
    · exact ⟨hwaits.effect, rfl⟩
    · exact ⟨hrep.effect, rfl⟩
  | markCleanupDeadlines =>
    simp only [exec, bind_ok, pure_ok, Prod.exists] at h
    obtain ⟨db, c, hm, he⟩ := h
    cases he
    refine ⟨markCleanupDeadlines_ok hm, ?_⟩
    simp only [markCleanupDeadlines, bind_ok, pure_ok, Prod.exists] at hm
    obtain ⟨db₁, now₁, hnow, db₂, -, he⟩ := hm
    cases he
    obtain ⟨rfl, -⟩ := storeNow_spec hnow
    rfl
  | callback key e =>
    obtain ⟨db, j, hx, rfl, -⟩ := withJob_ok h
    rcases persistCallback_ok hx with hjobs | hrep
    · exact ⟨⟨.of_eq hjobs, fun hop => absurd rfl (hop key e)⟩, rfl⟩
    · exact ⟨hrep.effect, rfl⟩
  | setGenerationAdmission generation enabled =>
    simp only [exec, setGenerationAdmission, bind_ok, pure_ok] at h
    obtain ⟨_, ⟨_, -, rfl⟩, he⟩ := h
    cases he
    exact ⟨⟨.of_eq rfl, fun _ => ⟨rfl, rfl, (Db.Later.refl s.db).latest⟩⟩, rfl⟩
  | takeRequestToken =>
    simp only [exec, bind_ok, pure_ok, Prod.exists] at h
    obtain ⟨db, now, hnow, _, -, he⟩ := h
    cases he
    exact ⟨(storeNow_waits hnow).effect, rfl⟩
  | lookup tenant id =>
    simp only [exec, bind_ok, pure_ok] at h
    obtain ⟨_, -, he⟩ := h
    cases he
    exact ⟨(Db.Waits.refl _).effect, rfl⟩
  | schedulerJobs =>
    cases h
    exact ⟨(Db.Waits.refl _).effect, rfl⟩
  | openPayload tenant id version =>
    simp only [exec, bind_ok, pure_ok] at h
    obtain ⟨_, -, he⟩ := h
    cases he
    exact ⟨(Db.Waits.refl _).effect, rfl⟩

/-- A committed call changes every row by at most one step. -/
theorem exec_rows (h : exec cfg env op s = .ok (s', r)) : Changes s.mem.ingress op s.db.jobs s'.db.jobs :=
  (exec_executed h).effect.rows

/-- The rows the ingress writers hold are the ones reservations returned. -/
theorem exec_ingress (h : exec cfg env op s = .ok (s', r)) {w : Job} (hw : w ∈ s'.mem.ingress) :
    w ∈ s.mem.ingress ∨ ∃ q id c now, op = .reserve q id c ∧ w = withDeadlines (stagingJob cfg q id c) now := by
  rw [(exec_executed h).mem] at hw
  cases op with
  | reserve q id c =>
    simp only [exec, bind_ok, pure_ok, Prod.exists] at h
    obtain ⟨-, -, db, j, hr, he⟩ := h
    cases he
    rcases List.mem_cons.1 hw with rfl | hw
    · obtain ⟨now, hj⟩ := (reserve_ok hr).1
      exact .inr ⟨q, id, c, now, rfl, hj⟩
    · exact .inl hw
  | publish id v size digest =>
    cases r with
    | admission a =>
      simp only [Mem.after] at hw
      split at hw
      · exact .inl hw
      · exact .inl (List.mem_of_mem_filter hw)
    | _ => exact .inl hw
  | cleanupStaging id => exact .inl (List.mem_of_mem_filter hw)
  | _ => cases r <;> exact .inl hw

/-- A step of the store leaves a row as it is or changes it by its call. -/
theorem step_rows {e : StoreEvent} (h : (storeSystem cfg).step s e s') (id : JobID) :
    s'.db.jobs.get? id = s.db.jobs.get? id ∨
      ∃ op, e.op? = some op ∧ RowStep s.mem.ingress op (s.db.jobs.get? id) (s'.db.jobs.get? id) := by
  cases e with
  | commit op r =>
    obtain ⟨env, h⟩ := h
    exact (exec_rows h id).imp_right fun hstep => ⟨op, rfl, hstep⟩
  | lost op r =>
    obtain ⟨env, s₁, h, rfl⟩ := h
    exact (exec_rows h id).imp_right fun hstep => ⟨op, rfl, hstep⟩
  | crash =>
    cases h
    exact .inl rfl

/-- Only a callback touches the replay rows and their clock. -/
theorem storeStep_later {e : StoreEvent} (hop : ∀ key ev, e.op? ≠ some (.callback key ev))
    (h : (storeSystem cfg).step s e s') : s.db.Later s'.db := by
  cases e with
  | commit op r =>
    obtain ⟨env, h⟩ := h
    exact (exec_executed h).effect.later fun key ev he => hop key ev (congrArg some he)
  | lost op r =>
    obtain ⟨env, s₁, h, rfl⟩ := h
    exact (exec_executed h).effect.later fun key ev he => hop key ev (congrArg some he)
  | crash =>
    cases h
    exact .refl _

end MS.Cape
