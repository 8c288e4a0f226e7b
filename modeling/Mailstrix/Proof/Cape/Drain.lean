import Mailstrix.Impl.Cape.Client
import Mailstrix.Proof.Cape.Slots
import Mailstrix.Proof.Cape.Throttle
import Mailstrix.Proof.Cape.Tracked

/-!
# Persisting a packet

`persist` looks the row of a packet up and then makes at most two calls for it.  When the store works
and nothing else touches the row in between, every combination of an old packet and a newer row is
either absorbed or accepted, except one: the row is gone.

* `persist_settles`: in a calm store `persist` succeeds exactly if the packet's row is there, and then
  a pass over the pending packets leaves none.
-/

namespace MS.Cape

open Framework Spec

variable {task : TaskRef}

/-! ## A calm store -/

/-- What comes between two calls that `persist` makes for the row `id`, and what the next one meets:
the row is as it was left, the clock has not gone back, and every row of bounded size fits. -/
structure Calm (id : JobID) where
  before : Store → Store
  env : Store → Env
  row : ∀ s, (before s).db.jobs.get? id = s.db.jobs.get? id
  clock : ∀ s now, (before s).db.latest = some now → ¬ (env s).clock.val < now.val - clockTolerance
  encodes : ∀ s j, j.WF → j.Bounded → (env s).encodes j = true

/-- A call as it ends without a failure of the storage. -/
def Calm.perform (cfg : StoreConfig) (id : JobID) (k : Calm id) (op : StoreOp) (s : Store) : Except Err Ret × Store :=
  match exec cfg (k.env s) op (k.before s) with
  | .ok (s', r) => (.ok r, s')
  | .error e => (.error e, k.before s)

/-- The row is well-formed and bounded. -/
structure Job.Fit (j : Job) : Prop where
  wf : j.WF
  bounded : j.Bounded

theorem Job.Fit.old {j : Job} (h : j.Fit) (j₀ : Job) (he : some j = some j₀) : j₀.Fit := Option.some.inj he ▸ h

section
variable {cfg : StoreConfig} {env : Env} {db : Db} {j : Job}

theorem storeNow_total (h : ∀ now, db.latest = some now → ¬ env.clock.val < now.val - clockTolerance) :
    ∃ db' now, storeNow env db = .ok (db', now) := by
  unfold storeNow
  cases hl : db.latest with
  | none => exact ⟨_, _, rfl⟩
  | some now =>
    simp only [if_neg (h now hl)]
    exact ⟨_, _, rfl⟩

/-- The row a call for `j` leaves. -/
structure Db.Left (db : Db) (j j' : Job) : Prop where
  get : db.jobs.get? j.id = some j'
  fit : j'.Fit
  tenant : j'.tenant = j.tenant

/-- A change that the call makes is written. -/
theorem putJob_left {db₁ : Db} {op : StoreOp} {j' : Job} (henc : ∀ j : Job, j.WF → j.Bounded → env.encodes j = true)
    (hj : db.jobs.get? j.id = some j) (hfit : j.Fit) (hdb : db₁.jobs = db.jobs) (hid : j'.id = j.id)
    (hstep : RowStep [] op (some j) (some j')) (hop : ∀ id v size digest, op ≠ .publish id v size digest)
    (hreason : safeOutcome j'.reason = true) : ∃ db', putJob env db₁ j' j = .ok db' ∧ db'.Left j j' := by
  have hkey := (rowStep_dedupKey hstep).resolve_right fun ⟨_, _, _, _, he⟩ => hop _ _ _ _ he
  simp only [dedupKey, Prod.mk.injEq] at hkey
  have hfit' : j'.Fit := by
    refine ⟨rowStep_wf (by simp) (fun j₀ h => (hfit.old j₀ h).wf) hstep, ?_, hreason, ?_⟩
    · exact rowStep_short hfit.bounded.short hop hstep
    · exact rowStep_result (by simp) (fun j₀ h => (hfit.old j₀ h).bounded.result) hstep
  refine ⟨_, putJob_ok.2 ⟨henc j' hfit'.wf hfit'.bounded, j, by rw [hdb, hid]; exact hj, ⟨hkey.1.symm, rfl, rfl⟩, rfl⟩,
    ?_, hfit', hkey.1⟩
  simp [hdb, Table.get?_set, hid, hj]

end

/-! ## The calls of `persist` -/

section
variable {env : Env} {db : Db} {j : Job}
  (hclock : ∀ now, db.latest = some now → ¬ env.clock.val < now.val - clockTolerance)
  (henc : ∀ j : Job, j.WF → j.Bounded → env.encodes j = true) (hj : db.jobs.get? j.id = some j) (hfit : j.Fit)
include hclock henc hj hfit

theorem recordSubmission_total {v : Int} {sub : Submission} {o : Code} {b : Int} (hsafe : safeOutcome o = true)
    (hb : 0 ≤ b) (hrec : recordable j v = true) :
    ∃ db' j', recordSubmission env db j.tenant j.id v sub o b = .ok (db', j') ∧ db'.Left j j' := by
  obtain ⟨db₁, j₁, hout⟩ : ∃ db₁ j₁, applySubmissionOutcome env db (respondedJob j sub o).1 j sub o
      (respondedJob j sub o).2 b = .ok (db₁, j₁) := by
    obtain ⟨db₁, now, hnow⟩ := storeNow_total hclock
    unfold applySubmissionOutcome
    split_ifs
    · exact ⟨_, _, rfl⟩
    · exact ⟨_, _, rfl⟩
    · exact ⟨_, _, rfl⟩
    · exact ⟨db₁, requeuedJob (respondedJob j sub o).1 (now.val + clampBackoff b), by rw [hnow]; rfl⟩
    · exact ⟨_, _, rfl⟩
  obtain ⟨hid, hdb, hstep⟩ : j₁.id = j.id ∧ db.Waits db₁ ∧
      RowStep [] (.recordSubmission j.tenant j.id v sub o b) (some j) (some j₁) := applySubmissionOutcome_ok hrec hout
  have hreason : safeOutcome j₁.reason = true := by
    refine rowStep_reason (by simp) (fun j₀ h => (hfit.old j₀ h).bounded.reason) ?_ (by simp) hstep
    intro tenant id v' sub' o' b' he
    cases he
    exact hsafe
  obtain ⟨db', hput, hleft⟩ := putJob_left henc hj hfit hdb.jobs hid hstep (by simp) hreason
  refine ⟨db', j₁, ?_, hleft⟩
  simp only [recordSubmission, bind_ok, check_ok, readJob_ok, pure_ok, Prod.exists, exists_const]
  exact ⟨⟨hsafe, hb⟩, j, ⟨hj, rfl⟩, hrec, db₁, j₁, hout, db', hput, rfl⟩

/-- A report transition is accepted, or the row has expired. -/
theorem transitionReport_total {op : StoreOp} {change : Job → Stamp → Except Err Job}
    (hsup : j.suppressed = false) (hown : singleOwnedTask j task = true)
    (hop : ∀ id v size digest, op ≠ .publish id v size digest)
    (hch : ∀ now, ∃ j₁, change j now = .ok j₁ ∧ j₁.id = j.id ∧ safeOutcome j₁.reason = true ∧
      RowStep [] op (some j) (some (polledJob j₁))) :
    transitionReport env db j.tenant j.id j.version task j.state change = .error (.code .deadline) ∨
      ∃ db' j', transitionReport env db j.tenant j.id j.version task j.state change = .ok (db', j') ∧
        db'.Left j j' := by
  obtain ⟨db₁, now, hnow⟩ := storeNow_total hclock
  have hread : readJob db j.id j.tenant = .ok j := readJob_ok.2 ⟨hj, rfl⟩
  by_cases hdead : now.val < j.analysisDeadline
  · obtain ⟨j₁, hchange, hid, hreason, hstep⟩ := hch now
    have hid' : (polledJob j₁).id = j.id := hid
    obtain ⟨db', hput, hleft⟩ := putJob_left henc hj hfit (storeNow_jobs hnow) hid' hstep hop hreason
    refine .inr ⟨db', polledJob j₁, ?_, hleft⟩
    simp only [transitionReport, bind_ok, check_ok, pure_ok, Prod.exists, exists_const]
    exact ⟨j, hread, ⟨rfl, rfl, hsup, hown⟩, db₁, now, hnow, hdead, j₁, hchange, db', hput, rfl⟩
  · refine .inl ?_
    simp [transitionReport, hread, hnow, check, hsup, hown, hdead, bind, Except.bind]

theorem extendRetry_total {snapshot : Job} (delay : Duration) (hid : snapshot.id = j.id)
    (hten : snapshot.tenant = j.tenant) :
    ∃ db' j', extendRetry env db snapshot delay = .ok (db', j') := by
  obtain ⟨db₁, now, hnow⟩ := storeNow_total hclock
  have hid' : (delayedJob j (now.val + delay.val).toNat).id = j.id := rfl
  have hstep : RowStep [] (.extendRetry j delay) (some j) (some (delayedJob j (now.val + delay.val).toNat)) :=
    .extendRetry (now.add_lt delay)
  obtain ⟨db', hput, -⟩ := putJob_left henc hj hfit (storeNow_jobs hnow) hid' hstep (by simp) hfit.bounded.reason
  have hread : db.jobs.get? snapshot.id = some j := by rw [hid]; exact hj
  by_cases hlate : (now.val + delay.val).toNat ≤ j.nextAttempt ∧ (now.val + delay.val).toNat ≤ j.retryAfterUntil
  · refine ⟨db₁, j, ?_⟩
    simp only [extendRetry, bind_ok, readJob_ok, Prod.exists]
    refine ⟨j, ⟨hread, hten.symm⟩, db₁, now, hnow, ?_⟩
    rw [if_pos hlate]
    rfl
  · refine ⟨db', delayedJob j (now.val + delay.val).toNat, ?_⟩
    simp only [extendRetry, bind_ok, readJob_ok, Prod.exists]
    refine ⟨j, ⟨hread, hten.symm⟩, db₁, now, hnow, ?_⟩
    rw [if_neg hlate, bind_ok]
    exact ⟨db', hput, rfl⟩

end

theorem recordDeletion_total {env : Env} {db : Db} {j : Job} {d : DeleteState} {o : Code}
    (henc : ∀ j : Job, j.WF → j.Bounded → env.encodes j = true) (hj : db.jobs.get? j.id = some j) (hfit : j.Fit)
    (hsafe : safeOutcome o = true) (hdone : o = .empty → d = .acknowledgedUnverified) (hfail : o ≠ .empty → d = .empty)
    (hgen : task.generation = j.generation) (hend : terminal j.state = true) (hown : task.id ∈ j.taskIDs) :
    ∃ db' j', recordDeletion env db j.tenant j.id j.version task d o = .ok (db', j') ∧ db'.Left j j' := by
  have hid : (deletionJob j task o).id = j.id := rfl
  have hstep : RowStep [] (.recordDeletion j.tenant j.id j.version task d o) (some j) (some (deletionJob j task o)) :=
    .deletion hend hgen hown
  obtain ⟨db', hput, hleft⟩ := putJob_left henc hj hfit rfl hid hstep (by simp) hfit.bounded.reason
  refine ⟨db', deletionJob j task o, ?_, hleft⟩
  simp only [recordDeletion, bind_ok, check_ok, readJob_ok, pure_ok, exists_const]
  exact ⟨⟨hsafe, hdone, hfail⟩, j, ⟨hj, rfl⟩, ⟨rfl, hgen, hend⟩, hown, db', hput, rfl⟩

/-! ## `persist` in a calm store -/

section
variable {cfg : StoreConfig} {id : JobID} {s : Store} {k : Calm id} {op : StoreOp}

theorem Calm.perform_ok {s' : Store} {r : Ret} (h : exec cfg (k.env s) op (k.before s) = .ok (s', r)) :
    Calm.perform cfg id k op s = (.ok r, s') := by
  simp only [Calm.perform, h]

theorem Calm.perform_error {e : Err} (h : exec cfg (k.env s) op (k.before s) = .error e) :
    Calm.perform cfg id k op s = (.error e, k.before s) := by
  simp only [Calm.perform, h]

/-- A call, and what the program makes of its answer. -/
theorem after_call {f : Except Err Ret → StoreProg (Option Err)} {Q : Option Err → Store → Prop}
    (h : ∀ k, Prog.After (Calm.perform cfg id) (f (Calm.perform cfg id k op s).1) (Calm.perform cfg id k op s).2 Q) :
    Prog.After (Calm.perform cfg id) (Prog.ask op >>= f) s Q := h

end

theorem withJob_of_ok {s : Store} {x : Except Err (Db × Job)} {db : Db} {j : Job} (h : x = .ok (db, j)) :
    s.withJob x = .ok ({ s with db := db }, .job j) := by
  rw [h]
  rfl

theorem safe_outcomeCode (e : Option Err) : safeOutcome (outcomeCode e) = true := by
  unfold outcomeCode
  split
  · rfl
  · split_ifs with h
    · exact h
    · rfl
  · rfl

/-! ### What the client can have returned -/

theorem pinnedStatus_known {text : String} {st : Status} (h : pinnedStatus text = some st) : ∀ t, st ≠ .other t := by
  intro t he
  subst he
  unfold pinnedStatus at h
  split at h <;> cases h

/-- A status without an error is one of the pinned ones. -/
theorem clientStatus_known {doc : Except ReadErr StatusDocument} {st : Status} (h : (st, none) = clientStatus doc) :
    ∀ t, st ≠ .other t := by
  unfold clientStatus at h
  split at h
  · cases h
  · split_ifs at h
    · split at h
      · rename_i hpin
        cases h
        obtain ⟨text, -, hst⟩ := Option.bind_eq_some_iff.1 hpin
        exact pinnedStatus_known hst
      · cases h
    · cases h

theorem outcomeCode_readErr (e : ReadErr) : outcomeCode (some e.err) ≠ .empty := by
  cases e <;> simp [ReadErr.err, outcomeCode, safeOutcome]

/-- A deletion is acknowledged or has failed. -/
theorem clientDelete_outcome {doc : Except ReadErr DeleteDocument} {d : DeleteState} {e : Option Err}
    (h : (d, e) = clientDelete task doc) :
    (outcomeCode e = .empty → d = .acknowledgedUnverified) ∧ (outcomeCode e ≠ .empty → d = .empty) := by
  unfold clientDelete at h
  split at h
  · cases h
    exact ⟨fun he => absurd he (outcomeCode_readErr _), fun _ => rfl⟩
  · split_ifs at h
    · cases h
      exact ⟨fun _ => rfl, fun he => absurd rfl he⟩
    · cases h
      exact ⟨fun he => absurd he (by decide), fun _ => rfl⟩

/-! ### The programs -/

section
variable {cfg : StoreConfig} {s : Store} {id : JobID} {j : Job} (hj : s.db.jobs.get? id = some j) (hfit : j.Fit)
include hj hfit

/-- `snapshot` is the row as it was looked up, `j` as it is now. -/
theorem persistThrottle_calm {snapshot : Job} (hid : snapshot.id = j.id) (hten : snapshot.tenant = j.tenant) (r : Packet) :
    Prog.After (Calm.perform cfg id) (persistThrottle snapshot r) s fun e _ => e = none := by
  obtain rfl := Table.key_of_get? hj
  unfold persistThrottle
  split
  · rename_i retryAfter _
    refine after_call fun k => ?_
    obtain ⟨db', j', hext⟩ := extendRetry_total (k.clock s) (k.encodes s) ((k.row s).trans hj) hfit
      (throttleDelay retryAfter) hid hten
    have hexec : exec cfg (k.env s) (.extendRetry snapshot (throttleDelay retryAfter))
        (k.before s) = .ok ({ k.before s with db := db' }, .job j') := withJob_of_ok hext
    rw [Calm.perform_ok hexec]
    rfl
  · rfl

/-- The outcome of an upload is recorded once, on the row that has its attempt. -/
theorem persistSubmit_calm {delay : Int → Duration} (hd : RetryDelay delay) {r : Packet} (hv : 1 ≤ r.job.submissionVersion) :
    Prog.After (Calm.perform cfg id) (persistSubmit delay j r) s fun e _ =>
      (e = none ↔ j.submissionRecorded = true ∨ j.submissionVersion = r.job.submissionVersion) := by
  obtain rfl := Table.key_of_get? hj
  unfold persistSubmit
  split
  · rename_i hrec
    exact iff_of_true rfl (.inl hrec)
  rename_i hrec
  rw [Bool.not_eq_true] at hrec
  refine after_call fun k => ?_
  have hrow := (k.row s).trans hj
  have hsafe := safe_outcomeCode r.err
  have hdelay : 0 ≤ (delay r.job.attempts).val := le_trans (by decide) (hd _).1
  by_cases hver : j.submissionVersion = r.job.submissionVersion
  · have hopen : account j = .open := account_open.2 ⟨hrec, by omega⟩
    have hok : recordable j r.job.submissionVersion = true := hver ▸ recordable_of_open hfit.wf hopen
    obtain ⟨db', j', hrecord, -⟩ := @recordSubmission_total _ _ _ (k.clock s) (k.encodes s) hrow hfit _ r.submission _ _
      hsafe hdelay hok
    rw [Calm.perform_ok (by simp only [exec, hrecord]; rfl)]
    exact iff_of_true rfl (.inr hver)
  · -- an attempt that is not the row's cannot be recorded
    have hno : ¬ recordable j r.job.submissionVersion = true := fun hyes =>
      hver (hfit.wf.open_of_recordable hyes).2
    have hread : readJob (k.before s).db j.id j.tenant = .ok j := readJob_ok.2 ⟨hrow, rfl⟩
    rw [Calm.perform_error (e := .conflict) (by
      simp [exec, recordSubmission, hread, check, hsafe, hdelay, hno, bind, Except.bind])]
    exact iff_of_false (by simp [failure]) (by simp [hrec, hver])

omit hfit in
/-- A read is accepted, or its row has expired and belongs to `Maintain`. -/
theorem persistRead_calm {r : Packet} {op : StoreOp}
    (hop : ∀ k : Calm id, exec cfg (k.env s) op (k.before s) = .error (.code .deadline) ∨
      ∃ s' ret j', exec cfg (k.env s) op (k.before s) = .ok (s', ret) ∧ s'.db.Left j j') :
    Prog.After (Calm.perform cfg id) (persistRead j r op) s fun e _ => e = none := by
  obtain rfl := Table.key_of_get? hj
  refine after_call fun k => ?_
  rcases hop k with herr | ⟨s', ret, j', hok, hleft⟩
  · rw [Calm.perform_error herr]
    rfl
  · rw [Calm.perform_ok hok]
    exact persistThrottle_calm hleft.get hleft.fit (Table.key_of_get? hleft.get).symm hleft.tenant.symm r

/-- A report transition, as the call that makes it. -/
theorem transition_calm {op : StoreOp} {expected : JobState} {change : Job → Stamp → Except Err Job}
    (hexec : ∀ env s, exec cfg env op s =
      s.withJob (transitionReport env s.db j.tenant j.id j.version task expected change))
    (hstate : j.state = expected) (hsup : j.suppressed = false) (hown : singleOwnedTask j task = true)
    (hop : ∀ id v size digest, op ≠ .publish id v size digest)
    (hch : ∀ now, ∃ j₁, change j now = .ok j₁ ∧ j₁.id = j.id ∧ safeOutcome j₁.reason = true ∧
      RowStep [] op (some j) (some (polledJob j₁))) (k : Calm id) :
    exec cfg (k.env s) op (k.before s) = .error (.code .deadline) ∨
      ∃ s' ret j', exec cfg (k.env s) op (k.before s) = .ok (s', ret) ∧ s'.db.Left j j' := by
  obtain rfl := Table.key_of_get? hj
  subst hstate
  rw [hexec]
  rcases transitionReport_total (k.clock s) (k.encodes s) ((k.row s).trans hj) hfit hsup hown hop hch with
    herr | ⟨db', j', hok, hleft⟩
  · rw [herr]
    exact .inl rfl
  · exact .inr ⟨_, _, j', withJob_of_ok hok, hleft⟩

section
variable {r : Packet} (hf : r.Formed) (htr : r.kind.remote = true → r.job.Traces j)
include hf htr

omit hj in
/-- The row owns the one task its packet is about. -/
theorem singleOwnedTask_of_packet (hk : r.kind = .status ∨ r.kind = .report)
    (hs : j.state = .remotePending ∨ j.state = .fetching) : singleOwnedTask j r.task = true := by
  have hremote : r.kind.remote = true := by rcases hk with hk | hk <;> rw [hk] <;> rfl
  have hdebt := ((hfit.wf.owing_of_remote hs).single (hs.imp_right .inl)).2
  simp [singleOwnedTask, (htr hremote).tasks, hf.single hk, (htr hremote).generation, (hf.owned hremote).1, hdebt]

theorem persistStatus_calm {mapper : Option ResultMapper} {delay : Int → Duration}
    (hret : r.Returned) (hk : r.kind = .status) :
    Prog.After (Calm.perform cfg id) (persistRow mapper delay r j) s fun e _ => e = none := by
  simp only [persistRow, hk, reduceCtorEq, if_true, if_false]
  split_ifs with hgone hok
  · rfl
  · simp only [not_or, ne_eq, not_not, Bool.not_eq_true] at hgone
    obtain ⟨hstate, -, hsup⟩ := hgone
    have hst := hstate.trans (hf.status hk)
    have hown := singleOwnedTask_of_packet hfit hf htr (.inl hk) (.inl hst)
    refine persistRead_calm hj (transition_calm hj hfit (fun _ _ => rfl) hst hsup hown (by simp) fun now => ?_)
    obtain ⟨j₁, hch⟩ : ∃ j₁, statusChange r.status j now = .ok j₁ := by
      simp only [Packet.Returned, hk, hok] at hret
      obtain ⟨doc, hdoc⟩ := hret
      have hknown := clientStatus_known hdoc
      cases hstat : r.status with
      | other t => exact absurd hstat (hknown t)
      | _ => exact ⟨_, rfl⟩
    have hstep : RowStep [] (.recordStatus j.tenant j.id j.version r.task r.status) (some j) (some (polledJob j₁)) :=
      .status hst hsup hown hch
    have hreason : safeOutcome (polledJob j₁).reason = true :=
      rowStep_reason (by simp) (fun j₀ h => (hfit.old j₀ h).bounded.reason) (by simp) (by simp) hstep
    exact ⟨j₁, hch, statusChange_id hch, hreason, hstep⟩
  · exact persistThrottle_calm hj hfit rfl rfl r

theorem persistReport_calm {mapper : Option ResultMapper} {delay : Int → Duration} (hk : r.kind = .report) :
    Prog.After (Calm.perform cfg id) (persistRow mapper delay r j) s fun e _ => e = none := by
  simp only [persistRow, hk, reduceCtorEq, if_true, if_false]
  split
  · rfl
  rename_i hgone
  simp only [not_or, ne_eq, not_not, Bool.not_eq_true] at hgone
  obtain ⟨hstate, -, hsup⟩ := hgone
  have hst := hstate.trans (hf.report hk)
  have hown := singleOwnedTask_of_packet hfit hf htr (.inr hk) (.inr hst)
  split_ifs with hok
  · refine persistRead_calm hj (transition_calm hj hfit (fun _ _ => rfl) hst hsup hown (by simp) fun now => ?_)
    obtain ⟨j₁, hch⟩ : ∃ j₁, reportChange mapper r.report r.task j now = .ok j₁ := by
      unfold reportChange
      split <;> exact ⟨_, rfl⟩
    have hstep : RowStep [] (.completeReport j.tenant j.id j.version r.task r.report mapper) (some j)
        (some (polledJob j₁)) := .report hst hsup hown hch
    have hreason : safeOutcome (polledJob j₁).reason = true :=
      rowStep_reason (by simp) (fun j₀ h => (hfit.old j₀ h).bounded.reason) (by simp) (by simp) hstep
    exact ⟨j₁, hch, reportChange_id hch, hreason, hstep⟩
  · have hexec : ∀ env s, exec cfg env (.recordReportError j.tenant j.id j.version r.task (outcomeCode r.err)) s =
        s.withJob (transitionReport env s.db j.tenant j.id j.version r.task .fetching fun j _ => .ok { j with
          reason := if outcomeCode r.err = .empty ∨ !safeOutcome (outcomeCode r.err) then .transport
            else outcomeCode r.err }) := fun _ _ => rfl
    refine persistRead_calm hj (transition_calm hj hfit hexec hst hsup hown (by simp) fun now => ?_)
    exact ⟨_, rfl, rfl, safe_reportCode _, .reportError hst hsup hown⟩

theorem persistDelete_calm {mapper : Option ResultMapper} {delay : Int → Duration}
    (hret : r.Returned) (hk : r.kind = .delete) :
    Prog.After (Calm.perform cfg id) (persistRow mapper delay r j) s fun e _ => e = none := by
  have hremote : r.kind.remote = true := by rw [hk]; rfl
  have htraces := htr hremote
  obtain ⟨hgen, hmem⟩ := hf.owned hremote
  simp only [persistRow, hk]
  split_ifs
  · rfl
  · obtain rfl := Table.key_of_get? hj
    refine after_call fun k => ?_
    simp only [Packet.Returned, hk] at hret
    obtain ⟨doc, hdoc⟩ := hret
    obtain ⟨hdone, hfail⟩ := clientDelete_outcome hdoc
    obtain ⟨db', j', hok, hleft⟩ := recordDeletion_total (k.encodes s) ((k.row s).trans hj) hfit (safe_outcomeCode r.err)
      hdone hfail (hgen.trans htraces.generation.symm) (htraces.ended (hf.ended hk)) (htraces.tasks ▸ hmem)
    have hexec : exec cfg (k.env s) (.recordDeletion j.tenant j.id j.version r.task r.deleted (outcomeCode r.err))
        (k.before s) = .ok ({ k.before s with db := db' }, .job j') := withJob_of_ok hok
    rw [Calm.perform_ok hexec]
    exact persistThrottle_calm hleft.get hleft.fit (Table.key_of_get? hleft.get).symm hleft.tenant.symm r

/-- A packet of any kind, with the row that was looked up for it. -/
theorem persistRow_calm {mapper : Option ResultMapper} {delay : Int → Duration} (hd : RetryDelay delay) (hret : r.Returned) :
    Prog.After (Calm.perform cfg id) (persistRow mapper delay r j) s fun e _ =>
      (e = none ↔ (r.kind = .submit → j.submissionRecorded = true ∨ j.submissionVersion = r.job.submissionVersion)) := by
  have hother : ∀ {p : StoreProg (Option Err)}, r.kind ≠ .submit →
      Prog.After (Calm.perform cfg id) p s (fun e _ => e = none) →
      Prog.After (Calm.perform cfg id) p s fun e _ => (e = none ↔
        (r.kind = .submit → j.submissionRecorded = true ∨ j.submissionVersion = r.job.submissionVersion)) :=
    fun hne hp => hp.imp fun e _ he => iff_of_true he fun hs => absurd hs hne
  cases hk : r.kind with
  | status => exact hk ▸ hother (by simp [hk]) (persistStatus_calm hj hfit hf htr hret hk)
  | report => exact hk ▸ hother (by simp [hk]) (persistReport_calm hj hfit hf htr hk)
  | delete => exact hk ▸ hother (by simp [hk]) (persistDelete_calm hj hfit hf htr hret hk)
  | submit =>
    simp only [persistRow, hk]
    refine (persistSubmit_calm hj hfit hd (hf.attempt hk)).imp fun e _ he => ?_
    simpa using he
  | beginError =>
    refine hk ▸ hother (by simp [hk]) ?_
    simp only [persistRow, hk]
    split_ifs with hdone
    · rfl
    · -- the attempt exists, and nobody knows what became of it
      rw [not_or, not_le] at hdone
      have hbegun := hf.begun hk
      refine (persistSubmit_calm hj hfit hd ?_).imp fun e _ he => he.2 (.inr rfl)
      show 1 ≤ j.submissionVersion
      omega

end

end

/-! ### The whole of `persist` -/

/-- The packet's row is there; for an upload it is the row that has its attempt, or the outcome is
recorded already. -/
def Store.Holds (s : Store) (r : Packet) : Prop :=
  ∃ j, s.db.jobs.get? r.job.id = some j ∧ j.tenant = r.job.tenant ∧
    (r.kind = .submit → j.submissionRecorded = true ∨ j.submissionVersion = r.job.submissionVersion)

section
variable {cfg : StoreConfig} {mapper : Option ResultMapper} {delay : Int → Duration} {r : Packet} {s s₁ : Store}
  (hd : RetryDelay delay) (hf : r.Formed) (hret : r.Returned) (htr : r.kind.remote = true → s.Traces r.job)
  (hfit : ∀ j, s.db.jobs.get? r.job.id = some j → j.Fit)
include hd hf hret htr hfit

theorem persistLookup_calm (hs : s₁.db.jobs.get? r.job.id = s.db.jobs.get? r.job.id) :
    Prog.After (Calm.perform cfg r.job.id) (persistLookup mapper delay r) s₁ fun e _ => (e = none ↔ s.Holds r) := by
  refine after_call fun k => ?_
  have hrow : (k.before s₁).db.jobs.get? r.job.id = s.db.jobs.get? r.job.id := (k.row s₁).trans hs
  by_cases hthere : ∃ j, s.db.jobs.get? r.job.id = some j ∧ j.tenant = r.job.tenant
  · obtain ⟨j, hj, hten⟩ := hthere
    have hj' : (k.before s₁).db.jobs.get? r.job.id = some j := hrow.trans hj
    have hread : readJob (k.before s₁).db r.job.id r.job.tenant = .ok j := readJob_ok.2 ⟨hj', hten⟩
    have hexec : exec cfg (k.env s₁) (.lookup r.job.tenant r.job.id) (k.before s₁) = .ok (k.before s₁, .job j) := by
      simp only [exec, hread]
      rfl
    rw [Calm.perform_ok hexec]
    have htr' : r.kind.remote = true → r.job.Traces j := fun hr => by
      obtain ⟨row, hrow, ht⟩ := htr hr
      rw [hj] at hrow
      cases hrow
      exact ht
    refine (persistRow_calm hj' (hfit j hj) hf htr' hd hret).imp fun e _ he => he.trans ?_
    constructor
    · exact fun h => ⟨j, hj, hten, h⟩
    · rintro ⟨j₀, hj₀, -, h⟩
      rw [hj] at hj₀
      cases hj₀
      exact h
  · have hread : readJob (k.before s₁).db r.job.id r.job.tenant = .error (.code .notFound) := by
      refine need_error.2 ⟨?_, rfl⟩
      rw [hrow, Option.filter_eq_none_iff]
      intro j hj hten
      exact hthere ⟨j, hj, by simpa using hten⟩
    have hexec : exec cfg (k.env s₁) (.lookup r.job.tenant r.job.id) (k.before s₁) = .error (.code .notFound) := by
      simp only [exec, hread]
      rfl
    rw [Calm.perform_error hexec]
    refine iff_of_false (by simp) ?_
    rintro ⟨j, hj, hten, -⟩
    exact hthere ⟨j, hj, hten⟩

theorem persist_calm :
    Prog.After (Calm.perform cfg r.job.id) (persist mapper delay r) s fun e _ => (e = none ↔ s.Holds r) := by
  unfold persist
  split_ifs
  · refine after_call fun k => ?_
    have hexec : exec cfg (k.env s) (.setGenerationAdmission r.job.generation false) (k.before s) =
        .ok ({ k.before s with db := { (k.before s).db with paused :=
          if r.job.generation ∈ (k.before s).db.paused then (k.before s).db.paused
          else (k.before s).db.paused ++ [r.job.generation] } }, .unit) := by
      simp [exec, setGenerationAdmission, check, hf.generation, bind, Except.bind, pure, Except.pure]
    rw [Calm.perform_ok hexec]
    exact persistLookup_calm hd hf hret htr hfit (k.row s)
  · exact persistLookup_calm hd hf hret htr hfit rfl

end

/-! ## The pending packets drain -/

/-- The calls that `persist` makes. -/
def persistOp : StoreOp → Bool
  | .setGenerationAdmission .. | .lookup .. | .recordSubmission .. | .recordStatus .. | .completeReport ..
  | .recordReportError .. | .recordDeletion .. | .extendRetry .. => true
  | _ => false

theorem persist_calls (mapper : Option ResultMapper) (delay : Int → Duration) (r : Packet) :
    (persist mapper delay r).Uses (fun op => persistOp op = true) fun _ _ => True := by
  have hthrottle : ∀ j, (persistThrottle j r).Uses (fun op => persistOp op = true) fun _ _ => True := by
    intro j
    unfold persistThrottle
    split
    · exact Prog.uses_ask rfl fun o _ => trivial
    · trivial
  have hsubmit : ∀ j r', (persistSubmit delay j r').Uses (fun op => persistOp op = true) fun _ _ => True := by
    intro j r'
    unfold persistSubmit
    split
    · trivial
    · exact Prog.uses_ask rfl fun o _ => trivial
  have hread : ∀ j op, persistOp op = true →
      (persistRead j r op).Uses (fun op => persistOp op = true) fun _ _ => True := by
    intro j op hop
    refine Prog.uses_ask hop fun o _ => ?_
    split
    · exact hthrottle j
    · trivial
  have hrow : ∀ j, (persistRow mapper delay r j).Uses (fun op => persistOp op = true) fun _ _ => True := by
    intro j
    unfold persistRow
    split
    · split
      · trivial
      · exact hsubmit j _
    · exact hsubmit j r
    · split
      · trivial
      · refine Prog.uses_ask rfl fun o _ => ?_
        split
        · exact hthrottle j
        · trivial
    · split
      · trivial
      · split
        · split <;> exact hread j _ rfl
        · split
          · exact hread j _ rfl
          · exact hthrottle j
  have hlookup : (persistLookup mapper delay r).Uses (fun op => persistOp op = true) fun _ _ => True := by
    refine Prog.uses_ask rfl fun o _ => ?_
    split
    · exact hrow _
    · trivial
    · trivial
  unfold persist
  split
  · refine Prog.uses_ask rfl fun o _ => ?_
    split
    · exact hlookup
    · trivial
  · exact hlookup

theorem rowStep_persist {ingress : List Job} {op : StoreOp} {j j' : Job} (hop : persistOp op = true)
    (h : RowStep ingress op (some j) (some j')) :
    j'.submissionVersion = j.submissionVersion ∧ (j.submissionRecorded = true → j'.submissionRecorded = true) := by
  cases h with
  | recordTerminal =>
    simp only [applyTerminalSubmission]
    split_ifs <;> exact ⟨rfl, fun _ => rfl⟩
  | recordMany | recordOwned | recordRequeue | recordUnsure => exact ⟨rfl, fun _ => rfl⟩
  | @status _ j₁ _ status now _ _ _ hch =>
    show j₁.submissionVersion = _ ∧ (_ → j₁.submissionRecorded = true)
    rcases statusChange_cases hch with rfl | rfl | rfl <;> simp
  | @report _ j₁ _ _ _ now _ _ _ hch =>
    show j₁.submissionVersion = _ ∧ (_ → j₁.submissionRecorded = true)
    rcases reportChange_cases hch with rfl | ⟨result, -, rfl⟩ <;> simp
  | reportError | deletion | extendRetry => exact ⟨rfl, fun h => h⟩
  | _ => cases hop

/-- Persisting one packet keeps what the others wait for. -/
theorem exec_holds {cfg : StoreConfig} {env : Env} {op : StoreOp} {s s' : Store} {ret : Ret} (hop : persistOp op = true)
    (h : exec cfg env op s = .ok (s', ret)) {r : Packet} (hr : s.Holds r) : s'.Holds r := by
  obtain ⟨j, hj, hten, hsub⟩ := hr
  rcases exec_rows h r.job.id with hsame | hstep
  · exact ⟨j, hsame.trans hj, hten, hsub⟩
  rw [hj] at hstep
  generalize hx : s'.db.jobs.get? r.job.id = x at hstep
  cases x with
  | none =>
    rcases rowStep_erase hstep with rfl | ⟨now, rfl, -⟩ <;> cases hop
  | some j' =>
    have hkey := (rowStep_dedupKey hstep).resolve_right fun ⟨_, _, _, _, he⟩ => by
      subst he
      cases hop
    simp only [dedupKey, Prod.mk.injEq] at hkey
    obtain ⟨hver, hrec⟩ := rowStep_persist hop hstep
    exact ⟨j', hx, hkey.1.trans hten, fun hk => (hsub hk).imp hrec hver.trans⟩

/-- What every call meets in a store that works and that nothing else uses. -/
structure Healthy where
  env : Store → Env
  clock : ∀ s now, s.db.latest = some now → ¬ (env s).clock.val < now.val - clockTolerance
  encodes : ∀ s j, j.WF → j.Bounded → (env s).encodes j = true

def Healthy.calm (k : Healthy) (id : JobID) : Calm id := ⟨fun s => s, k.env, fun _ => rfl, k.clock, k.encodes⟩

/-- The process with such a store. -/
def healthySystem (cfg : SchedulerConfig) (k : Healthy) : System World Label where
  init w := w = {}
  step w l w' := Step cfg w l w' ∧ ∀ op out, l = .call op out →
    match exec cfg.store (k.env w.store) op w.store with
    | .ok (s, r) => out = .ok r ∧ w'.store = s
    | .error e => out = .failed e ∧ w'.store = w.store

section
variable {cfg : SchedulerConfig} {k : Healthy}

theorem run_of_healthy {w w' : World} {es : List Label} (h : Run (healthySystem cfg k) w es w') :
    Run (schedulerSystem cfg) w es w' := h.imp fun _ _ _ he => he.1

/-- One call of a program, as a step of the process. -/
theorem healthy_call {w : World} {d : Bool} {kept todo : List Packet} {r : Packet} {op : StoreOp}
    {next : Except Err Ret → StoreProg (Option Err)} (hpc : w.pc = .persistingOne d kept r todo (.call op next)) :
    ∃ out, (healthySystem cfg k).step w (.call op out) { w with
      store := (Calm.perform cfg.store r.job.id (k.calm r.job.id) op w.store).2
      pc := .persistingOne d kept r todo (next (Calm.perform cfg.store r.job.id (k.calm r.job.id) op w.store).1) } := by
  cases hexec : exec cfg.store (k.env w.store) op w.store with
  | ok p =>
    obtain ⟨s, ret⟩ := p
    have hperf : Calm.perform cfg.store r.job.id (k.calm r.job.id) op w.store = (.ok ret, s) := Calm.perform_ok hexec
    rw [hperf]
    refine ⟨.ok ret, .persistCall hpc (.ok hexec), ?_⟩
    rintro op out he
    cases he
    simp [hexec]
  | error e =>
    have hperf : Calm.perform cfg.store r.job.id (k.calm r.job.id) op w.store = (.error e, w.store) :=
      Calm.perform_error hexec
    rw [hperf]
    refine ⟨.failed e, .persistCall hpc .failed, ?_⟩
    rintro op out he
    cases he
    simp [hexec]

theorem perform_holds {op : StoreOp} (hop : persistOp op = true) {id : JobID} {s : Store} {r : Packet} (hr : s.Holds r) :
    (Calm.perform cfg.store id (k.calm id) op s).2.Holds r := by
  unfold Calm.perform
  split
  · rename_i s' ret hexec
    exact exec_holds hop hexec hr
  · exact hr

theorem sound_of_persistOp {op : StoreOp} (hop : persistOp op = true) (out : Outcome) : (Label.call op out).Sound := by
  cases op <;> trivial

/-- A program that persists a packet runs to its end. -/
theorem run_persist {d : Bool} {kept todo : List Packet} {r : Packet} {Q : Option Err → Store → Prop}
    {p : StoreProg (Option Err)} (hu : p.Uses (fun op => persistOp op = true) fun _ _ => True) :
    ∀ {w : World}, w.pc = .persistingOne d kept r todo p → Prog.After (Calm.perform cfg.store r.job.id) p w.store Q →
      ∃ es s e, Run (healthySystem cfg k) w es { w with store := s, pc := .persistingOne d kept r todo (.ret e) } ∧
        Q e s ∧ (∀ l ∈ es, l.Sound) ∧ ∀ r', w.store.Holds r' → s.Holds r' := by
  induction p with
  | ret e =>
    intro w hpc hQ
    exact ⟨[], w.store, e, by rw [← hpc]; exact .nil, hQ, by simp, fun _ h => h⟩
  | call op next ih =>
    intro w hpc hafter
    obtain ⟨out, hstep⟩ := @healthy_call cfg k w d kept todo r op next hpc
    obtain ⟨es, s, e, hrun, hQ, hsound, hholds⟩ := @ih _ (hu.2 _ trivial) { w with
      store := (Calm.perform cfg.store r.job.id (k.calm r.job.id) op w.store).2
      pc := .persistingOne d kept r todo (next (Calm.perform cfg.store r.job.id (k.calm r.job.id) op w.store).1) }
      rfl (hafter (k.calm r.job.id))
    refine ⟨.call op out :: es, s, e, ?_, hQ, ?_, fun r' hr' => hholds r' (perform_holds hu.1 hr')⟩
    · exact (Run.single hstep).append hrun
    · rintro l (_ | ⟨_, hl⟩)
      · exact sound_of_persistOp hu.1 out
      · exact hsound l hl

/-- A pass over packets whose rows are there keeps none of them. -/
theorem run_drain {delay : Int → Duration} (hd : RetryDelay delay) {d : Bool} : ∀ {todo : List Packet} {w : World}
    {es : List Label}, Run (schedulerSystem cfg) {} es w → (∀ l ∈ es, l.Sound) → w.pc = .persisting d [] todo →
      (∀ r ∈ todo, r.Returned ∧ w.store.Holds r) →
      ∃ es' s, Run (healthySystem cfg k) w es' { w with store := s, pc := .persisting d [] [] } := by
  intro todo
  induction todo with
  | nil =>
    intro w es _ _ hpc _
    exact ⟨[], w.store, by rw [← hpc]; exact .nil⟩
  | cons r todo ih =>
    intro w es hrun hsound hpc htodo
    obtain ⟨hinv, htracked⟩ := run_tracked hrun hsound
    have hmem : r ∈ w.pending := by
      have hsub := hinv.pc
      rw [hpc] at hsub
      exact hsub.subset (by simp)
    obtain ⟨hret, hholds⟩ := htodo r (by simp)
    have hr := htracked.keeps.pending r hmem
    have hfit : ∀ j, w.store.db.jobs.get? r.job.id = some j → j.Fit := fun j hj =>
      ⟨hinv.wf.rows _ j hj, htracked.store.rows _ j hj⟩
    have hafter := @persist_calm cfg.store cfg.mapper delay r w.store hd hr.formed hret hr.traced hfit
    have hstart : (healthySystem cfg k).step w .internal
        { w with pc := .persistingOne d [] r todo (persist cfg.mapper delay r) } :=
      ⟨.persist hpc hd, by simp⟩
    obtain ⟨es₁, s₁, e, hrun₁, he, hsound₁, hkeep⟩ :=
      @run_persist cfg k d [] todo r _ _ (persist_calls cfg.mapper delay r)
        { w with pc := .persistingOne d [] r todo (persist cfg.mapper delay r) } rfl hafter
    obtain rfl := he.2 hholds
    have hdone : (healthySystem cfg k).step
        { w with store := s₁, pc := .persistingOne d [] r todo (.ret none) } .internal
        { w with store := s₁, pc := .persisting d [] todo } :=
      ⟨@Step.persistRet cfg { w with store := s₁, pc := .persistingOne d [] r todo (.ret none) } d [] todo r none rfl,
        by simp⟩
    have hpass := ((Run.single hstart).append hrun₁).snoc hdone
    obtain ⟨es₂, s₂, hrun₂⟩ := ih (hrun.append (run_of_healthy hpass)) (by
      intro l hl
      simp only [List.mem_append, List.mem_singleton] at hl
      rcases hl with hl | (rfl | hl) | rfl
      · exact hsound l hl
      · trivial
      · exact hsound₁ l hl
      · trivial) rfl fun r' hr' => ⟨(htodo r' (by simp [hr'])).1, hkeep r' (htodo r' (by simp [hr'])).2⟩
    exact ⟨_, s₂, hpass.append hrun₂⟩

end

/-! ## The result -/

/-- A packet poisons the scheduler only if its row is gone.  For every packet that is pending in any
run, with whatever the client can have returned, and however calls for other rows come in between:
`persist` in a working store returns nil exactly if the packet's row is there.  The row of a status,
report or delete request always is.  When the rows of all pending packets are there, one pass of `Run`
over them leaves none pending, and `Run` goes on to maintenance and `dispatch`. -/
theorem persist_settles {cfg : SchedulerConfig} {es : List Label} {w : World} {delay : Int → Duration}
    (hrun : Run (schedulerSystem cfg) {} es w) (hsound : ∀ l ∈ es, l.Sound) (hd : RetryDelay delay) :
    (∀ r ∈ w.pending, r.Returned →
      Prog.After (Calm.perform cfg.store r.job.id) (persist cfg.mapper delay r) w.store fun e _ =>
        (e = none ↔ w.store.Holds r)) ∧
    (∀ r ∈ w.pending, r.kind.remote = true → w.store.Holds r) ∧
    (w.pc = .top → (∀ r ∈ w.pending, r.Returned ∧ w.store.Holds r) → ∀ k : Healthy, ∃ es' s,
      Run (healthySystem cfg k) w es' { w with store := s, pending := [], pc := .maintaining maintenance }) := by
  obtain ⟨hinv, htracked⟩ := run_tracked hrun hsound
  refine ⟨fun r hr hret => ?_, fun r hr hremote => ?_, fun hpc hall k => ?_⟩
  · have hr := htracked.keeps.pending r hr
    exact persist_calm hd hr.formed hret hr.traced fun j hj => ⟨hinv.wf.rows _ j hj, htracked.store.rows _ j hj⟩
  · obtain ⟨row, hrow, htr⟩ := (htracked.keeps.pending r hr).traced hremote
    exact ⟨row, hrow, htr.tenant, fun hk => by rw [hk] at hremote; cases hremote⟩
  · have hstart : (healthySystem cfg k).step w .internal { w with pc := .persisting false [] w.pending } :=
      ⟨.persistPending hpc, by simp⟩
    have hlabels : ∀ l ∈ es ++ [Label.internal], l.Sound := by
      intro l hl
      rcases List.mem_append.1 hl with hl | hl
      · exact hsound l hl
      · rw [List.mem_singleton.1 hl]
        trivial
    obtain ⟨es', s, hrun'⟩ := @run_drain cfg k delay hd false w.pending { w with pc := .persisting false [] w.pending } _
      (hrun.snoc hstart.1) hlabels rfl hall
    have hend : (healthySystem cfg k).step { w with store := s, pc := .persisting false [] [] } .internal
        { w with store := s, pending := [], pc := .maintaining maintenance } :=
      ⟨@Step.persisted cfg { w with store := s, pc := .persisting false [] [] } false [] rfl, by simp⟩
    exact ⟨_, s, ((Run.single hstart).append hrun').snoc hend⟩

/-! ## A packet whose row is deleted -/

/-- The packet of an attempt whose beginning could not be committed. -/
def samplePacket : Packet := { job := sampleQueued, kind := .beginError, err := some .storeUnavailable }

/-- The row was found queued, its attempt failed, and so did the lookup that should have settled it. -/
def sampleStuck : World :=
  { store := sampleAt 4, recovering := false, pending := [samplePacket], pc := .top }

theorem run_sampleStuck : ∃ es, Run (schedulerSystem sampleScheduler) {} es sampleStuck ∧ ∀ l ∈ es, l.Sound := by
  obtain ⟨es, hrun, hes⟩ := run_sampleReady
  have hrun := hrun.snoc (@Step.beginError _ _ _ (fun _ => hour) 0 sampleQueued (.failed .storeUnavailable) _ _
    sampleDelay rfl (by decide) rfl rfl rfl .failed rfl sampleDelay_range)
  have hrun := hrun.snoc (@Step.reconcileCall _ _ _ _ _ _ (.failed .storeUnavailable) _ rfl .failed)
  have hrun := hrun.snoc (Step.unreconciled rfl)
  have hrun := hrun.snoc (Step.tick rfl)
  refine ⟨_, hrun, ?_⟩
  intro l hl
  simp only [List.append_assoc, List.mem_append, List.mem_singleton] at hl
  rcases hl with hl | rfl | rfl | rfl | rfl
  · rcases hes l hl with rfl | ⟨op, hop, out, rfl⟩
    · trivial
    · simp only [sampleRound, List.cons_append, List.nil_append, List.mem_cons, List.not_mem_nil, or_false] at hop
      rcases hop with rfl | rfl | rfl | rfl | rfl | rfl | rfl <;> trivial
  all_goals trivial

/-- A store that works, at the last time it was used. -/
def sampleHealthy : Healthy where
  env s := { sampleEnv with clock := s.db.latest.getD sampleEnv.clock }
  clock s now h := by simp [h]
  encodes _ _ _ _ := rfl

/-- The row is still queued: the packet is settled, and the next pass leaves nothing pending. -/
theorem persist_settles_queued : ∃ es w, Run (schedulerSystem sampleScheduler) {} es w ∧
    w.pending = [samplePacket] ∧ w.store.Holds samplePacket ∧
    Prog.After (Calm.perform sampleConfig 7) (persist none sampleDelay samplePacket) w.store (fun e _ => e = none) ∧
    ∃ es' s, Run (healthySystem sampleScheduler sampleHealthy) w es'
      { w with store := s, pending := [], pc := .maintaining maintenance } := by
  obtain ⟨es, hrun, hsound⟩ := run_sampleStuck
  have hholds : sampleStuck.store.Holds samplePacket := ⟨sampleQueued, rfl, rfl, by simp [samplePacket]⟩
  obtain ⟨hpersist, -, hdrain⟩ := persist_settles hrun hsound sampleDelay_range
  refine ⟨es, sampleStuck, hrun, rfl, hholds, ?_, ?_⟩
  · exact (hpersist samplePacket (by simp [sampleStuck]) trivial).imp fun e _ he => he.2 hholds
  · refine hdrain rfl (fun r hr => ?_) sampleHealthy
    rw [List.mem_singleton.1 hr]
    exact ⟨trivial, hholds⟩

/-- A day later. -/
def lateEnv : Env := { sampleEnv with clock := ⟨unixEpoch + 26 * hour, by decide⟩ }

/-- The row is cancelled, and the maintenance of the next day deletes it. -/
def sampleLate (n : Nat) : Store :=
  match execAll sampleConfig sampleEnv [.cancel "tenant" 7] (sampleAt 4) with
  | .ok s =>
    match execAll sampleConfig lateEnv
      ([.maintainDeadlines, .maintainCleanup lateEnv.clock, .markCleanupDeadlines].take n) s with
    | .ok s' => s'
    | .error _ => {}
  | .error _ => {}

/-- The tenant cancels the row, whose upload never began.  The lookup for the packet fails once more,
and then the maintenance of the next day deletes the row.  From then on no working store settles the
packet: `persist` returns an error, whatever comes in between. -/
theorem persist_poisoned : ∃ es w, Run (schedulerSystem sampleScheduler) {} es w ∧ (∀ l ∈ es, l.Sound) ∧
    w.pc = .top ∧ w.pending = [samplePacket] ∧ samplePacket.Returned ∧
    Prog.After (Calm.perform sampleConfig 7) (persist none sampleDelay samplePacket) w.store (fun e _ => e ≠ none) := by
  obtain ⟨es, hrun, hsound⟩ := run_sampleStuck
  have c₁ : exec sampleConfig sampleEnv (.cancel "tenant" 7) (sampleAt 4) =
      .ok (sampleLate 0, .job ((sampleLate 0).db.jobs.rows.head (by decide))) := rfl
  have c₂ : exec sampleConfig lateEnv .maintainDeadlines (sampleLate 0) = .ok (sampleLate 1, .time lateEnv.clock) := rfl
  have c₃ : exec sampleConfig lateEnv (.maintainCleanup lateEnv.clock) (sampleLate 1) = .ok (sampleLate 2, .unit) := rfl
  have c₄ : exec sampleConfig lateEnv .markCleanupDeadlines (sampleLate 2) = .ok (sampleLate 3, .unit) := rfl
  have hrun := hrun.snoc (Step.api rfl rfl (.ok c₁))
  have hrun := hrun.snoc (Step.persistPending rfl)
  have hrun := hrun.snoc (Step.persist rfl sampleDelay_range)
  have hrun := hrun.snoc (@Step.persistCall _ _ _ _ _ _ _ _ (.failed .storeUnavailable) _ rfl .failed)
  have hrun := hrun.snoc (Step.persistRet rfl)
  have hrun := hrun.snoc (Step.persisted rfl)
  have hrun := hrun.snoc (Step.maintainCall rfl (.ok c₂))
  have hrun := hrun.snoc (Step.maintainCall rfl (.ok c₃))
  have hrun := hrun.snoc (Step.maintainCall rfl (.ok c₄))
  have hrun := hrun.snoc (Step.maintained rfl (.inr (by decide)))
  have hrun := hrun.snoc (Step.tick rfl)
  refine ⟨_, _, hrun, ?_, rfl, rfl, trivial, ?_⟩
  · intro l hl
    simp only [List.append_assoc, List.cons_append, List.nil_append, List.mem_append, List.mem_cons, List.not_mem_nil,
      or_false] at hl
    rcases hl with hl | rfl | rfl | rfl | rfl | rfl | rfl | rfl | rfl | rfl | rfl | rfl
    · exact hsound l hl
    all_goals trivial
  · have hformed : samplePacket.Formed := by constructor <;> decide
    have hgone : (sampleLate 3).db.jobs.get? 7 = none := rfl
    have hcalm : Prog.After (Calm.perform sampleConfig 7) (persist none sampleDelay samplePacket) (sampleLate 3)
        fun e _ => (e = none ↔ (sampleLate 3).Holds samplePacket) :=
      persist_calm sampleDelay_range hformed trivial (by simp [samplePacket, Kind.remote]) fun j hj => by
        have hnone : (none : Option Job) = some j := hgone.symm.trans hj
        cases hnone
    refine hcalm.imp fun e _ he hnone => ?_
    obtain ⟨j, hj, -⟩ := he.1 hnone
    have hnone : (none : Option Job) = some j := hgone.symm.trans hj
    cases hnone

end MS.Cape
