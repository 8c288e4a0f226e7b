import Mailstrix.Proof.Cape.Dedup

/-!
# What ended a job, and who may touch it
-/

namespace MS.Cape

open Framework

variable {cfg : StoreConfig} {es : List StoreEvent} {s s' : Store} {id : JobID} {j j' : Job} {past : StoreOp → Prop}

/-- The call behind the state of an ended row. -/
structure Caused (past : StoreOp → Prop) (j : Job) : Prop where
  completed : j.state = .completed → ∃ v task report mapper result,
    past (.completeReport j.tenant j.id v task report mapper) ∧ singleOwnedTask j task = true ∧
      normalize mapper report task j = some result ∧ (j.result = result ∨ j.result = [])
  cancelled : j.state = .cancelled → past (.cancel j.tenant j.id)
  expired : j.state = .expired → past .maintainDeadlines

theorem Caused.of_state (h : j.state ≠ .completed ∧ j.state ≠ .cancelled ∧ j.state ≠ .expired) : Caused past j :=
  ⟨fun hj => absurd hj h.1, fun hj => absurd hj h.2.1, fun hj => absurd hj h.2.2⟩

theorem rowStep_caused {ingress : List Job} {op : StoreOp} {x : Option Job} (hx : ∀ j, x = some j → j.WF ∧ Caused past j)
    (hop : past op) (hstep : RowStep ingress op x (some j')) : Caused past j' := by
  cases hstep with
  | reserve | publish | begin | recordMany | recordOwned | recordRequeue | recordUnsure | interrupted =>
    exact .of_state (by simp [stagingJob, withDeadlines, publishedJob, submittingJob, ambiguousJob, ownedJob, requeuedJob,
      unsureJob, interruptedJob])
  | recordTerminal hr =>
    obtain ⟨hwf, h⟩ := hx _ rfl
    have hne := (hwf.open_of_recordable hr).1.notCompleted
    simp only [applyTerminalSubmission]
    split <;> exact ⟨fun hj => absurd hj hne, h.cancelled, h.expired⟩
  | status hs _ _ hch =>
    rcases statusChange_cases hch with rfl | rfl | rfl <;> exact .of_state (by simp [polledJob, hs])
  | @report j _ task report mapper now hs _ hown hch =>
    rcases reportChange_cases hch with rfl | ⟨result, hres, rfl⟩
    · exact .of_state (by simp [polledJob])
    · have hkey := (terminate_texts j .completed .empty now.val).1
      simp only [dedupKey, Prod.mk.injEq] at hkey
      obtain ⟨-, hdigest, hgeneration, -, hpolicy⟩ := hkey
      refine ⟨fun _ => ⟨j.version, task, report, mapper, result, ?_, ?_, ?_, .inl rfl⟩, by simp [polledJob],
        by simp [polledJob]⟩
      · simpa [polledJob] using hop
      · simpa [polledJob, singleOwnedTask, hgeneration, Job.Sending, hs] using hown
      · simpa [polledJob, normalize, hdigest, hpolicy] using hres
  | reportError hs => exact .of_state (by simp [polledJob, hs])
  | cancel => exact ⟨by simp [endedJob], fun _ => by simpa [endedJob] using hop, by simp [endedJob]⟩
  | expire => exact ⟨by simp [endedJob], by simp [endedJob], fun _ => hop⟩
  | minimize =>
    obtain ⟨-, h⟩ := hx _ rfl
    refine ⟨fun hj => ?_, h.cancelled, h.expired⟩
    obtain ⟨v, task, report, mapper, result, hpast, hown, hres, -⟩ := h.completed hj
    exact ⟨v, task, report, mapper, result, hpast, hown, hres, .inr rfl⟩
  | reserveRead | extendRetry | overdue | callback | deletion =>
    obtain ⟨-, h⟩ := hx _ rfl
    exact ⟨h.completed, h.cancelled, h.expired⟩

/-- Each ended row has its cause: a completed one a report on its single task whose mapping is the result it
holds or has given up, a cancelled one a call of its own tenant, an expired one a pass of `Maintain`. -/
theorem ended_with_cause (hs : Run (storeSystem cfg) {} es s) (hj : s.db.jobs.get? id = some j) :
    Caused (fun op => ∃ e ∈ es, e.op? = some op) j := by
  refine (hs.preserve (P := fun s => s.WF ∧ ∀ id j, s.db.jobs.get? id = some j → Caused _ j) (Q := (· ∈ es))
    (fun s e s' he hP hstep => ?_) (fun _ he => he) ⟨@reachable_wf cfg _ ⟨_, _, rfl, .nil⟩, by simp⟩).2 id j hj
  obtain ⟨hwf, hI⟩ := hP
  refine ⟨step_wf hwf hstep, fun id j' hj' => ?_⟩
  rcases step_rows hstep id with hsame | ⟨op, hop, hrow⟩
  · exact hI id j' (hsame ▸ hj')
  · rw [hj'] at hrow
    exact rowStep_caused (fun j hj => ⟨hwf.rows id j hj, hI id j hj⟩) ⟨e, he, hop⟩ hrow

theorem ended_with_cause_cancelled : ∃ es, Run (storeSystem sampleConfig) {} es (sampleStore sampleCancelled) ∧
    ∃ e ∈ es, e.op? = some (.cancel "tenant" 7) := by
  obtain ⟨es, hs⟩ := run_of_execAll (show execAll sampleConfig sampleEnv sampleCancelled {} = .ok _ from rfl)
  have hj : (sampleStore sampleCancelled).db.jobs.get? 7 =
      some ((sampleStore sampleCancelled).db.jobs.rows.head (by decide)) := rfl
  exact ⟨es, hs, (ended_with_cause hs hj).cancelled rfl⟩

/-! ## Calls that leave a row alone -/

/-- The call names another row, or the row under another tenant. -/
def StoreOp.Apart (tenant : String) (id : JobID) : StoreOp → Prop
  | .reserve .. | .setGenerationAdmission .. | .takeRequestToken | .lookup .. | .schedulerJobs | .openPayload .. => True
  | .publish id' .. | .cleanupStaging id' | .recoverSubmitting id' => id' ≠ id
  | .beginSubmission t id' .. | .recordSubmission t id' .. | .recordStatus t id' .. | .completeReport t id' ..
  | .recordReportError t id' .. | .cancel t id' | .recordDeletion t id' .. => ¬ (t = tenant ∧ id' = id)
  | _ => False

/-- Such calls leave the row as it is. -/
theorem tenant_isolated (hj : s.db.jobs.get? id = some j) (h : Run (storeSystem cfg) s es s')
    (hes : ∀ e ∈ es, ∀ op, e.op? = some op → op.Apart j.tenant id) :
    s'.db.jobs.get? id = some j := by
  refine h.preserve (P := fun s => s.db.jobs.get? id = some j) (fun s e s' hop hj hstep => ?_) hes hj
  rcases step_rows hstep id with he | ⟨op, he, hrow⟩
  · exact he.trans hj
  · have hapart := hop op he
    have hid : j.id = id := Table.key_of_get? hj
    rw [hj] at hrow
    generalize s'.db.jobs.get? id = x at hrow ⊢
    cases hrow with
    | publish _ hsame => exact (hapart (hsame ▸ hid)).elim
    | cleanupStaging | interrupted => exact (hapart hid).elim
    | begin | recordTerminal | recordMany | recordOwned | recordRequeue | recordUnsure | status | report | reportError
    | cancel | deletion => exact (hapart ⟨rfl, hid⟩).elim
    | _ => exact hapart.elim

theorem tenant_isolated_second : (sampleStore (sampleBegun ++ [.reserve sampleRequest 8 2])).db.jobs.get? 7 =
    some ((sampleStore sampleBegun).db.jobs.rows.head (by decide)) := by
  obtain ⟨r, hstep⟩ : ∃ r, (storeSystem sampleConfig).step (sampleStore sampleBegun)
      (.commit (.reserve sampleRequest 8 2) r) (sampleStore (sampleBegun ++ [.reserve sampleRequest 8 2])) :=
    ⟨_, sampleEnv, rfl⟩
  exact tenant_isolated rfl (.single hstep) (by simp [StoreEvent.op?, StoreOp.Apart])

/-- Once a row has ended, no upload of it is begun and its payload is not opened. -/
theorem ended_not_uploaded {es' : List StoreEvent} (hs : Run (storeSystem cfg) {} es s)
    (hj : s.db.jobs.get? id = some j) (hend : terminal j.state = true)
    (h : Run ((storeSystem cfg).within (Present id)) s es' s') (env : Env) (tenant : String) (v : Int) (r : Store × Ret) :
    exec cfg env (.beginSubmission tenant id v) s' ≠ .ok r ∧ exec cfg env (.openPayload tenant id v) s' ≠ .ok r := by
  obtain ⟨j', hj', hlater, -⟩ := run_later (reachable_wf ⟨_, _, rfl, hs⟩) h hj
  have hend' := hlater.ended hend
  constructor
  · intro hexec
    simp only [exec, beginSubmission, bind_ok, check_ok, readJob_ok, hj', Option.some.injEq, Prod.exists] at hexec
    obtain ⟨_, _, ⟨_, ⟨rfl, -⟩, -, ⟨hq, -⟩, -⟩, -⟩ := hexec
    simp [hq, terminal] at hend'
  · intro hexec
    simp only [exec, openPayload, bind_ok, check_ok, readJob_ok, hj', Option.some.injEq] at hexec
    obtain ⟨-, ⟨_, ⟨rfl, -⟩, -, ⟨hq, -⟩, -⟩, -⟩ := hexec
    simp [hq, terminal] at hend'

theorem ended_not_uploaded_cancelled :
    ¬ ∃ r, exec sampleConfig sampleEnv (.openPayload "tenant" 7 3) (sampleStore sampleCancelled) = .ok r := by
  obtain ⟨es, hs⟩ := run_of_execAll (show execAll sampleConfig sampleEnv sampleCancelled {} = .ok _ from rfl)
  rintro ⟨r, hr⟩
  exact (ended_not_uploaded hs rfl rfl .nil sampleEnv "tenant" 3 r).2 hr

end MS.Cape
