import Mailstrix.Spec.Cape.Ledger
import Mailstrix.Proof.Cape.Wellformed

/-!
# The store keeps the ledger

`Job.ledger` reads what a row says about its job, and `step_ledger` shows that every step of the store
is a step of every job's ledger.  So the facts about ledgers hold of rows.
-/

namespace MS.Cape

open Framework Spec

variable {j j' : Job} {v b : Int} {s : Submission} {o : Code} {op : StoreOp} {id : JobID} {cfg : StoreConfig}
  {s' : Store}

def life (s : JobState) : Life :=
  if s = .staging then .staged else if terminal s then .ended else .live

def account (j : Job) : Account :=
  if j.submissionRecorded = false ∧ j.submissionVersion ≠ 0 then .open
  else if j.cleanup = .notSubmitted then .clear else .owing

def Job.ledger (j : Job) : Ledger := ⟨life j.state, account j⟩

/-- The proof that an attempt sent nothing: it carries no task and no unknown debt either. -/
def noSendProof (s : Submission) : Bool := s.noBytesSent && s.tasks.isEmpty && !s.unknownDebt

/-- What a committed call means for the job `id`. -/
def effect (op : StoreOp) (id : JobID) : Effect :=
  match op with
  | .beginSubmission _ i _ => if i = id then .begin else .other
  | .recordSubmission _ i _ s _ _ => if i = id ∧ noSendProof s = true then .prove else .other
  | _ => .other

theorem Job.Clear.account (a : j.Clear) : account j = .clear := by
  have h : ¬ (j.submissionRecorded = false ∧ j.submissionVersion ≠ 0) := fun h => by
    simp [a.recorded h.2] at h
  simp [MS.Cape.account, h, a.cleanup]

theorem Job.Open.account (a : j.Open) : account j = .open := by
  simp [MS.Cape.account, a.recorded, a.attempt]

theorem Job.Owing.account (a : j.Owing) : account j = .owing := by
  simp [MS.Cape.account, a.recorded, a.cleanup.1]

theorem life_live {s : JobState} (h0 : s ≠ .staging) (h : terminal s = false) : life s = .live := by
  simp [life, h0, h]

theorem life_ended {s : JobState} (h : terminal s = true) : life s = .ended := by
  simp [life, (terminal_ne h).1, h]

theorem account_terminate (h : j.WF) (st : JobState) (c : Code) (now : Nat) :
    account (terminate j st c now) = account j := by
  by_cases hsend : j.Sending
  · rcases h.account with a | a | a
    · rcases a.state with e | e | e <;> rcases hsend with e' | e' <;> simp [e', terminal] at e
    · simp [account, a.recorded, a.attempt]
    · simp [account, a.recorded, hsend, a.cleanup.1]
  · simp [account, hsend]

/-- Ending a row leaves its account as it is. -/
theorem ledger_terminate (h : j.WF) {st : JobState} (hst : terminal st = true) (c : Code) (now : Nat) :
    (terminate j st c now).ledger = ⟨.ended, account j⟩ := by
  simp only [Job.ledger, terminate_state, life_ended hst, account_terminate h]

/-- Ending a row that was not staged. -/
theorem step_of_terminate (hs : j.state ≠ .staging) (hj : j'.ledger = ⟨.ended, account j⟩) :
    Ledger.Step .other (some j.ledger) (some j'.ledger) := by
  rw [hj]
  cases ht : terminal j.state
  · have : j.ledger = ⟨.live, account j⟩ := by rw [Job.ledger, life_live hs ht]
    rw [this]
    exact .finish
  · have : j.ledger = ⟨.ended, account j⟩ := by rw [Job.ledger, life_ended ht]
    rw [this]
    exact .keep (by simp)

/-- The ledger reads the state, the recorded attempt and whether anything was submitted. -/
theorem ledger_congr (hs : j'.state = j.state) (hr : j'.submissionRecorded = j.submissionRecorded)
    (ha : j'.submissionVersion = j.submissionVersion) (hc : j'.cleanup = j.cleanup) : j'.ledger = j.ledger := by
  simp only [Job.ledger, account, hs, hr, ha, hc]

theorem effect_record :
    effect (.recordSubmission j.tenant j.id v s o b) j.id = if noSendProof s = true then .prove else .other := by
  simp [effect]

/-- Every outcome but a proof leaves the open attempt owing. -/
theorem step_of_owing {e : Effect} (he : e ≠ .begin) (a : j.Open) (a' : j'.Owing)
    (hend : terminal j.state = true → terminal j'.state = true) : Ledger.Step e (some j.ledger) (some j'.ledger) := by
  have hj : j.ledger = ⟨life j.state, .open⟩ := by rw [Job.ledger, a.account]
  have hj' : j'.ledger = ⟨life j'.state, .owing⟩ := by rw [Job.ledger, a'.account]
  rw [hj, hj']
  refine .owe he ?_ fun hl => ?_
  · rcases a'.state with e | e | e | e
    · simp [e, life, terminal]
    · simp [e, life, terminal]
    · simp [e, life, terminal]
    · simp [life_ended e]
  · cases ht : terminal j.state
    · simp only [life, ht, Bool.false_eq_true, if_false] at hl
      split_ifs at hl
    · exact life_ended (hend ht)

/-- An open attempt that is proved unsent. -/
theorem step_of_proof (a : j.Open) (a' : j'.Clear) (hs : life j'.state = life j.state) :
    Ledger.Step .prove (some j.ledger) (some j'.ledger) := by
  have hj : j.ledger = ⟨life j.state, .open⟩ := by rw [Job.ledger, a.account]
  have hj' : j'.ledger = ⟨life j.state, .clear⟩ := by rw [Job.ledger, a'.account, hs]
  rw [hj, hj']
  refine .prove ?_
  rcases a.state with e | e | e
  · simp [e, life, terminal]
  · simp [e, life, terminal]
  · simp [life_ended e]

theorem noSendProof_eq (j : Job) (s : Submission) (o : Code) :
    (s.noBytesSent && s.tasks.isEmpty && !(respondedJob j s o).2 && !s.unknownDebt) = noSendProof s := by
  cases hs : s.tasks with
  | nil => simp [noSendProof, respondedJob, appendSubmissionTasks, scanTasks, hs]
  | cons t ts => simp [noSendProof, hs]

/-- The step of a late outcome: a proof clears the row, anything else owes. -/
theorem step_recordTerminal (h : j.WF) (hr : recordable j v = true) (hs : terminal j.state = true) :
    Ledger.Step (effect (.recordSubmission j.tenant j.id v s o b) j.id) (some j.ledger)
      (some (applyTerminalSubmission (respondedJob j s o).1 j s o (respondedJob j s o).2).ledger) := by
  have a := (h.open_of_recordable hr).1
  have hwf := h.recordTerminal (s := s) (o := o) a hs
  have hrec : (applyTerminalSubmission (respondedJob j s o).1 j s o (respondedJob j s o).2).submissionRecorded =
      true := by
    simp only [applyTerminalSubmission]
    split <;> rfl
  have hst : (applyTerminalSubmission (respondedJob j s o).1 j s o (respondedJob j s o).2).state = j.state := by
    simp only [applyTerminalSubmission]
    split <;> rfl
  have hcl : (applyTerminalSubmission (respondedJob j s o).1 j s o (respondedJob j s o).2).cleanup = .notSubmitted ↔
      noSendProof s = true := by
    rw [← noSendProof_eq j s o]
    simp only [applyTerminalSubmission]
    split
    · simp [*]
    · rename_i hno
      simp only [hno]
      split <;> simp
  rw [effect_record]
  by_cases hp : noSendProof s = true
  · rw [if_pos hp]
    exact step_of_proof a (hwf.clear_of_recorded hrec (hcl.2 hp)) (by rw [hst])
  · rw [if_neg hp]
    exact step_of_owing (by simp) a (hwf.owing_of_recorded hrec fun hc => hp (hcl.1 hc)) fun _ => hst ▸ hs

theorem effect_ne_begin : effect (.recordSubmission j.tenant j.id v s o b) j.id ≠ .begin := by
  rw [effect_record]
  split <;> simp

/-- What `Maintain` may delete is clear. -/
theorem clear_of_deletable (h : j.WF) (ht : terminal j.state = true) (hd : deletable j = true) : j.Clear := by
  simp only [deletable, Bool.and_eq_true, Bool.not_eq_true', Bool.or_eq_true, decide_eq_true_eq] at hd
  rcases h.account with a | a | a
  · exact a
  · simp [a.debt (terminal_ne ht).2.2.1] at hd
  · exact absurd hd.2 (not_or.2 a.cleanup)

/-- Every change of a row is a step of its ledger. -/
theorem rowStep_ledger {ingress : List Job} {x x' : Option Job} (hw : ∀ w ∈ ingress, w.Pristine)
    (hx : ∀ j, x = some j → j.WF ∧ j.id = id) (h : RowStep ingress op x x') :
    Ledger.Step (effect op id) (x.map Job.ledger) (x'.map Job.ledger) := by
  have hx' : ∀ j', x' = some j' → j'.WF := fun j' hj' => rowStep_wf hw (fun j hj => (hx j hj).1) (hj' ▸ h)
  cases h with
  | reserve => exact .reserve
  | @publish w j v size digest hmem _ _ hs =>
    have hp := hw w hmem
    have a := (hx j rfl).1.clear_of_unsent (.inl (hs.trans hp.state))
    have hj : j.ledger = ⟨.staged, .clear⟩ := by
      rw [Job.ledger, a.account, hs, hp.state]
      rfl
    have hj' : (publishedJob w v size digest).ledger = ⟨.live, .clear⟩ := by
      rw [Job.ledger, ((hx' _ rfl).clear_of_unsent (.inr rfl)).account]
      rfl
    simp only [Option.map_some, hj, hj']
    exact .publish
  | @cleanupStaging j hs =>
    have a := (hx j rfl).1.clear_of_unsent (.inl hs)
    have hj : j.ledger = ⟨.staged, .clear⟩ := by
      rw [Job.ledger, a.account, hs]
      rfl
    simp only [Option.map_some, hj]
    exact .abandon
  | @begin j now hs =>
    obtain ⟨hj, rfl⟩ := hx j rfl
    have h1 : j.ledger = ⟨.live, .clear⟩ := by
      rw [Job.ledger, (hj.clear_of_unsent (.inr hs)).account, hs]
      rfl
    have h2 : (submittingJob j now).ledger = ⟨.live, .open⟩ := by
      rw [Job.ledger, ((hx' _ rfl).open_of_submitting rfl).account]
      rfl
    simp only [Option.map_some, h1, h2, effect, if_true]
    exact .begin
  | @recordTerminal j v s o b hr hs =>
    obtain ⟨hj, rfl⟩ := hx j rfl
    exact step_recordTerminal hj hr hs
  | @recordMany j v s o b clock hr hs _ =>
    obtain ⟨hj, rfl⟩ := hx j rfl
    exact step_of_owing effect_ne_begin (hj.open_of_recordable hr).1
      ((hx' _ rfl).owing_of_recorded rfl (by simp [ambiguousJob])) fun _ => rfl
  | @recordOwned j v s o b hr hs =>
    obtain ⟨hj, rfl⟩ := hx j rfl
    exact step_of_owing effect_ne_begin (hj.open_of_recordable hr).1
      ((hx' _ rfl).owing_of_recorded rfl (by simp [ownedJob])) fun ht => by simp [hs] at ht
  | @recordRequeue j v s o b next hr hs htasks hdebt hsent =>
    obtain ⟨hj, rfl⟩ := hx j rfl
    have a := (hj.open_of_recordable hr).1
    have hp : noSendProof s = true := by simp [noSendProof, htasks, hdebt, hsent]
    rw [effect_record, if_pos hp]
    refine step_of_proof a ((hx' _ rfl).clear_of_unsent (.inr rfl)) ?_
    have h0 : j.state ≠ .staging := by
      rcases a.state with e | e | e <;> simp [e]
      exact (terminal_ne e).1
    rw [life_live h0 hs]
    rfl
  | @recordUnsure j v s o b hr hs =>
    obtain ⟨hj, rfl⟩ := hx j rfl
    exact step_of_owing effect_ne_begin (hj.open_of_recordable hr).1
      ((hx' _ rfl).owing_of_recorded rfl (by simp [unsureJob])) fun ht => by simp [hs] at ht
  | @interrupted j hs =>
    have a := (hx j rfl).1.open_of_submitting hs
    have hj : (interruptedJob j).ledger = j.ledger := by
      have h1 : account (interruptedJob j) = .open := by
        simp [account, interruptedJob, a.recorded, a.attempt]
      rw [Job.ledger, Job.ledger, h1, a.account, hs]
      rfl
    simp only [Option.map_some, hj]
    exact .keep (by simp [effect])
  | @status j j' task status now hs _ _ hch =>
    have h0 : j.state ≠ .staging := by simp [hs]
    have hpoll : (polledJob j').ledger = j'.ledger := rfl
    simp only [Option.map_some, hpoll]
    rcases statusChange_cases hch with rfl | rfl | rfl
    · have hj : ({ j with state := .fetching } : Job).ledger = j.ledger := by
        simp only [Job.ledger, hs]
        rfl
      rw [hj]
      exact .keep (by simp [effect])
    · exact .keep (by simp [effect])
    · exact step_of_terminate h0 (ledger_terminate (hx j rfl).1 rfl ..)
  | @report j j' task report mapper now hs _ _ hch =>
    have h0 : j.state ≠ .staging := by simp [hs]
    have hpoll : (polledJob j').ledger = j'.ledger := rfl
    simp only [Option.map_some, hpoll]
    rcases reportChange_cases hch with rfl | ⟨result, -, rfl⟩
    · exact step_of_terminate h0 (ledger_terminate (hx j rfl).1 rfl ..)
    · exact step_of_terminate h0 ((ledger_congr rfl rfl rfl rfl).trans (ledger_terminate (hx j rfl).1 rfl ..))
  | @cancel j now hs _ =>
    exact step_of_terminate hs ((ledger_congr rfl rfl rfl rfl).trans (ledger_terminate (hx j rfl).1 rfl ..))
  | @expire j now hs _ =>
    exact step_of_terminate hs ((ledger_congr rfl rfl rfl rfl).trans (ledger_terminate (hx j rfl).1 rfl ..))
  | @deletion j task d o hs _ ht =>
    have a := (hx j rfl).1.owing_of_task ht
    have a' := (hx' _ rfl).owing_of_task ht
    have hj : (deletionJob j task o).ledger = j.ledger := by
      rw [Job.ledger, Job.ledger, a.account, a'.account]
      rfl
    simp only [Option.map_some, hj]
    exact .keep (by simp [effect])
  | @forget j now hs hd =>
    have a := clear_of_deletable (hx j rfl).1 hs hd
    have hj : j.ledger = ⟨.ended, .clear⟩ := by rw [Job.ledger, a.account, life_ended hs]
    simp only [Option.map_some, hj]
    exact .forget
  | reportError | minimize | reserveRead | extendRetry | overdue | callback =>
    simp only [Option.map_some]
    rw [ledger_congr rfl rfl rfl rfl]
    exact .keep (by simp [effect])

/-! ## Steps of the store -/

/-- What a step of the store means for the job `id`. -/
def StoreEvent.effect (e : StoreEvent) (id : JobID) : Effect :=
  match e with
  | .commit op _ => MS.Cape.effect op id
  | .lost op _ => MS.Cape.effect op id
  | .crash => .other

/-- The ledger of the job `id`. -/
def Store.ledger (s : Store) (id : JobID) : Option Ledger := (s.db.jobs.get? id).map Job.ledger

/-- A committed attempt always changes its row. -/
theorem exec_begin {env : Env} {s : Store} {r : Ret} {tenant : String} {version : Int}
    (h : exec cfg env (.beginSubmission tenant id version) s = .ok (s', r)) :
    ∃ j j', s.db.jobs.get? id = some j ∧ s'.db.jobs.get? id = some j' ∧ r = .job j' ∧
      RowStep s.mem.ingress (.beginSubmission tenant id version) (some j) (some j') := by
  simp only [exec, bind_ok, pure_ok, Prod.exists] at h
  obtain ⟨db, j', hbegin, he⟩ := h
  cases he
  have hrep : Replaced s.mem.ingress (.beginSubmission tenant id version) s.db db j' := beginSubmission_ok hbegin
  obtain ⟨j, hj, hstep⟩ := hrep.row
  have hget := hrep.get
  have hid : j'.id = id := by
    cases hstep
    rfl
  rw [hid] at hj hget
  exact ⟨j, j', hj, hget, rfl, hstep⟩

theorem effect_eq_begin (h : effect op id = .begin) : ∃ tenant version, op = .beginSubmission tenant id version := by
  cases op <;> simp only [effect, reduceCtorEq] at h
  case beginSubmission tenant i version =>
    split at h
    · subst i
      exact ⟨tenant, version, rfl⟩
    · cases h
  case recordSubmission => split at h <;> cases h

theorem exec_ledger {env : Env} {s : Store} {r : Ret} (hs : s.WF) (h : exec cfg env op s = .ok (s', r)) (id : JobID) :
    Ledger.Step (effect op id) (s.ledger id) (s'.ledger id) := by
  have hrow : RowStep s.mem.ingress op (s.db.jobs.get? id) (s'.db.jobs.get? id) →
      Ledger.Step (effect op id) (s.ledger id) (s'.ledger id) := fun hstep =>
    rowStep_ledger hs.ingress (fun j hj => ⟨hs.rows id j hj, Table.key_of_get? hj⟩) hstep
  by_cases hb : effect op id = .begin
  · obtain ⟨tenant, version, rfl⟩ := effect_eq_begin hb
    obtain ⟨j, j', hj, hj', -, hstep⟩ := exec_begin h
    exact hrow (hj ▸ hj' ▸ hstep)
  · rcases exec_rows h id with he | hstep
    · rw [Store.ledger, Store.ledger, he]
      exact .keep hb
    · exact hrow hstep

/-- Every step of the store is a step of every job's ledger. -/
theorem step_ledger {e : StoreEvent} {s : Store} (hs : s.WF) (h : (storeSystem cfg).step s e s') (id : JobID) :
    Ledger.Step (e.effect id) (s.ledger id) (s'.ledger id) := by
  cases e with
  | commit op r =>
    obtain ⟨env, h⟩ := h
    exact exec_ledger hs h id
  | lost op r =>
    obtain ⟨env, s₁, h, rfl⟩ := h
    exact exec_ledger hs h id
  | crash =>
    cases h
    exact .keep (by simp [StoreEvent.effect])

/-- What an upload of the same content may be answered with does not depend on the time. -/
theorem reusable_eq (h : j.WF) (now : Nat) : reusable j now = j.ledger.reusable := by
  rcases h.account with a | a | a
  · rw [Job.ledger, a.account]
    have hc := a.notCompleted
    rcases a.state with e | e | e
    · simp [reusable, a.barrier, e, life, Ledger.reusable]
    · simp [reusable, a.barrier, e, life, terminal, Ledger.reusable]
    · rw [life_ended e]
      cases hs : j.state <;> simp_all [reusable, a.barrier, terminal, Ledger.reusable]
  · rw [Job.ledger, a.account]
    rcases a.state with e | e | e
    · simp [reusable, e, life, terminal, Ledger.reusable]
    · simp [reusable, e, life, terminal, Ledger.reusable]
    · rw [life_ended e]
      simp [reusable, a.barrier (terminal_ne e).2.2.1, Ledger.reusable]
  · rw [Job.ledger, a.account]
    have hl : life j.state ≠ .staged := by
      rcases a.state with e | e | e | e
      · simp [e, life, terminal]
      · simp [e, life, terminal]
      · simp [e, life, terminal]
      · simp [life_ended e]
    simp only [reusable, a.barrier, Bool.true_or]
    cases hlife : life j.state <;> simp_all [Ledger.reusable]

end MS.Cape
