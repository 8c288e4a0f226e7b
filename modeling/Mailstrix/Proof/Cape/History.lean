import Mailstrix.Proof.Cape.Ledger

/-!
# The history of one row

`Job.Later j j'` is what any number of steps can do to a row that stays in the table: it only grows
in version, and whatever is terminal, cancelled, timed or recorded stays so.  From it:

* `terminal_final`: terminal outcomes are final, and an attempt is recorded at most once.
* `run_counters`: a counter is at most the number of events.
-/

namespace MS.Cape

open Framework Spec

variable {cfg : StoreConfig} {j j' : Job}
variable {s s' : Store} {id : JobID} {v b : Int} {tenant : String} {o : Code} {env : Env}

/-- What may happen to a row over time. -/
structure Job.Later (j j' : Job) : Prop where
  version : j' = j ∨ j.version < j'.version
  ended : terminal j.state = true → terminal j'.state = true
  cancelled : j.state = .cancelled → j'.state = .cancelled
  terminalAt : j.terminalAt ≠ 0 → j'.terminalAt = j.terminalAt
  result : terminal j.state = true → j.result = [] → j'.result = []
  attempt : j.submissionVersion ≤ j'.submissionVersion
  recorded : j.submissionVersion ≠ 0 → j.submissionRecorded = true →
    j'.submissionVersion = j.submissionVersion → j'.submissionRecorded = true

theorem Job.Later.refl (j : Job) : j.Later j :=
  ⟨.inl rfl, fun h => h, fun h => h, fun _ => rfl, fun _ h => h, le_rfl, fun _ h _ => h⟩

theorem Job.Later.trans {j j' j'' : Job} (h : j.Later j') (h' : j'.Later j'') : j.Later j'' where
  version := by
    rcases h.version with rfl | hv
    · exact h'.version
    · rcases h'.version with rfl | hv'
      · exact .inr hv
      · exact .inr (hv.trans hv')
  ended ht := h'.ended (h.ended ht)
  cancelled hc := h'.cancelled (h.cancelled hc)
  terminalAt ht := by
    have h1 := h.terminalAt ht
    rw [h'.terminalAt (h1 ▸ ht), h1]
  result ht hr := h'.result (h.ended ht) (h.result ht hr)
  attempt := h.attempt.trans h'.attempt
  recorded h0 hr he := by
    have h1 := h.attempt
    have h2 := h'.attempt
    exact h'.recorded (by omega) (h.recorded h0 hr (by omega)) (by omega)

/-- A step that keeps everything well-formedness speaks about. -/
theorem later_of_same (e : j.Same j') (hv : j.version < j'.version) : j.Later j' where
  version := .inr hv
  ended h := e.state ▸ h
  cancelled h := e.state.trans h
  terminalAt _ := e.terminalAt
  result _ hr := e.result.trans hr
  attempt := e.attempt.ge
  recorded _ h _ := e.recorded.trans h

/-- A step of a row that has not ended. -/
theorem later_of_live (h : j.WF) (hlive : terminal j.state = false) (hv : j.version < j'.version)
    (ha : j.submissionVersion ≤ j'.submissionVersion)
    (hr : j.submissionVersion ≠ 0 → j.submissionRecorded = true →
      j'.submissionVersion = j.submissionVersion → j'.submissionRecorded = true) : j.Later j' where
  version := .inr hv
  ended ht := by simp [hlive] at ht
  cancelled hc := by simp [hc, terminal] at hlive
  terminalAt hne := absurd (h.live hlive).1 hne
  result ht := by simp [hlive] at ht
  attempt := ha
  recorded := hr

/-- A recorded outcome, on an open attempt. -/
theorem later_of_recorded (a : j.Open) (hv : j.version < j'.version)
    (hs : terminal j.state = true → j'.state = j.state) (ht : j.terminalAt ≠ 0 → j'.terminalAt = j.terminalAt)
    (hres : j'.result = j.result) (ha : j'.submissionVersion = j.submissionVersion) : j.Later j' where
  version := .inr hv
  ended hj := hs hj ▸ hj
  cancelled hj := (hs (by simp [hj, terminal])).trans hj
  terminalAt := ht
  result _ hr := hres.trans hr
  attempt := ha.ge
  recorded _ hj _ := by simp [a.recorded] at hj

theorem lt_version (v : Int) : v < v + 1 := Int.lt_succ v

theorem rowStep_later {ingress : List Job} {op : StoreOp} (hw : ∀ w ∈ ingress, w.Pristine)
    (h : j.WF) (hstep : RowStep ingress op (some j) (some j')) : j.Later j' := by
  have hv := h.version
  have hat := h.attempt
  cases hstep with
  | @publish w _ v size digest hmem _ _ hs hver =>
    have hp := hw w hmem
    have a := h.clear_of_unsent (.inl (hs.trans hp.state))
    have h1 : (publishedJob w v size digest).version = j.version + 1 := by rw [hver]; rfl
    have h0 : j.submissionVersion = 0 := a.staged (hs.trans hp.state)
    have h0' : (publishedJob w v size digest).submissionVersion = 0 := hp.attempt
    exact later_of_live h (by rw [hs, hp.state]; rfl) (by omega) (by omega) fun hne _ => absurd h0 hne
  | begin hs =>
    refine later_of_live h (by simp [hs, terminal]) (lt_version _) ?_ fun _ _ he => ?_
    · show j.submissionVersion ≤ j.version + 1
      omega
    · have : j.version + 1 = j.submissionVersion := he
      omega
  | @recordTerminal _ v s o b hr hs =>
    have a := (h.open_of_recordable hr).1
    have hval : ∀ x, x = applyTerminalSubmission (respondedJob j s o).1 j s o (respondedJob j s o).2 →
        x.version = j.version + 1 ∧ x.state = j.state ∧ x.terminalAt = j.terminalAt ∧ x.result = j.result ∧
          x.submissionVersion = j.submissionVersion := by
      rintro x rfl
      simp only [applyTerminalSubmission]
      split <;> exact ⟨rfl, rfl, rfl, rfl, rfl⟩
    obtain ⟨h1, h2, h3, h4, h5⟩ := hval _ rfl
    exact later_of_recorded a (h1 ▸ lt_version _) (fun _ => h2) (fun _ => h3) h4 h5
  | recordMany hr hs =>
    refine later_of_recorded (h.open_of_recordable hr).1 (lt_version _) (fun ht => by simp [hs] at ht)
      (fun hne => absurd (h.live hs).1 hne) rfl rfl
  | recordOwned hr hs | recordRequeue hr hs | recordUnsure hr hs =>
    exact later_of_recorded (h.open_of_recordable hr).1 (lt_version _) (fun ht => by simp [hs] at ht)
      (fun hne => absurd (h.live hs).1 hne) rfl rfl
  | interrupted hs =>
    exact later_of_live h (by simp [hs, terminal]) (lt_version _) le_rfl fun _ hr _ => hr
  | @status _ j₁ task status now hs _ _ hch =>
    have hlive : terminal j.state = false := by simp [hs, terminal]
    have hval : j₁.version = j.version ∧ j₁.submissionVersion = j.submissionVersion ∧
        j₁.submissionRecorded = j.submissionRecorded := by
      rcases statusChange_cases hch with rfl | rfl | rfl <;> simp
    obtain ⟨h1, h2, h3⟩ := hval
    exact later_of_live h hlive (h1 ▸ lt_version _) h2.ge fun _ hr _ => h3.trans hr
  | @report _ j₁ task report mapper now hs _ _ hch =>
    have hlive : terminal j.state = false := by simp [hs, terminal]
    have hval : j₁.version = j.version ∧ j₁.submissionVersion = j.submissionVersion ∧
        j₁.submissionRecorded = j.submissionRecorded := by
      rcases reportChange_cases hch with rfl | ⟨result, -, rfl⟩ <;> simp
    obtain ⟨h1, h2, h3⟩ := hval
    exact later_of_live h hlive (h1 ▸ lt_version _) h2.ge fun _ hr _ => h3.trans hr
  | reportError =>
    exact later_of_same ⟨rfl, (lt_version _).le, rfl, rfl, rfl, rfl, rfl, rfl, rfl, rfl, rfl, rfl⟩ (lt_version _)
  | @cancel _ now hs hne =>
    refine ⟨.inr (lt_version _), fun _ => ?_, fun hc => absurd hc hne, fun hne => ?_,
      fun _ _ => terminate_result .., ?_, fun _ hr _ => ?_⟩
    · show terminal (terminate j .cancelled .empty now.val).state = true
      rw [terminate_state]
      rfl
    · show (terminate j .cancelled .empty now.val).terminalAt = _
      rw [terminate_terminalAt, if_neg hne]
    · exact (terminate_attempt ..).ge
    · exact (terminate_recorded ..).trans hr
  | expire hs hlive =>
    refine later_of_live h hlive (lt_version _) ?_ fun _ hr _ => ?_
    · exact (terminate_attempt ..).ge
    · exact (terminate_recorded ..).trans hr
  | deletion =>
    exact ⟨.inr (lt_version _), fun ht => ht, fun hc => hc, fun _ => rfl, fun _ hr => hr, le_rfl, fun _ hr _ => hr⟩
  | minimize =>
    exact ⟨.inr (lt_version _), fun ht => ht, fun hc => hc, fun _ => rfl, fun _ _ => rfl, le_rfl, fun _ hr _ => hr⟩
  | reserveRead | extendRetry | overdue | callback =>
    exact later_of_same ⟨rfl, (lt_version _).le, rfl, rfl, rfl, rfl, rfl, rfl, rfl, rfl, rfl, rfl⟩ (lt_version _)

/-! ## Runs in which the row stays -/

/-- The row `id` is in the table. -/
def Present (id : JobID) (s : Store) : Prop := (s.db.jobs.get? id).isSome = true

theorem step_later {e : StoreEvent} (hs : s.WF) (h : (storeSystem cfg).step s e s') (hj : s.db.jobs.get? id = some j)
    (hj' : s'.db.jobs.get? id = some j') : j.Later j' := by
  have hrow := step_rows h id
  rw [hj, hj'] at hrow
  rcases hrow with he | ⟨op, -, hstep⟩
  · cases he
    exact .refl j
  · exact rowStep_later hs.ingress (hs.rows id j hj) hstep

/-- Along a run in which the row stays in the table, it only grows older. -/
theorem run_later {es : List StoreEvent} {j : Job} (hs : s.WF) (h : Run ((storeSystem cfg).within (Present id)) s es s')
    (hj : s.db.jobs.get? id = some j) : ∃ j', s'.db.jobs.get? id = some j' ∧ j.Later j' ∧ s'.WF := by
  refine h.preserve (P := fun s' => ∃ j', s'.db.jobs.get? id = some j' ∧ j.Later j' ∧ s'.WF)
    (Q := fun _ => True) (fun s₁ e s₂ _ hP hstep => ?_) (fun _ _ => trivial) ⟨j, hj, .refl j, hs⟩
  obtain ⟨j₁, hj₁, hlater, hwf⟩ := hP
  obtain ⟨-, hstep, hpres⟩ := hstep
  obtain ⟨j₂, hj₂⟩ := Option.isSome_iff_exists.1 hpres
  exact ⟨j₂, hj₂, hlater.trans (step_later hwf hstep hj₁ hj₂), step_wf hwf hstep⟩

/-! ## Counters -/

/-- A change adds one to the version, and at most one to the attempts. -/
theorem rowStep_counters {ingress : List Job} {op : StoreOp} {x : Option Job} {n : Int} (hn : 0 ≤ n)
    (hw : ∀ w ∈ ingress, w.Pristine) (hx : ∀ j, x = some j → j.version ≤ n ∧ j.attempts < j.version)
    (h : RowStep ingress op x (some j')) : j'.version ≤ n + 1 ∧ j'.attempts < j'.version := by
  have hkey : ∀ j, x = some j → j'.version = j.version + 1 → j'.attempts ≤ j.attempts + 1 →
      j'.version ≤ n + 1 ∧ j'.attempts < j'.version := by
    intro j hj hv ha
    have hold := hx j hj
    omega
  cases h with
  | reserve => exact ⟨Int.le_add_of_nonneg_left hn, Int.zero_lt_one⟩
  | @publish w j _ _ _ hmem _ _ _ hver =>
    have hp := hw w hmem
    have hold := hx j rfl
    simp only [publishedJob, hp.attempts, hp.version] at hver ⊢
    omega
  | recordTerminal =>
    refine hkey _ rfl ?_ ?_ <;> simp only [applyTerminalSubmission] <;> split_ifs <;>
      simp [respondedJob, appendSubmissionTasks]
  | status _ _ _ hch =>
    rcases statusChange_cases hch with rfl | rfl | rfl <;> exact hkey _ rfl (by simp [polledJob]) (by simp [polledJob])
  | report _ _ _ hch =>
    rcases reportChange_cases hch with rfl | ⟨result, -, rfl⟩ <;>
      exact hkey _ rfl (by simp [polledJob]) (by simp [polledJob])
  | cancel | expire => exact hkey _ rfl rfl (by simp [endedJob])
  | begin => exact hkey _ rfl rfl le_rfl
  | _ => exact hkey _ rfl rfl (lt_version _).le

/-- A counter is at most the number of events so far: the integers of the model are those of an `int64` in every run
of less than `2 ^ 63` events. -/
theorem run_counters {es : List StoreEvent} (h : Run (storeSystem cfg) {} es s) (hj : s.db.jobs.get? id = some j) :
    j.version ≤ es.length ∧ j.submissionVersion ≤ es.length ∧ j.attempts ≤ es.length := by
  have hinv : s.WF ∧ ∀ id j, s.db.jobs.get? id = some j → j.version ≤ es.length ∧ j.attempts < j.version := by
    refine h.history (I := fun es s => s.WF ∧ ∀ id j, s.db.jobs.get? id = some j →
      j.version ≤ (es.length : Int) ∧ j.attempts < j.version) ⟨.empty, by simp⟩ fun s es e s' _ ih hstep => ?_
    refine ⟨step_wf ih.1 hstep, fun id j hj => ?_⟩
    rw [List.length_append, List.length_singleton]
    rcases step_rows hstep id with hsame | ⟨op, -, hrow⟩
    · have hold := ih.2 id j (hsame ▸ hj)
      omega
    · rw [hj] at hrow
      exact rowStep_counters (Int.natCast_nonneg _) ih.1.ingress (ih.2 id) hrow
  have hattempt := (hinv.1.rows id j hj).attempt
  have hcount := hinv.2 id j hj
  omega

/-! ## An attempt is recorded once -/

/-- The attempt `v` of the row has an outcome, or a later attempt has begun. -/
def Job.Settled (j : Job) (v : Int) : Prop :=
  v ≠ 0 ∧ (v < j.submissionVersion ∨ j.submissionVersion = v ∧ j.submissionRecorded = true)

theorem Job.Later.settled (h : j.Later j') (hv : j.Settled v) : j'.Settled v := by
  obtain ⟨h0, hv⟩ := hv
  have hat := h.attempt
  refine ⟨h0, ?_⟩
  rcases hv with hlt | ⟨rfl, hr⟩
  · exact .inl (by omega)
  · rcases Int.lt_or_eq_of_le hat with hlt | heq
    · exact .inl hlt
    · exact .inr ⟨heq.symm, h.recorded h0 hr heq.symm⟩

theorem Job.Settled.refuses {j : Job} (hv : j.Settled v) (h : j.WF) : recordable j v = false := by
  by_contra hr
  rw [Bool.not_eq_false] at hr
  obtain ⟨a, rfl⟩ := h.open_of_recordable hr
  rcases hv.2 with hlt | ⟨-, hrec⟩
  · omega
  · simp [a.recorded] at hrec

theorem rowStep_settled {ingress : List Job} {s : Submission} (h : j.WF)
    (hstep : RowStep ingress (.recordSubmission tenant id v s o b) (some j) (some j')) : j'.Settled v := by
  have key : recordable j v = true → j'.submissionVersion = j.submissionVersion →
      j'.submissionRecorded = true → j'.Settled v := fun hr ha hrec => by
    obtain ⟨a, rfl⟩ := h.open_of_recordable hr
    exact ⟨a.attempt, .inr ⟨ha, hrec⟩⟩
  cases hstep with
  | recordTerminal hr =>
    refine key hr ?_ ?_
    all_goals
      simp only [applyTerminalSubmission]
      split <;> rfl
  | recordMany hr | recordOwned hr | recordRequeue hr | recordUnsure hr => exact key hr rfl rfl

/-- The row a committed outcome leaves. -/
theorem exec_record {r : Ret} {sub : Submission}
    (h : exec cfg env (.recordSubmission tenant id v sub o b) s = .ok (s', r)) :
    ∃ j j', s.db.jobs.get? id = some j ∧ s'.db.jobs.get? id = some j' ∧ recordable j v = true ∧
      RowStep s.mem.ingress (.recordSubmission tenant id v sub o b) (some j) (some j') := by
  simp only [exec, bind_ok, pure_ok, Prod.exists] at h
  obtain ⟨db, j', hrec, he⟩ := h
  cases he
  have hrep : Replaced s.mem.ingress (.recordSubmission tenant id v sub o b) s.db db j' := recordSubmission_ok hrec
  obtain ⟨j, hj, hstep⟩ := hrep.row
  have hget := hrep.get
  have hid : j'.id = id ∧ recordable j v = true := by
    cases hstep with
    | recordTerminal hr => exact ⟨applyTerminalSubmission_id .., hr⟩
    | recordMany hr | recordOwned hr | recordRequeue hr | recordUnsure hr => exact ⟨rfl, hr⟩
  rw [hid.1] at hj hget
  exact ⟨j, j', hj, hget, hid.2, hstep⟩

theorem step_record {e : StoreEvent} {sub : Submission} (h : (storeSystem cfg).step s e s')
    (he : e.op? = some (.recordSubmission tenant id v sub o b)) :
    ∃ j j', s.db.jobs.get? id = some j ∧ s'.db.jobs.get? id = some j' ∧ recordable j v = true ∧
      RowStep s.mem.ingress (.recordSubmission tenant id v sub o b) (some j) (some j') := by
  cases e with
  | commit op r =>
    cases he
    obtain ⟨env, h⟩ := h
    exact exec_record h
  | lost op r =>
    cases he
    obtain ⟨env, s₁, h, rfl⟩ := h
    obtain ⟨j, j', hj, hj', hr, hstep⟩ := exec_record h
    exact ⟨j, j', hj, hj', hr, hstep⟩
  | crash => cases he

/-- Terminal outcomes are final: along every run in which the row stays in the table, a terminal row
stays terminal, a cancelled one cancelled, the first terminal time is kept, a result once gone stays
gone, every change raises the version, and an attempt whose outcome was recorded refuses every
further outcome.  A result is stored only in a completed, unsuppressed row. -/
theorem terminal_final {cfg : StoreConfig} {es es' : List StoreEvent} {s s' : Store} {id : JobID} {j : Job}
    (hs : Run (storeSystem cfg) {} es s) (hj : s.db.jobs.get? id = some j)
    (h : Run ((storeSystem cfg).within (Present id)) s es' s') :
    (j.result ≠ [] → j.state = .completed ∧ j.suppressed = false) ∧
    ∃ j', s'.db.jobs.get? id = some j' ∧
      (terminal j.state = true → terminal j'.state = true) ∧
      (j.state = .cancelled → j'.state = .cancelled) ∧
      (j.terminalAt ≠ 0 → j'.terminalAt = j.terminalAt) ∧
      (terminal j.state = true → j.result = [] → j'.result = []) ∧
      (j' ≠ j → j.version < j'.version) ∧
      ∀ e ∈ es', ∀ tenant v sub o b, e.op? = some (.recordSubmission tenant id v sub o b) →
        ∀ env tenant' sub' o' b' r, exec cfg env (.recordSubmission tenant' id v sub' o' b') s' ≠ .ok r := by
  have hwf : s.WF := reachable_wf ⟨_, _, rfl, hs⟩
  refine ⟨(hwf.rows id j hj).result, ?_⟩
  obtain ⟨j', hj', hlater, hwf'⟩ := run_later hwf h hj
  refine ⟨j', hj', hlater.ended, hlater.cancelled, hlater.terminalAt, hlater.result,
    hlater.version.resolve_left, ?_⟩
  intro e he tenant v sub o b hop env tenant' sub' o' b' r hagain
  obtain ⟨es₁, es₂, rfl⟩ := List.append_of_mem he
  obtain ⟨s₁, h₁, h₂⟩ := h.split
  obtain ⟨s₂, hstep, h₃⟩ := h₂.cons_inv
  obtain ⟨j₁, hj₁, -, hwf₁⟩ := run_later hwf h₁ hj
  obtain ⟨j₂, hj₂⟩ := Option.isSome_iff_exists.1 hstep.2.2
  have hset : j₂.Settled v := by
    obtain ⟨j₀, j₀', hj₀, hj₀', -, hrow⟩ := step_record hstep.2.1 hop
    rw [hj₀'] at hj₂
    cases hj₂
    exact rowStep_settled (hwf₁.rows id j₀ hj₀) hrow
  obtain ⟨j₃, hj₃, hlater₃, -⟩ := run_later (step_wf hwf₁ hstep.2.1) h₃ hj₂
  obtain ⟨s₄, r₄⟩ := r
  obtain ⟨j₄, -, hj₄, -, hrec, -⟩ := exec_record hagain
  rw [hj₄] at hj₃
  cases hj₃
  have := (hlater₃.settled hset).refuses (hwf'.rows id _ hj₄)
  simp [hrec] at this

/-! ## A store to look at -/

/-- Calls that all commit, one after the other. -/
def execAll (cfg : StoreConfig) (env : Env) : List StoreOp → Store → Except Err Store
  | [], s => .ok s
  | op :: ops, s => do
    let (s', _) ← exec cfg env op s
    execAll cfg env ops s'

/-- Calls in a row are a run of every system that allows each of them. -/
theorem execAll_run {S : System Store StoreEvent}
    (hS : ∀ op s s' r, exec cfg env op s = .ok (s', r) → S.step s (.commit op r) s') :
    ∀ {ops : List StoreOp} {s s' : Store}, execAll cfg env ops s = .ok s' → ∃ es, Run S s es s'
  | [], s, s', h => by
    cases h
    exact ⟨[], .nil⟩
  | op :: ops, s, s', h => by
    simp only [execAll, bind_ok, Prod.exists] at h
    obtain ⟨s₁, r, h₁, h₂⟩ := h
    obtain ⟨es, hrun⟩ := execAll_run hS h₂
    exact ⟨[.commit op r] ++ es, (Run.single (hS op s s₁ r h₁)).append hrun⟩

theorem run_of_execAll {ops : List StoreOp} (h : execAll cfg env ops s = .ok s') :
    ∃ es, Run (storeSystem cfg) s es s' :=
  execAll_run (S := storeSystem cfg) (fun _ _ _ _ hexec => ⟨env, hexec⟩) h

def sampleConfig : StoreConfig :=
  { StoreLimits.withDefaults {} with
    tenants := ["tenant"]
    valid := by constructor <;> decide }

def sampleEnv : Env :=
  { clock := ⟨unixEpoch, by decide⟩
    capacity := some { total := 2 ^ 30, available := 2 ^ 30, block := 4096 } }

def sampleRequest : EnqueueRequest := ⟨"tenant", "gen", "submit", "result", "unknown"⟩

/-- The sample store after these calls. -/
def sampleStore (ops : List StoreOp) : Store :=
  match execAll sampleConfig sampleEnv ops {} with
  | .ok s => s
  | .error _ => {}

/-- An upload has begun. -/
def sampleBegun : List StoreOp :=
  [.reserve sampleRequest 7 1, .publish 7 "clean" 10 "abc", .beginSubmission "tenant" 7 2]

/-- Two tasks came back for it. -/
def sampleTasks : StoreOp := .recordSubmission "tenant" 7 3 { tasks := [⟨1, "gen"⟩, ⟨2, "gen"⟩] } .empty 0

/-- It is cancelled while it is in flight. -/
def sampleCancelled : List StoreOp := sampleBegun ++ [.cancel "tenant" 7]

/-- The late proof that nothing was sent. -/
def sampleProof : StoreOp := .recordSubmission "tenant" 7 3 { noBytesSent := true } .transport 0

/-- The late outcome of a cancelled upload is recorded, leaves the row cancelled, and is refused the
second time. -/
theorem terminal_final_late : ∃ j', (sampleStore (sampleCancelled ++ [sampleProof])).db.jobs.get? 7 = some j' ∧
    j'.state = .cancelled ∧
    ∀ r, exec sampleConfig sampleEnv sampleProof (sampleStore (sampleCancelled ++ [sampleProof])) ≠ .ok r := by
  have hrun : execAll sampleConfig sampleEnv sampleCancelled {} = .ok (sampleStore sampleCancelled) := rfl
  obtain ⟨es, hs⟩ := run_of_execAll hrun
  have hstep : ((storeSystem sampleConfig).within (Present 7)).step (sampleStore sampleCancelled)
      (.commit sampleProof (.job ((sampleStore (sampleCancelled ++ [sampleProof])).db.jobs.rows.head (by decide))))
      (sampleStore (sampleCancelled ++ [sampleProof])) := ⟨rfl, ⟨sampleEnv, rfl⟩, rfl⟩
  have hj : (sampleStore sampleCancelled).db.jobs.get? 7 =
      some ((sampleStore sampleCancelled).db.jobs.rows.head (by decide)) := rfl
  obtain ⟨-, j', hj', -, hc, -, -, -, hrec⟩ := terminal_final hs hj (Run.single hstep)
  exact ⟨j', hj', hc rfl, fun r => hrec _ (List.mem_singleton.2 rfl) _ _ _ _ _ rfl _ _ _ _ _ r⟩

end MS.Cape
