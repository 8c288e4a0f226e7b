import Mailstrix.Proof.Cape.Rows

/-!
# Well-formed rows

`Job.WF` is the invariant of one row: its counters, its terminal time, its result, the tasks it owns
and what it owes the sandbox.  Every row of a store that was reached from the empty one is
well formed (`reachable_wf`).

Untrusted: everything here is checked by Lean.
-/

namespace MS.Cape

open Framework

/-- Nothing can exist at the sandbox for this row. -/
structure Job.Clear (j : Job) : Prop where
  state : j.state = .staging ∨ j.state = .queued ∨ terminal j.state = true
  notCompleted : j.state ≠ .completed
  tasks : j.taskIDs = []
  cleanup : j.cleanup = .notSubmitted
  debt : j.unknownDebt = false
  barrier : j.dedupBarrier = false
  recorded : j.submissionVersion ≠ 0 → j.submissionRecorded = true
  staged : j.state = .staging → j.submissionVersion = 0

/-- An attempt has begun and its outcome is not recorded. -/
structure Job.Open (j : Job) : Prop where
  state : j.state = .submitting ∨ j.state = .submitUncertain ∨ terminal j.state = true
  notCompleted : j.state ≠ .completed
  attempt : j.submissionVersion ≠ 0
  recorded : j.submissionRecorded = false
  tasks : j.taskIDs = []
  debt : j.state ≠ .submitting → j.unknownDebt = true
  barrier : j.state ≠ .submitting → j.dedupBarrier = true
  cleanup : j.state ≠ .submitting → j.cleanup = .deleteFailed
  unsent : j.state = .submitting → j.cleanup = .notSubmitted

/-- The recorded outcome left something to clean up at the sandbox. -/
structure Job.Owing (j : Job) : Prop where
  state : j.state = .submitUncertain ∨ j.state = .remotePending ∨ j.state = .fetching ∨
    terminal j.state = true
  attempt : j.submissionVersion ≠ 0
  recorded : j.submissionRecorded = true
  barrier : j.dedupBarrier = true
  cleanup : j.cleanup ≠ .notSubmitted ∧ j.cleanup ≠ .purgeConfirmed
  single : j.state = .remotePending ∨ j.state = .fetching ∨ j.state = .completed →
    j.taskIDs.length = 1 ∧ j.unknownDebt = false

/-- The task ids a row owns, and the ones whose deletion has been acknowledged. -/
structure Job.TasksWF (j : Job) : Prop where
  nodup : j.taskIDs.Nodup
  count : j.taskIDs.length ≤ maxTaskIDs
  range : ∀ t ∈ j.taskIDs, 1 ≤ t ∧ t ≤ maxTaskID
  ackedNodup : j.deleteAcknowledgedIDs.Nodup
  acked : ∀ t ∈ j.deleteAcknowledgedIDs, t ∈ j.taskIDs
  done : j.cleanup = .deleteAcknowledged →
    (∀ t ∈ j.taskIDs, t ∈ j.deleteAcknowledgedIDs) ∧ j.unknownDebt = false

structure Job.WF (j : Job) : Prop where
  version : 1 ≤ j.version
  attempt : 0 ≤ j.submissionVersion ∧ j.submissionVersion ≤ j.version
  time : terminal j.state = true ↔ j.terminalAt ≠ 0
  quiet : terminal j.state = false → j.suppressed = false ∧ j.deleteAcknowledgedIDs = []
  result : j.result ≠ [] → j.state = .completed ∧ j.suppressed = false
  tasks : j.TasksWF
  account : j.Clear ∨ j.Open ∨ j.Owing

/-- A row as a reservation creates it. -/
structure Job.Pristine (j : Job) : Prop where
  state : j.state = .staging
  version : j.version = 1
  attempt : j.submissionVersion = 0
  attempts : j.attempts = 0
  terminalAt : j.terminalAt = 0
  suppressed : j.suppressed = false
  result : j.result = []
  tasks : j.taskIDs = []
  acked : j.deleteAcknowledgedIDs = []
  cleanup : j.cleanup = .notSubmitted
  debt : j.unknownDebt = false
  barrier : j.dedupBarrier = false

theorem pristine_staging (cfg : StoreConfig) (r : EnqueueRequest) (id : JobID) (c : Nat) (now : Stamp) :
    (withDeadlines (stagingJob cfg r id c) now).Pristine :=
  ⟨rfl, rfl, rfl, rfl, rfl, rfl, rfl, rfl, rfl, rfl, rfl, rfl⟩

/-- No task is owned. -/
theorem Job.TasksWF.of_nil {j : Job} (ht : j.taskIDs = []) (ha : j.deleteAcknowledgedIDs = [])
    (hc : j.cleanup ≠ .deleteAcknowledged) : j.TasksWF where
  nodup := by simp [ht]
  count := by simp [ht]
  range := by simp [ht]
  ackedNodup := by simp [ha]
  acked := by simp [ha]
  done h := absurd h hc

theorem Job.Pristine.wf {j : Job} (h : j.Pristine) : j.WF where
  version := by rw [h.version]
  attempt := by rw [h.attempt, h.version]; decide
  time := by simp [h.state, h.terminalAt, terminal]
  quiet _ := ⟨h.suppressed, h.acked⟩
  result hr := absurd h.result hr
  tasks := .of_nil h.tasks h.acked (by simp [h.cleanup])
  account := .inl ⟨.inl h.state, by simp [h.state], h.tasks, h.cleanup, h.debt, h.barrier,
    fun hn => absurd h.attempt hn, fun _ => h.attempt⟩

/-! ## Steps that touch only the timing of a row -/

/-- Two rows that agree on everything well-formedness speaks about, but for a larger version. -/
structure Job.Same (j j' : Job) : Prop where
  state : j'.state = j.state
  version : j.version ≤ j'.version
  attempt : j'.submissionVersion = j.submissionVersion
  recorded : j'.submissionRecorded = j.submissionRecorded
  terminalAt : j'.terminalAt = j.terminalAt
  suppressed : j'.suppressed = j.suppressed
  result : j'.result = j.result
  tasks : j'.taskIDs = j.taskIDs
  acked : j'.deleteAcknowledgedIDs = j.deleteAcknowledgedIDs
  cleanup : j'.cleanup = j.cleanup
  debt : j'.unknownDebt = j.unknownDebt
  barrier : j'.dedupBarrier = j.dedupBarrier

theorem Job.WF.of_same {j j' : Job} (h : j.WF) (e : j.Same j') : j'.WF where
  version := h.version.trans e.version
  attempt := by
    rw [e.attempt]
    exact ⟨h.attempt.1, h.attempt.2.trans e.version⟩
  time := by rw [e.state, e.terminalAt]; exact h.time
  quiet := by rw [e.state, e.suppressed, e.acked]; exact h.quiet
  result := by rw [e.state, e.suppressed, e.result]; exact h.result
  tasks := by
    refine ⟨?_, ?_, ?_, ?_, ?_, ?_⟩ <;> simp only [e.tasks, e.acked, e.cleanup, e.debt]
    exacts [h.tasks.nodup, h.tasks.count, h.tasks.range, h.tasks.ackedNodup, h.tasks.acked, h.tasks.done]
  account := by
    rcases h.account with c | o | w
    · refine .inl ⟨?_, ?_, ?_, ?_, ?_, ?_, ?_, ?_⟩ <;>
        simp only [e.state, e.tasks, e.cleanup, e.debt, e.barrier, e.attempt, e.recorded]
      exacts [c.state, c.notCompleted, c.tasks, c.cleanup, c.debt, c.barrier, c.recorded, c.staged]
    · refine .inr (.inl ⟨?_, ?_, ?_, ?_, ?_, ?_, ?_, ?_, ?_⟩) <;>
        simp only [e.state, e.tasks, e.cleanup, e.debt, e.barrier, e.attempt, e.recorded]
      exacts [o.state, o.notCompleted, o.attempt, o.recorded, o.tasks, o.debt, o.barrier, o.cleanup, o.unsent]
    · refine .inr (.inr ⟨?_, ?_, ?_, ?_, ?_, ?_⟩) <;>
        simp only [e.state, e.tasks, e.cleanup, e.debt, e.barrier, e.attempt, e.recorded]
      exacts [w.state, w.attempt, w.recorded, w.barrier, w.cleanup, w.single]

/-! ## Ending a row -/

section
variable (j : Job) (st : JobState) (c : Code) (now : Nat)

/-- The attempt of the row may have sent bytes. -/
def Job.Sending (j : Job) : Prop := j.state = .submitting ∨ j.state = .submitUncertain

instance : Decidable j.Sending := inferInstanceAs (Decidable (_ ∨ _))

@[simp] theorem terminate_state : (terminate j st c now).state = st := by
  simp only [terminate]; split_ifs <;> rfl
@[simp] theorem terminate_tenant : (terminate j st c now).tenant = j.tenant := by
  simp only [terminate]; split_ifs <;> rfl
@[simp] theorem terminate_version : (terminate j st c now).version = j.version := by
  simp only [terminate]; split_ifs <;> rfl
@[simp] theorem terminate_attempt : (terminate j st c now).submissionVersion = j.submissionVersion := by
  simp only [terminate]; split_ifs <;> rfl
@[simp] theorem terminate_attempts : (terminate j st c now).attempts = j.attempts := by
  simp only [terminate]; split_ifs <;> rfl
@[simp] theorem terminate_retry : (terminate j st c now).retryAfterUntil = j.retryAfterUntil := by
  simp only [terminate]; split_ifs <;> rfl
@[simp] theorem terminate_next : (terminate j st c now).nextAttempt = j.nextAttempt := by
  simp only [terminate]; split_ifs <;> rfl
@[simp] theorem terminate_recorded : (terminate j st c now).submissionRecorded = j.submissionRecorded := by
  simp only [terminate]; split_ifs <;> rfl
@[simp] theorem terminate_result : (terminate j st c now).result = [] := by
  simp only [terminate]; split_ifs <;> rfl
@[simp] theorem terminate_tasks : (terminate j st c now).taskIDs = j.taskIDs := by
  simp only [terminate]; split_ifs <;> rfl
@[simp] theorem terminate_acked :
    (terminate j st c now).deleteAcknowledgedIDs = j.deleteAcknowledgedIDs := by
  simp only [terminate]; split_ifs <;> rfl
@[simp] theorem terminate_terminalAt :
    (terminate j st c now).terminalAt = if j.terminalAt = 0 then now else j.terminalAt := by
  simp only [terminate]; split_ifs <;> rfl
@[simp] theorem terminate_suppressed :
    (terminate j st c now).suppressed = (decide (st = .cancelled) || j.suppressed) := by
  simp only [terminate]; split_ifs <;> simp [*]
@[simp] theorem terminate_debt :
    (terminate j st c now).unknownDebt = (decide j.Sending || j.unknownDebt) := by
  simp only [terminate, Job.Sending]; split_ifs <;> simp_all
@[simp] theorem terminate_barrier :
    (terminate j st c now).dedupBarrier = (decide j.Sending || j.dedupBarrier) := by
  simp only [terminate, Job.Sending]; split_ifs <;> simp_all
@[simp] theorem terminate_cleanup :
    (terminate j st c now).cleanup = if j.Sending then .deleteFailed else j.cleanup := by
  simp only [terminate, Job.Sending]; split_ifs <;> simp_all
end

theorem terminal_ne {s : JobState} (h : terminal s = true) :
    s ≠ .staging ∧ s ≠ .queued ∧ s ≠ .submitting ∧ s ≠ .submitUncertain ∧ s ≠ .remotePending ∧ s ≠ .fetching := by
  cases s <;> simp_all [terminal]

/-- Ending a row; only the fetch of its one task can complete it. -/
theorem Job.WF.terminate {j : Job} (h : j.WF) {st : JobState} {c : Code} {now : Stamp}
    (hst : terminal st = true) (hc : st = .completed → j.state = .fetching) :
    (terminate j st c now.val).WF := by
  have hnow := now.pos
  refine ⟨by simpa using h.version, by simpa using h.attempt, ?_, fun hq => ?_, by simp, ?_, ?_⟩
  · simp only [terminate_state, hst, terminate_terminalAt, ne_eq, true_iff]
    split_ifs with h0
    · omega
    · exact h0
  · simp [hst] at hq
  · refine ⟨?_, ?_, ?_, ?_, ?_, ?_⟩ <;> simp only [terminate_tasks, terminate_acked]
    exacts [h.tasks.nodup, h.tasks.count, h.tasks.range, h.tasks.ackedNodup, h.tasks.acked, fun hd => by
      rw [terminate_cleanup] at hd
      split_ifs at hd with hsend
      simpa [hsend] using h.tasks.done hd]
  · rcases h.account with a | a | a
    · -- nothing was sent: the row stays clear
      have hsend : ¬ j.Sending := by
        rintro (e | e) <;> rcases a.state with e' | e' | e' <;> simp_all [terminal]
      refine .inl ⟨.inr (.inr (by simpa using hst)), ?_, by simpa using a.tasks, by simpa [hsend] using a.cleanup,
        by simpa [hsend] using a.debt, by simpa [hsend] using a.barrier, by simpa using a.recorded,
        fun e => absurd e (by simpa using (terminal_ne hst).1)⟩
      rw [terminate_state]
      intro e
      have := hc e
      rcases a.state with e' | e' | e' <;> simp_all [terminal]
    · refine .inr (.inl ⟨.inr (.inr (by simpa using hst)), ?_, by simpa using a.attempt,
        by simpa using a.recorded, by simpa using a.tasks, ?_, ?_, ?_,
        fun e => absurd e (by simpa using (terminal_ne hst).2.2.1)⟩)
      · rw [terminate_state]
        intro e
        have := hc e
        rcases a.state with e' | e' | e' <;> simp_all [terminal]
      all_goals
        intro _
        by_cases hsend : j.Sending
        · simp [hsend]
        · have hne : j.state ≠ .submitting := fun e => hsend (.inl e)
          simp [hsend, a.debt hne, a.barrier hne, a.cleanup hne]
    · refine .inr (.inr ⟨.inr (.inr (.inr (by simpa using hst))), by simpa using a.attempt,
        by simpa using a.recorded, by simp [a.barrier], ?_, ?_⟩)
      · by_cases hsend : j.Sending
        · simp [hsend]
        · simpa [hsend] using a.cleanup
      · intro hcomp
        have hf : j.state = .fetching := by
          rw [terminate_state] at hcomp
          rcases hcomp with e | e | e
          · simp [e, terminal] at hst
          · simp [e, terminal] at hst
          · exact hc e
        have hsend : ¬ j.Sending := by simp [Job.Sending, hf]
        simpa [hsend] using a.single (.inr (.inl hf))

/-! ## Which rows are in which account -/

theorem Job.WF.live {j : Job} (h : j.WF) (hs : terminal j.state = false) : j.terminalAt = 0 ∧ j.result = [] := by
  constructor
  · by_contra hn
    simp [h.time.2 hn] at hs
  · by_contra hn
    simp [(h.result hn).1, terminal] at hs

theorem Job.WF.clear_of_unsent {j : Job} (h : j.WF) (hs : j.state = .staging ∨ j.state = .queued) : j.Clear := by
  rcases h.account with a | a | a
  · exact a
  · rcases a.state with e | e | e <;> rcases hs with hs | hs <;> simp [hs, terminal] at e
  · rcases a.state with e | e | e | e <;> rcases hs with hs | hs <;> simp [hs, terminal] at e

theorem Job.WF.open_of_submitting {j : Job} (h : j.WF) (hs : j.state = .submitting) : j.Open := by
  rcases h.account with a | a | a
  · rcases a.state with e | e | e <;> simp [hs, terminal] at e
  · exact a
  · rcases a.state with e | e | e | e <;> simp [hs, terminal] at e

theorem Job.WF.owing_of_remote {j : Job} (h : j.WF) (hs : j.state = .remotePending ∨ j.state = .fetching) :
    j.Owing := by
  rcases h.account with a | a | a
  · rcases a.state with e | e | e <;> rcases hs with hs | hs <;> simp [hs, terminal] at e
  · rcases a.state with e | e | e <;> rcases hs with hs | hs <;> simp [hs, terminal] at e
  · exact a

theorem Job.WF.clear_of_recorded {j : Job} (h : j.WF) (hr : j.submissionRecorded = true)
    (hc : j.cleanup = .notSubmitted) : j.Clear := by
  rcases h.account with a | a | a
  · exact a
  · simp [a.recorded] at hr
  · exact absurd hc a.cleanup.1

theorem Job.WF.owing_of_recorded {j : Job} (h : j.WF) (hr : j.submissionRecorded = true)
    (hc : j.cleanup ≠ .notSubmitted) : j.Owing := by
  rcases h.account with a | a | a
  · exact absurd a.cleanup hc
  · simp [a.recorded] at hr
  · exact a

theorem Job.WF.owing_of_task {j : Job} (h : j.WF) {t : Int} (ht : t ∈ j.taskIDs) : j.Owing := by
  rcases h.account with a | a | a
  · simp [a.tasks] at ht
  · simp [a.tasks] at ht
  · exact a

/-- Only an open attempt can be recorded, and under its own version. -/
theorem Job.WF.open_of_recordable {j : Job} (h : j.WF) {v : Int} (hr : recordable j v = true) :
    j.Open ∧ j.submissionVersion = v := by
  simp only [recordable, Bool.not_eq_true', decide_eq_false_iff_not, not_or] at hr
  obtain ⟨hv, hrec, -, hattempt⟩ := hr
  have hopen : j.submissionVersion ≠ 0 → j.Open := fun hne => by
    rcases h.account with a | a | a
    · exact absurd (a.recorded hne) hrec
    · exact a
    · exact absurd a.recorded hrec
  by_cases he : j.submissionVersion = v
  · exact ⟨hopen (by omega), he⟩
  · obtain ⟨h0, hs, -⟩ := not_not.1 (not_and.1 hattempt he)
    exact absurd h0 (h.open_of_submitting hs).attempt

/-! ## Submission -/

theorem Job.Pristine.published {w : Job} (h : w.Pristine) (v : String) (size : Int) (digest : String) :
    (publishedJob w v size digest).WF where
  version := by simp [publishedJob, h.version]
  attempt := by simp [publishedJob, h.attempt, h.version]
  time := by simp [publishedJob, terminal, h.terminalAt]
  quiet _ := ⟨h.suppressed, h.acked⟩
  result hr := absurd h.result hr
  tasks := .of_nil h.tasks h.acked (by simp [publishedJob, h.cleanup])
  account := .inl ⟨.inr (.inl rfl), by simp [publishedJob], h.tasks, h.cleanup, h.debt, h.barrier,
    fun hn => absurd h.attempt hn, fun _ => h.attempt⟩

/-- Any change counts as one. -/
theorem Job.WF.next {j : Job} (h : j.WF) :
    1 ≤ j.version + 1 ∧ 0 ≤ j.submissionVersion ∧ j.submissionVersion ≤ j.version + 1 := by
  have hv := h.version
  have hat := h.attempt
  omega

theorem Job.WF.submitting {j : Job} (h : j.WF) (hs : j.state = .queued) (now : Stamp) :
    (submittingJob j now).WF := by
  have a := h.clear_of_unsent (.inr hs)
  have hterm : terminal j.state = false := by simp [hs, terminal]
  have hv := h.version
  obtain ⟨ht, hres⟩ := h.live hterm
  refine ⟨?_, ?_, ?_, fun _ => h.quiet hterm, fun hr => absurd hres hr, ?_, .inr (.inl ?_)⟩
  · show 1 ≤ j.version + 1
    omega
  · show 0 ≤ j.version + 1 ∧ j.version + 1 ≤ j.version + 1
    omega
  · simp [submittingJob, terminal, ht]
  · exact .of_nil a.tasks (h.quiet hterm).2 (by simp [submittingJob, a.cleanup])
  · refine ⟨.inl rfl, by simp [submittingJob], ?_, rfl, a.tasks, fun hn => absurd rfl hn, fun hn => absurd rfl hn,
      fun hn => absurd rfl hn, fun _ => a.cleanup⟩
    show j.version + 1 ≠ 0
    omega

theorem Job.WF.interrupted {j : Job} (h : j.WF) (hs : j.state = .submitting) : (interruptedJob j).WF := by
  have a := h.open_of_submitting hs
  have hterm : terminal j.state = false := by simp [hs, terminal]
  obtain ⟨ht, hres⟩ := h.live hterm
  refine ⟨h.next.1, h.next.2, ?_, fun _ => h.quiet hterm, fun hr => absurd hres hr, ?_, .inr (.inl ?_)⟩
  · simp [interruptedJob, terminal, ht]
  · exact .of_nil a.tasks (h.quiet hterm).2 (by simp [interruptedJob])
  · exact ⟨.inr (.inl rfl), by simp [interruptedJob], a.attempt, a.recorded, a.tasks, fun _ => rfl, fun _ => rfl,
      fun _ => rfl, by simp [interruptedJob]⟩

/-- The accepted ids of a response are distinct, in range and no more than the tasks looked at. -/
theorem scanTasks_ids (g : String) : ∀ (ts : List TaskRef) (seen : List Int) (invalid : Bool), seen.Nodup →
    (∀ t ∈ seen, 1 ≤ t ∧ t ≤ maxTaskID) →
    (scanTasks g ts seen invalid).1.Nodup ∧
      (∀ t ∈ (scanTasks g ts seen invalid).1, 1 ≤ t ∧ t ≤ maxTaskID) ∧
      (scanTasks g ts seen invalid).1.length ≤ seen.length + ts.length
  | [], seen, invalid, hn, hr => ⟨hn, hr, by simp [scanTasks]⟩
  | t :: ts, seen, invalid, hn, hr => by
    rw [scanTasks]
    split
    · obtain ⟨h1, h2, h3⟩ := scanTasks_ids g ts seen true hn hr
      refine ⟨h1, h2, ?_⟩
      rw [List.length_cons]
      omega
    · rename_i hok
      simp only [not_or, not_lt] at hok
      have hn' : (seen ++ [t.id]).Nodup := by
        rw [List.nodup_append]
        refine ⟨hn, List.nodup_singleton _, fun a ha b hb => ?_⟩
        rw [List.mem_singleton] at hb
        rintro rfl
        exact hok.2.2.2 (hb ▸ ha)
      have hr' : ∀ a ∈ seen ++ [t.id], 1 ≤ a ∧ a ≤ maxTaskID := by
        intro a ha
        rcases List.mem_append.1 ha with ha | ha
        · exact hr a ha
        · rw [List.mem_singleton.1 ha]
          exact ⟨hok.1, hok.2.1⟩
      obtain ⟨h1, h2, h3⟩ := scanTasks_ids g ts (seen ++ [t.id]) invalid hn' hr'
      refine ⟨h1, h2, ?_⟩
      rw [List.length_append, List.length_singleton] at h3
      rw [List.length_cons]
      omega

section
variable {j j' : Job} {s : Submission} {o : Code}

theorem responded_tasks (a : j.Open) :
    (respondedJob j s o).1.taskIDs.Nodup ∧ (∀ t ∈ (respondedJob j s o).1.taskIDs, 1 ≤ t ∧ t ≤ maxTaskID) ∧
      (respondedJob j s o).1.taskIDs.length ≤ maxTaskIDs := by
  have h := scanTasks_ids j.generation (s.tasks.take maxTaskIDs) [] (decide (maxTaskIDs < s.tasks.length))
    List.nodup_nil (by simp)
  simp only [respondedJob, appendSubmissionTasks, a.tasks, List.nil_append]
  refine ⟨h.1, h.2.1, h.2.2.trans ?_⟩
  rw [List.length_nil, List.length_take]
  omega

theorem Job.Open.acked (a : j.Open) (h : j.WF) : j.deleteAcknowledgedIDs = [] :=
  List.eq_nil_iff_forall_not_mem.2 fun t ht => by simpa [a.tasks] using h.tasks.acked t ht

/-- What every recorded outcome has in common; what is left is its state, its terminal time and what
it owes. -/
theorem Job.WF.of_responded (h : j.WF) (a : j.Open) (hv : j'.version = j.version + 1)
    (hat : j'.submissionVersion = j.submissionVersion)
    (htasks : j'.taskIDs = (respondedJob j s o).1.taskIDs)
    (hack : j'.deleteAcknowledgedIDs = j.deleteAcknowledgedIDs) (hsup : j'.suppressed = j.suppressed)
    (hres : j'.result = j.result) (hend : terminal j.state = true → terminal j'.state = true)
    (htime : terminal j'.state = true ↔ j'.terminalAt ≠ 0) (hclean : j'.cleanup ≠ .deleteAcknowledged)
    (hacc : j'.Clear ∨ j'.Owing) : j'.WF := by
  have hver := h.version
  have hatt := h.attempt
  obtain ⟨hnd, hrange, hcount⟩ := responded_tasks (s := s) (o := o) a
  have hnil := a.acked h
  refine ⟨by omega, by omega, htime, fun hq => ?_, fun hr => ?_, ?_, hacc.imp_right .inr⟩
  · have hj : terminal j.state = false := by
      by_contra hn
      simp [hend (by simpa using hn)] at hq
    rw [hsup, hack]
    exact h.quiet hj
  · rw [hres] at hr
    exact absurd (h.result hr).1 a.notCompleted
  · refine ⟨htasks ▸ hnd, htasks ▸ hcount, htasks ▸ hrange, ?_, ?_, fun hd => absurd hd hclean⟩
    · simp [hack, hnil]
    · simp [hack, hnil]

theorem Job.WF.recordMany (h : j.WF) (a : j.Open) (clock : Stamp) :
    (ambiguousJob (respondedJob j s o).1 clock).WF := by
  have hpos := clock.pos
  refine h.of_responded (s := s) (o := o) a rfl rfl rfl rfl rfl rfl (fun _ => rfl) ?_ (by simp [ambiguousJob])
    (.inr ⟨.inr (.inr (.inr rfl)), a.attempt, rfl, rfl, by simp [ambiguousJob], by simp [ambiguousJob]⟩)
  simp only [ambiguousJob, terminal, ne_eq, true_iff]
  split_ifs <;> omega

theorem Job.WF.recordOwned (h : j.WF) (a : j.Open) (hs : terminal j.state = false)
    (hinv : (respondedJob j s o).2 = false) (hdebt : s.unknownDebt = false)
    (hlen : (respondedJob j s o).1.taskIDs.length = 1) : (ownedJob (respondedJob j s o).1).WF := by
  have hlive := (h.live hs).1
  have hd : (respondedJob j s o).1.unknownDebt = false := by
    show (s.unknownDebt || (respondedJob j s o).2) = false
    rw [hinv, hdebt]
    rfl
  refine h.of_responded (s := s) (o := o) a rfl rfl rfl rfl rfl rfl (fun ht => by simp [hs] at ht) ?_
    (by simp [ownedJob]) (.inr ⟨.inr (.inl rfl), a.attempt, rfl, rfl, by simp [ownedJob], fun _ => ⟨hlen, hd⟩⟩)
  show terminal .remotePending = true ↔ j.terminalAt ≠ 0
  simp [terminal, hlive]

theorem Job.WF.recordRequeue (h : j.WF) (a : j.Open) (hs : terminal j.state = false) (htasks : s.tasks = [])
    (hdebt : s.unknownDebt = false) (next : Nat) : (requeuedJob (respondedJob j s o).1 next).WF := by
  have hlive := (h.live hs).1
  refine h.of_responded (s := s) (o := o) a rfl rfl rfl rfl rfl rfl (fun ht => by simp [hs] at ht) ?_
    (by simp [requeuedJob]) (.inl ⟨.inr (.inl rfl), by simp [requeuedJob], ?_, rfl, ?_, rfl, fun _ => rfl, nofun⟩)
  · show terminal .queued = true ↔ j.terminalAt ≠ 0
    simp [terminal, hlive]
  · simp [requeuedJob, respondedJob, appendSubmissionTasks, htasks, scanTasks, a.tasks]
  · simp [requeuedJob, respondedJob, appendSubmissionTasks, htasks, scanTasks, hdebt]

theorem Job.WF.recordUnsure (h : j.WF) (a : j.Open) (hs : terminal j.state = false) :
    (unsureJob (respondedJob j s o).1).WF := by
  have hlive := (h.live hs).1
  refine h.of_responded (s := s) (o := o) a rfl rfl rfl rfl rfl rfl (fun ht => by simp [hs] at ht) ?_
    (by simp [unsureJob]) (.inr ⟨.inl rfl, a.attempt, rfl, rfl, by simp [unsureJob], by simp [unsureJob]⟩)
  show terminal .submitUncertain = true ↔ j.terminalAt ≠ 0
  simp [terminal, hlive]

/-- A late proof that nothing was sent clears the row; every other late outcome owes. -/
theorem Job.WF.recordTerminal (h : j.WF) (a : j.Open) (hs : terminal j.state = true) :
    (applyTerminalSubmission (respondedJob j s o).1 j s o (respondedJob j s o).2).WF := by
  simp only [applyTerminalSubmission]
  split
  · rename_i hno
    simp only [Bool.and_eq_true, Bool.not_eq_true', List.isEmpty_iff] at hno
    obtain ⟨⟨⟨-, htasks⟩, -⟩, -⟩ := hno
    refine h.of_responded (s := s) (o := o) a rfl rfl rfl rfl rfl rfl (fun ht => ht) h.time (by simp)
      (.inl ⟨.inr (.inr hs), a.notCompleted, ?_, rfl, rfl, rfl, fun _ => rfl, fun e => absurd e (terminal_ne hs).1⟩)
    simp [respondedJob, appendSubmissionTasks, htasks, scanTasks, a.tasks]
  · refine h.of_responded (s := s) (o := o) a rfl rfl rfl rfl rfl rfl (fun ht => ht) h.time ?_
      (.inr ⟨.inr (.inr (.inr hs)), a.attempt, rfl, rfl, ?_, fun hc => ?_⟩)
    · show (if _ then Cleanup.deleteFailed else .deletePending) ≠ _
      split <;> simp
    · show (if _ then Cleanup.deleteFailed else .deletePending) ≠ _ ∧
        (if _ then Cleanup.deleteFailed else .deletePending) ≠ _
      split <;> simp
    · have hne := terminal_ne hs
      rcases hc with e | e | e
      · exact absurd e hne.2.2.2.2.1
      · exact absurd e hne.2.2.2.2.2
      · exact absurd e a.notCompleted
end

/-! ## Reports, deletion and retention -/

theorem Job.WF.polled {j : Job} (h : j.WF) : (polledJob j).WF :=
  h.of_same ⟨rfl, Int.le_add_one le_rfl, rfl, rfl, rfl, rfl, rfl, rfl, rfl, rfl, rfl, rfl⟩

theorem Job.WF.fetching {j : Job} (h : j.WF) (hs : j.state = .remotePending) :
    ({ j with state := .fetching } : Job).WF := by
  have a := h.owing_of_remote (.inl hs)
  have hterm : terminal j.state = false := by simp [hs, terminal]
  obtain ⟨ht, hres⟩ := h.live hterm
  refine ⟨h.version, h.attempt, ?_, fun _ => h.quiet hterm, fun hr => absurd hres hr, ?_, .inr (.inr ?_)⟩
  · simp [terminal, ht]
  · exact ⟨h.tasks.nodup, h.tasks.count, h.tasks.range, h.tasks.ackedNodup, h.tasks.acked, h.tasks.done⟩
  · exact ⟨.inr (.inr (.inl rfl)), a.attempt, a.recorded, a.barrier, a.cleanup, fun _ => a.single (.inl hs)⟩

theorem Job.WF.statusChange {j j' : Job} {status : Status} {now : Stamp} (h : j.WF)
    (hs : j.state = .remotePending) (hch : statusChange status j now = .ok j') : j'.WF := by
  rcases statusChange_cases hch with rfl | rfl | rfl
  · exact h.fetching hs
  · exact h
  · exact h.terminate rfl (by simp)

theorem Job.WF.reportChange {j j' : Job} {mapper : Option ResultMapper} {report : Option Report}
    {task : TaskRef} {now : Stamp} (h : j.WF) (hs : j.state = .fetching) (hsup : j.suppressed = false)
    (hch : reportChange mapper report task j now = .ok j') : j'.WF := by
  rcases reportChange_cases hch with rfl | ⟨result, -, rfl⟩
  · exact h.terminate rfl (by simp)
  · have w : (MS.Cape.terminate j .completed .empty now.val).WF := h.terminate rfl fun _ => hs
    refine ⟨w.version, w.attempt, w.time, w.quiet, fun _ => ⟨terminate_state .., ?_⟩, ?_, ?_⟩
    · show (MS.Cape.terminate j .completed .empty now.val).suppressed = false
      simp [hsup]
    · exact ⟨w.tasks.nodup, w.tasks.count, w.tasks.range, w.tasks.ackedNodup, w.tasks.acked, w.tasks.done⟩
    · rcases w.account with a | a | a
      · exact absurd (terminate_state ..) a.notCompleted
      · exact absurd (terminate_state ..) a.notCompleted
      · exact .inr (.inr ⟨a.state, a.attempt, a.recorded, a.barrier, a.cleanup, a.single⟩)

/-- All owned ids are acknowledged once as many distinct ones are. -/
theorem mem_of_length_eq {l m : List Int} (hl : l.Nodup) (hsub : ∀ t ∈ l, t ∈ m) (hlen : l.length = m.length) :
    ∀ t ∈ m, t ∈ l := fun _ ht => ((List.subperm_of_subset hl hsub).perm_of_length_le hlen.ge).mem_iff.2 ht

theorem Job.WF.deletion {j : Job} (h : j.WF) (hs : terminal j.state = true) {task : TaskRef}
    (ht : task.id ∈ j.taskIDs) (o : Code) : (deletionJob j task o).WF := by
  have a := h.owing_of_task ht
  have hnd : (deletionJob j task o).deleteAcknowledgedIDs.Nodup := by
    simp only [deletionJob]
    split
    · exact h.tasks.ackedNodup
    · rename_i hn
      rw [not_or] at hn
      rw [List.nodup_append]
      refine ⟨h.tasks.ackedNodup, List.nodup_singleton _, fun x hx y hy => ?_⟩
      rintro rfl
      exact hn.2 (List.mem_singleton.1 hy ▸ hx)
  have hsub : ∀ t ∈ (deletionJob j task o).deleteAcknowledgedIDs, t ∈ j.taskIDs := by
    simp only [deletionJob]
    split
    · exact h.tasks.acked
    · intro t hm
      rcases List.mem_append.1 hm with hm | hm
      · exact h.tasks.acked t hm
      · rwa [List.mem_singleton.1 hm]
  have hcl : (deletionJob j task o).cleanup = if o ≠ .empty ∨ j.unknownDebt = true then .deleteFailed
      else if (deletionJob j task o).deleteAcknowledgedIDs.length = j.taskIDs.length then .deleteAcknowledged
      else .deletePending := rfl
  refine ⟨h.next.1, h.next.2, h.time, fun hq => ?_, h.result,
    ⟨h.tasks.nodup, h.tasks.count, h.tasks.range, hnd, hsub, fun hd => ?_⟩,
    .inr (.inr ⟨.inr (.inr (.inr hs)), a.attempt, a.recorded, rfl, ?_, a.single⟩)⟩
  · exact absurd hs (by simpa [deletionJob] using hq)
  · rw [hcl] at hd
    split_ifs at hd with hdebt hlen
    rw [not_or, Bool.not_eq_true] at hdebt
    exact ⟨mem_of_length_eq hnd hsub hlen, hdebt.2⟩
  · rw [hcl]
    split_ifs <;> simp

theorem Job.WF.retained {j : Job} (h : j.WF) (hs : terminal j.state = true) (hd : deletable j = false) :
    (retainedJob j).WF := by
  have hclear : ¬ j.Clear := fun a => by simp [deletable, a.debt, a.cleanup] at hd
  refine ⟨h.next.1, h.next.2, h.time, fun hq => ?_, fun hr => absurd rfl hr, ?_, .inr ?_⟩
  · exact absurd hs (by simpa [retainedJob, minimizedJob] using hq)
  · exact ⟨h.tasks.nodup, h.tasks.count, h.tasks.range, h.tasks.ackedNodup, h.tasks.acked, h.tasks.done⟩
  · rcases h.account with a | a | a
    · exact absurd a hclear
    · exact .inl ⟨a.state, a.notCompleted, a.attempt, a.recorded, a.tasks, a.debt, fun _ => rfl, a.cleanup, a.unsent⟩
    · exact .inr ⟨a.state, a.attempt, a.recorded, rfl, a.cleanup, a.single⟩

/-! ## Every step, every run -/

theorem rowStep_wf {ingress : List Job} {op : StoreOp} {x : Option Job} {j' : Job}
    (hw : ∀ w ∈ ingress, w.Pristine) (hx : ∀ j, x = some j → j.WF) (h : RowStep ingress op x (some j')) :
    j'.WF := by
  cases h with
  | reserve => exact (pristine_staging ..).wf
  | publish hmem => exact (hw _ hmem).published ..
  | begin hs => exact (hx _ rfl).submitting hs _
  | recordTerminal hr hs => exact (hx _ rfl).recordTerminal ((hx _ rfl).open_of_recordable hr).1 hs
  | recordMany hr => exact (hx _ rfl).recordMany ((hx _ rfl).open_of_recordable hr).1 _
  | recordOwned hr hs _ hinv hdebt _ hlen =>
    exact (hx _ rfl).recordOwned ((hx _ rfl).open_of_recordable hr).1 hs hinv hdebt hlen
  | recordRequeue hr hs htasks hdebt =>
    exact (hx _ rfl).recordRequeue ((hx _ rfl).open_of_recordable hr).1 hs htasks hdebt _
  | recordUnsure hr hs => exact (hx _ rfl).recordUnsure ((hx _ rfl).open_of_recordable hr).1 hs
  | interrupted hs => exact (hx _ rfl).interrupted hs
  | status hs _ _ hch => exact ((hx _ rfl).statusChange hs hch).polled
  | report hs hsup _ hch => exact ((hx _ rfl).reportChange hs hsup hch).polled
  | reportError =>
    refine Job.WF.polled ((hx _ rfl).of_same ?_)
    exact ⟨rfl, le_rfl, rfl, rfl, rfl, rfl, rfl, rfl, rfl, rfl, rfl, rfl⟩
  | cancel | expire =>
    refine ((hx _ rfl).terminate rfl (by simp)).of_same
      ⟨rfl, ?_, rfl, rfl, rfl, rfl, rfl, rfl, rfl, rfl, rfl, rfl⟩
    rw [terminate_version]
    exact Int.le_add_one le_rfl
  | deletion hs _ ht => exact (hx _ rfl).deletion hs ht _
  | minimize hs hd => exact (hx _ rfl).retained hs hd
  | reserveRead | extendRetry | overdue | callback =>
    exact (hx _ rfl).of_same ⟨rfl, Int.le_add_one le_rfl, rfl, rfl, rfl, rfl, rfl, rfl, rfl, rfl, rfl, rfl⟩

/-- The invariant of a store: well-formed rows, and writers that hold rows as they were reserved. -/
structure Store.WF (s : Store) : Prop where
  rows : ∀ id j, s.db.jobs.get? id = some j → j.WF
  ingress : ∀ w ∈ s.mem.ingress, w.Pristine

theorem Store.WF.empty : ({} : Store).WF :=
  ⟨fun id j hj => by simp at hj, fun w hw => by simp at hw⟩

theorem exec_wf {cfg : StoreConfig} {env : Env} {op : StoreOp} {s s' : Store} {r : Ret} (hs : s.WF)
    (h : exec cfg env op s = .ok (s', r)) : s'.WF := by
  refine ⟨fun id j' hj' => ?_, fun w hw => ?_⟩
  · rcases exec_rows h id with he | hstep
    · exact hs.rows id j' (he ▸ hj')
    · rw [hj'] at hstep
      exact rowStep_wf hs.ingress (hs.rows id) hstep
  · rcases exec_ingress h hw with hw | ⟨q, id, c, now, -, rfl⟩
    · exact hs.ingress w hw
    · exact pristine_staging ..

theorem step_wf {cfg : StoreConfig} {e : StoreEvent} {s s' : Store} (hs : s.WF)
    (h : (storeSystem cfg).step s e s') : s'.WF := by
  cases e with
  | commit op r =>
    obtain ⟨env, h⟩ := h
    exact exec_wf hs h
  | lost op r =>
    obtain ⟨env, s₁, h, rfl⟩ := h
    exact ⟨(exec_wf hs h).rows, hs.ingress⟩
  | crash =>
    cases h
    exact ⟨hs.rows, fun w hw => by simp at hw⟩

/-- Every reachable store is well formed. -/
theorem reachable_wf {cfg : StoreConfig} {s : Store} (h : Reachable (storeSystem cfg) s) : s.WF := by
  refine h.invariant (fun s hs => ?_) fun s e s' hs hstep => step_wf hs hstep
  cases hs
  exact .empty

end MS.Cape
