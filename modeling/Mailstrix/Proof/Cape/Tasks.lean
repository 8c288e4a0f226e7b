import Mailstrix.Proof.Cape.History

/-!
# Task ownership

* `tasks_well_formed`: what every reachable row says about the tasks it owns, and that an ambiguous
  or invalid submission response keeps its row out of the remote states for good.
-/

namespace MS.Cape

open Framework Spec

variable {j j' : Job}

/-- The response lists several tasks, or a task the row cannot own. -/
def AmbiguousResponse (generation : String) (tasks : List TaskRef) : Prop :=
  1 < tasks.length ∨ ∃ t ∈ tasks, t.id < 1 ∨ maxTaskID < t.id ∨ t.generation ≠ generation

/-- The row owes for an attempt whose tasks it could not take over. -/
structure Job.Barred (j : Job) : Prop where
  recorded : j.submissionRecorded = true
  cleanup : j.cleanup ≠ .notSubmitted
  state : j.state = .submitUncertain ∨ j.state = .failed ∨ j.state = .expired ∨ j.state = .cancelled

theorem Job.Barred.not_recordable (h : j.Barred) (v : Int) : recordable j v = false := by
  simp [recordable, h.recorded]

theorem Job.Barred.of_eq (h : j.Barred) (hr : j'.submissionRecorded = j.submissionRecorded)
    (hc : j'.cleanup = j.cleanup) (hs : j'.state = j.state) : j'.Barred :=
  ⟨hr.trans h.recorded, hc ▸ h.cleanup, hs ▸ h.state⟩

theorem Job.Barred.terminate {st : JobState} (c : Code) (now : Nat) (h : j.Barred)
    (hst : st = .expired ∨ st = .cancelled) (hr : j'.submissionRecorded = j.submissionRecorded)
    (hc : j'.cleanup = (MS.Cape.terminate j st c now).cleanup) (hs : j'.state = st) : j'.Barred := by
  refine ⟨hr.trans h.recorded, ?_, hs ▸ .inr (.inr hst)⟩
  rw [hc, terminate_cleanup]
  split_ifs
  · simp
  · exact h.cleanup

/-- A barred row stays, and stays barred. -/
theorem rowStep_barred {ingress : List Job} {op : StoreOp} {x : Option Job} (hw : ∀ w ∈ ingress, w.Pristine) (hj : j.WF)
    (h : j.Barred) (hstep : RowStep ingress op (some j) x) : ∃ j', x = some j' ∧ j'.Barred := by
  have a := hj.owing_of_recorded h.recorded h.cleanup
  have hstate := h.state
  cases hstep with
  | publish hmem _ _ hs => simp [hs, (hw _ hmem).state] at hstate
  | cleanupStaging hs | begin hs | interrupted hs | status hs | report hs | reportError hs =>
    simp [hs] at hstate
  | recordTerminal hr | recordMany hr | recordOwned hr | recordRequeue hr | recordUnsure hr =>
    simp [h.not_recordable] at hr
  | cancel => exact ⟨_, rfl, h.terminate .empty _ (.inr rfl) (terminate_recorded ..) rfl (terminate_state ..)⟩
  | expire => exact ⟨_, rfl, h.terminate .deadline _ (.inl rfl) (terminate_recorded ..) rfl (terminate_state ..)⟩
  | @deletion _ task _ o =>
    refine ⟨_, rfl, ⟨h.recorded, ?_, hstate⟩⟩
    show (deletionJob j task o).cleanup ≠ _
    simp only [deletionJob]
    split_ifs <;> simp
  | forget _ hd =>
    simp only [deletable, Bool.and_eq_true, Bool.or_eq_true, decide_eq_true_eq] at hd
    exact absurd hd.2 (not_or.2 a.cleanup)
  | minimize | reserveRead | extendRetry | overdue | callback => exact ⟨_, rfl, h.of_eq rfl rfl rfl⟩

theorem scanTasks_invalid {g : String} : ∀ {ts : List TaskRef} {seen : List Int} {b : Bool},
    (scanTasks g ts seen b).2 = false →
      b = false ∧ ∀ t ∈ ts, 1 ≤ t.id ∧ t.id ≤ maxTaskID ∧ t.generation = g
  | [], _, _, h => ⟨h, by simp⟩
  | t :: ts, seen, b, h => by
    unfold scanTasks at h
    split_ifs at h with hbad
    · simpa using (scanTasks_invalid h).1
    · obtain ⟨hb, hts⟩ := scanTasks_invalid h
      simp only [not_or, not_lt, ne_eq, not_not] at hbad
      refine ⟨hb, fun u hu => ?_⟩
      rcases List.mem_cons.1 hu with rfl | hu
      · exact ⟨hbad.1, hbad.2.1, hbad.2.2.1⟩
      · exact hts u hu

/-- A response that the row takes over lists only tasks it can own. -/
theorem responded_valid {s : Submission} {o : Code} (hlen : s.tasks.length ≤ 1) (h : (respondedJob j s o).2 = false) :
    ¬ AmbiguousResponse j.generation s.tasks := by
  have htake : s.tasks.take maxTaskIDs = s.tasks := List.take_of_length_le (hlen.trans (by decide))
  have hvalid := (scanTasks_invalid h).2
  rw [htake] at hvalid
  rintro (hmany | ⟨t, ht, hbad⟩)
  · omega
  · have hok := hvalid t ht
    rcases hbad with hbad | hbad | hbad
    · omega
    · omega
    · exact hbad hok.2.2

theorem AmbiguousResponse.ne_nil {g : String} {tasks : List TaskRef} (h : AmbiguousResponse g tasks) :
    tasks ≠ [] := by
  rintro rfl
  rcases h with h | ⟨t, ht, -⟩
  · simp at h
  · simp at ht

theorem rowStep_ambiguous {ingress : List Job} {tenant : String} {id : JobID} {v : Int} {s : Submission} {o : Code}
    {b : Int} (hj : j.WF) (hs : AmbiguousResponse j.generation s.tasks)
    (hstep : RowStep ingress (.recordSubmission tenant id v s o b) (some j) (some j')) : j'.Barred := by
  cases hstep with
  | recordTerminal hr hterm =>
    have a := (hj.open_of_recordable hr).1
    have hno : (s.noBytesSent && s.tasks.isEmpty && !(respondedJob j s o).2 && !s.unknownDebt) = false := by
      simp [List.isEmpty_eq_false_iff.2 hs.ne_nil]
    have hst := a.notCompleted
    simp only [applyTerminalSubmission, hno, Bool.false_eq_true, if_false]
    refine ⟨rfl, ?_, ?_⟩
    · split_ifs <;> simp
    · cases h : j.state <;> simp_all [terminal, respondedJob, appendSubmissionTasks]
  | recordMany => exact ⟨rfl, by simp [ambiguousJob], .inr (.inl rfl)⟩
  | recordOwned _ _ hlen hvalid => exact absurd hs (responded_valid hlen hvalid)
  | recordRequeue _ _ htasks => exact absurd htasks hs.ne_nil
  | recordUnsure => exact ⟨rfl, by simp [unsureJob], .inl rfl⟩

/-- A barred row is there, barred, after any run. -/
theorem run_barred {cfg : StoreConfig} {es : List StoreEvent} {s s' : Store} {id : JobID} (hs : s.WF)
    (hj : s.db.jobs.get? id = some j) (hb : j.Barred) (h : Run (storeSystem cfg) s es s') :
    ∃ j', s'.db.jobs.get? id = some j' ∧ j'.Barred := by
  have hinv : s'.WF ∧ ∃ j', s'.db.jobs.get? id = some j' ∧ j'.Barred := by
    refine h.preserve (P := fun s => s.WF ∧ ∃ j, s.db.jobs.get? id = some j ∧ j.Barred) (Q := fun _ => True)
      (fun s₁ e s₂ _ hP hstep => ?_) (fun _ _ => trivial) ⟨hs, j, hj, hb⟩
    obtain ⟨hwf, j₁, hj₁, hb₁⟩ := hP
    refine ⟨step_wf hwf hstep, ?_⟩
    rcases step_rows hstep id with he | ⟨op, -, hrow⟩
    · exact ⟨j₁, he.trans hj₁, hb₁⟩
    · rw [hj₁] at hrow
      exact rowStep_barred hwf.ingress (hwf.rows id j₁ hj₁) hb₁ hrow
  exact hinv.2

/-- Task ownership is well formed in every reachable row, and a row whose response listed several
tasks, or one it cannot own, never reaches a state that relies on its single task. -/
theorem tasks_well_formed {cfg : StoreConfig} {es : List StoreEvent} {s : Store} {id : JobID} {j : Job}
    (hs : Run (storeSystem cfg) {} es s) (hj : s.db.jobs.get? id = some j) :
    j.taskIDs.Nodup ∧ (∀ t ∈ j.taskIDs, 1 ≤ t ∧ t ≤ maxTaskID) ∧ j.taskIDs.length ≤ maxTaskIDs ∧
    (j.state = .remotePending ∨ j.state = .fetching ∨ j.state = .completed →
      j.taskIDs.length = 1 ∧ j.unknownDebt = false) ∧
    j.deleteAcknowledgedIDs.Nodup ∧ (∀ t ∈ j.deleteAcknowledgedIDs, t ∈ j.taskIDs) ∧
    (j.cleanup = .deleteAcknowledged →
      (∀ t ∈ j.taskIDs, t ∈ j.deleteAcknowledgedIDs) ∧ j.unknownDebt = false) ∧
    (j.state = .queued ∨ j.state = .staging ∨ j.state = .submitting → j.taskIDs = []) ∧
    ∀ e s₁, (storeSystem cfg).step s e s₁ → ∀ tenant v sub o b,
      e.op? = some (.recordSubmission tenant id v sub o b) → AmbiguousResponse j.generation sub.tasks →
      ∀ es' s', Run (storeSystem cfg) s₁ es' s' → ∀ j', s'.db.jobs.get? id = some j' →
        j'.state ≠ .remotePending ∧ j'.state ≠ .fetching ∧ j'.state ≠ .completed := by
  have hwf : s.WF := reachable_wf ⟨_, _, rfl, hs⟩
  have hrow := hwf.rows id j hj
  have ht := hrow.tasks
  refine ⟨ht.nodup, ht.range, ht.count, ?_, ht.ackedNodup, ht.acked, ht.done, ?_, ?_⟩
  · intro hst
    rcases hst with hst | hst | hst
    · exact (hrow.owing_of_remote (.inl hst)).single (.inl hst)
    · exact (hrow.owing_of_remote (.inr hst)).single (.inr (.inl hst))
    · rcases hrow.account with a | a | a
      · exact absurd hst a.notCompleted
      · exact absurd hst a.notCompleted
      · exact a.single (.inr (.inr hst))
  · rintro (hst | hst | hst)
    · exact (hrow.clear_of_unsent (.inr hst)).tasks
    · exact (hrow.clear_of_unsent (.inl hst)).tasks
    · exact (hrow.open_of_submitting hst).tasks
  · intro e s₁ hstep tenant v sub o b hop hamb es' s' hrun j' hj'
    obtain ⟨j₀, j₁, hj₀, hj₁, -, hchange⟩ := step_record hstep hop
    rw [hj] at hj₀
    cases hj₀
    have hb := rowStep_ambiguous hrow hamb hchange
    obtain ⟨j₂, hj₂, hb₂⟩ := run_barred (step_wf hwf hstep) hj₁ hb hrun
    rw [hj'] at hj₂
    cases hj₂
    have hst := hb₂.state
    refine ⟨?_, ?_, ?_⟩ <;> intro he <;> simp [he] at hst

/-- The upload that came back with two tasks keeps both and never waits for either. -/
theorem tasks_well_formed_twice : ∃ j', (sampleStore (sampleBegun ++ [sampleTasks])).db.jobs.get? 7 = some j' ∧
    j'.taskIDs = [1, 2] ∧ j'.state ≠ .remotePending ∧ j'.state ≠ .fetching ∧ j'.state ≠ .completed := by
  have hrun : execAll sampleConfig sampleEnv sampleBegun {} = .ok (sampleStore sampleBegun) := rfl
  obtain ⟨es, hs⟩ := run_of_execAll hrun
  have hj : (sampleStore sampleBegun).db.jobs.get? 7 = some ((sampleStore sampleBegun).db.jobs.rows.head (by decide)) :=
    rfl
  have hj' : (sampleStore (sampleBegun ++ [sampleTasks])).db.jobs.get? 7 =
      some ((sampleStore (sampleBegun ++ [sampleTasks])).db.jobs.rows.head (by decide)) := rfl
  have hstep : (storeSystem sampleConfig).step (sampleStore sampleBegun)
      (.commit sampleTasks (.job ((sampleStore (sampleBegun ++ [sampleTasks])).db.jobs.rows.head (by decide))))
      (sampleStore (sampleBegun ++ [sampleTasks])) := ⟨sampleEnv, rfl⟩
  obtain ⟨-, -, -, -, -, -, -, -, hamb⟩ := tasks_well_formed hs hj
  exact ⟨_, hj', rfl, hamb _ _ hstep _ _ _ _ _ rfl (.inl (by decide)) _ _ .nil _ hj'⟩

end MS.Cape
