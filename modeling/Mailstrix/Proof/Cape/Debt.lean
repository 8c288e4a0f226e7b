import Mailstrix.Proof.Cape.History

/-!
# Remote debt is never forgotten

* `debt_remembered`: a row that owns a task, or whose begun upload has not been proved unsent, is in
  the table for as long as that is so, with the same tasks and, once it has ended, its barrier.
-/

namespace MS.Cape

open Framework Spec

variable {s : Store} {id : JobID} {j : Job}

/-- In this history an upload of `id` has begun, and no later outcome proves that it sent nothing. -/
def Unproven (id : JobID) (es : List StoreEvent) : Prop :=
  ∃ before e after, es = before ++ e :: after ∧ e.effect id = .begin ∧ ∀ e' ∈ after, e'.effect id ≠ .prove

/-! ## Owed rows -/

/-- The account of an owed row is not clear. -/
theorem owed_account (hs : s.WF) (h : Ledger.Owed (s.ledger id)) :
    ∃ j, s.db.jobs.get? id = some j ∧ (j.Open ∨ j.Owing) := by
  cases hj : s.db.jobs.get? id with
  | none => simp [Store.ledger, hj, Ledger.Owed] at h
  | some j =>
    refine ⟨j, rfl, (hs.rows id j hj).account.resolve_left fun a => ?_⟩
    simp only [Store.ledger, hj, Option.map_some, Ledger.Owed, Job.ledger, a.account, ne_eq, not_true] at h

theorem barrier_of_owed (h : j.Open ∨ j.Owing) (ht : terminal j.state = true) : j.dedupBarrier = true := by
  rcases h with a | a
  · exact a.barrier (terminal_ne ht).2.2.1
  · exact a.barrier

/-- An upload that is not proved unsent is owed for. -/
theorem run_owed {cfg : StoreConfig} {es : List StoreEvent} (h : Run (storeSystem cfg) {} es s) (hu : Unproven id es) :
    Ledger.Owed (s.ledger id) := by
  obtain ⟨before, e, after, rfl, hbegin, hafter⟩ := hu
  obtain ⟨s₁, h₁, h₂⟩ := h.split
  obtain ⟨s₂, hstep, h₃⟩ := h₂.cons_inv
  have hwf₁ : s₁.WF := reachable_wf ⟨_, _, rfl, h₁⟩
  have howed : Ledger.Owed (s₂.ledger id) := by
    have hled := step_ledger hwf₁ hstep id
    rw [hbegin] at hled
    exact hled.of_begin
  have hinv : s.WF ∧ Ledger.Owed (s.ledger id) := by
    refine h₃.preserve (P := fun s => s.WF ∧ Ledger.Owed (s.ledger id)) (Q := fun e => e.effect id ≠ .prove)
      (fun s e s' he hP hstep => ?_) hafter ⟨step_wf hwf₁ hstep, howed⟩
    exact ⟨step_wf hP.1 hstep, (step_ledger hP.1 hstep id).owed he hP.2⟩
  exact hinv.2

/-! ## Owned tasks -/

theorem rowStep_tasks {ingress : List Job} {op : StoreOp} {x : Option Job} (hw : ∀ w ∈ ingress, w.Pristine) (hj : j.WF)
    (h : j.taskIDs ≠ []) (hstep : RowStep ingress op (some j) x) : ∃ j', x = some j' ∧ j'.taskIDs = j.taskIDs := by
  obtain ⟨t, ht⟩ := List.exists_mem_of_ne_nil _ h
  have a := hj.owing_of_task ht
  have hstate := a.state
  have hrec : ∀ v, recordable j v = false := fun v => by simp [recordable, a.recorded]
  cases hstep with
  | publish hmem _ _ hs => simp [hs, (hw _ hmem).state, terminal] at hstate
  | cleanupStaging hs | begin hs | interrupted hs => simp [hs, terminal] at hstate
  | recordTerminal hr | recordMany hr | recordOwned hr | recordRequeue hr | recordUnsure hr =>
    simp [hrec] at hr
  | @status _ j' _ status now _ _ _ hch =>
    refine ⟨_, rfl, ?_⟩
    show j'.taskIDs = j.taskIDs
    rcases statusChange_cases hch with rfl | rfl | rfl <;> simp
  | @report _ j' _ _ _ now _ _ _ hch =>
    refine ⟨_, rfl, ?_⟩
    show j'.taskIDs = j.taskIDs
    rcases reportChange_cases hch with rfl | ⟨result, -, rfl⟩ <;> simp
  | cancel | expire => exact ⟨_, rfl, terminate_tasks ..⟩
  | forget _ hd =>
    simp only [deletable, Bool.and_eq_true, Bool.or_eq_true, decide_eq_true_eq] at hd
    exact absurd hd.2 (not_or.2 a.cleanup)
  | reportError | deletion | minimize | reserveRead | extendRetry | overdue | callback => exact ⟨_, rfl, rfl⟩

/-- A row that owns tasks is there with the same tasks after any run. -/
theorem run_tasks {cfg : StoreConfig} {es : List StoreEvent} {s' : Store} (hs : s.WF) (hj : s.db.jobs.get? id = some j)
    (ht : j.taskIDs ≠ []) (h : Run (storeSystem cfg) s es s') :
    s'.WF ∧ ∃ j', s'.db.jobs.get? id = some j' ∧ j'.taskIDs = j.taskIDs := by
  refine h.preserve (P := fun s => s.WF ∧ ∃ j', s.db.jobs.get? id = some j' ∧ j'.taskIDs = j.taskIDs)
    (Q := fun _ => True) (fun s₁ e s₂ _ hP hstep => ?_) (fun _ _ => trivial) ⟨hs, j, hj, rfl⟩
  obtain ⟨hwf, j₁, hj₁, ht₁⟩ := hP
  refine ⟨step_wf hwf hstep, ?_⟩
  rcases step_rows hstep id with he | ⟨op, -, hrow⟩
  · exact ⟨j₁, he.trans hj₁, ht₁⟩
  · rw [hj₁] at hrow
    obtain ⟨j₂, hj₂, ht₂⟩ := rowStep_tasks hwf.ingress (hwf.rows id j₁ hj₁) (ht₁ ▸ ht) hrow
    exact ⟨j₂, hj₂, ht₂.trans ht₁⟩

theorem Job.WF.not_purgeConfirmed (h : j.WF) : j.cleanup ≠ .purgeConfirmed := by
  rcases h.account with a | a | a
  · simp [a.cleanup]
  · by_cases hs : j.state = .submitting
    · simp [a.unsent hs]
    · simp [a.cleanup hs]
  · exact a.cleanup.2

/-- Remote debt is never forgotten.  A begun upload that no outcome proves unsent keeps its row in the
table, and a task keeps it there for ever with all its tasks; such a row holds its barrier once it has
ended.  So what `Maintain` may delete owns no task and has no unrecorded attempt, and the state that
would confirm a purge is never written. -/
theorem debt_remembered {cfg : StoreConfig} {es : List StoreEvent} {s : Store} (hs : Run (storeSystem cfg) {} es s)
    (id : JobID) :
    (Unproven id es →
      ∃ j, s.db.jobs.get? id = some j ∧ (terminal j.state = true → j.dedupBarrier = true)) ∧
    ∀ j, s.db.jobs.get? id = some j →
      j.cleanup ≠ .purgeConfirmed ∧
      (terminal j.state = true → deletable j = true →
        j.taskIDs = [] ∧ (j.submissionVersion ≠ 0 → j.submissionRecorded = true) ∧ ¬ Unproven id es) ∧
      (j.taskIDs ≠ [] → ∀ es' s', Run (storeSystem cfg) s es' s' →
        ∃ j', s'.db.jobs.get? id = some j' ∧ j'.taskIDs = j.taskIDs ∧
          (terminal j'.state = true → j'.dedupBarrier = true)) := by
  have hwf : s.WF := reachable_wf ⟨_, _, rfl, hs⟩
  refine ⟨fun hu => ?_, fun j hj => ⟨(hwf.rows id j hj).not_purgeConfirmed, fun ht hd => ?_, fun ht es' s' hrun => ?_⟩⟩
  · obtain ⟨j, hj, ha⟩ := owed_account hwf (run_owed hs hu)
    exact ⟨j, hj, barrier_of_owed ha⟩
  · have a := clear_of_deletable (hwf.rows id j hj) ht hd
    refine ⟨a.tasks, a.recorded, fun hu => ?_⟩
    have howed := run_owed hs hu
    simp only [Store.ledger, hj, Option.map_some, Ledger.Owed, Job.ledger, a.account, ne_eq, not_true] at howed
  · obtain ⟨hwf', j', hj', ht'⟩ := run_tasks hwf hj ht hrun
    obtain ⟨t, hmem⟩ := List.exists_mem_of_ne_nil _ (ht' ▸ ht)
    exact ⟨j', hj', ht', barrier_of_owed (.inr ((hwf'.rows id j' hj').owing_of_task hmem))⟩

/-- The two tasks of one upload are known. -/
theorem debt_remembered_tasks :
    ∃ j', (sampleStore (sampleBegun ++ [sampleTasks])).db.jobs.get? 7 = some j' ∧ j'.taskIDs = [1, 2] ∧
      (terminal j'.state = true → j'.dedupBarrier = true) := by
  have hrun : execAll sampleConfig sampleEnv (sampleBegun ++ [sampleTasks]) {} =
      .ok (sampleStore (sampleBegun ++ [sampleTasks])) := rfl
  obtain ⟨es, hs⟩ := run_of_execAll hrun
  have hj : (sampleStore (sampleBegun ++ [sampleTasks])).db.jobs.get? 7 =
      some ((sampleStore (sampleBegun ++ [sampleTasks])).db.jobs.rows.head (by decide)) := rfl
  exact ((debt_remembered hs 7).2 _ hj).2.2 (by decide) [] _ .nil

end MS.Cape
