import Mailstrix.Proof.Cape.Debt
import Mailstrix.Proof.Cape.Packets
import Mailstrix.Proof.Cape.Payload

/-!
# Packets and the rows they are about

Between the moment a request is reserved and the moment its packet is persisted the row may be woken,
cancelled, expired, recorded or deleted.  `World.Tracked` is what every packet of the process knows of
its row all the same: a row that owns a task stays, with its tenant, its generation and its tasks.
`Job.Bounded` is what lets a row be written again; every row is bounded, as long as what is published
is (`Label.Sound`).
-/

namespace MS.Cape

open Framework Spec

variable {ingress : List Job} {j : Job} {x : Option Job} {out : Outcome}
variable {task : TaskRef} {j' : Job} {id : JobID} {tenant : String}

/-! ## Rows of bounded size -/

/-- No result, or one that passed the checks of `normalizedBytes`. -/
def Mapped (result : List UInt8) : Prop := result = [] ∨ ∃ n policy, normalizedBytes n policy = .ok result

/-- The texts, the times and the result of a row are what a store writes.  Everything else in it is a
counter, a flag, a name out of a fixed set or one of at most sixteen task ids. -/
structure Job.Bounded (j : Job) : Prop where
  short : j.Short
  reason : safeOutcome j.reason = true
  result : Mapped j.result

/-- A published row gets a verdict of the scanner and the digest of its content. -/
def StoreOp.Sound : StoreOp → Prop
  | .publish _ verdict _ digest => validVerdict verdict = true ∧ identifier digest 64 = true
  | _ => True

theorem normalize_mapped {mapper : Option ResultMapper} {report : Option Report} {result : List UInt8}
    (h : normalize mapper report task j = some result) : Mapped result := by
  unfold normalize at h
  split at h
  · split at h
    · obtain ⟨n, -, hn⟩ := Option.bind_eq_some_iff.1 h
      cases hb : normalizedBytes n j.resultPolicy with
      | error e => simp [hb, Except.toOption] at hn
      | ok b =>
        simp only [hb, Except.toOption, Option.some.injEq] at hn
        exact .inr ⟨n, j.resultPolicy, hn ▸ hb⟩
    · cases h
  · cases h

/-- Every reason that is recorded is a known code. -/
theorem rowStep_reason {op : StoreOp} (hw : ∀ w ∈ ingress, safeOutcome w.reason = true)
    (hx : ∀ j, x = some j → safeOutcome j.reason = true)
    (hrecord : ∀ tenant id v sub o b, op = .recordSubmission tenant id v sub o b → safeOutcome o = true)
    (hreport : ∀ tenant id v task code, op = .recordReportError tenant id v task code →
      safeOutcome j'.reason = true) (h : RowStep ingress op x (some j')) : safeOutcome j'.reason = true := by
  cases h with
  | @publish w _ _ _ _ hmem => exact hw w hmem
  | reserve | recordMany | interrupted => rfl
  | @recordTerminal j v sub o =>
    have hkeep : (applyTerminalSubmission (respondedJob j sub o).1 j sub o (respondedJob j sub o).2).reason =
        j.reason := by
      simp only [applyTerminalSubmission]
      split_ifs <;> rfl
    rw [hkeep]
    exact hx j rfl
  | recordOwned | recordRequeue => exact hrecord _ _ _ _ _ _ rfl
  | @recordUnsure j v sub o =>
    have hsafe := hrecord _ _ _ _ _ _ rfl
    show safeOutcome (if o = .empty then .protocol else o) = true
    split_ifs
    · rfl
    · exact hsafe
  | @status j j₁ task status now _ _ _ hch =>
    show safeOutcome j₁.reason = true
    rcases statusChange_cases hch with rfl | rfl | rfl
    · exact hx j rfl
    · exact hx _ rfl
    · simp only [terminate]
      split_ifs <;> rfl
  | @report j j₁ task report mapper now _ _ _ hch =>
    show safeOutcome j₁.reason = true
    rcases reportChange_cases hch with rfl | ⟨result, -, rfl⟩ <;> simp only [terminate] <;> split_ifs <;> rfl
  | reportError => exact hreport _ _ _ _ _ rfl
  | cancel | expire =>
    simp only [endedJob, terminate]
    split_ifs <;> rfl
  | @begin j | @deletion j | @minimize j | @reserveRead j | @extendRetry j | @overdue j | @callback j =>
    exact hx j rfl

theorem rowStep_result {op : StoreOp} (hw : ∀ w ∈ ingress, Mapped w.result)
    (hx : ∀ j, x = some j → Mapped j.result) (h : RowStep ingress op x (some j')) : Mapped j'.result := by
  have hnil : Mapped [] := .inl rfl
  cases h with
  | reserve | minimize => exact hnil
  | @publish w _ _ _ _ hmem => exact hw w hmem
  | @recordTerminal j =>
    simp only [applyTerminalSubmission]
    split_ifs <;> exact hx j rfl
  | @status j j₁ task status now _ _ _ hch =>
    show Mapped j₁.result
    rcases statusChange_cases hch with rfl | rfl | rfl
    · exact hx j rfl
    · exact hx _ rfl
    · rw [terminate_result]
      exact hnil
  | @report j j₁ task report mapper now _ _ _ hch =>
    show Mapped j₁.result
    rcases reportChange_cases hch with rfl | ⟨result, hresult, rfl⟩
    · rw [terminate_result]
      exact hnil
    · exact normalize_mapped hresult
  | cancel | expire =>
    simp only [endedJob, terminate_result]
    exact hnil
  | @begin j | @recordMany j | @recordOwned j | @recordRequeue j | @recordUnsure j | @interrupted j
  | @reportError j | @deletion j | @reserveRead j | @extendRetry j | @overdue j | @callback j => exact hx j rfl

/-- Every row and every row a writer holds is bounded. -/
structure Store.Bounded (s : Store) : Prop where
  rows : ∀ id j, s.db.jobs.get? id = some j → j.Bounded
  ingress : ∀ w ∈ s.mem.ingress, w.Bounded

section
variable {cfg : StoreConfig} {env : Env} {op : StoreOp} {s s' : Store} {r : Ret}

theorem exec_record_safe {v : Int} {sub : Submission} {o : Code} {b : Int}
    (h : exec cfg env (.recordSubmission tenant id v sub o b) s = .ok (s', r)) : safeOutcome o = true := by
  simp only [exec, recordSubmission, bind_ok, check_ok] at h
  obtain ⟨-, ⟨-, ⟨hsafe, -⟩, -⟩, -⟩ := h
  exact hsafe

theorem safe_reportCode (code : Code) :
    safeOutcome (if code = .empty ∨ !safeOutcome code then .transport else code) = true := by
  split_ifs with hc
  · rfl
  · simpa using (not_or.1 hc).2

/-- A report error is recorded with a known code. -/
theorem exec_reportError_safe {id' : JobID} {v : Int} {code : Code} (hs : s.Bounded)
    (h : exec cfg env (.recordReportError tenant id v task code) s = .ok (s', r)) (hj' : s'.db.jobs.get? id' = some j') :
    safeOutcome j'.reason = true := by
  obtain ⟨db, j₁, hx, rfl, -⟩ := withJob_ok h
  unfold recordReportError at hx
  obtain ⟨j, j₂, now, db₁, hj, rfl, -, -, -, -, -, hch, rfl, hdb, hput⟩ := transitionReport_ok hx
  have hid : (polledJob j₂).id = j.id := by
    cases hch
    rfl
  have hreason : safeOutcome (polledJob j₂).reason = true := by
    cases hch
    exact safe_reportCode code
  simp only [putJob_jobs hput, hdb.jobs, Table.get?_set, hid] at hj'
  split at hj'
  · obtain ⟨-, -, rfl⟩ := Option.map_eq_some_iff.1 hj'
    exact hreason
  · exact (hs.rows _ _ hj').reason

theorem Store.Bounded.short (hs : s.Bounded) : s.Short :=
  ⟨fun id j hj => (hs.rows id j hj).short, fun w hw => (hs.ingress w hw).short⟩

theorem exec_bounded (hs : s.Bounded) (hop : op.Sound) (h : exec cfg env op s = .ok (s', r)) : s'.Bounded := by
  have hshort : s'.Short := exec_short hs.short h fun id v size digest he => by
    subst he
    exact hop
  refine ⟨fun id j' hj' => ?_, fun w hw => ?_⟩
  · rcases exec_rows h id with hsame | hstep
    · exact hs.rows id j' (hsame ▸ hj')
    rw [hj'] at hstep
    refine ⟨hshort.rows id j' hj', ?_, ?_⟩
    · refine rowStep_reason (fun w hw => (hs.ingress w hw).reason) (fun j hj => (hs.rows id j hj).reason) ?_ ?_ hstep
      · rintro tenant id v sub o b rfl
        exact exec_record_safe h
      · rintro tenant id' v task code rfl
        exact exec_reportError_safe hs h hj'
    · exact rowStep_result (fun w hw => (hs.ingress w hw).result) (fun j hj => (hs.rows id j hj).result) hstep
  · rcases exec_ingress h hw with hold | ⟨q, id, c, now, rfl, rfl⟩
    · exact hs.ingress w hold
    · exact ⟨hshort.ingress _ hw, rfl, .inl rfl⟩

end

theorem call_bounded {cfg : StoreConfig} {op : StoreOp} {s s' : Store} (hs : s.Bounded)
    (hop : op.Sound) (h : Call cfg op s out s') : s'.Bounded := by
  cases h with
  | ok h | late h => exact exec_bounded hs hop h
  | lost h => exact ⟨(exec_bounded hs hop h).rows, hs.ingress⟩
  | failed => exact hs

/-! ## Rows that own a task -/

/-- What a row keeps once it owns a task. -/
structure Job.Traces (j j' : Job) : Prop where
  tenant : j'.tenant = j.tenant
  generation : j'.generation = j.generation
  tasks : j'.taskIDs = j.taskIDs
  ended : terminal j.state = true → terminal j'.state = true

theorem Job.Traces.refl (j : Job) : j.Traces j := ⟨rfl, rfl, rfl, fun h => h⟩

theorem Job.Traces.trans {j j'' : Job} (h : j.Traces j') (h' : j'.Traces j'') : j.Traces j'' where
  tenant := h'.tenant.trans h.tenant
  generation := h'.generation.trans h.generation
  tasks := h'.tasks.trans h.tasks
  ended ht := h'.ended (h.ended ht)

theorem rowStep_traces {op : StoreOp}
    (hw : ∀ w ∈ ingress, w.Pristine) (hj : j.WF) (ht : j.taskIDs ≠ []) (hstep : RowStep ingress op (some j) x) :
    ∃ j', x = some j' ∧ j.Traces j' := by
  obtain ⟨j', rfl, htasks⟩ := rowStep_tasks hw hj ht hstep
  obtain ⟨t, hmem⟩ := List.exists_mem_of_ne_nil _ ht
  have hstate := (hj.owing_of_task hmem).state
  have hkey : dedupKey j' = dedupKey j := by
    refine (rowStep_dedupKey hstep).resolve_right ?_
    rintro ⟨id, v, size, digest, rfl⟩
    cases hstep with
    | publish hmem _ _ hs => simp [hs, (hw _ hmem).state, terminal] at hstate
  simp only [dedupKey, Prod.mk.injEq] at hkey
  exact ⟨j', rfl, hkey.1, hkey.2.2.1, htasks, (rowStep_later hw hj hstep).ended⟩

/-- The row that `j` is a copy of is there, and keeps what `j` says about its tasks. -/
def Store.Traces (s : Store) (j : Job) : Prop := ∃ row, s.db.jobs.get? j.id = some row ∧ j.Traces row

theorem exec_traces {cfg : StoreConfig} {env : Env} {op : StoreOp} {s s' : Store} {r : Ret} (hs : s.WF)
    (h : exec cfg env op s = .ok (s', r)) (ht : j.taskIDs ≠ []) (hj : s.Traces j) : s'.Traces j := by
  obtain ⟨row, hrow, htr⟩ := hj
  rcases exec_rows h j.id with hsame | hstep
  · exact ⟨row, hsame.trans hrow, htr⟩
  · rw [hrow] at hstep
    obtain ⟨row', hrow', htr'⟩ := rowStep_traces hs.ingress (hs.rows _ row hrow) (htr.tasks ▸ ht) hstep
    exact ⟨row', hrow', htr.trans htr'⟩

theorem call_traces {cfg : StoreConfig} {op : StoreOp} {s s' : Store} (hs : s.WF)
    (h : Call cfg op s out s') (ht : j.taskIDs ≠ []) (hj : s.Traces j) : s'.Traces j := by
  cases h with
  | ok h | late h => exact exec_traces hs h ht hj
  | lost h =>
    obtain ⟨row, hrow, htr⟩ := exec_traces hs h ht hj
    exact ⟨row, hrow, htr⟩
  | failed => exact hj

/-! ## Packets -/

/-- What a packet says about itself. -/
structure Packet.Formed (r : Packet) : Prop where
  generation : identifier r.job.generation 128 = true
  begun : r.kind = .beginError → 1 ≤ r.job.version
  attempt : r.kind = .submit → 1 ≤ r.job.submissionVersion
  owned : r.kind.remote = true → r.task.generation = r.job.generation ∧ r.task.id ∈ r.job.taskIDs
  status : r.kind = .status → r.job.state = .remotePending
  report : r.kind = .report → r.job.state = .fetching
  single : r.kind = .status ∨ r.kind = .report → r.job.taskIDs = [r.task.id]
  ended : r.kind = .delete → terminal r.job.state = true

/-- And what the store still knows about it. -/
structure Packet.Tracked (s : Store) (r : Packet) : Prop where
  formed : r.Formed
  traced : r.kind.remote = true → s.Traces r.job

theorem Packet.Tracked.call {cfg : StoreConfig} {op : StoreOp} {s s' : Store} {r : Packet}
    (h : r.Tracked s) (hs : s.WF) (hcall : Call cfg op s out s') : r.Tracked s' where
  formed := h.formed
  traced hr := call_traces hs hcall (List.ne_nil_of_mem (h.formed.owned hr).2) (h.traced hr)

/-- A candidate of a pass. -/
structure Job.Known (s : Store) (j : Job) : Prop where
  wf : j.WF
  bounded : j.Bounded
  traced : j.taskIDs ≠ [] → s.Traces j

theorem Job.Known.call {cfg : StoreConfig} {op : StoreOp} {s s' : Store}
    (h : j.Known s) (hs : s.WF) (hcall : Call cfg op s out s') : j.Known s' where
  wf := h.wf
  bounded := h.bounded
  traced ht := call_traces hs hcall ht (h.traced ht)

theorem cleanupTask_spec (h : cleanupTask j = some task) :
    terminal j.state = true ∧ task.generation = j.generation ∧ task.id ∈ j.taskIDs := by
  unfold cleanupTask at h
  split at h
  · cases h
  · rename_i hend
    obtain ⟨t, hfind, rfl⟩ := Option.map_eq_some_iff.1 h
    simp only [Bool.or_eq_true, Bool.not_eq_eq_eq_not, Bool.not_true, not_or, Bool.not_eq_false] at hend
    exact ⟨hend.1, rfl, List.mem_of_find?_eq_some hfind⟩

theorem Job.WF.single_of_remote (h : j.WF) (hs : j.state = .remotePending ∨ j.state = .fetching) :
    ∃ t, j.taskIDs = [t] :=
  List.length_eq_one_iff.1 ((h.owing_of_remote hs).single (hs.imp_right .inl)).1

theorem Job.WF.tasks_of_remote (h : j.WF) (hr : j.Remote) : j.taskIDs ≠ [] := by
  rcases hr with hc | hs
  · obtain ⟨task, htask⟩ := Option.isSome_iff_exists.1 hc
    exact List.ne_nil_of_mem (cleanupTask_spec htask).2.2
  · obtain ⟨t, ht⟩ := h.single_of_remote hs
    simp [ht]

/-- A request is about a task of its row. -/
theorem requestFor_formed {j : Job} (hwf : j.WF) (hc : j.Bounded) (hr : j.Remote) (hg : j'.generation = j.generation)
    (ht : j'.taskIDs = j.taskIDs) (hs : j'.state = j.state) : ({ requestFor j with job := j' } : Packet).Formed := by
  have hgen : identifier j'.generation 128 = true := hg ▸ hc.short.generation
  cases htask : cleanupTask j with
  | some task =>
    have hreq : requestFor j = { job := j, kind := .delete, task := task } := by simp [requestFor, htask]
    rw [hreq]
    obtain ⟨hend, hgen', hmem⟩ := cleanupTask_spec htask
    exact ⟨hgen, by simp, by simp, fun _ => ⟨hgen'.trans hg.symm, ht ▸ hmem⟩, by simp, by simp, by simp,
      fun _ => hs ▸ hend⟩
  | none =>
    have hstate : j.state = .remotePending ∨ j.state = .fetching := hr.resolve_left (by simp [htask])
    obtain ⟨t, htasks⟩ := hwf.single_of_remote hstate
    rcases hstate with hst | hst
    · have hreq : requestFor j = { job := j, kind := .status, task := ⟨t, j.generation⟩ } := by
        simp [requestFor, htask, htasks, hst]
      rw [hreq]
      exact ⟨hgen, by simp, by simp, fun _ => ⟨hg.symm, by simp [ht, htasks]⟩, fun _ => hs.trans hst, by simp,
        fun _ => ht.trans htasks, by simp⟩
    · have hreq : requestFor j = { job := j, kind := .report, task := ⟨t, j.generation⟩ } := by
        simp [requestFor, htask, htasks, hst]
      rw [hreq]
      exact ⟨hgen, by simp, by simp, fun _ => ⟨hg.symm, by simp [ht, htasks]⟩, by simp, fun _ => hs.trans hst,
        fun _ => ht.trans htasks, by simp⟩

theorem exec_begun {cfg : StoreConfig} {env : Env} {s s' : Store} {r : Ret} {version : Int}
    (h : exec cfg env (.beginSubmission tenant id version) s = .ok (s', r)) :
    ∃ row now, s.db.jobs.get? id = some row ∧ r = .job (submittingJob row now) := by
  obtain ⟨row, row', hrow, -, rfl, hstep⟩ := exec_begin h
  cases hstep with
  | begin => exact ⟨row, _, hrow, rfl⟩

theorem exec_reserved {cfg : StoreConfig} {env : Env} {s s' : Store} {r : Ret} {snapshot : Job} {delay : Duration}
    (h : exec cfg env (.reserveRead snapshot delay) s = .ok (s', r)) :
    ∃ row next, s.db.jobs.get? snapshot.id = some row ∧ row.state = snapshot.state ∧
      r = .job (readJobReserved row next) ∧ s'.db.jobs.get? snapshot.id = some (readJobReserved row next) := by
  obtain ⟨db, j', hx, rfl, rfl⟩ := withJob_ok h
  obtain ⟨row, db₁, now, hrow, hstate, -, hnow, -, rfl, hput⟩ := reserveRead_spec hx
  have hid : row.id = snapshot.id := Table.key_of_get? hrow
  have hid' : (readJobReserved row (now.val + delay.val).toNat).id = snapshot.id := hid
  exact ⟨row, _, hrow, hstate, rfl, by simp [putJob_jobs hput, storeNow_jobs hnow, Table.get?_set, hid', hrow]⟩

theorem tracking_known (cfg : SchedulerConfig) :
    Tracking cfg (fun s => s.WF ∧ s.Bounded) (fun s r => r.Tracked s) (fun s j => j.Known s) where
  request {s r r'} hk hj ht h := by
    obtain ⟨⟨h1, h2, h3, h4, h5, h6, h7, h8⟩, htr⟩ := h
    constructor
    · constructor <;> simp only [hk, hj, ht] <;> assumption
    · rw [hk, hj]
      exact htr
  packet hwf hcall h := h.call hwf hcall
  job hwf hcall h := h.call hwf hcall
  row hI hrow := ⟨hI.1.rows _ _ hrow, hI.2.rows _ _ hrow, fun _ => ⟨_, hrow, .refl _⟩⟩
  begin {s s' out j reserved} hI _ hk hcall hans := by
    obtain ⟨env, s₁, r, hexec, -, hret⟩ := call_exec hcall (Outcome.committed_of_ok hans)
    obtain ⟨row, now, hrow, rfl⟩ := exec_begun hexec
    cases hret _ hans
    have hgen := (hI.2.rows _ _ hrow).short.generation
    have hver := (hI.1.rows _ _ hrow).version
    have hattempt : 1 ≤ row.version + 1 := by omega
    exact ⟨⟨hgen, by simp [hk], fun _ => hattempt, by simp [hk, Kind.remote], by simp [hk], by simp [hk],
      by simp [hk], by simp [hk]⟩, by simp [hk, Kind.remote]⟩
  beginError h :=
    ⟨⟨h.bounded.short.generation, fun _ => h.wf.version, by simp, by simp [Kind.remote], by simp, by simp, by simp, by simp⟩,
      by simp [Kind.remote]⟩
  reserveRead {s s' out j reserved delay} hI h hremote _ hcall hans := by
    obtain ⟨env, s₁, r, hexec, hdb, hret⟩ := call_exec hcall (Outcome.committed_of_ok hans)
    obtain ⟨row, next, hrow, hstate, rfl, hrow'⟩ := exec_reserved hexec
    cases hret _ hans
    obtain ⟨row₀, hrow₀, htr⟩ := h.traced (h.wf.tasks_of_remote hremote)
    rw [hrow] at hrow₀
    cases hrow₀
    have hid : row.id = j.id := Table.key_of_get? hrow
    have hid' : (readJobReserved row next).id = j.id := hid
    refine ⟨requestFor_formed h.wf h.bounded hremote htr.generation htr.tasks hstate, fun _ => ?_⟩
    exact ⟨_, by rw [hid', ← hdb]; exact hrow', .refl _⟩

/-! ## The process -/

/-- Every label of a run brings what `publish` may bring. -/
def Label.Sound : Label → Prop
  | .call op _ => op.Sound
  | _ => True

/-- Every row is bounded, and every packet and every candidate knows its row. -/
structure World.Tracked (w : World) : Prop where
  store : w.store.Bounded
  keeps : w.Keeps (fun s r => r.Tracked s) (fun s j => j.Known s)

theorem step_tracked {cfg : SchedulerConfig} {w w' : World} {l : Label} (hi : w.Inv) (h : w.Tracked) (hl : l.Sound)
    (hs : Step cfg w l w') : w'.Tracked := by
  refine ⟨?_, step_keeps (tracking_known cfg) hi ⟨hi.wf, h.store⟩ h.keeps hs⟩
  rcases step_store hs with hkeep | hcrash | ⟨op, out, rfl, hcall⟩
  · rw [hkeep]
    exact h.store
  · rw [hcrash]
    exact ⟨h.store.rows, by simp⟩
  · exact call_bounded h.store hl hcall

theorem run_tracked {cfg : SchedulerConfig} {es : List Label} {w : World} (h : Run (schedulerSystem cfg) {} es w)
    (hl : ∀ l ∈ es, l.Sound) : w.Inv ∧ w.Tracked := by
  refine Run.preserve (P := fun w => w.Inv ∧ w.Tracked) (Q := Label.Sound)
    (fun w l w' hl hw hs => ⟨step_inv hw.1 hs, step_tracked hw.1 hw.2 hl hs⟩) h hl ⟨?_, ?_⟩
  · exact ⟨.empty, fun _ => ⟨rfl, rfl, rfl⟩, by simp, trivial⟩
  · exact ⟨⟨fun id j hj => by simp at hj, by simp⟩, by simp, by simp, by simp, by simp⟩

end MS.Cape
