import Mailstrix.Impl.Cape.Ingress
import Mailstrix.Proof.Cape.Dedup

/-!
# Rows and their payloads

What a call does to a row as far as its payload is concerned: whether the row still needs it
(`kept`), how long it is, and the texts and times that decide whether the row can be written again
(`Short`).
-/

namespace MS.Cape

open Framework

variable {op : StoreOp} {ingress : List Job} {j j' : Job} {id : JobID}

/-- The payload may still have to be sent. -/
def kept (s : JobState) : Bool := s = .queued || s = .submitting || s = .submitUncertain

theorem cleanupStates_iff {s : JobState} : cleanupStates s = true ↔ kept s = false ∧ s ≠ .staging := by
  cases s <;> decide

/-- A change that needs no payload the row did not need before. -/
structure Job.Calm (j j' : Job) : Prop where
  kept : kept j'.state = true → kept j.state = true ∧ j'.payloadBytes = j.payloadBytes
  staging : j'.state = .staging ↔ j.state = .staging

theorem Job.Calm.of_eq (hs : j'.state = j.state) (hp : j'.payloadBytes = j.payloadBytes) : j.Calm j' :=
  ⟨fun h => ⟨hs ▸ h, hp⟩, by rw [hs]⟩

theorem Job.Calm.of_kept (hs : MS.Cape.kept j.state = true) (hs' : j'.state ≠ .staging)
    (hp : j'.payloadBytes = j.payloadBytes) : j.Calm j' := by
  refine ⟨fun _ => ⟨hs, hp⟩, fun h => absurd h hs', fun h => ?_⟩
  rw [h] at hs
  cases hs

theorem Job.Calm.of_dropped (hs : j.state ≠ .staging) (hs' : cleanupStates j'.state = true) :
    j.Calm j' := by
  obtain ⟨hk, hn⟩ := cleanupStates_iff.1 hs'
  exact ⟨fun h => absurd h (by simp [hk]), fun h => absurd h hn, fun h => absurd h hs⟩

theorem Job.Calm.dropped (h : j.Calm j') (hj : cleanupStates j.state = true) :
    cleanupStates j'.state = true := by
  obtain ⟨hk, hn⟩ := cleanupStates_iff.1 hj
  refine cleanupStates_iff.2 ⟨?_, fun hs => hn (h.staging.1 hs)⟩
  by_contra hk'
  rw [Bool.not_eq_false] at hk'
  simp [(h.kept hk').1] at hk

theorem calm_refl : ∀ x : Option Job, Option.Rel Job.Calm x x
  | none => .none
  | some _ => .some (.of_eq rfl rfl)

theorem applyTerminalSubmission_state (j p : Job) (s : Submission) (o : Code) (i : Bool) :
    (applyTerminalSubmission j p s o i).state = j.state ∧
      (applyTerminalSubmission j p s o i).payloadBytes = j.payloadBytes := by
  simp only [applyTerminalSubmission]
  split_ifs <;> exact ⟨rfl, rfl⟩

/-- Only a publication makes a payload needed. -/
theorem rowStep_calm (hj : j.WF)
    (hop : ∀ id v size digest, op ≠ .publish id v size digest) (h : RowStep ingress op (some j) (some j')) :
    j.Calm j' := by
  have hsent : ∀ v, recordable j v = true → terminal j.state = false → kept j.state = true := by
    intro v hr ht
    rcases (hj.open_of_recordable hr).1.state with e | e | e
    · simp [e, kept]
    · simp [e, kept]
    · simp [e] at ht
  have hne : ∀ {v}, recordable j v = true → j.state ≠ .staging := by
    intro v hr e
    rcases (hj.open_of_recordable hr).1.state with e' | e' | e' <;> simp [e, terminal] at e'
  cases h with
  | publish => exact absurd rfl (hop _ _ _ _)
  | begin hs => exact .of_kept (by simp [hs, kept]) (by simp [submittingJob]) rfl
  | recordTerminal => exact .of_eq (applyTerminalSubmission_state ..).1 (applyTerminalSubmission_state ..).2
  | recordMany hr => exact .of_dropped (hne hr) rfl
  | recordOwned hr => exact .of_dropped (hne hr) rfl
  | recordRequeue hr ht | recordUnsure hr ht => exact .of_kept (hsent _ hr ht) (by rintro ⟨⟩) rfl
  | interrupted hs => exact .of_kept (by simp [hs, kept]) (by rintro ⟨⟩) rfl
  | @status _ j' _ status now hs _ _ hch =>
    refine .of_dropped (by simp [hs]) ?_
    show cleanupStates j'.state = true
    rcases statusChange_cases hch with rfl | rfl | rfl <;>
      simp [hs, terminate_state, cleanupStates, terminal]
  | @report _ j' _ _ _ now hs _ _ hch =>
    refine .of_dropped (by simp [hs]) ?_
    show cleanupStates j'.state = true
    rcases reportChange_cases hch with rfl | ⟨result, -, rfl⟩ <;> simp [terminate_state, cleanupStates, terminal]
  | reportError => exact .of_eq rfl rfl
  | cancel hs | expire hs => exact .of_dropped hs (by simp [endedJob, terminate_state, cleanupStates, terminal])
  | deletion | minimize | reserveRead | extendRetry | overdue | callback => exact .of_eq rfl rfl

theorem rowStep_insert {j' : Job} (h : RowStep ingress op none (some j')) :
    ∃ cfg r id c now, op = .reserve r id c ∧ j' = withDeadlines (stagingJob cfg r id c) now := by
  cases h
  exact ⟨_, _, _, _, _, rfl, rfl⟩

theorem rowStep_erase {j : Job} (h : RowStep ingress op (some j) none) :
    op = .cleanupStaging j.id ∨ ∃ now, op = .maintainCleanup now ∧ terminal j.state = true := by
  cases h with
  | cleanupStaging => exact .inl rfl
  | forget ht => exact .inr ⟨_, rfl, ht⟩

/-! ## The texts and times of a row -/

theorem Job.Short.of_key (h : j.Short) (hk : dedupKey j' = dedupKey j)
    (hv : j'.staticVerdict = "" ∨ validVerdict j'.staticVerdict = true) (htimes : ∀ t ∈ j'.times, t < lastTime) :
    j'.Short := by
  simp only [dedupKey, Prod.mk.injEq] at hk
  obtain ⟨ht, hd, hg, hs, hr⟩ := hk
  exact ⟨ht ▸ h.tenant, hg ▸ h.generation, hs ▸ h.submissionPolicy, hr ▸ h.resultPolicy, hd ▸ h.digest, hv, htimes⟩

theorem Job.Short.published {w : Job} (h : w.Short) {v digest : String} (size : Int)
    (hv : validVerdict v = true) (hd : identifier digest 64 = true) : (publishedJob w v size digest).Short :=
  ⟨h.tenant, h.generation, h.submissionPolicy, h.resultPolicy, .inr hd, .inr hv, h.times⟩

theorem terminate_times (j : Job) (st : JobState) (c : Code) (now : Nat) :
    ∀ t ∈ (terminate j st c now).times, t ∈ j.times ∨ t = now := by
  simp only [terminate]
  split_ifs <;> simp [Job.times]

/-- A time becomes zero, a reading of the clock, or a time soon after one. -/
theorem rowStep_times (hj : ∀ t ∈ j.times, t < lastTime)
    (hop : ∀ id v size digest, op ≠ .publish id v size digest) (h : RowStep ingress op (some j) (some j')) :
    ∀ t ∈ j'.times, t < lastTime := by
  have hended : ∀ st c (now : Stamp), ∀ t ∈ (terminate j st c now.val).times, t < lastTime := by
    intro st c now t ht
    rcases terminate_times j st c now.val t ht with ht | rfl
    · exact hj t ht
    · exact now.lt_lastTime
  have hpolled : ∀ j : Job, (∀ t ∈ j.times, t < lastTime) → ∀ t ∈ (polledJob j).times, t < lastTime := by
    intro j hj
    simp only [Job.times, List.forall_mem_cons] at hj ⊢
    simp only [polledJob]
    grind
  cases h with
  | publish => exact absurd rfl (hop _ _ _ _)
  | recordTerminal =>
    simp only [applyTerminalSubmission]
    split_ifs <;> exact hj
  | @begin _ now | @recordMany _ _ _ _ _ now | @callback _ _ _ now =>
    have hnow := now.lt_lastTime
    simp only [Job.times, List.forall_mem_cons] at hj ⊢
    simp only [submittingJob, ambiguousJob, respondedJob, appendSubmissionTasks, wokenJob]
    grind
  | recordRequeue _ _ _ _ _ hnext | reserveRead _ hnext | extendRetry hnext =>
    simp only [Job.times, List.forall_mem_cons] at hj ⊢
    simp only [requeuedJob, respondedJob, appendSubmissionTasks, readJobReserved, delayedJob]
    grind
  | @status _ j₁ _ status now _ _ _ hch =>
    refine hpolled _ ?_
    rcases statusChange_cases hch with rfl | rfl | rfl
    · exact hj
    · exact hj
    · exact hended _ _ now
  | @report _ j₁ _ _ _ now _ _ _ hch =>
    refine hpolled _ ?_
    rcases reportChange_cases hch with rfl | ⟨result, -, rfl⟩ <;> exact hended _ _ now
  | reportError => exact hpolled _ hj
  | cancel | expire => exact hended _ _ _
  | _ => exact hj

theorem rowStep_short (hj : j.Short)
    (hop : ∀ id v size digest, op ≠ .publish id v size digest) (h : RowStep ingress op (some j) (some j')) :
    j'.Short := by
  obtain ⟨hkey, hverdict⟩ := (rowStep_texts h).resolve_right fun ⟨_, _, _, _, he⟩ => hop _ _ _ _ he
  refine hj.of_key hkey ?_ (rowStep_times hj.times hop h)
  rcases hverdict with he | he
  · exact he ▸ hj.staticVerdict
  · exact .inl he

/-- The row recovery writes for an interrupted attempt. -/
theorem Job.Short.interrupted {j : Job} (h : j.Short) (hw : j.WF) (hs : j.state = .submitting) :
    (interruptedJob j).Compact where
  toShort := h.of_key rfl h.staticVerdict h.times
  tasks := (hw.open_of_submitting hs).tasks
  acked := (hw.quiet (by rw [hs]; rfl)).2
  result := (hw.live (by rw [hs]; rfl)).2
  reason := rfl

/-! ## Calls -/

section
variable {cfg : StoreConfig} {env : Env} {s s' : Store} {ret : Ret}

theorem reserve_quota {db db' : Db} {q : EnqueueRequest} {c : Nat} {j : Job}
    (h : reserve cfg env db q id c = .ok (db', j)) : (db.jobs.rows.length : Int) < cfg.maxJobs := by
  simp only [reserve, admissionGeneration, checkTenantDebt, bind_ok, check_ok, need_ok, pure_ok, Prod.exists,
    exists_const] at h
  obtain ⟨db₁, now, hnow, -, cap, -, -, hquota, -⟩ := h
  rw [← storeNow_jobs hnow]
  exact hquota.1

/-- A reservation adds one short staging row, within the quota. -/
theorem exec_reserve {q : EnqueueRequest} {c : Nat}
    (h : exec cfg env (.reserve q id c) s = .ok (s', ret)) :
    ∃ j, s.db.jobs.insert? j = some s'.db.jobs ∧ s'.mem.ingress = j :: s.mem.ingress ∧ j.id = id ∧
      j.state = .staging ∧ j.Short ∧ (s.db.jobs.rows.length : Int) < cfg.maxJobs := by
  simp only [exec, validRequest, bind_ok, check_ok, pure_ok, Prod.exists, exists_const] at h
  obtain ⟨⟨⟨ht, hg, hs, hr, hv⟩, -⟩, db, j, hres, he⟩ := h
  cases he
  obtain ⟨⟨now, rfl⟩, hins, -⟩ := reserve_ok hres
  refine ⟨_, hins, rfl, rfl, rfl, ⟨ht, hg, hs, hr, .inl rfl, .inr hv, ?_⟩, reserve_quota hres⟩
  have hzero : 0 < lastTime := by decide
  simp only [Job.times, List.forall_mem_cons]
  exact ⟨now.lt_lastTime, now.soon (by decide), now.soon (by decide), now.soon (by decide), hzero, hzero, hzero, hzero,
    hzero, by simp⟩

/-- A call with a transaction of its own inserts and erases nothing, and needs no new payload. -/
theorem exec_calm (hs : s.WF) (hop : plain op = true) (h : exec cfg env op s = .ok (s', ret))
    (id : JobID) : Option.Rel Job.Calm (s.db.jobs.get? id) (s'.db.jobs.get? id) := by
  rcases exec_rows h id with he | hstep
  · rw [he]
    exact calm_refl _
  · cases hx : s.db.jobs.get? id with
    | none =>
      rw [hx] at hstep
      cases hx' : s'.db.jobs.get? id with
      | none => exact .none
      | some j' =>
        rw [hx'] at hstep
        obtain ⟨_, _, _, _, _, rfl, -⟩ := rowStep_insert hstep
        cases hop
    | some j =>
      rw [hx] at hstep
      cases hx' : s'.db.jobs.get? id with
      | none =>
        rw [hx'] at hstep
        rcases rowStep_erase hstep with rfl | ⟨_, rfl, -⟩ <;> cases hop
      | some j' =>
        rw [hx'] at hstep
        refine .some (rowStep_calm (hs.rows id j hx) ?_ hstep)
        rintro _ _ _ _ rfl
        cases hop

theorem cancel_dropped {db db' : Db} {tenant : String} {j : Job}
    (h : cancel env db tenant id = .ok (db', j)) (hs : j.state ≠ .staging) :
    db'.jobs.get? j.id = some j ∧ cleanupStates j.state = true := by
  have hok : _ ∨ Replaced [] (.cancel tenant id) db db' j := cancel_ok h
  rcases hok with ⟨rfl, hj, hst⟩ | hrep
  · refine ⟨hj, ?_⟩
    rw [hst.resolve_left hs]
    rfl
  · refine ⟨hrep.get, ?_⟩
    obtain ⟨j₀, -, hstep⟩ := hrep.row
    cases hstep
    simp [endedJob, cleanupStates, terminal]

/-- The payloads removed after a commit are those of rows that need none. -/
theorem exec_removals (h : exec cfg env op s = .ok (s', ret))
    (hid : id ∈ removals op (some ret)) :
    ∃ j, s'.db.jobs.get? id = some j ∧ cleanupStates j.state = true := by
  unfold removals at hid
  split at hid
  · rename_i j he
    obtain ⟨db, j₁, hx, rfl, rfl⟩ := withJob_ok h
    cases he
    split at hid
    · cases hid
    · obtain rfl := List.mem_singleton.1 hid
      exact ⟨j, cancel_dropped hx ‹_›⟩
  · rename_i tenant id₀ version sub o b j he
    simp only [exec, bind_ok, pure_ok, Prod.exists] at h
    obtain ⟨db, j₁, hrec, hr⟩ := h
    cases hr
    cases he
    split at hid
    · rename_i hst
      obtain rfl := List.mem_singleton.1 hid
      have hrep : Replaced [] (.recordSubmission tenant id₀ version sub o b) s.db db j := recordSubmission_ok hrec
      refine ⟨j, hrep.get, ?_⟩
      rcases hst with hst | hst <;> simp [cleanupStates, hst]
    · cases hid
  · cases hid

theorem exec_publish_rows {v : String} {size : Int} {digest : String}
    (h : exec cfg env (.publish id v size digest) s = .ok (s', ret)) (id' : JobID) :
    s'.db.jobs.get? id' = s.db.jobs.get? id' ∨
      id' = id ∧ ∃ j', s'.db.jobs.get? id = some j' ∧ j'.payloadBytes = size := by
  refine (exec_rows h id').imp_right fun hstep => ?_
  generalize hx : s.db.jobs.get? id' = x at hstep
  generalize hx' : s'.db.jobs.get? id' = x' at hstep
  cases hstep with
  | @publish w j _ _ _ hw hid =>
    have he : id' = w.id := (Table.key_of_get? hx).symm.trans hid
    exact ⟨he, _, he ▸ hx', rfl⟩

theorem exec_cleanup_rows (h : exec cfg env (.cleanupStaging id) s = .ok (s', ret)) :
    s'.db.jobs = s.db.jobs.erase id := by
  simp only [exec, bind_ok, pure_ok] at h
  obtain ⟨db, hc, he⟩ := h
  cases he
  simp only [cleanupStaging, bind_ok, check_ok, need_ok, pure_ok, exists_const] at hc
  obtain ⟨j, -, -, rfl⟩ := hc
  rfl

/-- The cleanup transaction touches the rows of its batch only. -/
theorem exec_maintain_rows {now : Stamp} (h : exec cfg env (.maintainCleanup now) s = .ok (s', ret))
    (hid : id ∉ (nextMaintenanceBatch s.db cleanupStates s.mem.maintenanceCleanupCursor).1.map Job.id) :
    s'.db.jobs.get? id = s.db.jobs.get? id := by
  simp only [exec, maintainCleanup, bind_ok, pure_ok, Prod.exists] at h
  obtain ⟨db, c, ⟨db₂, hfold, he⟩, hr⟩ := h
  cases he
  cases hr
  obtain ⟨c, hc⟩ := nextMaintenanceBatch_eq s.db cleanupStates s.mem.maintenanceCleanupCursor
  rw [hc] at hfold hid
  have hrow : ∀ db db' j, True → db.jobs.get? j.id = some j → retainJob env now db j = .ok db' →
      OnRow [] (.maintainCleanup now) db db' j := fun _ _ _ _ hj h => retainJob_row hj h
  have hrows := foldlM_rows hrow _ s.db _ (nodup_batchAfter s.db cleanupStates c) (fun _ _ => trivial)
    (fun j hj => (mem_batchAfter hj).1) hfold
  exact hrows.1 id hid

/-! ## Committed calls -/

structure Store.Short (s : Store) : Prop where
  rows : ∀ id j, s.db.jobs.get? id = some j → j.Short
  ingress : ∀ w ∈ s.mem.ingress, w.Short

theorem exec_short (hs : s.Short) (h : exec cfg env op s = .ok (s', ret))
    (hop : ∀ id v size digest, op = .publish id v size digest → validVerdict v = true ∧ identifier digest 64 = true) :
    s'.Short := by
  refine ⟨fun id j' hj' => ?_, fun w hw => ?_⟩
  · rcases exec_rows h id with he | hstep
    · exact hs.rows id j' (he ▸ hj')
    rw [hj'] at hstep
    cases hx : s.db.jobs.get? id with
    | none =>
      rw [hx] at hstep
      obtain ⟨_, q, id', c, now, rfl, -⟩ := rowStep_insert hstep
      obtain ⟨j, hins, -, -, -, hshort, -⟩ := exec_reserve h
      rw [Table.get?_insert hins, hx] at hj'
      split_ifs at hj'
      cases hj'
      exact hshort
    | some j =>
      rw [hx] at hstep
      by_cases hpub : ∃ id v size digest, op = .publish id v size digest
      · obtain ⟨id', v, size, digest, rfl⟩ := hpub
        obtain ⟨hv, hd⟩ := hop _ _ _ _ rfl
        cases hstep with
        | publish hmem => exact (hs.ingress _ hmem).published size hv hd
      · refine rowStep_short (hs.rows id j hx) (fun _ _ _ _ he => hpub ⟨_, _, _, _, he⟩) hstep
  · rcases exec_ingress h hw with hw | ⟨q, id, c, now, rfl, rfl⟩
    · exact hs.ingress w hw
    · obtain ⟨j, -, hing, -, -, hshort, -⟩ := exec_reserve h
      rw [hing] at hw
      rcases List.mem_cons.1 hw with he | hw
      · exact he ▸ hshort
      · exact hs.ingress _ hw

variable {codec : Codec} {r : Option Ret}

/-- Whatever became of the answer, the tables are those of the call. -/
theorem Commits.exec (h : Commits cfg codec op s r s') :
    ∃ env s₁ ret, env.encodes = codec.encodes ∧ MS.Cape.exec cfg env op s = .ok (s₁, ret) ∧ s'.db = s₁.db ∧
      (r = some ret ∧ s' = s₁ ∨ r = none ∧ s'.mem = s.mem) := by
  cases h with
  | done henc h => exact ⟨_, _, _, henc, h, rfl, .inl ⟨rfl, rfl⟩⟩
  | lost henc h => exact ⟨_, _, _, henc, h, rfl, .inr ⟨rfl, rfl⟩⟩

theorem Commits.wf (hs : s.WF) (h : Commits cfg codec op s r s') : s'.WF := by
  cases h with
  | done _ h => exact exec_wf hs h
  | lost _ h => exact ⟨(exec_wf hs h).rows, hs.ingress⟩

theorem Commits.short (hs : s.Short) (h : Commits cfg codec op s r s')
    (hop : ∀ id v size digest, op = .publish id v size digest → validVerdict v = true ∧ identifier digest 64 = true) :
    s'.Short := by
  cases h with
  | done _ h => exact exec_short hs h hop
  | lost _ h => exact ⟨(exec_short hs h hop).rows, hs.ingress⟩

end

end MS.Cape
