import Mailstrix.Proof.Cape.Packets

/-!
# Back-pressure of the sandbox

A row carries two times: the next attempt, which a callback hint may overrule, and the end of the
wait the sandbox asked for, which nothing may.  `readThrottled` looks at the second only before the
first, so its guarantee rests on their order.  The order holds because a wait is recorded only on a
row that is owing, and such a row is never submitted again.

* `back_pressure_honoured`: the order in every reachable state of the process, and what the calls
  that touch the two times do.
-/

namespace MS.Cape

open Framework Spec

variable {cfg : StoreConfig} {op : StoreOp} {s s' : Store} {out : Outcome} {env : Env} {j : Job}
variable {r : Ret} {id : JobID} {snapshot : Job} {delay : Duration} {w w' : World}

/-! ## Owing rows stay -/

/-- The job has a recorded attempt that left something at the sandbox. -/
def Store.Owes (s : Store) (id : JobID) : Prop := ∃ j, s.db.jobs.get? id = some j ∧ account j = .owing

theorem rowStep_owing {ingress : List Job} {x' : Option Job}
    (hw : ∀ w ∈ ingress, w.Pristine) (hwf : j.WF) (h : RowStep ingress op (some j) x')
    (ha : account j = .owing) : ∃ j', x' = some j' ∧ account j' = .owing := by
  have hj : ∀ j', some j = some j' → j'.WF ∧ j'.id = j.id := fun j' hj' => by cases hj'; exact ⟨hwf, rfl⟩
  have hstep := rowStep_ledger hw hj h
  obtain ⟨l', hl', ha'⟩ := hstep.owing rfl ha
  cases x' with
  | none => cases hl'
  | some j' =>
    cases hl'
    exact ⟨j', rfl, ha'⟩

theorem exec_owes (hs : s.WF) (h : exec cfg env op s = .ok (s', r)) (ho : s.Owes id) : s'.Owes id := by
  obtain ⟨j, hj, ha⟩ := ho
  rcases exec_rows h id with hsame | hstep
  · exact ⟨j, hsame.trans hj, ha⟩
  · rw [hj] at hstep
    obtain ⟨j', hj', ha'⟩ := rowStep_owing hs.ingress (hs.rows id j hj) hstep ha
    exact ⟨j', hj', ha'⟩

theorem call_owes (hs : s.WF) (h : Call cfg op s out s') (ho : s.Owes id) : s'.Owes id := by
  cases h with
  | ok h | late h => exact exec_owes hs h ho
  | lost h =>
    obtain ⟨j, hj, ha⟩ := exec_owes hs h ho
    exact ⟨j, hj, ha⟩
  | failed => exact ho

/-! ## The two times of a row -/

/-- A wait the sandbox asked for is not longer than the next attempt, and only an owing row has
one. -/
structure Job.Paced (j : Job) : Prop where
  le : j.retryAfterUntil ≤ j.nextAttempt
  owing : j.retryAfterUntil ≠ 0 → account j = .owing

theorem Job.Paced.of_zero (h : j.retryAfterUntil = 0) : j.Paced :=
  ⟨by simp [h], fun hne => absurd h hne⟩

theorem Job.Paced.zero (h : j.Paced) (ha : account j ≠ .owing) : j.retryAfterUntil = 0 := by
  by_contra hne
  exact ha (h.owing hne)

theorem applyTerminalSubmission_retry (j p : Job) (s : Submission) (o : Code) (i : Bool) :
    (applyTerminalSubmission j p s o i).retryAfterUntil = j.retryAfterUntil := by
  simp only [applyTerminalSubmission]
  split_ifs <;> rfl

/-- Every change of a row keeps its times in order, as long as a wait is recorded only on an owing
row. -/
theorem rowStep_paced {ingress : List Job} {x : Option Job} {j' : Job}
    (hw : ∀ w ∈ ingress, w.Pristine) (hi : ∀ w ∈ ingress, w.retryAfterUntil = 0)
    (hx : ∀ j, x = some j → j.WF ∧ j.Paced)
    (hop : ∀ snapshot delay j, op = .extendRetry snapshot delay → x = some j → account j = .owing)
    (h : RowStep ingress op x (some j')) : j'.Paced := by
  -- a change that leaves the two times alone
  have hkeep : ∀ j, x = some j → j'.retryAfterUntil = j.retryAfterUntil → j'.nextAttempt = j.nextAttempt →
      j'.Paced := by
    rintro j rfl hr hn
    obtain ⟨hwf, hp⟩ := hx j rfl
    refine ⟨by rw [hr, hn]; exact hp.le, fun hne => ?_⟩
    obtain ⟨j₁, hj₁, ha⟩ := rowStep_owing hw hwf h (hp.owing (hr ▸ hne))
    cases hj₁
    exact ha
  -- an attempt that is open has no wait
  have hopen : ∀ j v, x = some j → recordable j v = true → j.retryAfterUntil = 0 := by
    rintro j v rfl hrec
    obtain ⟨hwf, hp⟩ := hx j rfl
    refine hp.zero ?_
    rw [(hwf.open_of_recordable hrec).1.account]
    exact Account.noConfusion
  cases h with
  | reserve => exact .of_zero rfl
  | @publish w j v size digest hmem =>
    have hz : (publishedJob w v size digest).retryAfterUntil = 0 := hi w hmem
    exact .of_zero hz
  | @begin j now hq =>
    obtain ⟨hwf, hp⟩ := hx j rfl
    have hz : j.retryAfterUntil = 0 := hp.zero (by
      rw [(hwf.clear_of_unsent (.inr hq)).account]
      exact Account.noConfusion)
    exact .of_zero hz
  | @recordTerminal j v s o b hrec =>
    have hz := hopen j v rfl hrec
    exact .of_zero ((applyTerminalSubmission_retry ..).trans hz)
  | @recordMany j v s o b clock hrec | @recordOwned j v s o b hrec | @recordRequeue j v s o b next hrec
  | @recordUnsure j v s o b hrec =>
    have hz := hopen j v rfl hrec
    exact ⟨hz.trans_le (Nat.zero_le _), fun hne => absurd hz hne⟩
  | @status j j₁ task status now _ _ _ hch =>
    refine hkeep j rfl ?_ ?_ <;>
    · rcases statusChange_cases hch with rfl | rfl | rfl <;> simp [polledJob]
  | @report j j₁ task report mapper now _ _ _ hch =>
    refine hkeep j rfl ?_ ?_ <;>
    · rcases reportChange_cases hch with rfl | ⟨result, -, rfl⟩ <;> simp [polledJob]
  | cancel | expire => exact hkeep _ rfl (terminate_retry ..) (terminate_next ..)
  | interrupted | reportError | deletion | minimize | overdue | callback => exact hkeep _ rfl rfl rfl
  | reserveRead => exact .of_zero rfl
  | @extendRetry j snapshot delay next =>
    obtain ⟨-, hp⟩ := hx j rfl
    have hle := hp.le
    refine ⟨?_, fun _ => ?_⟩
    · show max next j.retryAfterUntil ≤ max next j.nextAttempt
      omega
    · exact hop snapshot delay j rfl rfl

/-! ## Calls -/

/-- A retry is put off for the row it names. -/
theorem exec_extendRetry (h : exec cfg env (.extendRetry snapshot delay) s = .ok (s', r)) (id : JobID) :
    s'.db.jobs.get? id = s.db.jobs.get? id ∨ id = snapshot.id ∧ ∃ j next, s.db.jobs.get? id = some j ∧
      s'.db.jobs.get? id = some (delayedJob j next) := by
  obtain ⟨db, j', hx, rfl, -⟩ := withJob_ok h
  simp only [extendRetry, bind_ok, readJob_ok, Prod.exists] at hx
  obtain ⟨j, ⟨hj, -⟩, db₁, now, hnow, hx⟩ := hx
  have hjobs := storeNow_jobs hnow
  split at hx
  · rw [pure_ok] at hx
    cases hx
    exact .inl (by simp only [hjobs])
  · simp only [bind_ok, pure_ok] at hx
    obtain ⟨db₂, hput, he⟩ := hx
    cases he
    have hid : j.id = snapshot.id := Table.key_of_get? hj
    have hid' : (delayedJob j (now.val + delay.val).toNat).id = snapshot.id := hid
    simp only [putJob_jobs hput, hjobs, Table.get?_set, hid']
    by_cases hne : snapshot.id = id
    · subst hne
      exact .inr ⟨rfl, j, (now.val + delay.val).toNat, hj, by simp [hj]⟩
    · exact .inl (if_neg hne)

theorem exec_reserveRead (h : exec cfg env (.reserveRead snapshot delay) s = .ok (s', r)) :
    ∃ j now reserved, s.db.jobs.get? snapshot.id = some j ∧ s'.db.latest = some now ∧
      readThrottled j now.val = false ∧ r = .job reserved ∧ reserved.id = snapshot.id := by
  obtain ⟨db, j', hx, rfl, rfl⟩ := withJob_ok h
  obtain ⟨j, db₁, now, hj, -, -, hnow, hfree, rfl, hput⟩ := reserveRead_spec hx
  obtain ⟨rfl, -⟩ := storeNow_spec hnow
  obtain ⟨-, row, -, -, rfl⟩ := putJob_ok.1 hput
  have hid : j.id = snapshot.id := Table.key_of_get? hj
  exact ⟨j, now, _, hj, rfl, hfree, rfl, hid⟩

/-- A throttled row is not read before its wait is over. -/
theorem Job.Paced.le_of_free (h : j.Paced) {now : Nat} (hf : readThrottled j now = false) :
    j.retryAfterUntil ≤ now := by
  have hle := h.le
  by_contra hlt
  have hne : j.retryAfterUntil ≠ 0 := by omega
  have hnext : now < j.nextAttempt := by omega
  have hafter : now < j.retryAfterUntil := by omega
  simp [readThrottled, hne, hnext, hafter] at hf

/-- Every row and every row a writer holds is in order. -/
structure Store.Paced (s : Store) : Prop where
  rows : ∀ id j, s.db.jobs.get? id = some j → j.Paced
  ingress : ∀ w ∈ s.mem.ingress, w.retryAfterUntil = 0

theorem exec_paced (hs : s.WF) (hp : s.Paced)
    (hop : ∀ snapshot delay, op = .extendRetry snapshot delay → s.Owes snapshot.id)
    (h : exec cfg env op s = .ok (s', r)) : s'.Paced := by
  constructor
  · intro id j' hj'
    rcases exec_rows h id with hsame | hstep
    · exact hp.rows id j' (hsame ▸ hj')
    · by_cases hchange : s'.db.jobs.get? id = s.db.jobs.get? id
      · exact hp.rows id j' (hchange ▸ hj')
      · rw [hj'] at hstep
        refine rowStep_paced hs.ingress hp.ingress (fun j hj => ⟨hs.rows id j hj, hp.rows id j hj⟩) ?_ hstep
        rintro snapshot delay j rfl hj
        rcases exec_extendRetry h id with hsame | ⟨rfl, -⟩
        · exact absurd hsame hchange
        · obtain ⟨j₀, hj₀, ha⟩ := hop snapshot delay rfl
          rw [hj₀] at hj
          cases hj
          exact ha
  · intro w hw
    rcases exec_ingress h hw with hw | ⟨q, id, c, now, -, rfl⟩
    · exact hp.ingress w hw
    · rfl

theorem call_paced (hs : s.WF) (hp : s.Paced)
    (hop : ∀ snapshot delay, op = .extendRetry snapshot delay → s.Owes snapshot.id)
    (h : Call cfg op s out s') : s'.Paced := by
  cases h with
  | ok h | late h => exact exec_paced hs hp hop h
  | lost h => exact ⟨(exec_paced hs hp hop h).rows, hp.ingress⟩
  | failed => exact hp

/-! ## The process -/

theorem account_of_remote (h : j.WF) (hr : j.Remote) : account j = .owing := by
  rcases hr with hc | hs
  · obtain ⟨task, htask⟩ := Option.isSome_iff_exists.1 hc
    unfold cleanupTask at htask
    split at htask
    · cases htask
    · obtain ⟨t, ht, -⟩ := Option.map_eq_some_iff.1 htask
      exact (h.owing_of_task (List.mem_of_find?_eq_some ht)).account
  · exact (h.owing_of_remote hs).account

/-- The candidates of a pass that would be asked about are owing. -/
def Pass.Known (s : Store) (pass : Pass) : Prop := ∀ j ∈ pass.jobs, j.Remote → s.Owes j.id

/-- Every request for a remote task belongs to an owing row. -/
structure World.Paced (w : World) : Prop where
  store : w.store.Paced
  live : ∀ q ∈ w.live, q.packet.kind.remote = true → w.store.Owes q.packet.job.id
  pending : ∀ r ∈ w.pending, r.kind.remote = true → w.store.Owes r.job.id
  pass : ∀ pass, (w.pc = .dispatching pass ∨ ∃ r prog, w.pc = .reconciling pass r prog) → pass.Known w.store

/-- What a packet and a candidate of a pass know about their row. -/
theorem tracking_paced (cfg : SchedulerConfig) :
    Tracking cfg Store.WF (fun s r => r.kind.remote = true → s.Owes r.job.id) (fun s j => j.Remote → s.Owes j.id) where
  request hk hj _ h hr := by
    rw [hj]
    exact h (hk ▸ hr)
  packet hwf hcall h hr := call_owes hwf hcall (h hr)
  job hwf hcall h hr := call_owes hwf hcall (h hr)
  row hwf hrow hr := ⟨_, hrow, account_of_remote (hwf.rows _ _ hrow) hr⟩
  begin _ _ hk _ _ hr := by
    have hsubmit : Kind.remote .submit = true := hk ▸ hr
    cases hsubmit
  beginError _ hr := by cases hr
  reserveRead hwf h hremote _ hcall hans _ := by
    -- the request names the row that was reserved
    have hcalled := call_owes hwf hcall (h hremote)
    obtain ⟨env, s₁, r, hexec, -, hret⟩ := call_exec hcall (Outcome.committed_of_ok hans)
    obtain ⟨j₀, now, reserved', -, -, -, rfl, hid⟩ := exec_reserveRead hexec
    cases hret _ hans
    rw [← hid] at hcalled
    exact hcalled

theorem World.Paced.keeps (h : w.Paced) (hi : w.Inv) :
    w.Keeps (fun s r => r.kind.remote = true → s.Owes r.job.id) (fun s j => j.Remote → s.Owes j.id) where
  live := h.live
  pending := h.pending
  pass := h.pass
  packet pass r prog hp hr := by
    have hpc := hi.pc
    rw [hp] at hpc
    rw [hpc.2.1] at hr
    cases hr

/-- A retry is only put off for an owing row. -/
theorem step_retry {cfg : SchedulerConfig} (hi : w.Inv) (h : w.Paced) (hs : Step cfg w (.call op out) w')
    (he : op = .extendRetry snapshot delay) : w.store.Owes snapshot.id := by
  have hpc := hi.pc
  generalize hl : Label.call op out = l at hs
  cases hs with
  | recover _ hop | api _ hop =>
    cases hl
    subst he
    cases hop
  | @persistCall d kept todo r _ next _ s hp =>
    cases hl
    rw [hp] at hpc
    obtain ⟨hid, hk⟩ := hpc.2.1.1 snapshot delay he
    rw [hid]
    exact h.pending r (hpc.1.subset (by simp)) hk
  | maintainCall hp =>
    cases hl
    rw [hp] at hpc
    exact absurd he (hpc.1.2 snapshot delay)
  | reconcileCall hp =>
    cases hl
    rw [hp] at hpc
    have hk := (hpc.2.2.1.1 snapshot delay he).2
    rw [hpc.2.1] at hk
    cases hk
  | openPayload | dispatch | begin | beginError | reserveRead =>
    cases hl
    cases he
  | _ => cases hl

theorem step_paced {cfg : SchedulerConfig} {l : Label} (hi : w.Inv) (h : w.Paced) (hs : Step cfg w l w') :
    w'.Paced := by
  have hkeeps := step_keeps (tracking_paced cfg) hi hi.wf (h.keeps hi) hs
  refine ⟨?_, hkeeps.live, hkeeps.pending, hkeeps.pass⟩
  rcases step_store hs with hkeep | hcrash | ⟨op, out, rfl, hcall⟩
  · rw [hkeep]
    exact h.store
  · rw [hcrash]
    exact ⟨h.store.rows, by simp⟩
  · exact call_paced hi.wf h.store (fun snapshot delay he => step_retry hi h hs he) hcall

theorem run_paced {cfg : SchedulerConfig} {es : List Label} (h : Run (schedulerSystem cfg) {} es w) :
    w.Inv ∧ w.Paced := by
  refine Run.preserve (P := fun w => w.Inv ∧ w.Paced) (Q := fun _ => True)
    (fun w l w' _ hw hs => ⟨step_inv hw.1 hs, step_paced hw.1 hw.2 hs⟩) h (fun _ _ => trivial) ⟨?_, ?_⟩
  · exact ⟨.empty, fun _ => ⟨rfl, rfl, rfl⟩, by simp, trivial⟩
  · exact ⟨⟨fun id j hj => by simp at hj, by simp⟩, by simp, by simp, fun pass hp => by simp at hp⟩

theorem step_call {cfg : SchedulerConfig} (hs : Step cfg w (.call op out) w') :
    Call cfg.store op w.store out w'.store := by
  cases hs <;> assumption

/-- A callback wakes the row it names, and that is all. -/
theorem exec_callback_row {key : CallbackKey} {e : CallbackEvent} (h : exec cfg env (.callback key e) s = .ok (s', r))
    (hj : s.db.jobs.get? id = some j) :
    ∃ wake version, s'.db.jobs.get? id = some { j with pollWakeAt := wake, version := version } := by
  rcases exec_rows h id with hsame | hstep
  · exact ⟨j.pollWakeAt, j.version, hsame.trans hj⟩
  · rw [hj] at hstep
    generalize hx : s'.db.jobs.get? id = x at hstep ⊢
    cases hstep with
    | callback => exact ⟨_, _, rfl⟩

/-! ## A run to look at -/

def sampleDelay : Int → Duration := fun _ => ⟨5 * second, by decide⟩

theorem sampleDelay_range : RetryDelay sampleDelay := by
  intro n
  have hpow : (0 : Int) < 2 ^ (min n 6).toNat := Int.pow_pos (by decide)
  have hle : (5 * second : Int) * 1 ≤ 5 * second * 2 ^ (min n 6).toNat :=
    Int.mul_le_mul_of_nonneg_left hpow (by decide)
  rw [Int.mul_one] at hle
  have hmax : (5 * second : Int) ≤ 5 * minute := by decide
  exact ⟨le_refl _, le_min hle hmax⟩

/-- One round of `Run`, up to the batch it dispatches from. -/
def sampleMaintenance : List StoreOp :=
  [.maintainDeadlines, .maintainCleanup sampleEnv.clock, .markCleanupDeadlines, .schedulerJobs]

/-- The upload of the row is recorded with its task. -/
def sampleRecorded : List StoreOp :=
  [.reserve sampleRequest 7 1, .publish 7 "clean" 10 "abc"] ++ sampleMaintenance ++
    [.beginSubmission "tenant" 7 2, .recordSubmission "tenant" 7 3 { tasks := [⟨1, "gen"⟩] } .empty (5 * second)]

/-- The row waits for its task. -/
def sampleRemote : Job := (sampleStore sampleRecorded).db.jobs.rows.head (by decide)

/-- The store after the first `n` calls of the next round. -/
def sampleAfter (n : Nat) : Store := sampleStore (sampleRecorded ++ sampleMaintenance.take n)

/-- A status request for it is reserved. -/
def sampleAsked : List StoreOp := sampleRecorded ++ sampleMaintenance ++ [.reserveRead sampleRemote (sampleDelay 0)]

def sampleReserved : Job := (sampleStore sampleAsked).db.jobs.rows.head (by decide)

/-- The sandbox asks for ten seconds. -/
def sampleThrottled : List StoreOp := sampleAsked ++ [.extendRetry sampleReserved (throttleDelay (10 * second))]

/-- The sandbox's back-pressure is honoured, whatever callbacks, cancellations, packets and passes do
in between: the wait it asked for is never later than the next attempt, a further wait moves neither
time earlier, no read or deletion is reserved before the wait is over, and a callback changes nothing
of a row but its hint and its version.  Where no wait is running, the hint alone makes the row due. -/
theorem back_pressure_honoured {cfg : SchedulerConfig} {es : List Label} {w : World}
    (h : Run (schedulerSystem cfg) {} es w) :
    (∀ id j, w.store.db.jobs.get? id = some j → j.retryAfterUntil ≤ j.nextAttempt) ∧
    (∀ snapshot delay out w', Step cfg w (.call (.extendRetry snapshot delay) out) w' →
      ∀ id j, w.store.db.jobs.get? id = some j → ∃ j', w'.store.db.jobs.get? id = some j' ∧
        j.nextAttempt ≤ j'.nextAttempt ∧ j.retryAfterUntil ≤ j'.retryAfterUntil) ∧
    (∀ snapshot delay out w', Step cfg w (.call (.reserveRead snapshot delay) out) w' → out.committed = true →
      ∃ j now, w.store.db.jobs.get? snapshot.id = some j ∧ w'.store.db.latest = some now ∧
        j.retryAfterUntil ≤ now.val) ∧
    (∀ key e out w', Step cfg w (.call (.callback key e) out) w' → ∀ id j, w.store.db.jobs.get? id = some j →
      ∃ wake version, w'.store.db.jobs.get? id = some { j with pollWakeAt := wake, version := version }) ∧
    ∀ (j : Job) (hint now : Stamp), hint.val ≤ now.val → j.retryAfterUntil ≤ now.val →
      readThrottled (wokenJob j hint) now.val = false := by
  obtain ⟨hinv, hp⟩ := run_paced h
  refine ⟨fun id j hj => (hp.store.rows id j hj).le, ?_, ?_, ?_, ?_⟩
  · intro snapshot delay out w' hs id j hj
    have hcall := step_call hs
    cases hc : out.committed with
    | false => exact ⟨j, by rw [call_failed hcall hc, hj], le_refl _, le_refl _⟩
    | true =>
      obtain ⟨env, s₁, r, hexec, hdb, -⟩ := call_exec hcall hc
      rw [← hdb]
      rcases exec_extendRetry hexec id with hsame | ⟨-, j₀, next, hj₀, hj'⟩
      · exact ⟨j, hsame.trans hj, le_refl _, le_refl _⟩
      · rw [hj] at hj₀
        cases hj₀
        exact ⟨_, hj', le_max_right .., le_max_right ..⟩
  · intro snapshot delay out w' hs hc
    obtain ⟨env, s₁, r, hexec, hdb, -⟩ := call_exec (step_call hs) hc
    obtain ⟨j, now, -, hj, hlatest, hfree, -⟩ := exec_reserveRead hexec
    rw [hdb] at hlatest
    exact ⟨j, now, hj, hlatest, (hp.store.rows snapshot.id j hj).le_of_free hfree⟩
  · intro key e out w' hs id j hj
    have hcall := step_call hs
    cases hc : out.committed with
    | false => exact ⟨j.pollWakeAt, j.version, by rw [call_failed hcall hc, hj]⟩
    | true =>
      obtain ⟨env, s₁, r, hexec, hdb, -⟩ := call_exec hcall hc
      rw [← hdb]
      exact exec_callback_row hexec hj
  · intro j hint now hle hwait
    have hpos := hint.pos
    have hne : hint.val ≠ 0 := by omega
    have hlt : ¬ now.val < j.retryAfterUntil := by omega
    simp [readThrottled, wokenJob, hne, hle, hlt]

/-- The row is uploaded, its status is asked for and the answer is to wait. -/
theorem back_pressure_honoured_throttled : ∃ es w j, Run (schedulerSystem sampleScheduler) {} es w ∧
    w.store.db.jobs.get? 7 = some j ∧ j.retryAfterUntil = unixEpoch + 10 * second ∧
    j.retryAfterUntil ≤ j.nextAttempt := by
  obtain ⟨es, hrun, -⟩ := run_sampleReady
  have c₉ : exec sampleConfig sampleEnv (.lookup "tenant" 7) (sampleAt 5) = .ok (sampleAt 5, .job sampleSubmitting) := rfl
  have c₁₀ : exec sampleConfig sampleEnv (.recordSubmission "tenant" 7 3 { tasks := [⟨1, "gen"⟩] } .empty (5 * second))
      (sampleAt 5) = .ok (sampleAfter 0, .job sampleRemote) := rfl
  have c₁₁ : exec sampleConfig sampleEnv .maintainDeadlines (sampleAfter 0) =
      .ok (sampleAfter 1, .time sampleEnv.clock) := rfl
  have c₁₂ : exec sampleConfig sampleEnv (.maintainCleanup sampleEnv.clock) (sampleAfter 1) =
      .ok (sampleAfter 2, .unit) := rfl
  have c₁₃ : exec sampleConfig sampleEnv .markCleanupDeadlines (sampleAfter 2) = .ok (sampleAfter 3, .unit) := rfl
  have c₁₄ : exec sampleConfig sampleEnv .schedulerJobs (sampleAfter 3) = .ok (sampleAfter 4, .jobs [sampleRemote]) := rfl
  have c₁₅ : exec sampleConfig sampleEnv (.reserveRead sampleRemote (sampleDelay 0)) (sampleAfter 4) =
      .ok (sampleStore sampleAsked, .job sampleReserved) := rfl
  have c₁₆ : exec sampleConfig sampleEnv (.lookup "tenant" 7) (sampleStore sampleAsked) =
      .ok (sampleStore sampleAsked, .job sampleReserved) := rfl
  have c₁₇ : exec sampleConfig sampleEnv (.extendRetry sampleReserved (throttleDelay (10 * second)))
      (sampleStore sampleAsked) =
      .ok (sampleStore sampleThrottled, .job ((sampleStore sampleThrottled).db.jobs.rows.head (by decide))) := rfl
  have hrun := hrun.snoc (@Step.begin _ _ _ (fun _ => hour) 0 sampleQueued _ _ _ rfl (by decide) rfl rfl rfl
    (.ok sample_begin) rfl)
  have hrun := hrun.snoc (Step.openPayload (l := []) rfl rfl rfl (.ok sample_open))
  have hrun := hrun.snoc (Step.upload (l := []) rfl rfl)
  -- the task comes back and is recorded
  have hrun := hrun.snoc (@Step.submit _ _ [] [] _ [⟨1, "gen"⟩] none rfl rfl)
  have hrun := hrun.snoc (@Step.nextPriority _ _ _ (fun _ => hour) rfl (.inr rfl))
  have hrun := hrun.snoc (Step.receive (l := []) rfl rfl rfl)
  have hrun := hrun.snoc (Step.persistPending rfl)
  have hrun := hrun.snoc (Step.persist rfl sampleDelay_range)
  have hrun := hrun.snoc (Step.persistCall rfl (.ok c₉))
  have hrun := hrun.snoc (Step.persistCall rfl (.ok c₁₀))
  have hrun := hrun.snoc (Step.persistRet rfl)
  have hrun := hrun.snoc (Step.persisted rfl)
  have hrun := hrun.snoc (Step.maintainCall rfl (.ok c₁₁))
  have hrun := hrun.snoc (Step.maintainCall rfl (.ok c₁₂))
  have hrun := hrun.snoc (Step.maintainCall rfl (.ok c₁₃))
  -- its status is asked for, and the sandbox throttles
  have hrun := hrun.snoc (Step.dispatch rfl rfl (.ok c₁₄))
  have hrun := hrun.snoc (@Step.nextPriority _ _ _ (fun _ => hour) rfl (.inr rfl))
  have hrun := hrun.snoc (@Step.reserveRead _ _ _ (fun _ => hour) 0 sampleRemote _ _ sampleDelay rfl (by decide) rfl rfl
    (by decide) sampleDelay_range (.ok c₁₅))
  have hrun := hrun.snoc (@Step.answer _ _ [] [] _ (.other "") none .empty (some (.code .throttled (10 * second)))
    rfl rfl (by decide))
  have hrun := hrun.snoc (@Step.nextPriority _ _ _ (fun _ => hour) rfl (.inr rfl))
  have hrun := hrun.snoc (Step.receive (l := []) rfl rfl rfl)
  have hrun := hrun.snoc (Step.persistPending rfl)
  have hrun := hrun.snoc (Step.persist rfl sampleDelay_range)
  have hrun := hrun.snoc (Step.persistCall rfl (.ok c₁₆))
  have hrun := hrun.snoc (Step.persistCall rfl (.ok c₁₇))
  exact ⟨_, _, (sampleStore sampleThrottled).db.jobs.rows.head (by decide), hrun, rfl, by decide,
    (back_pressure_honoured hrun).1 7 _ rfl⟩

end MS.Cape
