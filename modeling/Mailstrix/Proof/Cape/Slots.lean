import Mailstrix.Proof.Cape.History

/-!
# Upload slots

A process counts the uploads it has begun in memory, by job id, while the rows of these jobs are
cancelled, expired and maintained.  `slots_bounded` says that the count is that of the attempts begun
and not recorded, in every state of a process whose commits report their outcome.
-/

namespace MS.Cape

open Framework Spec

variable {tenant : String} {op : StoreOp} {id : JobID} {version : Int}

/-! ## Open rows -/

theorem account_open {j : Job} : account j = .open ↔ j.submissionRecorded = false ∧ j.submissionVersion ≠ 0 := by
  unfold account
  split_ifs with h₁ h₂
  · simp [h₁]
  · simp [h₁]
  · simp [h₁]

/-- An open attempt takes its outcome, whatever the state of its job. -/
theorem recordable_of_open {j : Job} (h : j.WF) (ha : account j = .open) :
    recordable j j.submissionVersion = true := by
  obtain ⟨hrec, hne⟩ := account_open.1 ha
  have hopen : j.Open := by
    rcases h.account with a | a | a
    · exact absurd (a.recorded hne) (by simp [hrec])
    · exact a
    · exact absurd a.recorded (by simp [hrec])
  have hpos := h.attempt.1
  simp only [recordable, Bool.not_eq_true', decide_eq_false_iff_not]
  rintro (hv | hr | ⟨h₁, h₂, h₃⟩ | ⟨hv, -⟩)
  · omega
  · rw [hrec] at hr
    cases hr
  · rcases hopen.state with hs | hs | hs
    · exact h₁ hs
    · exact h₃ hs
    · simp [hs] at h₂
  · exact hv rfl

/-- Only a recorded outcome closes an attempt; until then its row stays. -/
theorem rowStep_open {ingress : List Job} {j : Job} {x' : Option Job}
    (hw : ∀ w ∈ ingress, w.Pristine) (hwf : j.WF) (ha : account j = .open) (h : RowStep ingress op (some j) x') :
    (∃ tenant v s o b, op = .recordSubmission tenant j.id v s o b) ∨
      ∃ j', x' = some j' ∧ account j' = .open ∧ j'.tenant = j.tenant := by
  have hopen : ¬ j.Clear := fun a => by
    rw [a.account] at ha
    cases ha
  -- the attempt and whether it is recorded are all the account depends on
  have hkeep : ∀ j', x' = some j' → j'.submissionRecorded = j.submissionRecorded →
      j'.submissionVersion = j.submissionVersion → j'.tenant = j.tenant →
      ∃ j', x' = some j' ∧ account j' = .open ∧ j'.tenant = j.tenant := by
    intro j' hj' hr hv ht
    refine ⟨j', hj', account_open.2 ?_, ht⟩
    rw [hr, hv]
    exact account_open.1 ha
  cases h with
  | @publish w _ v size digest hmem hid ht hs =>
    exact absurd (hwf.clear_of_unsent (.inl (hs.trans (hw w hmem).state))) hopen
  | cleanupStaging hs => exact absurd (hwf.clear_of_unsent (.inl hs)) hopen
  | begin hs => exact absurd (hwf.clear_of_unsent (.inr hs)) hopen
  | recordTerminal | recordMany | recordOwned | recordRequeue | recordUnsure => exact .inl ⟨_, _, _, _, _, rfl⟩
  | @status _ j₁ _ status now hs =>
    have hno := (hwf.owing_of_remote (.inl hs)).account
    rw [ha] at hno
    cases hno
  | report hs | reportError hs =>
    have hno := (hwf.owing_of_remote (.inr hs)).account
    rw [ha] at hno
    cases hno
  | cancel | expire => exact .inr (hkeep _ rfl (terminate_recorded ..) (terminate_attempt ..) (terminate_tenant ..))
  | forget ht hd => exact absurd (clear_of_deletable hwf ht hd) hopen
  | interrupted | deletion | minimize | reserveRead | extendRetry | overdue | callback =>
    exact .inr (hkeep _ rfl rfl rfl rfl)

/-! ## The map of live attempts -/

/-- What a call does to the map: an attempt enters it, or leaves it with its outcome. -/
def liveAfter (op : StoreOp) (live : List (JobID × String)) : List (JobID × String) :=
  match op with
  | .beginSubmission tenant id _ => (id, tenant) :: live.filter fun a => a.1 ≠ id
  | .recordSubmission _ id _ _ _ _ => live.filter fun a => a.1 ≠ id
  | _ => live

theorem exec_live {cfg : StoreConfig} {env : Env} {s s' : Store} {r : Ret}
    (h : exec cfg env op s = .ok (s', r)) : s'.mem.liveAttempts = liveAfter op s.mem.liveAttempts := by
  cases op with
  | beginSubmission tenant id version =>
    simp only [exec, bind_ok, pure_ok, Prod.exists] at h
    obtain ⟨db, j, hb, he⟩ := h
    cases he
    simp only [beginSubmission, bind_ok, check_ok, readJob_ok, pure_ok, Prod.exists, exists_const] at hb
    obtain ⟨j₀, ⟨hj, rfl⟩, -, -, -, db₁, now, -, -, -, -, -, -, db₂, -, he⟩ := hb
    cases he
    have hid : j₀.id = id := Table.key_of_get? hj
    have hid' : (submittingJob j₀ now).id = id := hid
    simp only [liveAfter, hid']
    rfl
  | recordSubmission tenant id version sub o b =>
    simp only [exec, bind_ok, pure_ok, Prod.exists] at h
    obtain ⟨db, j, hb, he⟩ := h
    cases he
    have hrep : Replaced s.mem.ingress (.recordSubmission tenant id version sub o b) s.db db j := recordSubmission_ok hb
    obtain ⟨j₀, hj₀, hstep⟩ := hrep.row
    have hid : j.id = id := by
      have hkey := Table.key_of_get? hj₀
      generalize hop : StoreOp.recordSubmission tenant id version sub o b = op at hstep
      generalize hx : some j = x at hstep
      cases hstep <;> cases hop <;> exact hkey.symm
    simp only [liveAfter, hid]
  | _ =>
    rw [(exec_executed h).mem]
    cases r <;> rfl

/-- An attempt begins only where a slot is free, in total and for its tenant. -/
theorem exec_begin_free {cfg : StoreConfig} {env : Env} {s s' : Store} {r : Ret}
    (h : exec cfg env (.beginSubmission tenant id version) s = .ok (s', r)) :
    (s.mem.liveAttempts.length : Int) < cfg.submissionConcurrency ∧
      ((s.mem.liveAttempts.filter fun a => a.2 = tenant).length : Int) < cfg.tenantSubmissionConcurrency := by
  simp only [exec, beginSubmission, bind_ok, check_ok, pure_ok, Prod.exists, exists_const] at h
  obtain ⟨db, j, ⟨j₀, -, -, -, -, db₁, now, -, -, -, hfree, -⟩, -⟩ := h
  exact hfree

/-! ## Attempts begun and not recorded -/

/-- This step begins an attempt of `id`. -/
def StoreEvent.Begins (id : JobID) (tenant : String) (e : StoreEvent) : Prop :=
  ∃ version ret, e = .commit (.beginSubmission tenant id version) ret

/-- This step records the outcome of an attempt of `id`. -/
def StoreEvent.Records (id : JobID) (e : StoreEvent) : Prop :=
  ∃ tenant v s o b ret, e = .commit (.recordSubmission tenant id v s o b) ret

/-- The process has begun an attempt of `id` and not recorded its outcome. -/
def Occupied (es : List StoreEvent) (id : JobID) (tenant : String) : Prop :=
  Since (StoreEvent.Begins id tenant) (StoreEvent.Records id) es

theorem occupied_begin {es : List StoreEvent} {id id' : JobID} {tenant tenant' : String} {r : Ret} :
    Occupied (es ++ [.commit (.beginSubmission tenant id version) r]) id' tenant' ↔
      (id' = id ∧ tenant' = tenant) ∨ Occupied es id' tenant' := by
  rw [Occupied, since_snoc]
  constructor
  · rintro (⟨version', ret, he⟩ | ⟨ho, -⟩)
    · cases he
      exact .inl ⟨rfl, rfl⟩
    · exact .inr ho
  · rintro (⟨rfl, rfl⟩ | ho)
    · exact .inl ⟨_, _, rfl⟩
    · exact .inr ⟨ho, fun ⟨_, _, _, _, _, _, he⟩ => by cases he⟩

theorem occupied_record {es : List StoreEvent} {id id' : JobID} {tenant tenant' : String} {v : Int} {sub : Submission}
    {o : Code} {b : Int} {r : Ret} :
    Occupied (es ++ [.commit (.recordSubmission tenant id v sub o b) r]) id' tenant' ↔
      Occupied es id' tenant' ∧ id' ≠ id := by
  rw [Occupied, since_snoc]
  constructor
  · rintro (⟨version', ret, he⟩ | ⟨ho, hno⟩)
    · cases he
    · refine ⟨ho, ?_⟩
      rintro rfl
      exact hno ⟨_, _, _, _, _, _, rfl⟩
  · rintro ⟨ho, hne⟩
    refine .inr ⟨ho, ?_⟩
    rintro ⟨_, _, _, _, _, _, he⟩
    cases he
    exact hne rfl

theorem occupied_other {es : List StoreEvent} {r : Ret}
    (hb : ∀ t i v, op ≠ .beginSubmission t i v) (hr : ∀ t i v s o b, op ≠ .recordSubmission t i v s o b) :
    Occupied (es ++ [.commit op r]) id tenant ↔ Occupied es id tenant := by
  rw [Occupied, since_snoc]
  constructor
  · rintro (⟨version', ret, he⟩ | ⟨ho, -⟩)
    · cases he
      exact absurd rfl (hb _ _ _)
    · exact ho
  · intro ho
    refine .inr ⟨ho, ?_⟩
    rintro ⟨_, _, _, _, _, _, he⟩
    cases he
    exact hr _ _ _ _ _ _ rfl

/-- The map holds the attempts begun and not recorded, each with its open row, within the limits. -/
structure Slots (cfg : StoreConfig) (es : List StoreEvent) (s : Store) : Prop where
  wf : s.WF
  nodup : (s.mem.liveAttempts.map Prod.fst).Nodup
  row : ∀ a ∈ s.mem.liveAttempts, ∃ j, s.db.jobs.get? a.1 = some j ∧ account j = .open ∧ j.tenant = a.2
  occupied : ∀ id tenant, (id, tenant) ∈ s.mem.liveAttempts ↔ Occupied es id tenant
  total : (s.mem.liveAttempts.length : Int) ≤ cfg.submissionConcurrency
  own : ∀ tenant, ((s.mem.liveAttempts.filter fun a => a.2 = tenant).length : Int) ≤ cfg.tenantSubmissionConcurrency

section
variable {cfg : StoreConfig} {env : Env} {es : List StoreEvent} {s s' : Store} {r : Ret}

/-- The row of an upload that begins was queued, so no attempt of it is live. -/
theorem Slots.fresh (h : Slots cfg es s)
    (hexec : exec cfg env (.beginSubmission tenant id version) s = .ok (s', r)) :
    ∀ a ∈ s.mem.liveAttempts, a.1 ≠ id := by
  intro a ha he
  obtain ⟨j, j', hj, -, -, hstep⟩ := exec_begin hexec
  obtain ⟨j₀, hj₀, hopen, -⟩ := h.row a ha
  rw [he, hj] at hj₀
  cases hj₀
  cases hstep with
  | begin hs =>
    rw [((h.wf.rows _ j hj).clear_of_unsent (.inr hs)).account] at hopen
    cases hopen

/-- The row of a live attempt stays open under every call but its own record. -/
theorem Slots.row_kept (h : Slots cfg es s) (hexec : exec cfg env op s = .ok (s', r)) {a : JobID × String}
    (ha : a ∈ s.mem.liveAttempts) (hrec : ∀ tenant v sub o b, op ≠ .recordSubmission tenant a.1 v sub o b) :
    ∃ j, s'.db.jobs.get? a.1 = some j ∧ account j = .open ∧ j.tenant = a.2 := by
  obtain ⟨j, hj, hopen, ht⟩ := h.row a ha
  rcases exec_rows hexec a.1 with hkeep | hrow
  · exact ⟨j, hkeep.trans hj, hopen, ht⟩
  · rw [hj] at hrow
    rcases rowStep_open h.wf.ingress (h.wf.rows a.1 j hj) hopen hrow with ⟨_, _, _, _, _, he⟩ | ⟨j', hj', ho', ht'⟩
    · rw [Table.key_of_get? hj] at he
      exact absurd he (hrec _ _ _ _ _)
    · exact ⟨j', hj', ho', ht'.trans ht⟩

theorem Slots.begin (h : Slots cfg es s)
    (hexec : exec cfg env (.beginSubmission tenant id version) s = .ok (s', r)) :
    Slots cfg (es ++ [.commit (.beginSubmission tenant id version) r]) s' := by
  have hlive := exec_live hexec
  obtain ⟨hfree, hown⟩ := exec_begin_free hexec
  have hwf' := exec_wf h.wf hexec
  obtain ⟨j, j', hj, hj', -, hstep⟩ := exec_begin hexec
  have hnew := h.fresh hexec
  have hsame : (s.mem.liveAttempts.filter fun a => a.1 ≠ id) = s.mem.liveAttempts :=
    List.filter_eq_self.2 fun a ha => decide_eq_true (hnew a ha)
  rw [liveAfter, hsame] at hlive
  refine ⟨hwf', ?_, ?_, ?_, ?_, ?_⟩
  · rw [hlive, List.map_cons, List.nodup_cons]
    refine ⟨fun hmem => ?_, h.nodup⟩
    obtain ⟨a, ha, he⟩ := List.mem_map.1 hmem
    exact hnew a ha he
  · rw [hlive]
    intro a ha
    rcases List.mem_cons.1 ha with rfl | ha
    · cases hstep with
      | begin => exact ⟨_, hj', ((hwf'.rows _ _ hj').open_of_submitting rfl).account, rfl⟩
    · exact h.row_kept hexec ha (by simp)
  · intro id' tenant'
    rw [hlive, occupied_begin, List.mem_cons, Prod.mk.injEq, h.occupied]
  · rw [hlive, List.length_cons]
    push_cast
    omega
  · intro tenant'
    have hle := h.own tenant'
    rw [hlive, List.filter_cons]
    split_ifs with ht
    · have ht : tenant = tenant' := of_decide_eq_true ht
      subst ht
      rw [List.length_cons]
      push_cast
      omega
    · exact hle

/-- A call that begins nothing: slots may be freed, and the attempts that are left keep their rows. -/
theorem Slots.other (h : Slots cfg es s) (hexec : exec cfg env op s = .ok (s', r))
    {es' : List StoreEvent} (hsub : s'.mem.liveAttempts.Sublist s.mem.liveAttempts)
    (hrec : ∀ a ∈ s'.mem.liveAttempts, ∀ tenant v sub o b, op ≠ .recordSubmission tenant a.1 v sub o b)
    (hocc : ∀ id tenant, (id, tenant) ∈ s'.mem.liveAttempts ↔ Occupied es' id tenant) : Slots cfg es' s' := by
  refine ⟨exec_wf h.wf hexec, h.nodup.sublist (hsub.map _), fun a ha => ?_, hocc, ?_, fun tenant => ?_⟩
  · exact h.row_kept hexec (hsub.subset ha) (hrec a ha)
  · have hle := h.total
    have hlen := hsub.length_le
    omega
  · have hle := h.own tenant
    have hlen := (hsub.filter fun a => decide (a.2 = tenant)).length_le
    omega

theorem Slots.step (h : Slots cfg es s) (hexec : exec cfg env op s = .ok (s', r)) :
    Slots cfg (es ++ [.commit op r]) s' := by
  have hlive := exec_live hexec
  by_cases hb : ∃ tenant id version, op = .beginSubmission tenant id version
  · obtain ⟨tenant, id, version, rfl⟩ := hb
    exact h.begin hexec
  by_cases hr : ∃ tenant id v sub o b, op = .recordSubmission tenant id v sub o b
  · obtain ⟨tenant, id, v, sub, o, b, rfl⟩ := hr
    rw [liveAfter] at hlive
    refine h.other hexec (by rw [hlive]; exact List.filter_sublist) (fun a ha _ _ _ _ _ he => ?_) fun id' tenant' => ?_
    · rw [hlive] at ha
      cases he
      exact of_decide_eq_true (List.mem_filter.1 ha).2 rfl
    · rw [hlive, occupied_record, List.mem_filter, h.occupied, decide_eq_true_eq]
  · have hsame : s'.mem.liveAttempts = s.mem.liveAttempts := by
      rw [hlive]
      cases op with
      | beginSubmission => exact absurd ⟨_, _, _, rfl⟩ hb
      | recordSubmission => exact absurd ⟨_, _, _, _, _, _, rfl⟩ hr
      | _ => rfl
    refine h.other hexec (by rw [hsame]) (fun a _ tenant v sub o b he => hr ⟨_, _, _, _, _, _, he⟩) fun id tenant => ?_
    rw [hsame, h.occupied, occupied_other (fun t i v he => hb ⟨_, _, _, he⟩)
      (fun t i v s o b he => hr ⟨_, _, _, _, _, _, he⟩)]

end

/-! ## A process -/

/-- The steps of one process whose commits report their outcome. -/
def processSystem (cfg : StoreConfig) : System Store StoreEvent where
  init s := Reachable (storeSystem cfg) s ∧ s.mem = {}
  step s e s' := (∃ op ret, e = .commit op ret) ∧ (storeSystem cfg).step s e s'

theorem process_slots {cfg : StoreConfig} {es : List StoreEvent} {s₀ s : Store} (h₀ : (processSystem cfg).init s₀)
    (hrun : Run (processSystem cfg) s₀ es s) : Slots cfg es s := by
  refine Run.history (I := Slots cfg) ?_ (fun s es e s' _ h hstep => ?_) hrun
  · have h₁ := cfg.valid.submissionConcurrency.1
    have h₂ := cfg.valid.tenantSubmissionConcurrency.1
    refine ⟨reachable_wf h₀.1, ?_, ?_, fun id tenant => ?_, ?_, fun tenant => ?_⟩ <;> rw [h₀.2]
    · exact List.nodup_nil
    · exact fun a ha => (nomatch ha)
    · exact ⟨fun ha => (nomatch ha), fun ho => absurd ho not_since_nil⟩
    · change (0 : Int) ≤ _
      omega
    · change (0 : Int) ≤ _
      omega
  · obtain ⟨⟨op, ret, rfl⟩, env, hexec⟩ := hstep
    exact h.step hexec

/-- No attempt of the row is open. -/
def Store.Closed (s : Store) (id : JobID) : Prop := ∀ j, s.db.jobs.get? id = some j → account j ≠ .open

theorem applyTerminalSubmission_recorded (j p : Job) (s : Submission) (o : Code) (i : Bool) :
    (applyTerminalSubmission j p s o i).submissionRecorded = j.submissionRecorded := by
  simp only [applyTerminalSubmission]
  split_ifs <;> rfl

/-- A recorded outcome closes the attempt it belongs to. -/
theorem exec_record_closed {cfg : StoreConfig} {env : Env} {s s' : Store} {r : Ret}
    {v : Int} {sub : Submission} {o : Code} {b : Int} (hs : s.WF)
    (h : exec cfg env (.recordSubmission tenant id v sub o b) s = .ok (s', r)) : ¬ s.Closed id ∧ s'.Closed id := by
  obtain ⟨j, j', hj, hj', hrec, hstep⟩ := exec_record h
  refine ⟨fun hc => hc j hj ((hs.rows id j hj).open_of_recordable hrec).1.account, fun j₁ hj₁ ha => ?_⟩
  rw [hj'] at hj₁
  cases hj₁
  have hr : j'.submissionRecorded = true := by
    cases hstep with
    | recordTerminal => exact applyTerminalSubmission_recorded ..
    | recordMany | recordOwned | recordRequeue | recordUnsure => rfl
  rw [(account_open.1 ha).1] at hr
  cases hr

/-- A closed job stays closed until an attempt begins. -/
theorem exec_closed {cfg : StoreConfig} {env : Env} {s s' : Store} {r : Ret} (hs : s.WF)
    (h : exec cfg env op s = .ok (s', r)) (hb : ∀ tenant v, op ≠ .beginSubmission tenant id v)
    (hc : s.Closed id) : s'.Closed id := by
  intro j' hj' ha
  have hstep := exec_ledger hs h id
  have hne : effect op id ≠ .begin := fun he => by
    obtain ⟨tenant, version, rfl⟩ := effect_eq_begin he
    exact hb tenant version rfl
  rw [Store.ledger, Store.ledger, hj', Option.map_some] at hstep
  obtain ⟨l, hl, hla⟩ := hstep.opened hne ha
  obtain ⟨j, hj, rfl⟩ := Option.map_eq_some_iff.1 hl
  exact hc j hj hla

theorem process_closed {cfg : StoreConfig} {es : List StoreEvent} {s s' : Store}
    (h : Run (processSystem cfg) s es s') (hno : ∀ e ∈ es, ∀ tenant, ¬ e.Begins id tenant)
    (hs : s.WF ∧ s.Closed id) : s'.WF ∧ s'.Closed id := by
  refine h.preserve (P := fun s => s.WF ∧ s.Closed id) (fun s e s' hb hs hstep => ?_) hno hs
  obtain ⟨⟨op, ret, rfl⟩, env, hexec⟩ := hstep
  refine ⟨exec_wf hs.1 hexec, exec_closed hs.1 hexec (fun tenant v he => ?_) hs.2⟩
  subst he
  exact hb tenant ⟨v, ret, rfl⟩

/-- Upload concurrency.  In every state of a process whose commits report their outcome, the attempts
it has begun and not recorded are exactly the entries of its map, at most as many as configured, in
total and for each tenant.  Each of them still has its row, whatever became of the job, and that row
takes the outcome.  A slot is taken again only after its outcome was recorded, and no outcome is
recorded twice for one attempt. -/
theorem slots_bounded {cfg : StoreConfig} {es : List StoreEvent} {s₀ s : Store} (h₀ : (processSystem cfg).init s₀)
    (hrun : Run (processSystem cfg) s₀ es s) :
    (s.mem.liveAttempts.length : Int) ≤ cfg.submissionConcurrency ∧
    (∀ tenant, ((s.mem.liveAttempts.filter fun a => a.2 = tenant).length : Int) ≤ cfg.tenantSubmissionConcurrency) ∧
    (s.mem.liveAttempts.map Prod.fst).Nodup ∧
    (∀ id tenant, (id, tenant) ∈ s.mem.liveAttempts ↔ Occupied es id tenant) ∧
    (∀ id tenant, Occupied es id tenant → ∃ j, s.db.jobs.get? id = some j ∧ j.tenant = tenant ∧
      recordable j j.submissionVersion = true) ∧
    (∀ id tenant tenant' before b mid b' after, es = before ++ b :: (mid ++ b' :: after) →
      b.Begins id tenant → b'.Begins id tenant' → ∃ r ∈ mid, r.Records id) ∧
    (∀ id before r mid r' after, es = before ++ r :: (mid ++ r' :: after) → r.Records id → r'.Records id →
      ∃ b ∈ mid, ∃ tenant, b.Begins id tenant) := by
  have hslots := process_slots h₀ hrun
  refine ⟨hslots.total, hslots.own, hslots.nodup, hslots.occupied, ?_, ?_, ?_⟩
  · intro id tenant ho
    obtain ⟨j, hj, hopen, ht⟩ := hslots.row (id, tenant) ((hslots.occupied id tenant).2 ho)
    exact ⟨j, hj, ht, recordable_of_open (hslots.wf.rows id j hj) hopen⟩
  · rintro id tenant tenant' before b mid b' after rfl hb hb'
    rw [← List.cons_append, ← List.append_assoc] at hrun
    obtain ⟨s₁, hrun₁, hrest⟩ := hrun.split
    obtain ⟨s₂, ⟨-, hstep⟩, -⟩ := hrest.cons_inv
    obtain ⟨version, ret, rfl⟩ := hb'
    obtain ⟨env, hexec⟩ := hstep
    have h₁ := process_slots h₀ hrun₁
    by_contra hno
    push Not at hno
    have hocc : Occupied (before ++ b :: mid) id tenant := ⟨before, b, mid, rfl, hb, hno⟩
    exact h₁.fresh hexec (id, tenant) ((h₁.occupied id tenant).2 hocc) rfl
  · rintro id before r mid r' after rfl hr hr'
    obtain ⟨s₁, hrun₁, hrest⟩ := hrun.split
    obtain ⟨s₂, ⟨-, hstep⟩, hrest⟩ := hrest.cons_inv
    obtain ⟨s₃, hmid, hrest⟩ := hrest.split
    obtain ⟨s₄, ⟨-, hstep'⟩, -⟩ := hrest.cons_inv
    obtain ⟨_, _, _, _, _, _, rfl⟩ := hr
    obtain ⟨_, _, _, _, _, _, rfl⟩ := hr'
    obtain ⟨env, hexec⟩ := hstep
    obtain ⟨env', hexec'⟩ := hstep'
    have hwf := (process_slots h₀ hrun₁).wf
    have hclosed := exec_record_closed hwf hexec
    by_contra hno
    push Not at hno
    have h₃ : s₃.WF ∧ s₃.Closed id :=
      process_closed hmid hno ⟨exec_wf hwf hexec, hclosed.2⟩
    exact (exec_record_closed h₃.1 hexec').1 h₃.2

/-- A cancelled upload keeps its slot. -/
theorem slots_bounded_cancelled : ∃ es, Run (processSystem sampleConfig) {} es (sampleStore sampleCancelled) ∧
    Occupied es 7 "tenant" ∧ ∃ j, (sampleStore sampleCancelled).db.jobs.get? 7 = some j ∧ j.state = .cancelled ∧
      recordable j j.submissionVersion = true := by
  have hexec : execAll sampleConfig sampleEnv sampleCancelled {} = .ok (sampleStore sampleCancelled) := rfl
  obtain ⟨es, hrun⟩ := execAll_run (S := processSystem sampleConfig)
    (fun op _ _ r h => ⟨⟨op, r, rfl⟩, sampleEnv, h⟩) hexec
  have h₀ : (processSystem sampleConfig).init {} := ⟨⟨{}, [], rfl, .nil⟩, rfl⟩
  obtain ⟨-, -, -, hocc, hrow, -, -⟩ := slots_bounded h₀ hrun
  have hlive : Occupied es 7 "tenant" := (hocc 7 "tenant").1 (by decide)
  obtain ⟨j, hj, -, hrec⟩ := hrow 7 "tenant" hlive
  have hs : ((sampleStore sampleCancelled).db.jobs.get? 7).map Job.state = some .cancelled := rfl
  rw [hj] at hs
  exact ⟨es, hrun, hlive, j, hj, Option.some.inj hs, hrec⟩

end MS.Cape
