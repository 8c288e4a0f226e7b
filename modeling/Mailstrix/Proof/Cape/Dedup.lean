import Mailstrix.Proof.Cape.History

/-!
# Deduplication is exact

* `dedup_exact`: at most one row of a key is reusable, a published row that has stopped being so never
  is again, and every publication returns the one reusable row of its key.
-/

namespace MS.Cape

open Framework Spec

variable {cfg : StoreConfig} {s s' : Store} {op : StoreOp}
variable {ingress : List Job} {j j' : Job} {id : JobID} {env : Env}

/-- No two reusable rows have the same key. -/
def Store.Unique (s : Store) : Prop :=
  ∀ id id' j j', s.db.jobs.get? id = some j → s.db.jobs.get? id' = some j' →
    j.ledger.reusable = true → j'.ledger.reusable = true → dedupKey j = dedupKey j' → id = id'

theorem terminate_texts (j : Job) (st : JobState) (c : Code) (now : Nat) :
    dedupKey (terminate j st c now) = dedupKey j ∧ (terminate j st c now).staticVerdict = j.staticVerdict := by
  simp only [terminate]
  split_ifs <;> exact ⟨rfl, rfl⟩

/-- Only the publication gives a row its key; what is retained gives up its verdict. -/
theorem rowStep_texts (h : RowStep ingress op (some j) (some j')) :
    (dedupKey j' = dedupKey j ∧ (j'.staticVerdict = j.staticVerdict ∨ j'.staticVerdict = "")) ∨
      ∃ id v size digest, op = .publish id v size digest := by
  cases h with
  | publish => exact .inr ⟨_, _, _, _, rfl⟩
  | recordTerminal =>
    refine .inl ?_
    simp only [applyTerminalSubmission]
    split_ifs <;> exact ⟨rfl, .inl rfl⟩
  | @status _ j' _ status now _ _ _ hch =>
    refine .inl ?_
    show dedupKey j' = dedupKey j ∧ (j'.staticVerdict = _ ∨ _)
    rcases statusChange_cases hch with rfl | rfl | rfl
    · exact ⟨rfl, .inl rfl⟩
    · exact ⟨rfl, .inl rfl⟩
    · exact (terminate_texts ..).imp_right .inl
  | @report _ j' _ _ _ now _ _ _ hch =>
    refine .inl ?_
    show dedupKey j' = dedupKey j ∧ (j'.staticVerdict = _ ∨ _)
    rcases reportChange_cases hch with rfl | ⟨result, -, rfl⟩
    · exact (terminate_texts ..).imp_right .inl
    · exact (terminate_texts j .completed .empty now.val).imp_right .inl
  | cancel | expire => exact .inl ((terminate_texts ..).imp_right .inl)
  | minimize => exact .inl ⟨rfl, .inr rfl⟩
  | _ => exact .inl ⟨rfl, .inl rfl⟩

theorem rowStep_dedupKey (h : RowStep ingress op (some j) (some j')) :
    dedupKey j' = dedupKey j ∨ ∃ id v size digest, op = .publish id v size digest :=
  (rowStep_texts h).imp_left And.left

/-- A staged row leaves that state only by its publication, or by being erased. -/
theorem rowStep_staged (hj : j.WF) (hs : j.state = .staging) (h : RowStep ingress op (some j) (some j')) :
    j'.state = .staging ∨ ∃ id v size digest, op = .publish id v size digest := by
  have hrec : ∀ v, recordable j v ≠ true := fun v hr => by
    rcases (hj.open_of_recordable hr).1.state with e | e | e <;> simp [hs, terminal] at e
  cases h with
  | publish => exact .inr ⟨_, _, _, _, rfl⟩
  | extendRetry => exact .inl hs
  | recordTerminal hr | recordMany hr | recordOwned hr | recordRequeue hr | recordUnsure hr => exact absurd hr (hrec _)
  | begin e | interrupted e | status e | report e | reportError e | deletion e | minimize e | reserveRead e
  | overdue e | callback e => simp [hs, terminal] at e
  | cancel e | expire e => exact absurd hs e

/-- A call other than a publication makes no row reusable. -/
theorem rowStep_reusable {x : Option Job} (hw : ∀ w ∈ ingress, w.Pristine) (hx : ∀ j, x = some j → j.WF ∧ j.id = id)
    (hop : ∀ id v size digest, op ≠ .publish id v size digest) (h : RowStep ingress op x (some j'))
    (hr : j'.ledger.reusable = true) : ∃ j, x = some j ∧ j.ledger.reusable = true ∧ dedupKey j = dedupKey j' := by
  obtain ⟨l₀, hl, hl₀⟩ := (rowStep_ledger hw hx h).reusable hr
  obtain ⟨j, rfl, rfl⟩ := Option.map_eq_some_iff.1 hl
  have hnot : ¬ ∃ id v size digest, op = .publish id v size digest := fun ⟨_, _, _, _, he⟩ => hop _ _ _ _ he
  refine ⟨j, rfl, ?_, ((rowStep_dedupKey h).resolve_right hnot).symm⟩
  refine hl₀.resolve_right fun hstaged => ?_
  have hs : j.state = .staging := by
    by_contra hne
    simp only [Job.ledger, life, hne, if_false] at hstaged
    split_ifs at hstaged
  have hs' := (rowStep_staged (hx j rfl).1 hs h).resolve_right hnot
  simp [Job.ledger, life, hs', Ledger.reusable] at hr

/-! ## Publication -/

theorem exec_publish {r : Ret} {v : String} {size : Int} {digest : String}
    (h : exec cfg env (.publish id v size digest) s = .ok (s', r)) :
    ∃ w ∈ s.mem.ingress, ∃ a, w.id = id ∧ r = .admission a ∧ publish env s.db w v size digest = .ok (s'.db, a) := by
  simp only [exec, bind_ok, need_ok, pure_ok, Prod.exists] at h
  obtain ⟨w, hw, db, a, hpub, he⟩ := h
  cases he
  refine ⟨w, List.mem_of_find?_eq_some hw, a, ?_, rfl, hpub⟩
  simpa using List.find?_some hw

/-- A publication returns the one reusable row of its key. -/
theorem publish_unique {w : Job} {v : String} {size : Int} {digest : String} {a : Admission} (hs : s.WF) (hu : s.Unique)
    (hw : w ∈ s.mem.ingress) (h : publish env s.db w v size digest = .ok (s'.db, a)) :
    dedupKey a.job = dedupKey { w with digest := digest } ∧ s'.db.jobs.get? a.job.id = some a.job ∧
      a.job.ledger.reusable = true ∧ (a.reused = true → s'.db.jobs = s.db.jobs) ∧ s'.Unique := by
  rcases publish_ok hw h with ⟨now, hre, hwaits, hmem, hkey, hr⟩ | ⟨now, hre, hjob, hnone, hrep⟩
  · have hget : s.db.jobs.get? a.job.id = some a.job := Table.mem_rows.1 hmem
    rw [reusable_eq (hs.rows _ _ hget)] at hr
    have hjobs := hwaits.jobs
    refine ⟨hkey, hjobs ▸ hget, hr, fun _ => hjobs, ?_⟩
    unfold Store.Unique
    rw [hjobs]
    exact hu
  · have hlive : a.job.ledger.reusable = true := by
      have hwf := (hs.ingress w hw).published v size digest
      rw [hjob, Job.ledger, (hwf.clear_of_unsent (.inr rfl)).account]
      rfl
    have hkey : dedupKey a.job = dedupKey { w with digest := digest } := by rw [hjob]; rfl
    refine ⟨hkey, hrep.get, hlive, fun ht => by simp [hre] at ht, ?_⟩
    -- any other reusable row of this key was there before, and the search would have found it
    have hother : ∀ id j, s'.db.jobs.get? id = some j → j.ledger.reusable = true → dedupKey j = dedupKey a.job →
        id = a.job.id := fun id j hj hr hk => by
      by_contra hne
      rw [hrep.other hne] at hj
      have hno := hnone j (Table.mem_of_get? hj) (hk.trans hkey)
      rw [reusable_eq (hs.rows _ _ hj), hr] at hno
      cases hno
    intro id id' j j' hj hj' hr hr' hk
    by_cases he : id = a.job.id
    · subst he
      rw [hrep.get] at hj
      cases hj
      exact (hother id' j' hj' hr' hk.symm).symm
    · by_cases he' : id' = a.job.id
      · subst he'
        rw [hrep.get] at hj'
        cases hj'
        exact absurd (hother id j hj hr hk) he
      · rw [hrep.other he] at hj
        rw [hrep.other he'] at hj'
        exact hu id id' j j' hj hj' hr hr' hk

/-! ## Every run -/

theorem exec_unique {r : Ret} (hs : s.WF) (hu : s.Unique) (h : exec cfg env op s = .ok (s', r)) : s'.Unique := by
  by_cases hop : ∃ id v size digest, op = .publish id v size digest
  · obtain ⟨id, v, size, digest, rfl⟩ := hop
    obtain ⟨w, hw, a, -, -, hpub⟩ := exec_publish h
    exact (publish_unique hs hu hw hpub).2.2.2.2
  · have hback : ∀ id j', s'.db.jobs.get? id = some j' → j'.ledger.reusable = true →
        ∃ j, s.db.jobs.get? id = some j ∧ j.ledger.reusable = true ∧ dedupKey j = dedupKey j' :=
      fun id j' hj' hr => by
        have hrow := exec_rows h id
        rw [hj'] at hrow
        rcases hrow with he | hstep
        · exact ⟨j', he.symm, hr, rfl⟩
        · exact rowStep_reusable hs.ingress (fun j hj => ⟨hs.rows id j hj, Table.key_of_get? hj⟩)
            (fun i v size digest he => hop ⟨i, v, size, digest, he⟩) hstep hr
    intro id id' j j' hj hj' hr hr' hk
    obtain ⟨j₁, hj₁, hr₁, hk₁⟩ := hback id j hj hr
    obtain ⟨j₂, hj₂, hr₂, hk₂⟩ := hback id' j' hj' hr'
    exact hu id id' j₁ j₂ hj₁ hj₂ hr₁ hr₂ (hk₁.trans (hk.trans hk₂.symm))

theorem step_unique {e : StoreEvent} (hs : s.WF) (hu : s.Unique)
    (h : (storeSystem cfg).step s e s') : s'.Unique := by
  cases e with
  | commit op r =>
    obtain ⟨env, h⟩ := h
    exact exec_unique hs hu h
  | lost op r =>
    obtain ⟨env, s₁, h, rfl⟩ := h
    exact fun id id' j j' => exec_unique hs hu h id id' j j'
  | crash =>
    cases h
    exact hu

theorem reachable_unique {s : Store} (h : Reachable (storeSystem cfg) s) : s.WF ∧ s.Unique := by
  refine Reachable.invariant (I := fun s => s.WF ∧ s.Unique) (fun s hs => ?_) (fun s e s' hI hstep => ?_) h
  · subst hs
    refine ⟨.empty, fun id id' j j' hj => ?_⟩
    cases hj
  · exact ⟨step_wf hI.1 hstep, step_unique hI.1 hI.2 hstep⟩

/-- A published row that is not reusable is not reusable later either. -/
theorem run_not_reusable {es : List StoreEvent} (hs : s.WF) (hj : s.db.jobs.get? id = some j)
    (hret : Ledger.Retired j.ledger) (h : Run ((storeSystem cfg).within (Present id)) s es s') :
    s'.WF ∧ ∃ j', s'.db.jobs.get? id = some j' ∧ Ledger.Retired j'.ledger := by
  refine h.preserve (P := fun s => s.WF ∧ ∃ j', s.db.jobs.get? id = some j' ∧ Ledger.Retired j'.ledger)
    (Q := fun _ => True) (fun s₁ e s₂ _ hP hstep => ?_) (fun _ _ => trivial) ⟨hs, j, hj, hret⟩
  obtain ⟨hwf, j₁, hj₁, hret₁⟩ := hP
  obtain ⟨-, hstep, hpres⟩ := hstep
  obtain ⟨j₂, hj₂⟩ := Option.isSome_iff_exists.1 hpres
  have hled := step_ledger hwf hstep id
  simp only [Store.ledger, hj₁, hj₂, Option.map_some] at hled
  exact ⟨step_wf hwf hstep, j₂, hj₂, hled.retired hret₁⟩

/-- Deduplication is exact.  In every reachable store and at every time at most one row of a key is
reusable; a published row that is not reusable never is again while it stays in the table; and the
publication of content answers with the only reusable row of its key, which was there already or is
the one just published. -/
theorem dedup_exact {cfg : StoreConfig} {es : List StoreEvent} {s : Store} (hs : Run (storeSystem cfg) {} es s) :
    (∀ now id id' j j', s.db.jobs.get? id = some j → s.db.jobs.get? id' = some j' → reusable j now = true →
      reusable j' now = true → dedupKey j = dedupKey j' → id = id') ∧
    (∀ now id j, s.db.jobs.get? id = some j → j.state ≠ .staging → reusable j now = false →
      ∀ es' s', Run ((storeSystem cfg).within (Present id)) s es' s' →
        ∃ j', s'.db.jobs.get? id = some j' ∧ ∀ now', reusable j' now' = false) ∧
    (∀ env id v size digest s' r, exec cfg env (.publish id v size digest) s = .ok (s', r) →
      ∃ w ∈ s.mem.ingress, ∃ a, w.id = id ∧ r = .admission a ∧
        dedupKey a.job = dedupKey { w with digest := digest } ∧ s'.db.jobs.get? a.job.id = some a.job ∧
        (a.reused = true → s.db.jobs.get? a.job.id = some a.job) ∧ (a.reused = false → a.job.id = id) ∧
        ∀ now id' j', s'.db.jobs.get? id' = some j' →
          (reusable j' now = true ∧ dedupKey j' = dedupKey a.job ↔ id' = a.job.id)) := by
  obtain ⟨hwf, hu⟩ := reachable_unique ⟨_, _, rfl, hs⟩
  refine ⟨fun now id id' j j' hj hj' hr hr' hk => ?_, fun now id j hj hst hr es' s' hrun => ?_,
    fun env id v size digest s' r h => ?_⟩
  · rw [reusable_eq (hwf.rows _ _ hj)] at hr
    rw [reusable_eq (hwf.rows _ _ hj')] at hr'
    exact hu id id' j j' hj hj' hr hr' hk
  · rw [reusable_eq (hwf.rows _ _ hj)] at hr
    have hlife : j.ledger.life ≠ .staged := by
      simp only [Job.ledger, life, hst, if_false]
      split_ifs <;> simp
    obtain ⟨hwf', j', hj', hret⟩ := run_not_reusable hwf hj (Ledger.retired_of_not_reusable hr hlife) hrun
    exact ⟨j', hj', fun now' => (reusable_eq (hwf'.rows _ _ hj') now').trans hret.not_reusable⟩
  · have hwf' : s'.WF := exec_wf hwf h
    obtain ⟨w, hw, a, rfl, rfl, hpub⟩ := exec_publish h
    obtain ⟨hkey, hget, hlive, hsame, hu'⟩ := publish_unique hwf hu hw hpub
    refine ⟨w, hw, a, rfl, rfl, hkey, hget, fun hre => hsame hre ▸ hget, fun hre => ?_, fun now id' j' hj' => ?_⟩
    · rcases publish_ok hw hpub with ⟨-, ht, -⟩ | ⟨-, -, hjob, -⟩
      · simp [ht] at hre
      · rw [hjob]
        rfl
    · rw [reusable_eq (hwf'.rows _ _ hj')]
      constructor
      · rintro ⟨hr, hk⟩
        exact hu' _ _ _ _ hj' hget hr hlive hk
      · rintro rfl
        rw [hget] at hj'
        cases hj'
        exact ⟨hlive, rfl⟩

/-- A second attachment with the content of a published one is staged. -/
def sampleSecond : List StoreOp :=
  [.reserve sampleRequest 7 1, .publish 7 "clean" 10 "abc", .reserve sampleRequest 8 2]

/-- The second attachment is answered with the row of the first, the only reusable one of its key. -/
theorem dedup_exact_second : ∃ s' a,
    exec sampleConfig sampleEnv (.publish 8 "clean" 10 "abc") (sampleStore sampleSecond) = .ok (s', .admission a) ∧
      a.reused = true ∧ a.job.id = 7 ∧ ∀ now id' j', s'.db.jobs.get? id' = some j' →
        (reusable j' now = true ∧ dedupKey j' = dedupKey a.job ↔ id' = 7) := by
  have hrun : execAll sampleConfig sampleEnv sampleSecond {} = .ok (sampleStore sampleSecond) := rfl
  obtain ⟨es, hs⟩ := run_of_execAll hrun
  have hpub : exec sampleConfig sampleEnv (.publish 8 "clean" 10 "abc") (sampleStore sampleSecond) =
      .ok (sampleStore sampleSecond,
        .admission { job := (sampleStore sampleSecond).db.jobs.rows.head (by decide), reused := true }) := rfl
  obtain ⟨w, -, a, -, ha, -, -, -, -, honly⟩ := (dedup_exact hs).2.2 _ _ _ _ _ _ _ hpub
  cases ha
  exact ⟨_, _, hpub, rfl, rfl, honly⟩

end MS.Cape
