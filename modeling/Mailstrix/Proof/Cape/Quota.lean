import Mailstrix.Proof.Cape.Recover

/-!
# The store keeps within its quota

A reservation is checked before the size of the upload is known, against the largest attachment.  The
writer then stays below that size, publication lowers the reservation to the real one, and no other
step touches it.

* `quota_safe`: bytes and rows stay within the configuration, in total and for each tenant, no step
  but a reservation raises them, and every row has reserved what its file takes.
-/

namespace MS.Cape

open Framework

variable {e : SpoolEvent}
variable {q : EnqueueRequest} {c : Nat} {j j' : Job} {op : StoreOp} {v digest : String} {m : Machine}

/-- What a row reserves beside its payload. -/
def overhead : Int := jobMetadataLimit + jobResultLimit

/-- Rows of one tenant. -/
def ofTenant (tenant : String) (j : Job) : Bool := j.tenant = tenant

/-- Reserved bytes and rows, in total and for each tenant. -/
structure WithinQuota (cfg : StoreConfig) (t : Table Job.id) : Prop where
  bytes : reserved t.rows ≤ cfg.maxBytes
  tenantBytes : ∀ tenant, reserved (t.rows.filter (ofTenant tenant)) ≤ cfg.tenantBytes
  jobs : (t.rows.length : Int) ≤ cfg.maxJobs
  tenantJobs : ∀ tenant, ((t.rows.filter (ofTenant tenant)).length : Int) ≤ cfg.tenantJobs

/-- None of the sums has grown. -/
structure NotMore (t t' : Table Job.id) : Prop where
  bytes : reserved t'.rows ≤ reserved t.rows
  tenantBytes : ∀ tenant, reserved (t'.rows.filter (ofTenant tenant)) ≤ reserved (t.rows.filter (ofTenant tenant))
  jobs : t'.rows.length ≤ t.rows.length
  tenantJobs : ∀ tenant, (t'.rows.filter (ofTenant tenant)).length ≤ (t.rows.filter (ofTenant tenant)).length

theorem WithinQuota.mono {cfg : StoreConfig} {t t' : Table Job.id} (h : WithinQuota cfg t) (hle : NotMore t t') :
    WithinQuota cfg t' where
  bytes := hle.bytes.trans h.bytes
  tenantBytes tenant := (hle.tenantBytes tenant).trans (h.tenantBytes tenant)
  jobs := (Int.ofNat_le.2 hle.jobs).trans h.jobs
  tenantJobs tenant := (Int.ofNat_le.2 (hle.tenantJobs tenant)).trans (h.tenantJobs tenant)

theorem withinQuota_empty (cfg : StoreConfig) : WithinQuota cfg ∅ := by
  have h₁ := cfg.valid.maxBytes.1
  have h₂ := cfg.valid.tenantBytes.1
  have h₃ := cfg.valid.maxJobs.1
  have h₄ := cfg.valid.tenantJobs.1
  refine ⟨?_, fun _ => ?_, ?_, fun _ => ?_⟩
  all_goals
    change (0 : Int) ≤ _
    omega

/-! ## The sums as totals of the table -/

theorem reserved_eq_total (t : Table Job.id) (p : Job → Bool) :
    reserved (t.rows.filter p) = t.total p Job.reservedBytes := rfl

theorem length_eq_total (t : Table Job.id) (p : Job → Bool) :
    ((t.rows.filter p).length : Int) = t.total p fun _ => 1 := by
  simp [Table.total]

theorem filter_all (rows : List Job) : rows.filter (fun _ => true) = rows := List.filter_eq_self.2 fun _ _ => rfl

/-- Every row comes from one of the same tenant that has reserved no less. -/
theorem NotMore.of_rows {t t' : Table Job.id} (h0 : ∀ j ∈ t.rows, 0 ≤ j.reservedBytes)
    (h : ∀ id j', t'.get? id = some j' → ∃ j, t.get? id = some j ∧ j'.tenant = j.tenant ∧
      j'.reservedBytes ≤ j.reservedBytes) : NotMore t t' := by
  have hbytes : ∀ p : Job → Bool, (∀ j j' : Job, j'.tenant = j.tenant → p j = p j') →
      reserved (t'.rows.filter p) ≤ reserved (t.rows.filter p) := by
    intro p hp
    rw [reserved_eq_total, reserved_eq_total]
    refine Table.total_le (fun id j' hj' => ?_) h0
    obtain ⟨j, hj, ht, hr⟩ := h id j' hj'
    exact ⟨j, hj, hp j j' ht, hr⟩
  have hrows : ∀ p : Job → Bool, (∀ j j' : Job, j'.tenant = j.tenant → p j = p j') →
      (t'.rows.filter p).length ≤ (t.rows.filter p).length := by
    intro p hp
    rw [← Int.ofNat_le, length_eq_total, length_eq_total]
    refine Table.total_le (fun id j' hj' => ?_) fun _ _ => by decide
    obtain ⟨j, hj, ht, -⟩ := h id j' hj'
    exact ⟨j, hj, hp j j' ht, le_refl _⟩
  have hall : ∀ j j' : Job, j'.tenant = j.tenant → (fun _ : Job => true) j = (fun _ : Job => true) j' :=
    fun _ _ _ => rfl
  have hten : ∀ tenant, ∀ j j' : Job, j'.tenant = j.tenant → ofTenant tenant j = ofTenant tenant j' :=
    fun tenant j j' ht => by simp only [ofTenant, ht]
  refine ⟨?_, fun tenant => hbytes _ (hten tenant), ?_, fun tenant => hrows _ (hten tenant)⟩
  · simpa only [filter_all] using hbytes (fun _ => true) hall
  · simpa only [filter_all] using hrows (fun _ => true) hall

/-- A reservation was checked against every sum. -/
theorem reserve_within {cfg : StoreConfig} {env : Env} {db db' : Db} {id : JobID} (hq : WithinQuota cfg db.jobs)
    (h : reserve cfg env db q id c = .ok (db', j)) : WithinQuota cfg db'.jobs := by
  have hins := (reserve_ok h).2.1
  simp only [reserve, admissionGeneration, checkTenantDebt, bind_ok, check_ok, need_ok, pure_ok, Prod.exists,
    exists_const] at h
  obtain ⟨db₁, now, hnow, -, cap, -, -, ⟨hjobs, hown, hbytes, hownBytes⟩, -, -, -, jobs, -, he⟩ := h
  cases he
  rw [storeNow_jobs hnow] at hjobs hown hbytes hownBytes
  have hj : (withDeadlines (stagingJob cfg q id c) now).tenant = q.tenant := rfl
  have hr : (withDeadlines (stagingJob cfg q id c) now).reservedBytes = (stagingJob cfg q id c).reservedBytes := rfl
  have hadd := Table.total_insert hins
  have hown' : ∀ p : Job → Bool, p = ofTenant q.tenant → (fun j : Job => decide (j.tenant = q.tenant)) = p :=
    fun p hp => hp.symm ▸ rfl
  rw [hown' _ rfl] at hown hownBytes
  refine ⟨?_, fun tenant => ?_, ?_, fun tenant => ?_⟩
  · have h₁ := hadd (fun _ => true) Job.reservedBytes
    rw [← reserved_eq_total, ← reserved_eq_total, filter_all, filter_all, hr] at h₁
    simp only [if_true] at h₁
    change reserved jobs.rows ≤ _
    omega
  · have h₁ := hadd (ofTenant tenant) Job.reservedBytes
    rw [← reserved_eq_total, ← reserved_eq_total, hr] at h₁
    have hold := hq.tenantBytes tenant
    change reserved (jobs.rows.filter (ofTenant tenant)) ≤ _
    by_cases ht : q.tenant = tenant
    · subst ht
      simp only [ofTenant, hj, decide_true, if_true] at h₁ hownBytes ⊢
      omega
    · simp only [ofTenant, hj, ht, decide_false, Bool.false_eq_true, if_false] at h₁ hold ⊢
      omega
  · have hlen := Table.length_insert hins
    change (jobs.rows.length : Int) ≤ _
    have hlen' : jobs.rows.length = db.jobs.rows.length + 1 := hlen
    omega
  · have h₁ := hadd (ofTenant tenant) fun _ => 1
    rw [← length_eq_total, ← length_eq_total] at h₁
    have hold := hq.tenantJobs tenant
    change ((jobs.rows.filter (ofTenant tenant)).length : Int) ≤ _
    by_cases ht : q.tenant = tenant
    · subst ht
      simp only [ofTenant, hj, decide_true, if_true] at h₁ hown ⊢
      omega
    · simp only [ofTenant, hj, ht, decide_false, Bool.false_eq_true, if_false] at h₁ hold ⊢
      omega

/-! ## Rows -/

/-- A row covers its payload, and the largest attachment while the payload is being written. -/
structure Job.Covered (cfg : StoreConfig) (j : Job) : Prop where
  nonneg : 0 ≤ j.payloadBytes
  payload : j.payloadBytes + overhead ≤ j.reservedBytes
  staging : j.state = .staging → j.reservedBytes = cfg.maxAttachment + overhead

/-- A change that keeps the account of a row. -/
structure Job.Alike (j j' : Job) : Prop where
  tenant : j'.tenant = j.tenant
  reserved : j'.reservedBytes = j.reservedBytes
  payload : j'.payloadBytes = j.payloadBytes
  staging : j'.state = .staging → j.state = .staging

theorem Job.Alike.refl (j : Job) : j.Alike j := ⟨rfl, rfl, rfl, fun hs => hs⟩

theorem Job.Alike.trans {j₁ j₂ : Job} (h : j.Alike j₁) (h' : j₁.Alike j₂) : j.Alike j₂ :=
  ⟨h'.tenant.trans h.tenant, h'.reserved.trans h.reserved, h'.payload.trans h.payload,
    fun hs => h.staging (h'.staging hs)⟩

theorem Job.Covered.alike {cfg : StoreConfig} (h : j.Covered cfg) (ha : j.Alike j') :
    j'.Covered cfg where
  nonneg := by rw [ha.payload]; exact h.nonneg
  payload := by rw [ha.payload, ha.reserved]; exact h.payload
  staging hs := by rw [ha.reserved]; exact h.staging (ha.staging hs)

theorem Job.Covered.reserved {cfg : StoreConfig} (h : j.Covered cfg) : overhead ≤ j.reservedBytes := by
  have h₁ := h.nonneg
  have h₂ := h.payload
  omega

theorem overhead_nonneg : 0 ≤ overhead := by decide

theorem terminate_bytes (j : Job) (st : JobState) (c : Code) (now : Nat) :
    (terminate j st c now).reservedBytes = j.reservedBytes ∧
      (terminate j st c now).payloadBytes = j.payloadBytes := by
  simp only [terminate]
  split_ifs <;> exact ⟨rfl, rfl⟩

theorem Job.Alike.terminate (j : Job) {st : JobState} (hst : terminal st = true) (c : Code) (now : Nat) :
    j.Alike (terminate j st c now) := by
  obtain ⟨hr, hp⟩ := terminate_bytes j st c now
  refine ⟨terminate_tenant .., hr, hp, fun hs => ?_⟩
  rw [terminate_state] at hs
  rw [hs] at hst
  cases hst

/-- Only a publication changes what a row reserves. -/
theorem rowStep_alike {ingress : List Job} (hop : ∀ id v size digest, op ≠ .publish id v size digest)
    (h : RowStep ingress op (some j) (some j')) : j.Alike j' := by
  cases h with
  | publish => exact absurd rfl (hop _ _ _ _)
  | recordTerminal =>
    simp only [applyTerminalSubmission]
    split_ifs <;> exact ⟨rfl, rfl, rfl, id⟩
  | @status _ j₁ _ status now hs _ _ hch =>
    have hpolled : ∀ {a : Job}, j.Alike a → j.Alike (polledJob a) := fun ha =>
      ⟨ha.tenant, ha.reserved, ha.payload, ha.staging⟩
    refine hpolled ?_
    rcases statusChange_cases hch with rfl | rfl | rfl
    · exact ⟨rfl, rfl, rfl, (by simp)⟩
    · exact .refl _
    · exact .terminate _ rfl _ _
  | @report _ j₁ _ _ _ now hs _ _ hch =>
    rcases reportChange_cases hch with rfl | ⟨result, -, rfl⟩
    · have ha : j.Alike (terminate j .failed .protocol now.val) := .terminate j rfl _ _
      exact ⟨ha.tenant, ha.reserved, ha.payload, ha.staging⟩
    · have ha : j.Alike (terminate j .completed .empty now.val) := .terminate j rfl _ _
      exact ⟨ha.tenant, ha.reserved, ha.payload, ha.staging⟩
  | @cancel _ now =>
    have ha : j.Alike (terminate j .cancelled .empty now.val) := .terminate j rfl _ _
    exact ⟨ha.tenant, ha.reserved, ha.payload, ha.staging⟩
  | @expire _ now =>
    have ha : j.Alike (terminate j .expired .deadline now.val) := .terminate j rfl _ _
    exact ⟨ha.tenant, ha.reserved, ha.payload, ha.staging⟩
  | begin | recordMany | recordOwned | recordRequeue | recordUnsure | interrupted => exact ⟨rfl, rfl, rfl, (by rintro ⟨⟩)⟩
  | _ => exact ⟨rfl, rfl, rfl, id⟩

/-- Every row comes from an alike one. -/
def Kept (t t' : Table Job.id) : Prop := ∀ id j', t'.get? id = some j' → ∃ j, t.get? id = some j ∧ j.Alike j'

theorem Kept.refl (t : Table Job.id) : Kept t t := fun _ j hj => ⟨j, hj, .refl j⟩

theorem Kept.trans {t t₁ t₂ : Table Job.id} (h : Kept t t₁) (h' : Kept t₁ t₂) : Kept t t₂ := fun id j₂ hj₂ => by
  obtain ⟨j₁, hj₁, ha₁⟩ := h' id j₂ hj₂
  obtain ⟨j, hj, ha⟩ := h id j₁ hj₁
  exact ⟨j, hj, ha.trans ha₁⟩

theorem Kept.erase (t : Table Job.id) (id : JobID) : Kept t (t.erase id) := fun id' j hj => by
  rw [Table.get?_erase] at hj
  split_ifs at hj
  exact ⟨j, hj, .refl j⟩

/-- The rows of the tables are covered, and the sums keep within the quota. -/
structure Budget (cfg : StoreConfig) (t : Table Job.id) : Prop where
  rows : ∀ id j, t.get? id = some j → j.Covered cfg
  quota : WithinQuota cfg t

theorem Budget.nonneg {cfg : StoreConfig} {t : Table Job.id} (h : Budget cfg t) : ∀ j ∈ t.rows, 0 ≤ j.reservedBytes :=
  fun j hj => overhead_nonneg.trans (h.rows j.id j (Table.mem_rows.1 hj)).reserved

theorem Kept.notMore {cfg : StoreConfig} {t t' : Table Job.id} (hk : Kept t t') (h : Budget cfg t) : NotMore t t' := by
  refine .of_rows h.nonneg fun id j' hj' => ?_
  obtain ⟨j, hj, ha⟩ := hk id j' hj'
  exact ⟨j, hj, ha.tenant, ha.reserved.le⟩

theorem Budget.kept {cfg : StoreConfig} {t t' : Table Job.id} (h : Budget cfg t) (hk : Kept t t') : Budget cfg t' := by
  refine ⟨fun id j' hj' => ?_, h.quota.mono (hk.notMore h)⟩
  obtain ⟨j, hj, ha⟩ := hk id j' hj'
  exact (h.rows id j hj).alike ha

/-! ## Calls -/

section
variable {cfg : StoreConfig} {env : Env} {s s' : Store} {ret : Ret}

/-- A call that neither reserves nor publishes. -/
theorem exec_kept (h : exec cfg env op s = .ok (s', ret)) (hres : ∀ q id c, op ≠ .reserve q id c)
    (hpub : ∀ id v size digest, op ≠ .publish id v size digest) : Kept s.db.jobs s'.db.jobs := by
  intro id j' hj'
  rcases exec_rows h id with hsame | hstep
  · exact ⟨j', hsame ▸ hj', .refl j'⟩
  · rw [hj'] at hstep
    cases hx : s.db.jobs.get? id with
    | none =>
      rw [hx] at hstep
      obtain ⟨_, q, id', c, _, rfl, -⟩ := rowStep_insert hstep
      exact absurd rfl (hres q id' c)
    | some j =>
      rw [hx] at hstep
      exact ⟨j, rfl, rowStep_alike hpub hstep⟩

/-- A publication lowers the reservation of its staging row to the size of the payload. -/
theorem exec_publish_row {id : JobID} {size : Int} (hs : s.WF)
    (h : exec cfg env (.publish id v size digest) s = .ok (s', ret)) {id' : JobID} (hj' : s'.db.jobs.get? id' = some j') :
    s.db.jobs.get? id' = some j' ∨
      id' = id ∧ ∃ j, s.db.jobs.get? id' = some j ∧ j.state = .staging ∧ j'.tenant = j.tenant ∧
        j'.state = .queued ∧ j'.payloadBytes = size ∧ j'.reservedBytes = size + overhead := by
  rcases exec_rows h id' with hsame | hstep
  · exact .inl (hsame ▸ hj')
  · rw [hj'] at hstep
    generalize hx : s.db.jobs.get? id' = x at hstep
    cases hstep with
    | @publish w j _ _ _ hw hid ht hst =>
      refine .inr ⟨(Table.key_of_get? hx).symm.trans hid, j, rfl, hst.trans (hs.ingress w hw).state, ht.symm, rfl, rfl, ?_⟩
      simp only [publishedJob, overhead]
      omega

theorem exec_publish_notMore {id : JobID} {size : Int} (hs : s.WF) (hb : Budget cfg s.db.jobs)
    (hsize : size ≤ cfg.maxAttachment) (h : exec cfg env (.publish id v size digest) s = .ok (s', ret)) :
    NotMore s.db.jobs s'.db.jobs := by
  refine .of_rows hb.nonneg fun id' j' hj' => ?_
  rcases exec_publish_row hs h hj' with hj | ⟨-, j, hj, hst, ht, -, -, hr⟩
  · exact ⟨j', hj, rfl, le_refl _⟩
  · have hcov := (hb.rows id' j hj).staging hst
    exact ⟨j, hj, ht, by omega⟩

theorem exec_publish_budget {id : JobID} {size : Int} (hs : s.WF) (hb : Budget cfg s.db.jobs) (h0 : 0 ≤ size)
    (hsize : size ≤ cfg.maxAttachment) (h : exec cfg env (.publish id v size digest) s = .ok (s', ret)) :
    Budget cfg s'.db.jobs := by
  refine ⟨fun id' j' hj' => ?_, hb.quota.mono (exec_publish_notMore hs hb hsize h)⟩
  rcases exec_publish_row hs h hj' with hj | ⟨-, j, hj, hst, ht, hq, hp, hr⟩
  · exact hb.rows id' j' hj
  · refine ⟨by omega, by omega, fun hs' => ?_⟩
    rw [hq] at hs'
    cases hs'

theorem exec_reserve_budget {id : JobID} (hb : Budget cfg s.db.jobs)
    (h : exec cfg env (.reserve q id c) s = .ok (s', ret)) : Budget cfg s'.db.jobs := by
  simp only [exec, bind_ok, pure_ok, Prod.exists] at h
  obtain ⟨-, -, db, j, hres, he⟩ := h
  cases he
  obtain ⟨⟨now, rfl⟩, hins, -⟩ := reserve_ok hres
  refine ⟨fun id' j' hj' => ?_, reserve_within hb.quota hres⟩
  rw [Table.get?_insert hins] at hj'
  split_ifs at hj'
  · cases hj'
    have hmax := cfg.valid.maxAttachment.1
    have ho := overhead_nonneg
    have hr : (withDeadlines (stagingJob cfg q id c) now).reservedBytes = cfg.maxAttachment + overhead := by
      simp only [withDeadlines, stagingJob, overhead]
      omega
    have hp : (withDeadlines (stagingJob cfg q id c) now).payloadBytes = 0 := rfl
    exact ⟨hp.ge, by omega, fun _ => hr⟩
  · exact hb.rows id' j' hj'

end

/-! ## Files -/

/-- The bytes of a file and the overhead are covered by the row the file belongs to. -/
def Fits (t : Table Job.id) (s : Spool) : Prop :=
  ∀ n e j, s.live.get? n = some e → t.get? n.id = some j →
    ((s.files e.inode).data.length : Int) + overhead ≤ j.reservedBytes

section
variable {t t' : Table Job.id} {s s' : Spool}

/-- Files may go, and be renamed, as long as they keep to their job. -/
theorem Fits.spool (h : Fits t s) (hs : ∀ n e, s'.live.get? n = some e → ∃ n' e', n'.id = n.id ∧
    s.live.get? n' = some e' ∧ (s'.files e.inode).data.length = (s.files e'.inode).data.length) : Fits t s' := by
  intro n e j he hj
  obtain ⟨n', e', hid, he', hlen⟩ := hs n e he
  rw [hlen]
  exact h n' e' j he' (hid ▸ hj)

theorem Fits.kept (h : Fits t s) (hk : Kept t t') : Fits t' s := by
  intro n e j' he hj'
  obtain ⟨j, hj, ha⟩ := hk n.id j' hj'
  rw [ha.reserved]
  exact h n e j he hj

theorem Fits.sync (h : Fits t s) : Fits t s.sync := h.spool fun n e he => ⟨n, e, rfl, he, rfl⟩

theorem Fits.remove (h : Fits t s) (n : Name) : Fits t (s.removeStoreFile n).2 := by
  refine h.spool fun m e he => ?_
  rw [Spool.live_removeStoreFile] at he
  split_ifs at he
  refine ⟨m, e, rfl, he, ?_⟩
  rcases Spool.removeStoreFile_cases (s := s) n with hr | ⟨hr, -⟩
  · rw [hr]; rfl
  · rw [hr]

/-- The content of one file changes. -/
theorem Fits.update (h : Fits t s) {i : Inode} {f : File}
    (hi : ∀ n e j, s.live.get? n = some e → e.inode = i → t.get? n.id = some j →
      (f.data.length : Int) + overhead ≤ j.reservedBytes) :
    Fits t { s with files := Function.update s.files i f } := by
  intro n e j he hj
  have he : s.live.get? n = some e := he
  by_cases heq : e.inode = i
  · have hlen := hi n e j he heq hj
    subst heq
    simpa using hlen
  · have hlen := h n e j he hj
    simpa [Function.update_of_ne heq] using hlen

end

/-! ## The running store -/

/-- What a writer has counted so far. -/
def Phase.size : Phase → Nat
  | .writing _ size | .synced _ size | .renamed _ size | .durable _ size => size
  | .staged | .stopped => 0

structure Spooled.Budget (cfg : StoreConfig) (w : Spooled) : Prop where
  jobs : MS.Cape.Budget cfg w.store.db.jobs
  files : Fits w.store.db.jobs w.spool
  writers : ∀ id ph, w.writers id = some ph → (ph.size : Int) ≤ cfg.maxAttachment

section
variable {cfg : StoreConfig} {codec : Codec} {w : Spooled} {id : JobID} {s : Store} {r : Option Ret}

/-- A writer has moved on. -/
theorem Spooled.Budget.writer (h : w.Budget cfg) {s' : Spool} {ph' : Option Phase}
    (hfits : Fits w.store.db.jobs s') (hph : ∀ ph, ph' = some ph → (ph.size : Int) ≤ cfg.maxAttachment) :
    ({ w with spool := s' }.write id ph').Budget cfg where
  jobs := h.jobs
  files := hfits
  writers := Spooled.write_cases hph fun id' ph _ => h.writers id' ph

/-- A call that neither reserves nor publishes. -/
theorem Spooled.Budget.commit (h : w.Budget cfg) {l : Lock} (hc : Commits cfg codec op w.store r s)
    (hres : ∀ q id c, op ≠ .reserve q id c) (hpub : ∀ id v size digest, op ≠ .publish id v size digest) :
    Spooled.Budget cfg { w with store := s, lock := l } := by
  obtain ⟨env, s₁, ret, -, hexec, hdb, -⟩ := hc.exec
  have hk := exec_kept hexec hres hpub
  rw [← hdb] at hk
  exact ⟨h.jobs.kept hk, h.files.kept hk, h.writers⟩

theorem Spooled.Budget.lock (h : w.Budget cfg) {s' : Spool} {l : Lock} (hfits : Fits w.store.db.jobs s') :
    Spooled.Budget cfg { w with spool := s', lock := l } := ⟨h.jobs, hfits, h.writers⟩

theorem Spooled.Budget.reserve (hi : w.Inv cfg) (h : w.Budget cfg)
    (hc : Commits cfg codec (.reserve q id c) w.store r s) :
    ({ w with store := s }.write id (r.map fun _ => .staged)).Budget cfg := by
  obtain ⟨env, s₁, ret, -, hexec, hdb, -⟩ := hc.exec
  have hjobs := exec_reserve_budget h.jobs hexec
  obtain ⟨j, hins, -, -, -⟩ := exec_reserve hexec
  rw [← hdb] at hins hjobs
  have hnone := Table.get?_of_insert hins
  have hstored : Spooled.Budget cfg { w with store := s } := by
    refine ⟨hjobs, fun n e j' he hj' => ?_, h.writers⟩
    -- the new row has no file yet
    obtain ⟨j₀, hj₀, -⟩ := hi.spool.live n e he
    have hne : j.id ≠ n.id := by
      intro heq
      rw [heq, hj₀] at hnone
      cases hnone
    have hj' : s.db.jobs.get? n.id = some j' := hj'
    rw [Table.get?_insert hins, if_neg hne] at hj'
    exact h.files n e j' he hj'
  refine hstored.writer hstored.files fun ph hph => ?_
  obtain ⟨_, -, rfl⟩ := Option.map_eq_some_iff.1 hph
  have := cfg.valid.maxAttachment.1
  simp only [Phase.size]
  omega

theorem Spooled.Budget.publish (hi : w.Inv cfg) (h : w.Budget cfg) {i : Inode} {size : Nat}
    (hw : w.writers id = some (.durable i size)) (hc : Commits cfg codec (.publish id v size digest) w.store r s) :
    ({ w with store := s }.write id (afterPublish r)).Budget cfg := by
  obtain ⟨env, s₁, ret, -, hexec, hdb, -⟩ := hc.exec
  have hsize : (size : Int) ≤ cfg.maxAttachment := h.writers id _ hw
  have hjobs := exec_publish_budget hi.wf h.jobs (Int.natCast_nonneg size) hsize hexec
  rw [← hdb] at hjobs
  obtain ⟨-, ⟨i', -, himage, hpay⟩, -⟩ := hi.writers id _ hw
  have hblob := himage _ Spool.image_live
  have hstored : Spooled.Budget cfg { w with store := s } := by
    refine ⟨hjobs, fun n e j' he hj' => ?_, h.writers⟩
    have he : w.spool.live.get? n = some e := he
    have hj' : s.db.jobs.get? n.id = some j' := hj'
    rw [hdb] at hj'
    rcases exec_publish_row hi.wf hexec hj' with hj | ⟨hid, j, hj, -, -, -, -, hr⟩
    · exact h.files n e j' he hj
    · -- the one file of the row is the payload
      have hn : n = ⟨id, .blob⟩ := by
        obtain ⟨nid, ext⟩ := n
        cases hid
        cases ext with
        | blob => rfl
        | tmp => rcases hi.spool.single nid with hnone | hnone
                 · rw [hnone] at he
                   cases he
                 · rw [hnone] at hblob
                   cases hblob
      subst hn
      rw [hblob] at he
      cases he
      have hlen := hpay.length
      change ((w.spool.files i').data.length : Int) + overhead ≤ _
      omega
  refine hstored.writer hstored.files fun ph hph => ?_
  have hph' : ph = .stopped := by
    unfold afterPublish at hph
    split at hph
    · split_ifs at hph
      cases hph
      rfl
    · cases hph
      rfl
  subst hph'
  have := cfg.valid.maxAttachment.1
  simp only [Phase.size]
  omega

theorem upStep_budget {w' : Spooled} (hi : w.Inv cfg) (h : w.Budget cfg)
    (hstep : UpStep cfg codec w e w') : w'.Budget cfg := by
  have hmax := cfg.valid.maxAttachment.1
  have hstop : ∀ ph : Phase, some Phase.stopped = some ph → (ph.size : Int) ≤ cfg.maxAttachment := by
    intro ph hph
    cases hph
    simp only [Phase.size]
    omega
  cases hstep with
  | @call op r s hl hop hc => exact h.commit hc (by rintro _ _ _ rfl; cases hop) (by rintro _ _ _ _ rfl; cases hop)
  | @callback key ev r s todo unsynced hl hc =>
    have hcall : Spooled.Budget cfg { w with store := s, lock := w.lock } := h.commit hc (by simp) (by simp)
    exact hcall
  | reserve hl hc => exact h.reserve hi hc
  | @create id hw htmp =>
    obtain ⟨⟨j₀, hj₀, -⟩, -⟩ := hi.writers id _ hw
    refine h.writer (fun n e j he hj => ?_) fun ph hph => ?_
    · have he : (w.spool.push (.create id ⟨id, w.spool.serial⟩)).live.get? n = some e := he
      rw [Spool.live_push, DirOp.apply, Table.get?_put] at he
      split_ifs at he
      · cases he
        have hcov := (h.jobs.rows n.id j hj).reserved
        simpa [Spool.create] using hcov
      · -- an older file has another inode
        have hmem := (hi.spool.tidy _ Spool.image_live).2 e (Table.mem_of_get? he)
        have hlt := hi.spool.fresh e.inode hmem
        have hne : e.inode ≠ ⟨id, w.spool.serial⟩ := by
          intro heq
          rw [heq] at hlt
          exact lt_irrefl _ hlt
        have hlen := h.files n e j he hj
        simpa [Spool.create, Function.update_of_ne hne] using hlen
    · cases hph
      simp only [Phase.size]
      omega
  | @write id i size bytes hw hle =>
    obtain ⟨⟨j₀, hj₀, hst⟩, hid, -, hlen, -⟩ := hi.writers id _ hw
    refine h.writer (h.files.update fun n e j he hei hj => ?_) fun ph hph => ?_
    · -- a name of the writer's file belongs to its staging row
      have hname := (hi.spool.tidy _ Spool.image_live).1.named e (Table.mem_of_get? he)
      rw [hei, hid, Table.key_of_get? he] at hname
      rw [← hname, hj₀] at hj
      cases hj
      have hcov := (h.jobs.rows id j₀ hj₀).staging hst
      simp only [List.length_append, hlen]
      push_cast
      omega
    · cases hph
      simp only [Phase.size]
      push_cast
      omega
  | @syncFile id i size hw hne =>
    refine h.writer (h.files.update fun n e j he hei hj => ?_) fun ph hph => ?_
    · subst hei
      exact h.files n e j he hj
    · cases hph
      have hsize : (size : Int) ≤ cfg.maxAttachment := h.writers id _ hw
      exact hsize
  | @rename id i size e hw he hblob =>
    refine h.writer (h.files.spool fun n e' he' => ?_) fun ph hph => ?_
    · have he' : (w.spool.push (.rename id e.inode)).live.get? n = some e' := he'
      rw [Spool.live_push, DirOp.apply, Table.get?_put] at he'
      split_ifs at he' with hn
      · cases he'
        have hid : id = n.id := congrArg Name.id hn
        exact ⟨⟨id, .tmp⟩, e, hid, he, rfl⟩
      · rw [Table.get?_erase] at he'
        split_ifs at he'
        exact ⟨n, e', rfl, he', rfl⟩
    · cases hph
      have hsize : (size : Int) ≤ cfg.maxAttachment := h.writers id _ hw
      exact hsize
  | @syncRenamed id i size hw =>
    refine h.writer h.files.sync fun ph hph => ?_
    cases hph
    have hsize : (size : Int) ≤ cfg.maxAttachment := h.writers id _ hw
    exact hsize
  | publish hl hw hv hd hc => exact h.publish hi hw hc
  | stop hw => exact h.writer h.files hstop
  | leave hw => exact h.writer h.files (by simp)
  | @clean id j hl hw =>
    have hw' : (w.write id none).Budget cfg := h.writer h.files (by simp)
    exact hw'.lock h.files
  | cleanTmp | cleanBlob | removeFile => exact h.lock (h.files.remove _)
  | cleanSync | removeSync => exact h.lock h.files.sync
  | cleanCommit hl hc => exact h.commit hc (by simp) (by simp)
  | maintain | unlock => exact h.lock h.files
  | maintainCommit hl hc => exact h.commit hc (by simp) (by simp)

/-- No step of an open store but a reservation raises a sum. -/
theorem upStep_notMore {w' : Spooled} (hi : w.Inv cfg) (h : w.Budget cfg)
    (hstep : UpStep cfg codec w e w') (hres : ∀ q id c, e ≠ .call (.reserve q id c)) :
    NotMore w.store.db.jobs w'.store.db.jobs := by
  have hsame : NotMore w.store.db.jobs w.store.db.jobs := (Kept.refl _).notMore h.jobs
  have hcall : ∀ {op : StoreOp} {r : Option Ret} {s : Store}, Commits cfg codec op w.store r s →
      (∀ q id c, op ≠ .reserve q id c) → (∀ id v size digest, op ≠ .publish id v size digest) →
      NotMore w.store.db.jobs s.db.jobs := by
    intro op r s hc hr hp
    obtain ⟨env, s₁, ret, -, hexec, hdb, -⟩ := hc.exec
    rw [hdb]
    exact (exec_kept hexec hr hp).notMore h.jobs
  cases hstep with
  | @call op r s hl hop hc =>
    exact hcall hc (fun q id c he => hres q id c (he ▸ rfl)) (by rintro _ _ _ _ rfl; cases hop)
  | callback hl hc => exact hcall hc nofun nofun
  | reserve => exact absurd rfl (hres _ _ _)
  | @publish id i size v digest r s hl hw hv hd hc =>
    obtain ⟨env, s₁, ret, -, hexec, hdb, -⟩ := hc.exec
    have hle := exec_publish_notMore hi.wf h.jobs (h.writers id _ hw) hexec
    rw [← hdb] at hle
    exact hle
  | cleanCommit hl hc | maintainCommit hl hc => exact hcall hc nofun nofun
  | _ => exact hsame

end

/-! ## Recovery -/

def Disk.Kept (d d' : Disk) : Prop := MS.Cape.Kept d.db.jobs d'.db.jobs

section
open Framework.Durable (Keeps keeps_pure keeps_act)

variable {α β : Type}

theorem keeps_bind {m : Recovery α} {f : α → Recovery β} (hm : Keeps Disk.Kept m) (hf : ∀ a, Keeps Disk.Kept (f a)) :
    Keeps Disk.Kept (m >>= f) := Keeps.bind MS.Cape.Kept.trans hm hf

theorem keeps_ret (a : α) : Keeps Disk.Kept (pure a : Recovery α) := keeps_pure (fun _ => .refl _) a

theorem keeps_onSpool (f : Spool → α × Spool) : Keeps Disk.Kept (onSpool f) := by
  refine keeps_act (fun _ => .refl _) fun d a d' h => ?_
  cases h
  exact Kept.refl _

theorem keeps_require (p : Disk → Prop) [DecidablePred p] : Keeps Disk.Kept (require p) := by
  refine keeps_act (fun _ => .refl _) fun d a d' h => ?_
  obtain ⟨_, -, he⟩ := bind_ok.1 h
  cases he
  exact Kept.refl _

theorem keeps_transaction {f : Db → Except Err (Db × α)}
    (hf : ∀ db db' a, f db = .ok (db', a) → Kept db.jobs db'.jobs) : Keeps Disk.Kept (transaction f) := by
  refine keeps_act (fun _ => .refl _) fun d a d' h => ?_
  obtain ⟨⟨db, a'⟩, hdb, he⟩ := bind_ok.1 h
  cases he
  exact hf _ _ _ hdb

theorem reconcileRecoveryJob_keeps (env : Env) (j : Job) : Keeps Disk.Kept (reconcileRecoveryJob env j) := by
  unfold reconcileRecoveryJob recoverStaging
  split_ifs
  · refine keeps_bind ?_ fun _ => keeps_ret _
    refine keeps_bind (keeps_require _) fun _ => keeps_bind (keeps_onSpool _) fun _ =>
      keeps_bind (keeps_onSpool _) fun _ => keeps_bind (keeps_onSpool _) fun _ => keeps_transaction ?_
    intro db db' a h
    simp only [cleanupStaging, bind_ok, check_ok, need_ok, pure_ok, exists_const] at h
    obtain ⟨_, ⟨_, -, -, rfl⟩, he⟩ := h
    cases he
    exact .erase _ _
  · refine keeps_bind (keeps_transaction fun db db' j' h => ?_) fun _ => keeps_ret _
    have hrep : Replaced [] (.recoverSubmitting j.id) db db' j' := recoverSubmitting_ok h
    intro id j₁ hj₁
    rcases hrep.changes id with hsame | hstep
    · exact ⟨j₁, hsame ▸ hj₁, .refl j₁⟩
    · rw [hj₁] at hstep
      cases hx : db.jobs.get? id with
      | none =>
        rw [hx] at hstep
        obtain ⟨_, _, _, _, _, he, -⟩ := rowStep_insert hstep
        cases he
      | some j₀ =>
        rw [hx] at hstep
        exact ⟨j₀, rfl, rowStep_alike (fun _ _ _ _ he => by cases he) hstep⟩
  · exact keeps_bind (keeps_onSpool _) fun _ => keeps_ret _
  · exact keeps_ret _

theorem reconcileRecoveryJobs_keeps (env : Env) : ∀ js : List Job, Keeps Disk.Kept (reconcileRecoveryJobs env js)
  | [] => keeps_ret _
  | j :: js => keeps_bind (reconcileRecoveryJob_keeps env j) fun _ =>
      keeps_bind (reconcileRecoveryJobs_keeps env js) fun _ => keeps_ret _

theorem reconcileRecoveryEntry_keeps (jobs : List Job) (count : Nat) (n : Name) :
    Keeps Disk.Kept (reconcileRecoveryEntry jobs count n) := by
  refine keeps_bind (keeps_require _) fun _ => keeps_bind (keeps_act (fun _ => .refl _) fun d a d' h => ?_) fun f => ?_
  · obtain ⟨_, -, he⟩ := bind_ok.1 h
    cases he
    exact Kept.refl _
  · split
    · exact keeps_bind (keeps_require _) fun _ => keeps_ret _
    · exact keeps_bind (keeps_onSpool _) fun _ => keeps_ret _

theorem reconcileRecoveryEntries_keeps (jobs : List Job) : ∀ (ns : List Name) (count : Nat),
    Keeps Disk.Kept (reconcileRecoveryEntries jobs count ns)
  | [], _ => keeps_ret _
  | n :: ns, count => keeps_bind (reconcileRecoveryEntry_keeps jobs (count + 1) n) fun _ =>
      keeps_bind (reconcileRecoveryEntries_keeps jobs ns (count + 1)) fun _ => keeps_ret _

/-- Recovery reserves nothing, wherever it fails. -/
theorem recover_keeps (env : Env) (order : Order) : Keeps Disk.Kept (recover env order) := by
  refine keeps_bind (keeps_bind (keeps_require _) fun _ => keeps_transaction fun db db' a h => ?_) fun _ =>
    keeps_bind (reconcileRecoveryJobs_keeps env _) fun _ => keeps_bind ?_ fun _ => keeps_require _
  · cases h
    exact .refl _
  · exact keeps_bind (keeps_onSpool _) fun _ => keeps_bind (reconcileRecoveryEntries_keeps _ _ _) fun _ =>
      keeps_bind (keeps_onSpool _) fun _ => keeps_ret _

end

/-- A settled spool holds nothing but the payloads of its rows. -/
theorem Disk.Settled.fits {cfg : StoreConfig} {d : Disk} (h : d.Settled) (hb : Budget cfg d.db.jobs) :
    Fits d.db.jobs d.spool := by
  intro n e j he hj
  have hid : e.name.id = j.id := by rw [Table.key_of_get? he, Table.key_of_get? hj]
  have hlen := h.sizes e (Table.mem_of_get? he) j (Table.mem_of_get? hj) hid
  have hcov := (hb.rows n.id j hj).payload
  omega

/-! ## Every run -/

/-- The tables of a machine. -/
def Machine.jobs : Machine → Table Job.id
  | .up w => w.store.db.jobs
  | .down d => d.db.jobs

def Machine.Budget (cfg : StoreConfig) : Machine → Prop
  | .up w => w.Budget cfg
  | .down d => MS.Cape.Budget cfg d.db.jobs

theorem machineStep_budget {cfg : StoreConfig} {codec : Codec} {m' : Machine} (hi : m.Inv cfg) (h : m.Budget cfg)
    (hstep : MachineStep cfg codec m e m') : m'.Budget cfg := by
  cases hstep with
  | run hstep => exact upStep_budget hi h hstep
  | @crash w d hc =>
    change MS.Cape.Budget cfg d.db.jobs
    rw [hc.db]
    exact Spooled.Budget.jobs h
  | @crashAgain env order d t d' henv ht hc =>
    change MS.Cape.Budget cfg d'.db.jobs
    rw [hc.db]
    exact MS.Cape.Budget.kept h ((recover_keeps env order d).1 t ht)
  | @reopen env order d d' henv hok =>
    have hrec : Durable.Correct (Disk.Inv cfg) (recover env order) d _ := recover_correct henv hi
    obtain ⟨-, _, d₁, hd₁, -, hsettled⟩ := hrec
    rw [hok] at hd₁
    cases hd₁
    have hjobs := MS.Cape.Budget.kept h ((recover_keeps env order d).2 () d' hok)
    exact ⟨hjobs, hsettled.fits hjobs, nofun⟩

theorem machineStep_notMore {cfg : StoreConfig} {codec : Codec} {m' : Machine} (hi : m.Inv cfg) (h : m.Budget cfg)
    (hstep : MachineStep cfg codec m e m') (hres : ∀ q id c, e ≠ .call (.reserve q id c)) : NotMore m.jobs m'.jobs := by
  cases hstep with
  | run hstep => exact upStep_notMore hi h hstep hres
  | @crash w d hc =>
    change NotMore w.store.db.jobs d.db.jobs
    rw [hc.db]
    exact (Kept.refl _).notMore (Spooled.Budget.jobs h)
  | @crashAgain env order d t d' henv ht hc =>
    change NotMore d.db.jobs d'.db.jobs
    rw [hc.db]
    exact Kept.notMore ((recover_keeps env order d).1 t ht) h
  | @reopen env order d d' henv hok => exact Kept.notMore ((recover_keeps env order d).2 () d' hok) h

theorem run_budget {cfg : StoreConfig} {codec : Codec} {es : List SpoolEvent}
    (hrun : Run (spoolSystem cfg codec) (.down {}) es m) : m.Inv cfg ∧ m.Budget cfg := by
  refine Reachable.invariant (I := fun m => m.Inv cfg ∧ m.Budget cfg) (fun m hm => ?_)
    (fun m e m' hm hstep => ⟨machineStep_inv hm.1 hstep, machineStep_budget hm.1 hm.2 hstep⟩) ⟨_, es, rfl, hrun⟩
  cases hm
  refine ⟨empty_inv cfg, ?_⟩
  change MS.Cape.Budget cfg ({} : Disk).db.jobs
  exact ⟨fun id j hj => (by cases hj), withinQuota_empty cfg⟩

/-- Quota safety.  In every state of a store that started empty, with any calls, concurrent uploads,
power failures and recoveries, the reserved bytes and the rows keep within the configuration, in
total and for each tenant.  Every file of an open store is covered by its row's reservation, together
with the limits for metadata and result.  No step but a reservation raises any of the sums. -/
theorem quota_safe {cfg : StoreConfig} {codec : Codec} {es : List SpoolEvent} {m : Machine}
    (hrun : Run (spoolSystem cfg codec) (.down {}) es m) :
    WithinQuota cfg m.jobs ∧
    (∀ id j, m.jobs.get? id = some j → jobMetadataLimit + jobResultLimit ≤ j.reservedBytes) ∧
    (∀ w, m = .up w → ∀ n e j, w.spool.live.get? n = some e → w.store.db.jobs.get? n.id = some j →
      ((w.spool.files e.inode).data.length : Int) + jobMetadataLimit + jobResultLimit ≤ j.reservedBytes) ∧
    (∀ e m', (spoolSystem cfg codec).step m e m' → (∀ q id c, e ≠ .call (.reserve q id c)) →
      NotMore m.jobs m'.jobs) := by
  obtain ⟨hi, h⟩ := run_budget hrun
  have hjobs : Budget cfg m.jobs := by
    cases m with
    | up w => exact Spooled.Budget.jobs h
    | down d => exact h
  refine ⟨hjobs.quota, fun id j hj => (hjobs.rows id j hj).reserved, ?_,
    fun e m' hstep hres => machineStep_notMore hi h hstep hres⟩
  · rintro w rfl n e j he hj
    have hfits := Spooled.Budget.files h n e j he hj
    simp only [overhead] at hfits
    omega

/-- The payload of the published row is three bytes long. -/
theorem quota_safe_published : ∃ es w j, Run (spoolSystem sampleConfig sampleCodec) (.down {}) es (.up w) ∧
    w.store.db.jobs.get? 7 = some j ∧ reserved w.store.db.jobs.rows ≤ sampleConfig.maxBytes ∧
    3 + jobMetadataLimit + jobResultLimit ≤ j.reservedBytes := by
  obtain ⟨es, phase, hrun⟩ := sample_published
  obtain ⟨hquota, -, hfile, -⟩ := quota_safe hrun
  exact ⟨es, _, (sampleStore [sampleReserve, samplePublish]).db.jobs.rows.head (by decide), hrun, rfl, hquota.bytes,
    hfile _ rfl ⟨7, .blob⟩ ⟨⟨7, .blob⟩, ⟨7, 0⟩⟩ _ rfl rfl⟩

end MS.Cape
