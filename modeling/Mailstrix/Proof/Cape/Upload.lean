import Mailstrix.Impl.Cape.Scheduler
import Mailstrix.Proof.Cape.History
import Mailstrix.Spec.Cape.Upload

/-!
# The scheduler uploads at most once

`World.desk` reads a world as an upload desk: the rows that are owed for, the upload requests and the
packets that wait to be persisted.  Every step of the process is a step of the desk (`step_desk`), so
what is proved of desks holds of the process.

* `upload_at_most_once`: the bound on the uploads of a job, in every run.
-/

namespace MS.Cape

open Framework Spec

variable {w : World} {id : JobID} {d : Desk JobID Int} {tenant : String} {q : Request}

/-! ## Attempts -/

/-- The attempt a row is owed for. -/
def attempt (j : Job) : Option Int := if account j = .clear then none else some j.submissionVersion

def Store.attempt (s : Store) (id : JobID) : Option Int := (s.db.jobs.get? id).bind MS.Cape.attempt

theorem attempt_eq_none {x : Option Job} : x.bind attempt = none ↔ ¬ Ledger.Owed (x.map Job.ledger) := by
  cases x with
  | none => simp [Ledger.Owed]
  | some j => by_cases h : account j = .clear <;> simp [attempt, Job.ledger, Ledger.Owed, h]

theorem attempt_of_open {j : Job} (h : j.Open) : attempt j = some j.submissionVersion := by
  simp [attempt, h.account]

/-- Only a new attempt, and the publication of a row that has none, change which attempt a row is at. -/
theorem rowStep_submissionVersion {ingress : List Job} {op : StoreOp} {j j' : Job}
    (h : RowStep ingress op (some j) (some j')) :
    j'.submissionVersion = j.submissionVersion ∨ op = .beginSubmission j.tenant j.id j.version ∨
      ∃ w ∈ ingress, j.state = w.state := by
  cases h with
  | publish hmem _ _ hs => exact .inr (.inr ⟨_, hmem, hs⟩)
  | begin => exact .inr (.inl rfl)
  | recordTerminal =>
    refine .inl ?_
    simp only [applyTerminalSubmission]
    split_ifs <;> rfl
  | @status _ j' _ status now _ _ _ hch =>
    refine .inl ?_
    show j'.submissionVersion = j.submissionVersion
    rcases statusChange_cases hch with rfl | rfl | rfl <;> simp
  | @report _ j' _ _ _ now _ _ _ hch =>
    refine .inl ?_
    show j'.submissionVersion = j.submissionVersion
    rcases reportChange_cases hch with rfl | ⟨result, -, rfl⟩ <;> simp
  | cancel | expire => exact .inl (terminate_attempt ..)
  | _ => exact .inl rfl

/-- A change that begins nothing keeps the attempt, or proves it unsent. -/
theorem rowStep_attempt {ingress : List Job} {op : StoreOp} {x x' : Option Job}
    (hw : ∀ w ∈ ingress, w.Pristine) (hx : ∀ j, x = some j → j.WF ∧ j.id = id) (h : RowStep ingress op x x')
    (he : effect op id ≠ .begin) :
    x'.bind attempt = x.bind attempt ∨ effect op id = .prove ∧ x'.bind attempt = none := by
  rcases (rowStep_ledger hw hx h).owed_iff he with howed | ⟨hp, hno⟩
  · by_cases hnone : x.bind attempt = none
    · exact .inl ((attempt_eq_none.2 fun ho => attempt_eq_none.1 hnone (howed.1 ho)).trans hnone.symm)
    · have hnone' : x'.bind attempt ≠ none := fun h' =>
        hnone (attempt_eq_none.2 fun ho => attempt_eq_none.1 h' (howed.2 ho))
      obtain ⟨j, rfl⟩ : ∃ j, x = some j := by cases x <;> simp at hnone ⊢
      obtain ⟨j', rfl⟩ : ∃ j', x' = some j' := by cases x' <;> simp at hnone' ⊢
      have hj : account j ≠ .clear := by simpa [attempt] using hnone
      have hj' : account j' ≠ .clear := by simpa [attempt] using hnone'
      obtain ⟨hwf, rfl⟩ := hx j rfl
      have hver : j'.submissionVersion = j.submissionVersion := by
        rcases rowStep_submissionVersion h with hv | rfl | ⟨w, hmem, hs⟩
        · exact hv
        · simp [effect] at he
        · have hstaging := hs.trans (hw w hmem).state
          exact absurd (hwf.clear_of_unsent (.inl hstaging)).account hj
      simp [attempt, hj, hj', hver]
  · exact .inr ⟨hp, attempt_eq_none.2 hno⟩

theorem exec_attempt {cfg : StoreConfig} {env : Env} {op : StoreOp} {s s' : Store} {r : Ret} (hs : s.WF)
    (h : exec cfg env op s = .ok (s', r)) (he : effect op id ≠ .begin) :
    s'.attempt id = s.attempt id ∨ effect op id = .prove ∧ s'.attempt id = none := by
  rcases exec_rows h id with hsame | hstep
  · exact .inl (by rw [Store.attempt, Store.attempt, hsame])
  · exact rowStep_attempt hs.ingress (fun j hj => ⟨hs.rows id j hj, Table.key_of_get? hj⟩) hstep he

/-- A committed attempt is owed for from then on; nothing was before. -/
theorem exec_begin_attempt {cfg : StoreConfig} {env : Env} {s s' : Store} {r : Ret}
    {version : Int} (hs : s.WF) (h : exec cfg env (.beginSubmission tenant id version) s = .ok (s', r)) :
    s.attempt id = none ∧ ∃ j, r = .job j ∧ j.id = id ∧ s'.attempt id = some j.submissionVersion := by
  have hwf' := exec_wf hs h
  obtain ⟨j, j', hj, hj', rfl, hstep⟩ := exec_begin h
  have hwf := hs.rows id j hj
  have hwf' := hwf'.rows id j' hj'
  cases hstep with
  | begin hq =>
    refine ⟨?_, _, rfl, rfl, ?_⟩
    · simp [Store.attempt, hj, attempt, (hwf.clear_of_unsent (.inr hq)).account]
    · rw [Store.attempt, hj']
      exact attempt_of_open (hwf'.open_of_submitting rfl)

/-- Only the attempt a row is owed for can be recorded. -/
theorem exec_record_attempt {cfg : StoreConfig} {env : Env} {s s' : Store} {r : Ret}
    {v : Int} {sub : Submission} {o : Code} {b : Int} (hs : s.WF)
    (h : exec cfg env (.recordSubmission tenant id v sub o b) s = .ok (s', r)) : s.attempt id = some v := by
  obtain ⟨j, j', hj, -, hrec, -⟩ := exec_record h
  obtain ⟨a, rfl⟩ := (hs.rows id j hj).open_of_recordable hrec
  simp [Store.attempt, hj, attempt_of_open a]

/-- A row that recovery finds submitting is owed for. -/
theorem exec_recover_attempt {cfg : StoreConfig} {env : Env} {s s' : Store} {r : Ret} (hs : s.WF)
    (h : exec cfg env (.recoverSubmitting id) s = .ok (s', r)) : ∃ v, s.attempt id = some v := by
  obtain ⟨db, j', hrec, -, -⟩ := withJob_ok h
  simp only [recoverSubmitting, bind_ok, check_ok, need_ok, pure_ok, exists_const] at hrec
  obtain ⟨j, hj, hsub, -⟩ := hrec
  exact ⟨j.submissionVersion, by simp [Store.attempt, hj, attempt_of_open ((hs.rows id j hj).open_of_submitting hsub)]⟩

/-! ## Calls -/

section
variable {cfg : StoreConfig} {op : StoreOp} {s s' : Store} {out : Outcome}

theorem call_wf (hs : s.WF) (h : Call cfg op s out s') : s'.WF := by
  cases h with
  | ok h | late h => exact exec_wf hs h
  | lost h =>
    have hwf := exec_wf hs h
    exact ⟨hwf.rows, hs.ingress⟩
  | failed => exact hs

theorem Outcome.committed_of_ok {r : Ret} (h : out.answer = .ok r) : out.committed = true := by
  cases out with
  | ok => rfl
  | late | lost | failed => cases h

/-- A committed call has run; its store differs at most in the memory. -/
theorem call_exec (h : Call cfg op s out s') (hc : out.committed = true) :
    ∃ env s₁ r, exec cfg env op s = .ok (s₁, r) ∧ s₁.db = s'.db ∧ ∀ r', out.answer = .ok r' → r = r' := by
  cases h with
  | ok h => exact ⟨_, _, _, h, rfl, fun r' he => by cases he; rfl⟩
  | late h | lost h => exact ⟨_, _, _, h, rfl, fun r' he => by cases he⟩
  | failed => cases hc

theorem call_failed (h : Call cfg op s out s') (hc : out.committed = false) : s' = s := by
  cases h <;> simp_all [Outcome.committed]

theorem attempt_congr (h : s.db = s'.db) : s.attempt = s'.attempt := by
  funext id
  simp only [Store.attempt, h]

/-- A call that begins and proves nothing leaves every attempt. -/
theorem call_attempt (hs : s.WF) (h : Call cfg op s out s') (hq : ∀ id, effect op id = .other) :
    s'.attempt = s.attempt := by
  cases hc : out.committed with
  | false => rw [call_failed h hc]
  | true =>
    obtain ⟨env, s₁, r, hexec, hdb, -⟩ := call_exec h hc
    rw [← attempt_congr hdb]
    funext id
    rcases exec_attempt hs hexec (by rw [hq id]; simp) with he | ⟨hp, -⟩
    · exact he
    · simp [hq id] at hp

end

/-! ## The calls of the programs -/

/-- The call neither begins an attempt, nor proves one unsent, nor recovers one. -/
def Quiet (op : StoreOp) : Prop := (∀ id, effect op id = .other) ∧ ∀ id, op ≠ .recoverSubmitting id

/-- The request is about a task at the sandbox. -/
def Kind.remote : Kind → Bool
  | .status | .report | .delete => true
  | .submit | .beginError => false

/-- A retry is put off only for the row of a packet about its remote task. -/
def RetryOf (r : Packet) (op : StoreOp) : Prop :=
  ∀ snapshot delay, op = .extendRetry snapshot delay → snapshot.id = r.job.id ∧ r.kind.remote = true

/-- The calls that persisting the packet `r` makes: only an upload's own packet can prove it unsent. -/
def PersistOp (r : Packet) (op : StoreOp) : Prop :=
  RetryOf r op ∧ (Quiet op ∨ ∃ tenant v s o b, op = .recordSubmission tenant r.job.id v s o b ∧
    (noSendProof s = true → r.kind = .submit))

/-- The calls of a maintenance round. -/
def MaintainOp (op : StoreOp) : Prop := Quiet op ∧ ∀ snapshot delay, op ≠ .extendRetry snapshot delay

/-- A lookup answers with the row it was asked for. -/
def Answers (op : StoreOp) (a : Except Err Ret) : Prop :=
  ∀ tenant id j, op = .lookup tenant id → a = .ok (.job j) → j.id = id

theorem call_answers {cfg : StoreConfig} {op : StoreOp} {s s' : Store} {out : Outcome} (h : Call cfg op s out s') :
    Answers op out.answer := by
  rintro tenant id j rfl ha
  cases h with
  | ok h =>
    cases ha
    simp only [exec, bind_ok, pure_ok, readJob_ok] at h
    obtain ⟨j', ⟨hj, -⟩, he⟩ := h
    cases he
    exact Table.key_of_get? hj
  | late | lost | failed => cases ha

theorem quiet_of_apiOp {op : StoreOp} (h : apiOp op = true) : Quiet op := by
  cases op <;> first | cases h; done | exact ⟨fun _ => rfl, fun _ => by simp⟩

section
variable {r : Packet} {j : Job}

theorem PersistOp.quiet {op : StoreOp} (h : ∀ id, effect op id = .other) (h' : ∀ id, op ≠ .recoverSubmitting id)
    (hno : ∀ snapshot delay, op ≠ .extendRetry snapshot delay) : PersistOp r op :=
  ⟨fun snapshot delay he => absurd he (hno snapshot delay), .inl ⟨h, h'⟩⟩

theorem persistThrottle_uses (hj : j.id = r.job.id) (hk : r.kind.remote = true) :
    (persistThrottle j r).Uses (PersistOp r) Answers := by
  unfold persistThrottle
  split
  · have hretry : ∀ delay, RetryOf r (.extendRetry j delay) := fun delay snapshot delay' he => by
      cases he
      exact ⟨hj, hk⟩
    exact Prog.uses_ask ⟨hretry _, .inl ⟨fun _ => rfl, by simp⟩⟩ fun o _ => trivial
  · trivial

theorem persistSubmit_uses {delay : Int → Duration} {r' : Packet} (hj : j.id = r.job.id)
    (hs : noSendProof r'.submission = true → r.kind = .submit) :
    (persistSubmit delay j r').Uses (PersistOp r) Answers := by
  unfold persistSubmit
  split
  · trivial
  · exact Prog.uses_ask ⟨fun _ _ he => (by cases he), .inr ⟨_, _, _, _, _, by rw [hj], hs⟩⟩ fun o _ => trivial

theorem persistRead_uses {op : StoreOp} (hj : j.id = r.job.id) (hk : r.kind.remote = true)
    (h : PersistOp r op) : (persistRead j r op).Uses (PersistOp r) Answers := by
  refine Prog.uses_ask h fun o _ => ?_
  split
  · exact persistThrottle_uses hj hk
  · trivial

theorem persistRow_uses {mapper : Option ResultMapper} {delay : Int → Duration} (hj : j.id = r.job.id) :
    (persistRow mapper delay r j).Uses (PersistOp r) Answers := by
  unfold persistRow
  split
  · split
    · trivial
    · exact persistSubmit_uses hj fun hp => by simp [noSendProof] at hp
  · exact persistSubmit_uses hj fun _ => by assumption
  · rename_i hkind
    have hk : r.kind.remote = true := by rw [hkind]; rfl
    split
    · trivial
    · refine Prog.uses_ask (.quiet (fun _ => rfl) (by simp) (by simp)) fun o _ => ?_
      split
      · exact persistThrottle_uses hj hk
      · trivial
  · rename_i hb hs hd
    have hk : r.kind.remote = true := by
      cases he : r.kind
      case submit => exact absurd he hs
      case beginError => exact absurd he hb
      all_goals rfl
    split
    · trivial
    · split
      · split <;> exact persistRead_uses hj hk (.quiet (fun _ => rfl) (by simp) (by simp))
      · split
        · exact persistRead_uses hj hk (.quiet (fun _ => rfl) (by simp) (by simp))
        · exact persistThrottle_uses hj hk

theorem persist_uses (mapper : Option ResultMapper) (delay : Int → Duration) (r : Packet) :
    (persist mapper delay r).Uses (PersistOp r) Answers := by
  have hlookup : (persistLookup mapper delay r).Uses (PersistOp r) Answers := by
    refine Prog.uses_ask (.quiet (fun _ => rfl) (by simp) (by simp)) fun o ho => ?_
    split
    · exact persistRow_uses (ho _ _ _ rfl rfl)
    · trivial
    · trivial
  unfold persist
  split
  · refine Prog.uses_ask (.quiet (fun _ => rfl) (by simp) (by simp)) fun o _ => ?_
    split
    · exact hlookup
    · trivial
  · exact hlookup

end

theorem maintenance_uses : maintenance.Uses MaintainOp Answers := by
  refine Prog.uses_ask ⟨⟨fun _ => rfl, by simp⟩, by simp⟩ fun o _ => ?_
  split
  · refine Prog.uses_ask ⟨⟨fun _ => rfl, by simp⟩, by simp⟩ fun o _ => ?_
    split
    · exact Prog.uses_ask ⟨⟨fun _ => rfl, by simp⟩, by simp⟩ fun o _ => trivial
    · trivial
  · trivial
  · trivial

/-! ## The process keeps its books -/

/-- What holds where `Run` is. -/
def Pc.Inv (pending : List Packet) : Pc → Prop
  | .persisting _ kept todo => (kept ++ todo).Sublist pending
  | .persistingOne _ kept r todo prog => (kept ++ r :: todo).Sublist pending ∧ prog.Uses (PersistOp r) Answers
  | .maintaining prog => prog.Uses MaintainOp Answers
  | .dispatching _ => pending = []
  | .reconciling _ r prog => pending = [] ∧ r.kind = .beginError ∧ prog.Uses (PersistOp r) Answers
  | _ => True

structure World.Inv (w : World) : Prop where
  wf : w.store.WF
  recovering : w.recovering = true → w.live = [] ∧ w.pending = [] ∧ w.pc = .stopped
  uploads : ∀ q ∈ w.live, q.stage = .opened ∨ q.stage = .uploading → q.packet.kind = .submit
  pc : w.pc.Inv w.pending

theorem World.Inv.up (h : w.Inv) (hpc : w.pc ≠ .stopped) : w.recovering = false := by
  cases hr : w.recovering with
  | false => rfl
  | true => exact absurd (h.recovering hr).2.2 hpc

/-- A change of one request. -/
theorem World.Inv.request (h : w.Inv) {l r : List Request} {q q' : Request} (hl : w.live = l ++ q :: r)
    (hq : q'.stage = .opened ∨ q'.stage = .uploading → q'.packet.kind = .submit) :
    ({ w with live := l ++ q' :: r } : World).Inv where
  wf := h.wf
  recovering hr := by simp [(h.recovering hr).1] at hl
  uploads p hp := by
    rcases List.mem_append.1 hp with hp | hp
    · exact h.uploads p (by simp [hl, hp])
    · rcases List.mem_cons.1 hp with rfl | hp
      · exact hq
      · exact h.uploads p (by simp [hl, hp])
  pc := h.pc

/-- A request has come back. -/
theorem World.Inv.giveBack (h : w.Inv) {l r : List Request} (hl : w.live = l ++ q :: r)
    {pc : Pc} (hup : w.recovering = false) (hpc : pc.Inv (w.pending ++ [q.packet])) :
    ({ w with live := l ++ r, pending := w.pending ++ [q.packet], pc := pc } : World).Inv where
  wf := h.wf
  recovering hr := by simp [hup] at hr
  uploads p hp := h.uploads p (by rcases List.mem_append.1 hp with hp | hp <;> simp [hl, hp])
  pc := hpc

/-- `Run` goes on, with other packets pending. -/
theorem World.Inv.move (h : w.Inv) (hup : w.recovering = false) {pending : List Packet} {pc : Pc}
    (hpc : pc.Inv pending) : ({ w with pending := pending, pc := pc } : World).Inv where
  wf := h.wf
  recovering hr := by simp [hup] at hr
  uploads := h.uploads
  pc := hpc

/-- The store answers; the rest of the process follows. -/
theorem World.Inv.call (h : w.Inv) {cfg : StoreConfig} {op : StoreOp} {out : Outcome} {s : Store}
    (hcall : Call cfg op w.store out s) : ({ w with store := s } : World).Inv where
  wf := call_wf h.wf hcall
  recovering := h.recovering
  uploads := h.uploads
  pc := h.pc

/-- A new request starts. -/
theorem World.Inv.send (h : w.Inv) (hup : w.recovering = false) (pass : Pass) (j reserved : Job) :
    (w.send pass j reserved).Inv where
  wf := h.wf
  recovering hr := by
    have hr : w.recovering = true := hr
    simp [hup] at hr
  uploads q hq hs := by
    rcases List.mem_cons.1 hq with rfl | hq
    · simp at hs
    · exact h.uploads q hq hs
  pc := h.pc

theorem step_inv {cfg : SchedulerConfig} {w w' : World} {l : Label} (h : w.Inv) (hs : Step cfg w l w') : w'.Inv := by
  have hpc := h.pc
  cases hs with
  | crash => exact ⟨⟨h.wf.rows, by simp⟩, fun _ => ⟨rfl, rfl, rfl⟩, by simp, trivial⟩
  | recover hr _ hcall | api hr _ hcall => exact h.call hcall
  | recovered hr => exact ⟨h.wf, by simp, h.uploads, h.pc⟩
  | @openPayload l r q out s hl _ hk hcall =>
    refine (h.call hcall).request hl fun _ => ?_
    unfold Request.opened
    split <;> exact hk
  | refuse hl | submit hl | answer hl => exact h.request hl (by simp [Request.unsent, Request.sent, Request.answered])
  | @upload l r q hl hst => exact h.request hl fun _ => h.uploads q (by simp [hl]) (.inl hst)
  | run hup => exact h.move hup trivial
  | cancelled hp | tick hp | joined hp | drained hp => exact h.move (h.up (by simp [hp])) trivial
  | persistPending hp | drain hp =>
    exact h.move (h.up (by simp [hp])) (by simp [Pc.Inv])
  | keep hp =>
    rw [hp] at hpc
    refine h.move (h.up (by simp [hp])) ?_
    simpa [Pc.Inv] using hpc
  | persist hp =>
    rw [hp] at hpc
    exact h.move (h.up (by simp [hp])) ⟨hpc, persist_uses ..⟩
  | persistCall hp hcall =>
    rw [hp] at hpc
    exact (h.call hcall).move (h.up (by simp [hp])) ⟨hpc.1, hpc.2.2 _ (call_answers hcall)⟩
  | @persistRet d kept todo r e hp =>
    rw [hp] at hpc
    refine h.move (h.up (by simp [hp])) ?_
    split
    · simpa [Pc.Inv] using hpc.1
    · exact ((List.sublist_cons_self r todo).append_left kept).trans hpc.1
  | @persisted d kept hp =>
    refine h.move (h.up (by simp [hp])) ?_
    split
    · trivial
    · exact maintenance_uses
  | maintainCall hp hcall =>
    rw [hp] at hpc
    exact (h.call hcall).move (h.up (by simp [hp])) (hpc.2 _ (call_answers hcall))
  | maintained hp => exact h.move (h.up (by simp [hp])) trivial
  | receive hp hl => exact h.giveBack hl (h.up (by simp [hp])) trivial
  | join hp hl =>
    refine h.giveBack hl (h.up (by simp [hp])) ?_
    rw [hp]
    trivial
  | @dispatch out s hp hpend hcall =>
    refine (h.call hcall).move (h.up (by simp [hp])) ?_
    split
    · exact hpend
    · trivial
  | @nextPriority pass clock hp =>
    rw [hp] at hpc
    refine h.move (h.up (by simp [hp])) ?_
    split
    · exact hpc
    · trivial
  | begin hp _ _ _ _ hcall =>
    rw [hp] at hpc
    have hup := h.up (by simp [hp])
    exact ((h.call hcall).send hup _ _ _).move hup hpc
  | beginError hp _ _ _ _ hcall =>
    rw [hp] at hpc
    exact (h.call hcall).move (h.up (by simp [hp])) ⟨hpc, rfl, persist_uses ..⟩
  | reconcileCall hp hcall =>
    rw [hp] at hpc
    exact (h.call hcall).move (h.up (by simp [hp])) ⟨hpc.1, hpc.2.1, hpc.2.2.2 _ (call_answers hcall)⟩
  | reconciled hp =>
    rw [hp] at hpc
    exact h.move (h.up (by simp [hp])) hpc.1
  | unreconciled hp => exact h.move (h.up (by simp [hp])) trivial
  | @reserveRead pass clock i j out s delay hp _ _ _ _ _ hcall =>
    rw [hp] at hpc
    have hup := h.up (by simp [hp])
    split
    · exact ((h.call hcall).send hup _ _ _).move hup hpc
    · exact (h.call hcall).move hup hpc

/-! ## The desk -/

/-- The ticket of an upload request.  A request that has ended counts as spent. -/
def Request.ticket (q : Request) : Ticket JobID Int where
  id := q.packet.job.id
  attempt := q.packet.job.submissionVersion
  sent := decide (q.stage = .uploading ∨ q.stage = .finished)

def tickets (live : List Request) : List (Ticket JobID Int) :=
  (live.filter fun q => q.packet.kind = .submit).map Request.ticket

/-- The ids of the uploads among the packets. -/
def submits (packets : List Packet) : List JobID := (packets.filter fun r => r.kind = .submit).map fun r => r.job.id

def World.desk (w : World) : Desk JobID Int := ⟨w.store.attempt, tickets w.live, submits w.pending⟩

/-- The attempt is committed and the caller is told that it failed. -/
def Outcome.ambiguous : Outcome → Bool
  | .late _ | .lost _ => true
  | _ => false

theorem Outcome.ambiguous_of_error {out : Outcome} {e : Err} (hc : out.committed = true)
    (ha : out.answer = .error e) : out.ambiguous = true := by
  cases out with
  | ok => cases ha
  | late | lost => rfl
  | failed => cases hc

def Label.event : Label → Desk.Event JobID Int
  | .upload id v => .upload id v
  | .call (.recordSubmission _ id v s _ _) out => if out.committed && noSendProof s then .prove id v else .other
  | .call (.beginSubmission _ id _) out => if out.ambiguous then .doom id else .other
  | .call (.recoverSubmitting id) out => if out.committed then .doom id else .other
  | _ => .other

theorem tickets_append (l r : List Request) : tickets (l ++ r) = tickets l ++ tickets r := by
  simp [tickets]

theorem tickets_cons (hq : q.packet.kind = .submit) (r : List Request) :
    tickets (q :: r) = q.ticket :: tickets r := by
  simp [tickets, hq]

theorem tickets_cons_of_ne (hq : q.packet.kind ≠ .submit) (r : List Request) :
    tickets (q :: r) = tickets r := by
  simp [tickets, hq]

theorem submits_append (l r : List Packet) : submits (l ++ r) = submits l ++ submits r := by
  simp [submits]

theorem submits_singleton {r : Packet} (hr : r.kind = .submit) : submits [r] = [r.job.id] := by
  simp [submits, hr]

theorem submits_singleton_of_ne {r : Packet} (hr : r.kind ≠ .submit) : submits [r] = [] := by
  simp [submits, hr]

theorem event_of_quiet {op : StoreOp} (h : Quiet op) (out : Outcome) : (Label.call op out).event = .other := by
  cases op with
  | beginSubmission tenant id v => simpa [effect] using h.1 id
  | recoverSubmitting id => exact absurd rfl (h.2 id)
  | recordSubmission tenant id v s o b =>
    have hs : noSendProof s = false := by simpa [effect] using h.1 id
    simp [Label.event, hs]
  | _ => rfl

section
variable {cfg : StoreConfig} {op : StoreOp} {s s' : Store} {out : Outcome}

theorem desk_quiet (hs : s.WF) (h : Call cfg op s out s') (hop : Quiet op)
    (hd : d.owed = s.attempt) : Desk.Step d (Label.call op out).event { d with owed := s'.attempt } := by
  rw [event_of_quiet hop, call_attempt hs h hop.1, ← hd]
  exact .stay

/-- A proof that the store has taken clears the account, or leaves it as it was. -/
theorem desk_record (hs : s.WF) {v : Int} {sub : Submission} {o : Code} {b : Int}
    (h : Call cfg (.recordSubmission tenant id v sub o b) s out s') (hp : noSendProof sub = true)
    (hd : d.owed = s.attempt) (hback : id ∈ d.back) :
    Desk.Step d (Label.call (.recordSubmission tenant id v sub o b) out).event { d with owed := s'.attempt } := by
  cases hc : out.committed with
  | false =>
    rw [call_failed h hc, ← hd]
    simp only [Label.event, hc, Bool.false_and, Bool.false_eq_true, if_false]
    exact .stay
  | true =>
    obtain ⟨env, s₁, r, hexec, hdb, -⟩ := call_exec h hc
    rw [← attempt_congr hdb]
    have howed : d.owed id = some v := hd ▸ exec_record_attempt hs hexec
    have hne : ∀ i, effect (.recordSubmission tenant id v sub o b) i ≠ .begin := fun i => by
      simp only [effect]
      split <;> simp
    have hother : ∀ i, i ≠ id → s₁.attempt i = d.owed i := fun i hi => by
      have he : effect (.recordSubmission tenant id v sub o b) i = .other := by simp [effect, hi.symm]
      rcases exec_attempt hs hexec (hne i) with hsame | ⟨hprove, -⟩
      · rw [hd, hsame]
      · simp [he] at hprove
    simp only [Label.event, hc, hp, Bool.and_self, if_true]
    rcases exec_attempt hs hexec (hne id) with hsame | ⟨-, hnone⟩
    · have hall : s₁.attempt = d.owed := funext fun i => by
        by_cases hi : i = id
        · rw [hi, hsame, hd]
        · exact hother i hi
      rw [hall]
      exact .proveInVain hback howed
    · have hall : s₁.attempt = Function.update d.owed id none := funext fun i => by
        by_cases hi : i = id
        · rw [hi, hnone, Function.update_self]
        · rw [hother i hi, Function.update_of_ne hi]
      rw [hall]
      exact .prove hback howed

theorem desk_persist (hs : s.WF) (h : Call cfg op s out s') {r : Packet} (hop : PersistOp r op)
    (hd : d.owed = s.attempt) (hback : r.kind = .submit → r.job.id ∈ d.back) :
    Desk.Step d (Label.call op out).event { d with owed := s'.attempt } := by
  rcases hop.2 with hq | ⟨tenant, v, sub, o, b, rfl, hproof⟩
  · exact desk_quiet hs h hq hd
  · by_cases hp : noSendProof sub = true
    · exact desk_record hs h hp hd (hback (hproof hp))
    · refine desk_quiet hs h ⟨fun id => ?_, by simp⟩ hd
      simp [effect, hp]

/-- A begun attempt: with a ticket when its caller learns of it, doomed when not. -/
theorem desk_begin (hs : s.WF) {version : Int}
    (h : Call cfg (.beginSubmission tenant id version) s out s') (hc : out.committed = true)
    (hd : d.owed = s.attempt) :
    d.owed id = none ∧ ∃ j, (∀ r, out.answer = .ok r → r = .job j) ∧ j.id = id ∧
      s'.attempt = Function.update d.owed id (some j.submissionVersion) := by
  obtain ⟨env, s₁, r, hexec, hdb, hans⟩ := call_exec h hc
  obtain ⟨hnone, j, rfl, hid, hsome⟩ := exec_begin_attempt hs hexec
  refine ⟨hd ▸ hnone, j, fun r' hr' => (hans r' hr').symm, hid, ?_⟩
  rw [← attempt_congr hdb]
  funext i
  by_cases hi : i = id
  · rw [hi, hsome, Function.update_self]
  · rw [Function.update_of_ne hi, hd]
    have he : effect (.beginSubmission tenant id version) i = .other := by simp [effect, Ne.symm hi]
    rcases exec_attempt hs hexec (by simp [he] : effect (.beginSubmission tenant id version) i ≠ .begin) with
      hsame | ⟨hprove, -⟩
    · exact hsame
    · simp [he] at hprove

end

/-- The scan selects an eligible row, or keeps what it had. -/
theorem selectFrom_ok {ok : Nat → Job → Bool} {last : String} : ∀ {jobs : List Job} {k : Nat} {selected : Option Nat}
    {i : Nat}, selectFrom ok last k selected jobs = some i →
      selected = some i ∨ ∃ n, i = k + n ∧ ∃ j, jobs[n]? = some j ∧ ok i j = true
  | [], k, selected, i, h => .inl h
  | j :: js, k, selected, i, h => by
    -- a row found further on is at an index one higher here
    have hlater : (∃ n, i = k + 1 + n ∧ ∃ j', js[n]? = some j' ∧ ok i j' = true) →
        ∃ n, i = k + n ∧ ∃ j', (j :: js)[n]? = some j' ∧ ok i j' = true := by
      rintro ⟨n, rfl, j', hj', hok⟩
      exact ⟨n + 1, by omega, j', hj', hok⟩
    unfold selectFrom at h
    split_ifs at h with hok hlast
    · cases h
      exact .inr ⟨0, rfl, j, rfl, hok⟩
    · rcases selectFrom_ok h with hsel | hfound
      · cases selected with
        | none =>
          cases hsel
          exact .inr ⟨0, rfl, j, rfl, hok⟩
        | some i' => exact .inl hsel
      · exact .inr (hlater hfound)
    · exact (selectFrom_ok h).imp_right hlater

/-- A row is dispatched only while no request for it is live. -/
theorem World.candidate_not_live {cfg : SchedulerConfig} {clock : Nat → Nat} {pass : Pass} {i : Nat}
    {j : Job} (h : w.candidate cfg clock pass = some i) (hj : pass.jobs[i]? = some j) :
    ∀ q ∈ w.live, q.packet.job.id ≠ j.id := by
  rcases selectFrom_ok h with hno | ⟨n, hn, j', hj', hok⟩
  · cases hno
  · rw [Nat.zero_add] at hn
    subst hn
    rw [hj] at hj'
    cases hj'
    simp only [eligible, Bool.and_eq_true, decide_eq_true_eq] at hok
    intro q hq he
    exact hok.1.1.1.2 (List.mem_map.2 ⟨q, hq, he⟩)

theorem mem_desk_ids (h : id ∈ w.desk.ids) :
    (∃ q ∈ w.live, q.packet.job.id = id) ∨ id ∈ submits w.pending := by
  rcases List.mem_append.1 h with h | h
  · obtain ⟨t, ht, rfl⟩ := List.mem_map.1 h
    obtain ⟨q, hq, rfl⟩ := List.mem_map.1 ht
    exact .inl ⟨q, (List.mem_filter.1 hq).1, rfl⟩
  · exact .inr h

/-- Where `Run` dispatches, the row it has chosen is nowhere in memory. -/
theorem World.Inv.not_mem_ids {cfg : SchedulerConfig} (h : w.Inv) {clock : Nat → Nat} {pass : Pass}
    {i : Nat} {j : Job} (hp : w.pc = .dispatching pass) (hi : w.candidate cfg clock pass = some i)
    (hj : pass.jobs[i]? = some j) : j.id ∉ w.desk.ids := fun hmem => by
  have hpend : w.pending = [] := by simpa [hp, Pc.Inv] using h.pc
  rcases mem_desk_ids hmem with ⟨q, hq, he⟩ | hmem
  · exact World.candidate_not_live hi hj q hq he
  · simp [hpend, submits] at hmem

/-- A step that only moves `Run`. -/
theorem desk_stay {w w' : World} (hst : w'.store = w.store) (hl : w'.live = w.live) (hp : w'.pending = w.pending) :
    Desk.Step w.desk .other w'.desk := by
  have : w'.desk = w.desk := by simp only [World.desk, hst, hl, hp]
  rw [this]
  exact .stay

/-- A request has ended without an upload of its own. -/
theorem desk_spend {l r : List Request} {q q' : Request} (hl : w.live = l ++ q :: r)
    (hkind : q'.packet.kind = q.packet.kind) (hid : q'.packet.job = q.packet.job) (hst : q'.stage = .finished) :
    Desk.Step w.desk .other ({ w with live := l ++ q' :: r } : World).desk := by
  simp only [World.desk, hl, tickets_append]
  by_cases hk : q.packet.kind = .submit
  · have ht : q'.ticket = { q.ticket with sent := true } := by simp [Request.ticket, hid, hst]
    rw [tickets_cons (hkind.trans hk), tickets_cons hk, ht]
    exact .spend rfl
  · have hk' : q'.packet.kind ≠ .submit := fun he => hk (hkind ▸ he)
    rw [tickets_cons_of_ne hk', tickets_cons_of_ne hk]
    exact .stay

theorem desk_giveBack {l r : List Request} (hl : w.live = l ++ q :: r) (pc : Pc) :
    Desk.Step w.desk .other
      ({ w with live := l ++ r, pending := w.pending ++ [q.packet], pc := pc } : World).desk := by
  simp only [World.desk, hl, tickets_append, submits_append]
  by_cases hk : q.packet.kind = .submit
  · rw [tickets_cons hk, submits_singleton hk]
    exact Desk.Step.giveBack (t := q.ticket) rfl
  · rw [tickets_cons_of_ne hk, submits_singleton_of_ne hk, List.append_nil]
    exact .stay

/-- Every step of the process is a step of its desk. -/
theorem step_desk {cfg : SchedulerConfig} {w w' : World} {l : Label} (h : w.Inv) (hs : Step cfg w l w') :
    Desk.Step w.desk l.event w'.desk := by
  have hpc := h.pc
  cases hs with
  | crash => exact .crash
  | @recover op out s hr hop hcall =>
    obtain ⟨hlive, hpend, -⟩ := h.recovering hr
    cases op <;> simp only [recoverOp, Bool.false_eq_true] at hop
    case cleanupStaging id => exact desk_quiet h.wf hcall ⟨fun _ => rfl, by simp⟩ rfl
    case recoverSubmitting id =>
      have hsame : s.attempt = w.store.attempt := call_attempt h.wf hcall fun _ => rfl
      have hdesk : ({ w with store := s } : World).desk = w.desk := by simp only [World.desk, hsame]
      rw [hdesk]
      cases hc : out.committed with
      | false =>
        simp only [Label.event, hc, Bool.false_eq_true, if_false]
        exact .stay
      | true =>
        obtain ⟨env, s₁, r, hexec, -⟩ := call_exec hcall hc
        obtain ⟨v, hv⟩ := exec_recover_attempt h.wf hexec
        simp only [Label.event, hc, if_true]
        exact .found hv (by simp [Desk.ids, World.desk, hlive, hpend, tickets, submits])
  | recovered | run | cancelled | persistPending | keep | persist | persistRet | maintained | tick | joined | drain
  | drained | nextPriority | reconciled => exact desk_stay rfl rfl rfl
  | api _ hop hcall => exact desk_quiet h.wf hcall (quiet_of_apiOp hop) rfl
  | @openPayload l r q out s hl hst hk hcall =>
    have hattempt : s.attempt = w.store.attempt := call_attempt h.wf hcall fun _ => rfl
    have hstore : ({ w with store := s, live := l ++ q.opened out.answer :: r } : World).desk =
        ({ w with live := l ++ q.opened out.answer :: r } : World).desk := by simp only [World.desk, hattempt]
    rw [hstore]
    show Desk.Step w.desk .other _
    unfold Request.opened
    split
    · have ht : ({ q with stage := .opened } : Request).ticket = q.ticket := by simp [Request.ticket, hst]
      have hdesk : ({ w with live := l ++ { q with stage := .opened } :: r } : World).desk = w.desk := by
        have hk' : ({ q with stage := .opened } : Request).packet.kind = .submit := hk
        simp only [World.desk, hl, tickets_append, tickets_cons hk', tickets_cons hk, ht]
      rw [hdesk]
      exact .stay
    · exact desk_spend hl rfl rfl rfl
  | refuse hl | submit hl | answer hl => exact desk_spend hl rfl rfl rfl
  | @upload l r q hl hst =>
    have hk := h.uploads q (by simp [hl]) (.inl hst)
    have hk' : ({ q with stage := .uploading } : Request).packet.kind = .submit := hk
    have ht : q.ticket = ⟨q.packet.job.id, q.packet.job.submissionVersion, false⟩ := by
      simp [Request.ticket, hst]
    have ht' : ({ q with stage := .uploading } : Request).ticket =
        ⟨q.packet.job.id, q.packet.job.submissionVersion, true⟩ := by simp [Request.ticket]
    simp only [World.desk, hl, tickets_append, tickets_cons hk, tickets_cons hk', ht, ht']
    exact .upload rfl
  | persistCall hp hcall =>
    rw [hp] at hpc
    refine desk_persist h.wf hcall hpc.2.1 rfl fun hk => ?_
    refine List.mem_map.2 ⟨_, List.mem_filter.2 ⟨hpc.1.subset (by simp), by simp [hk]⟩, rfl⟩
  | @persisted d kept hp =>
    rw [hp] at hpc
    simp only [Pc.Inv, List.append_nil] at hpc
    exact .settle ((hpc.filter _).map _)
  | maintainCall hp hcall =>
    rw [hp] at hpc
    exact desk_quiet h.wf hcall hpc.1.1 rfl
  | receive _ hl | join _ hl => exact desk_giveBack hl _
  | dispatch _ _ hcall => exact desk_quiet h.wf hcall ⟨fun _ => rfl, by simp⟩ rfl
  | @begin pass clock i j reserved out s hp _ hi hj hk hcall hans =>
    have hc := Outcome.committed_of_ok hans
    have hout : out.ambiguous = false := by cases out <;> first | rfl | cases hans
    obtain ⟨hnone, j', hret, hid, hattempt⟩ := desk_begin h.wf hcall hc (d := w.desk) rfl
    cases hret _ hans
    simp only [Label.event, hout, Bool.false_eq_true, if_false]
    have hk' : ({ packet := { requestFor j with job := reserved } } : Request).packet.kind = .submit := hk
    simp only [World.desk, World.send, tickets_cons hk', hattempt, Request.ticket, hid]
    exact .begin hnone (h.not_mem_ids hp hi hj)
  | @beginError pass clock i j out s e delay hp _ hi hj hk hcall hans =>
    cases hc : out.committed with
    | false =>
      have hout : out.ambiguous = false := by cases out <;> first | rfl | cases hc
      simp only [Label.event, hout, Bool.false_eq_true, if_false]
      exact desk_stay (call_failed hcall hc) rfl rfl
    | true =>
      have hout := Outcome.ambiguous_of_error hc hans
      obtain ⟨hnone, j', -, -, hattempt⟩ := desk_begin h.wf hcall hc (d := w.desk) rfl
      simp only [Label.event, hout, if_true, World.desk, hattempt]
      exact .doomed hnone (h.not_mem_ids hp hi hj)
  | reconcileCall hp hcall =>
    rw [hp] at hpc
    exact desk_persist h.wf hcall hpc.2.2.1 rfl fun hk => by simp [hpc.2.1] at hk
  | @unreconciled pass r e hp =>
    rw [hp] at hpc
    have hback : submits (w.pending ++ [r]) = submits w.pending := by
      rw [submits_append, submits_singleton_of_ne (by simp [hpc.2.1]), List.append_nil]
    have : ({ w with pending := w.pending ++ [r], pc := .selecting } : World).desk = w.desk := by
      simp only [World.desk, hback]
    rw [this]
    exact .stay
  | @reserveRead pass clock i j out s delay hp _ _ _ hk _ hcall =>
    have hattempt : s.attempt = w.store.attempt := call_attempt h.wf hcall fun _ => rfl
    show Desk.Step w.desk .other _
    split
    · rename_i reserved _
      have hk' : ({ packet := { requestFor j with job := reserved } } : Request).packet.kind ≠ .submit := hk
      simp only [World.desk, World.send, tickets_cons_of_ne hk', hattempt]
      exact .stay
    · simp only [World.desk, hattempt]
      exact .stay

/-! ## Every run -/

theorem run_desk {cfg : SchedulerConfig} {es : List Label} (h : Run (schedulerSystem cfg) {} es w) :
    Run Desk.system {} (es.map Label.event) w.desk := by
  have hinit : ({} : World).Inv := ⟨.empty, fun _ => ⟨rfl, rfl, rfl⟩, by simp, trivial⟩
  exact (h.simulate (I := World.Inv) (f := World.desk) (g := Label.event)
    (fun _ _ _ hI hstep => ⟨step_inv hI hstep, step_desk hI hstep⟩) hinit).2

def Label.uploads (id : JobID) : Label → Bool
  | .upload i _ => i = id
  | _ => false

/-- A durable outcome of `id` with the proof that nothing was sent: no task, no unknown debt. -/
def Label.proves (id : JobID) : Label → Bool
  | .call (.recordSubmission _ i _ s _ _) out => i = id && out.committed && noSendProof s
  | _ => false

theorem isUpload_event (id : JobID) (l : Label) : Desk.Event.isUpload id l.event = l.uploads id := by
  cases l with
  | call op out =>
    cases op <;> simp only [Label.event, Label.uploads] <;> first | rfl | split_ifs <;> rfl
  | _ => rfl

theorem isProof_event (id : JobID) (l : Label) : Desk.Event.isProof id l.event = l.proves id := by
  cases l with
  | call op out =>
    cases op with
    | recordSubmission tenant i v s o b =>
      cases hc : out.committed <;> cases hp : noSendProof s <;>
        simp [Label.event, Label.proves, Desk.Event.isProof, hc, hp]
    | beginSubmission | recoverSubmitting =>
      simp only [Label.event, Label.proves]
      split_ifs <;> rfl
    | _ => rfl
  | _ => rfl

/-- The label behind an event that proves an attempt unsent. -/
theorem event_eq_prove {l : Label} {v : Int} (h : l.event = .prove id v) :
    ∃ tenant s o b out, l = .call (.recordSubmission tenant id v s o b) out ∧ out.committed = true ∧
      noSendProof s = true := by
  cases l with
  | call op out =>
    cases op with
    | recordSubmission tenant i v' s o b =>
      simp only [Label.event, Bool.and_eq_true] at h
      split_ifs at h with hc
      cases h
      exact ⟨tenant, s, o, b, out, rfl, hc⟩
    | beginSubmission | recoverSubmitting =>
      simp only [Label.event] at h
      split_ifs at h
    | _ => cases h
  | _ => cases h

/-- At-most-once upload.  In every run of store and scheduler, with crashes and recoveries anywhere,
the uploads of a job that were started are at most one more than its durable outcomes with the proof
that nothing was sent; between two uploads the earlier attempt was recorded with that proof; and a job
is never uploaded again after a `BeginSubmission` that committed and reported an error, nor after it
was recovered from `Submitting`. -/
theorem upload_at_most_once {cfg : SchedulerConfig} {es : List Label} {w : World}
    (h : Run (schedulerSystem cfg) {} es w) (id : JobID) :
    es.countP (Label.uploads id) ≤ es.countP (Label.proves id) + 1 ∧
    (∀ before v mid v' after, es = before ++ .upload id v :: (mid ++ .upload id v' :: after) →
      ∃ tenant s o b out, .call (.recordSubmission tenant id v s o b) out ∈ mid ∧ out.committed = true ∧
        noSendProof s = true) ∧
    (∀ before tenant version out after, es = before ++ .call (.beginSubmission tenant id version) out :: after →
      out.ambiguous = true → ∀ v, .upload id v ∉ after) ∧
    (∀ before out after, es = before ++ .call (.recoverSubmitting id) out :: after → out.committed = true →
      ∀ v, .upload id v ∉ after) := by
  have hrun := run_desk h
  refine ⟨?_, ?_, ?_, ?_⟩
  · have hle := (Desk.uploads_le_of_run hrun id).1
    simp only [List.countP_map] at hle
    have hu : Desk.Event.isUpload id ∘ Label.event = Label.uploads id := funext (isUpload_event id)
    have hp : Desk.Event.isProof id ∘ Label.event = Label.proves id := funext (isProof_event id)
    rwa [hu, hp] at hle
  · rintro before v mid v' after rfl
    simp only [List.map_append, List.map_cons] at hrun
    have hmem := Desk.no_second_upload hrun
    obtain ⟨l, hl, he⟩ := List.mem_map.1 hmem
    obtain ⟨tenant, s, o, b, out, rfl, hc, hp⟩ := event_eq_prove he
    exact ⟨tenant, s, o, b, out, hl, hc, hp⟩
  · rintro before tenant version out after rfl hout v hmem
    simp only [List.map_append, List.map_cons] at hrun
    have he : (Label.call (.beginSubmission tenant id version) out).event = .doom id := by
      simp [Label.event, hout]
    rw [he] at hrun
    exact Desk.doomed_never_uploaded hrun v (List.mem_map_of_mem hmem)
  · rintro before out after rfl hout v hmem
    simp only [List.map_append, List.map_cons] at hrun
    have he : (Label.call (.recoverSubmitting id) out).event = .doom id := by
      simp [Label.event, hout]
    rw [he] at hrun
    exact Desk.doomed_never_uploaded hrun v (List.mem_map_of_mem hmem)

/-! ## A run to look at -/

def sampleScheduler : SchedulerConfig := ⟨sampleConfig, ["gen"], none, 1⟩

/-- The calls of the first round of `Run` on one published row: maintenance, the batch, the attempt. -/
def sampleRound : List StoreOp :=
  [.maintainDeadlines, .maintainCleanup sampleEnv.clock, .markCleanupDeadlines, .schedulerJobs,
    .beginSubmission "tenant" 7 2]

/-- The sample store after the first `n` calls of the round. -/
def sampleAt (n : Nat) : Store :=
  sampleStore ([.reserve sampleRequest 7 1, .publish 7 "clean" 10 "abc"] ++ sampleRound.take n)

def sampleQueued : Job := (sampleAt 0).db.jobs.rows.head (by decide)

def sampleSubmitting : Job := (sampleAt 5).db.jobs.rows.head (by decide)

/-- The batch is looked at in the second order. -/
def sampleReady : World :=
  { store := sampleAt 4, recovering := false, pc := .dispatching { priority := 1, jobs := [sampleQueued] } }

/-- The row is published, and `Run` has come to its batch. -/
theorem run_sampleReady : ∃ es, Run (schedulerSystem sampleScheduler) {} es sampleReady ∧
    ∀ l ∈ es, l = .internal ∨
      ∃ op ∈ [.reserve sampleRequest 7 1, .publish 7 "clean" 10 "abc"] ++ sampleRound, ∃ out, l = .call op out := by
  have c₁ : exec sampleConfig sampleEnv (.reserve sampleRequest 7 1) {} =
      .ok (sampleStore [.reserve sampleRequest 7 1],
        .job ((sampleStore [.reserve sampleRequest 7 1]).db.jobs.rows.head (by decide))) := rfl
  have c₂ : exec sampleConfig sampleEnv (.publish 7 "clean" 10 "abc") (sampleStore [.reserve sampleRequest 7 1]) =
      .ok (sampleAt 0, .admission { job := sampleQueued }) := rfl
  have c₃ : exec sampleConfig sampleEnv .maintainDeadlines (sampleAt 0) = .ok (sampleAt 1, .time sampleEnv.clock) := rfl
  have c₄ : exec sampleConfig sampleEnv (.maintainCleanup sampleEnv.clock) (sampleAt 1) = .ok (sampleAt 2, .unit) := rfl
  have c₅ : exec sampleConfig sampleEnv .markCleanupDeadlines (sampleAt 2) = .ok (sampleAt 3, .unit) := rfl
  have c₆ : exec sampleConfig sampleEnv .schedulerJobs (sampleAt 3) = .ok (sampleAt 4, .jobs [sampleQueued]) := rfl
  have hrun : Run (schedulerSystem sampleScheduler) {} _ _ :=
    .single (Step.recovered rfl fun j hj => by cases hj)
  have hrun := hrun.snoc (Step.api rfl rfl (.ok c₁))
  have hrun := hrun.snoc (Step.api rfl rfl (.ok c₂))
  have hrun := hrun.snoc (Step.run rfl rfl)
  have hrun := hrun.snoc (Step.persistPending rfl)
  have hrun := hrun.snoc (Step.persisted rfl)
  have hrun := hrun.snoc (Step.maintainCall rfl (.ok c₃))
  have hrun := hrun.snoc (Step.maintainCall rfl (.ok c₄))
  have hrun := hrun.snoc (Step.maintainCall rfl (.ok c₅))
  have hrun := hrun.snoc (Step.dispatch rfl rfl (.ok c₆))
  have hrun := hrun.snoc (@Step.nextPriority _ _ _ (fun _ => hour) rfl (.inr rfl))
  exact ⟨_, hrun, by simp [sampleRound]⟩

theorem sample_begin : exec sampleConfig sampleEnv (.beginSubmission "tenant" 7 2) (sampleAt 4) =
    .ok (sampleAt 5, .job sampleSubmitting) := rfl

theorem sample_open : exec sampleConfig sampleEnv (.openPayload "tenant" 7 3) (sampleAt 5) =
    .ok (sampleAt 5, .job sampleSubmitting) := rfl

/-- A row is published, its upload begins and starts, and the process crashes. -/
theorem upload_at_most_once_crash : ∃ es w, Run (schedulerSystem sampleScheduler) {} es w ∧
    es.getLast? = some .crash ∧ es.countP (Label.uploads 7) = 1 ∧
    es.countP (Label.uploads 7) ≤ es.countP (Label.proves 7) + 1 := by
  obtain ⟨es, hrun, hes⟩ := run_sampleReady
  have hrun := hrun.snoc (@Step.begin _ _ _ (fun _ => hour) 0 sampleQueued _ _ _ rfl (by decide) rfl rfl rfl
    (.ok sample_begin) rfl)
  have hrun := hrun.snoc (Step.openPayload (l := []) rfl rfl rfl (.ok sample_open))
  have hrun := hrun.snoc (Step.upload (l := []) rfl rfl)
  have hrun := hrun.snoc Step.crash
  have hnone : es.countP (Label.uploads 7) = 0 := by
    rw [List.countP_eq_zero]
    intro l hl
    rcases hes l hl with rfl | ⟨op, -, out, rfl⟩ <;> simp [Label.uploads]
  refine ⟨_, _, hrun, by simp, ?_, (upload_at_most_once hrun 7).1⟩
  simp only [List.append_assoc, List.countP_append, hnone]
  rfl

end MS.Cape
