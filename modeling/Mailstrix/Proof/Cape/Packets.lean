import Mailstrix.Proof.Cape.Upload

/-!
# What the process knows about its packets

A packet is made from a row that `dispatch` has read, travels through a request and waits until it is
persisted; every call of the store may come in between.  `World.Keeps P J` says that `P` holds of every
packet and `J` of every row that a pass of `dispatch` still holds.  `Tracking` lists what has to be
shown about `P` and `J` one call at a time, and `step_keeps` gives every step of the process from it.
-/

namespace MS.Cape

open Framework

variable {pc : Pc} {pass : Pass}

/-- A step makes one call of the store, or ends the process, or leaves the store alone. -/
theorem step_store {cfg : SchedulerConfig} {w w' : World} {l : Label} (hs : Step cfg w l w') :
    w'.store = w.store ∨ w'.store = { w.store with mem := {} } ∨
      ∃ op out, l = .call op out ∧ Call cfg.store op w.store out w'.store := by
  cases hs with
  | crash => exact .inr (.inl rfl)
  | recover _ _ h | api _ _ h | openPayload _ _ _ h | persistCall _ h | maintainCall _ h | dispatch _ _ h
  | begin _ _ _ _ _ h | beginError _ _ _ _ _ h | reconcileCall _ h | reserveRead _ _ _ _ _ _ h =>
    exact .inr (.inr ⟨_, _, rfl, h⟩)
  | _ => exact .inl rfl

/-- The row is asked about at the sandbox when it is dispatched. -/
def Job.Remote (j : Job) : Prop := (cleanupTask j).isSome = true ∨ j.state = .remotePending ∨ j.state = .fetching

/-- `I` holds of the store. -/
structure Tracking (cfg : SchedulerConfig) (I : Store → Prop) (P : Store → Packet → Prop) (J : Store → Job → Prop) :
    Prop where
  /-- What a request brings back does not matter. -/
  request {s : Store} {r r' : Packet} : r'.kind = r.kind → r'.job = r.job → r'.task = r.task → P s r → P s r'
  packet {op : StoreOp} {out : Outcome} {s s' : Store} {r : Packet} : s.WF → Call cfg.store op s out s' →
    P s r → P s' r
  job {op : StoreOp} {out : Outcome} {s s' : Store} {j : Job} : s.WF → Call cfg.store op s out s' →
    J s j → J s' j
  row {s : Store} {j : Job} : I s → s.db.jobs.get? j.id = some j → J s j
  begin {s s' : Store} {out : Outcome} {j reserved : Job} : I s → J s j → (requestFor j).kind = .submit →
    Call cfg.store (.beginSubmission j.tenant j.id j.version) s out s' → out.answer = .ok (.job reserved) →
    P s' { requestFor j with job := reserved }
  beginError {s : Store} {j : Job} {e : Err} : J s j → P s { job := j, kind := .beginError, err := some e }
  reserveRead {s s' : Store} {out : Outcome} {j reserved : Job} {delay : Duration} : I s → J s j → j.Remote →
    (requestFor j).kind ≠ .submit → Call cfg.store (.reserveRead j delay) s out s' →
    out.answer = .ok (.job reserved) → P s' { requestFor j with job := reserved }

/-- `P` holds of every packet and `J` of every candidate. -/
structure World.Keeps (P : Store → Packet → Prop) (J : Store → Job → Prop) (w : World) : Prop where
  live : ∀ q ∈ w.live, P w.store q.packet
  pending : ∀ r ∈ w.pending, P w.store r
  pass : ∀ pass, (w.pc = .dispatching pass ∨ ∃ r prog, w.pc = .reconciling pass r prog) →
    ∀ j ∈ pass.jobs, J w.store j
  packet : ∀ pass r prog, w.pc = .reconciling pass r prog → P w.store r

section
variable {cfg : SchedulerConfig} {I : Store → Prop} {P : Store → Packet → Prop} {J : Store → Job → Prop}
  {w w' : World} {l : Label}

/-- `Run` is not in `dispatch`. -/
def Pc.Idle (pc : Pc) : Prop := ∀ pass, pc ≠ .dispatching pass ∧ ∀ r prog, pc ≠ .reconciling pass r prog

theorem World.Keeps.call (h : w.Keeps P J) (T : Tracking cfg I P J) (hwf : w.store.WF) {op : StoreOp} {out : Outcome}
    {s : Store} (hcall : Call cfg.store op w.store out s) : ({ w with store := s } : World).Keeps P J where
  live q hq := T.packet hwf hcall (h.live q hq)
  pending r hr := T.packet hwf hcall (h.pending r hr)
  pass pass hp j hj := T.job hwf hcall (h.pass pass hp j hj)
  packet pass r prog hp := T.packet hwf hcall (h.packet pass r prog hp)

/-- `Run` goes on outside `dispatch`, with other packets pending. -/
theorem World.Keeps.move (h : w.Keeps P J) {pending : List Packet} (hpend : ∀ r ∈ pending, P w.store r) (hpc : pc.Idle) :
    ({ w with pending := pending, pc := pc } : World).Keeps P J where
  live := h.live
  pending := hpend
  pass pass hp := by
    rcases hp with he | ⟨r, prog, he⟩
    · exact absurd he (hpc pass).1
    · exact absurd he ((hpc pass).2 r prog)
  packet pass r prog hp := absurd hp ((hpc pass).2 r prog)

theorem World.Keeps.idle (h : w.Keeps P J) (hpc : pc.Idle) : ({ w with pc := pc } : World).Keeps P J :=
  h.move h.pending hpc

/-- `Run` goes on in `dispatch`. -/
theorem World.Keeps.dispatching (h : w.Keeps P J) (hpass : ∀ j ∈ pass.jobs, J w.store j) :
    ({ w with pc := .dispatching pass } : World).Keeps P J where
  live := h.live
  pending := h.pending
  pass pass' hp := by
    rcases hp with he | ⟨r, prog, he⟩
    · cases he
      exact hpass
    · cases he
  packet pass' r prog hp := by cases hp

theorem World.Keeps.reconciling (h : w.Keeps P J) {r : Packet} {prog : StoreProg (Option Err)}
    (hpass : ∀ j ∈ pass.jobs, J w.store j) (hr : P w.store r) :
    ({ w with pc := .reconciling pass r prog } : World).Keeps P J where
  live := h.live
  pending := h.pending
  pass pass' hp := by
    rcases hp with he | ⟨r', prog', he⟩
    · cases he
    · cases he
      exact hpass
  packet pass' r' prog' hp := by
    cases hp
    exact hr

/-- Other requests are live. -/
theorem World.Keeps.requests (h : w.Keeps P J) {live : List Request} (hlive : ∀ q ∈ live, P w.store q.packet) :
    ({ w with live := live } : World).Keeps P J := ⟨hlive, h.pending, h.pass, h.packet⟩

/-- A change of one request that keeps what it is about. -/
theorem World.Keeps.request (h : w.Keeps P J) (T : Tracking cfg I P J) {l r : List Request} {q q' : Request}
    (hl : w.live = l ++ q :: r) (hk : q'.packet.kind = q.packet.kind) (hj : q'.packet.job = q.packet.job)
    (ht : q'.packet.task = q.packet.task) : ({ w with live := l ++ q' :: r } : World).Keeps P J := by
  refine h.requests fun p hp => ?_
  rcases List.mem_append.1 hp with hp | hp
  · exact h.live p (by simp [hl, hp])
  · rcases List.mem_cons.1 hp with rfl | hp
    · exact T.request hk hj ht (h.live q (by simp [hl]))
    · exact h.live p (by simp [hl, hp])

/-- A request has come back. -/
theorem World.Keeps.giveBack (h : w.Keeps P J) {l r : List Request} {q : Request} (hl : w.live = l ++ q :: r)
    (hpc : pc.Idle) : ({ w with live := l ++ r, pending := w.pending ++ [q.packet], pc := pc } : World).Keeps P J := by
  have hlive : ({ w with live := l ++ r } : World).Keeps P J := h.requests fun p hp =>
    h.live p (by rcases List.mem_append.1 hp with hp | hp <;> simp [hl, hp])
  refine hlive.move (fun p hp => ?_) hpc
  rcases List.mem_append.1 hp with hp | hp
  · exact h.pending p hp
  · rw [List.mem_singleton.1 hp]
    exact h.live q (by simp [hl])

/-- The row is reserved and its request starts. -/
theorem World.Keeps.send (h : w.Keeps P J) (pass : Pass) {j reserved : Job}
    (hr : P w.store { requestFor j with job := reserved }) : (w.send pass j reserved).Keeps P J := by
  have hlive : ({ w with live := { packet := { requestFor j with job := reserved } } :: w.live } : World).Keeps P J :=
    h.requests fun q hq => by
      rcases List.mem_cons.1 hq with rfl | hq
      · exact hr
      · exact h.live q hq
  exact ⟨hlive.live, hlive.pending, hlive.pass, hlive.packet⟩

/-- The batch that `dispatch` reads consists of rows. -/
theorem schedulerJobs_rows {s s' : Store} {out : Outcome} {jobs : List Job}
    (hcall : Call cfg.store .schedulerJobs s out s') (hans : out.answer = .ok (.jobs jobs)) :
    ∀ j ∈ sortJobs jobs, s.db.jobs.get? j.id = some j := by
  intro j hj
  cases hcall with
  | ok h =>
    cases hans
    cases h
    have hj : j ∈ (nextMaintenanceBatch s.db schedulerStates s.mem.schedulerCursor).1 :=
      (List.mem_insertionSort _).1 hj
    obtain ⟨c, hc⟩ := nextMaintenanceBatch_eq s.db schedulerStates s.mem.schedulerCursor
    rw [hc] at hj
    exact (mem_batchAfter hj).1
  | late | lost | failed => cases hans

/-- A candidate that is not uploaded is asked about at the sandbox. -/
theorem World.candidate_remote {clock : Nat → Nat} {i : Nat} {j : Job} (h : w.candidate cfg clock pass = some i)
    (hj : pass.jobs[i]? = some j) (hk : (requestFor j).kind ≠ .submit) : j.Remote := by
  rcases selectFrom_ok h with hno | ⟨n, hn, j', hj', hok⟩
  · cases hno
  · rw [Nat.zero_add] at hn
    subst hn
    rw [hj] at hj'
    cases hj'
    simp only [eligible, Bool.and_eq_true, Bool.or_eq_true, decide_eq_true_eq] at hok
    obtain ⟨-, ((hc | hq) | hr) | hf⟩ := hok
    · exact .inl hc
    · cases hc : cleanupTask j with
      | none => simp [requestFor, hc, hq] at hk
      | some task => exact .inl (by simp [hc])
    · exact .inr (.inl hr)
    · exact .inr (.inr hf)

theorem Request.opened_packet (q : Request) (a : Except Err Ret) : (q.opened a).packet.kind = q.packet.kind ∧
    (q.opened a).packet.job = q.packet.job ∧ (q.opened a).packet.task = q.packet.task := by
  unfold Request.opened
  split <;> exact ⟨rfl, rfl, rfl⟩

theorem step_keeps (T : Tracking cfg I P J) (hi : w.Inv) (hI : I w.store) (h : w.Keeps P J)
    (hs : Step cfg w l w') : w'.Keeps P J := by
  have hpc := hi.pc
  have hwithout : ∀ {pass : Pass} {s : Store} (i : Nat), (∀ j ∈ pass.jobs, J s j) → ∀ j ∈ (pass.without i).jobs, J s j :=
    fun i hp j hj => hp j ((List.eraseIdx_sublist _ i).subset hj)
  cases hs with
  | crash => exact ⟨by simp, by simp, by simp, by simp⟩
  | recover _ _ hcall | api _ _ hcall => exact h.call T hi.wf hcall
  | recovered => exact ⟨h.live, h.pending, h.pass, h.packet⟩
  | @openPayload l r q out s hl _ _ hcall =>
    obtain ⟨hk, hj, ht⟩ := q.opened_packet out.answer
    exact (h.call T hi.wf hcall).request T hl hk hj ht
  | refuse hl | upload hl | submit hl | answer hl => exact h.request T hl rfl rfl rfl
  | run | cancelled | persistPending | tick | joined | drain | drained | keep | persist | maintained | persistRet =>
    exact h.idle (by simp [Pc.Idle])
  | persistCall hp hcall | maintainCall hp hcall => exact (h.call T hi.wf hcall).idle (by simp [Pc.Idle])
  | @persisted d kept hp =>
    rw [hp] at hpc
    refine h.move (fun r hr => h.pending r (hpc.subset (by simpa using hr))) ?_
    cases d <;> simp [Pc.Idle]
  | receive hp hl => exact h.giveBack hl (by simp [Pc.Idle])
  | join hp hl => exact h.giveBack hl (by simp [hp, Pc.Idle])
  | @dispatch out s hp hpend hcall =>
    have hcalled := h.call T hi.wf hcall
    split
    · rename_i jobs hans
      refine hcalled.dispatching fun j hj => ?_
      exact T.job hi.wf hcall (T.row hI (schedulerJobs_rows hcall hans j hj))
    · exact hcalled.idle (by simp [Pc.Idle])
  | @nextPriority pass clock hp =>
    split
    · exact h.dispatching (h.pass pass (.inl hp))
    · exact h.idle (by simp [Pc.Idle])
  | @begin pass clock i j reserved out s hp _ _ hj hk hcall hans =>
    have hcalled := h.call T hi.wf hcall
    have hpass := h.pass pass (.inl hp)
    have hsent := hcalled.send pass (T.begin hI (hpass j (List.mem_of_getElem? hj)) hk hcall hans)
    exact hsent.dispatching (hwithout i (hcalled.pass pass (.inl hp)))
  | @beginError pass clock i j out s e delay hp _ _ hj _ hcall =>
    have hcalled := h.call T hi.wf hcall
    have hpass := hcalled.pass pass (.inl hp)
    exact hcalled.reconciling (hwithout i hpass) (T.beginError (hpass j (List.mem_of_getElem? hj)))
  | @reconcileCall pass r op next out s hp hcall =>
    have hcalled := h.call T hi.wf hcall
    exact hcalled.reconciling (hcalled.pass pass (.inr ⟨_, _, hp⟩)) (hcalled.packet _ _ _ hp)
  | @reconciled pass r hp => exact h.dispatching (h.pass pass (.inr ⟨_, _, hp⟩))
  | @unreconciled pass r e hp =>
    refine h.move (fun r' hr' => ?_) (by simp [Pc.Idle])
    rcases List.mem_append.1 hr' with hr' | hr'
    · exact h.pending r' hr'
    · rw [List.mem_singleton.1 hr']
      exact h.packet _ _ _ hp
  | @reserveRead pass clock i j out s delay hp _ hcand hj hk _ hcall =>
    have hcalled := h.call T hi.wf hcall
    have hpass := h.pass pass (.inl hp)
    have hleft := hwithout i (hcalled.pass pass (.inl hp))
    split
    · rename_i reserved hans
      have hr := T.reserveRead hI (hpass j (List.mem_of_getElem? hj)) (World.candidate_remote hcand hj hk) hk hcall hans
      exact (hcalled.send pass hr).dispatching hleft
    · exact hcalled.dispatching hleft

end

end MS.Cape
