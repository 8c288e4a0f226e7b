import Mailstrix.Impl.Cape.Receiver
import Mailstrix.Proof.Cape.History

/-!
# Replayed callbacks

An accepted message leaves a replay row that lasts eleven minutes of the store's clock, while the
message itself is acceptable for ten minutes of the callback's clock.  The two clocks are read one
after the other in the same transaction.  As long as the second reading is not before the first and
less than 55 seconds after it, no message is accepted twice (`callback_accepted_once`).  Without
that bound one is: `callback_accepted_twice`.
-/

namespace MS.Cape

open Framework

variable {codec : CallbackCodec} {key : CallbackKey} {e : CallbackEvent} {cfg : StoreConfig} {env : Env} {db db' : Db}
variable {now : Stamp} {h : Receiver} {r : CallbackRequest} {s s' : Store}

/-- The signed time of an event. -/
def CallbackEvent.signed (e : CallbackEvent) : Nat := unixEpoch + e.timestamp * second

/-- The store's reading follows the callback's within 55 seconds. -/
def Env.Prompt (env : Env) : Prop :=
  env.actual.val ≤ env.clock.val ∧ env.clock.val < env.actual.val + 55 * second

/-- Two requests carry the same signed message. -/
def CallbackRequest.Same (r r' : CallbackRequest) : Prop :=
  r.keyID = r'.keyID ∧ r.timestamp = r'.timestamp ∧ r.eventID = r'.eventID ∧ r.body = r'.body

/-! ## The transaction -/

theorem validateCallbackClock_ok {db : Db} {seconds : Nat} {u : Unit}
    (h : validateCallbackClock env db key seconds = .ok u) :
    (∀ l ∈ db.eventClock, l.val ≤ env.actual.val) ∧
      env.actual.val ≤ unixEpoch + seconds * second + 5 * minute ∧
      unixEpoch + seconds * second ≤ env.actual.val + 5 * minute := by
  simp only [validateCallbackClock, bind_ok, check_ok, exists_const] at h
  obtain ⟨hl, -, -, hlo, hhi⟩ := h
  exact ⟨hl, by omega, hhi⟩

/-- What an accepted callback does to the replay rows and the two clocks. -/
structure Reserved (env : Env) (db db' : Db) (key : CallbackKey) (e : CallbackEvent) (now : Stamp) :
    Prop where
  clock : validateCallbackClock env db key e.timestamp = .ok ()
  time : ∃ db₁, storeNow env db = .ok (db₁, now)
  fresh : ∀ row ∈ db.events, now.val < row.expires → row.event ≠ e.eventID
  events : db'.events = (db.events.filter fun row => now.val < row.expires) ++
    [{ event := e.eventID, tenant := e.tenant, keyID := key.id
       accepted := now.val, expires := now.val + 11 * minute }]
  eventClock : db'.eventClock = some env.actual
  latest : db'.latest = some now

theorem persistCallback_reserved {j : Job}
    (h : persistCallback env db key e = .ok (db', j)) : ∃ now, Reserved env db db' key e now := by
  simp only [persistCallback, reserveCallbackEvent, bind_ok, check_ok, pure_ok, Prod.exists,
    exists_const] at h
  obtain ⟨_, hclock, db₁, now, hnow, j₀, -, db₂, ⟨hfresh, -, rfl⟩, h⟩ := h
  obtain ⟨rfl, -⟩ := storeNow_spec hnow
  have hfresh' : ∀ row ∈ db.events, now.val < row.expires → row.event ≠ e.eventID := fun row hrow hlt =>
    hfresh row (List.mem_filter.2 ⟨hrow, decide_eq_true hlt⟩)
  split at h
  · rw [pure_ok] at h
    cases h
    exact ⟨now, hclock, ⟨_, hnow⟩, hfresh', rfl, rfl, rfl⟩
  · simp only [bind_ok, pure_ok] at h
    obtain ⟨db₃, hput, he⟩ := h
    cases he
    obtain ⟨-, row, -, -, rfl⟩ := putJob_ok.1 hput
    exact ⟨now, hclock, ⟨_, hnow⟩, hfresh', rfl, rfl, rfl⟩

theorem Reserved.le_clock (h : Reserved env db db' key e now) (hp : env.Prompt) :
    env.actual.val ≤ now.val ∧ now.val < env.actual.val + minute := by
  obtain ⟨db₁, hnow⟩ := h.time
  obtain ⟨-, hlo, hhi, -⟩ := storeNow_spec hnow
  obtain ⟨h₁, h₂⟩ := hp
  simp only [clockTolerance, minute, second] at *
  omega

/-! ## Remembered messages -/

/-- A second copy of the event cannot be accepted: its row is there for six minutes after the signed
time, or the callback's clock has left the window. -/
def Remembered (db : Db) (e : CallbackEvent) : Prop :=
  (∃ row ∈ db.events, row.event = e.eventID ∧ e.signed + 6 * minute ≤ row.expires) ∨
    ∃ l ∈ db.eventClock, e.signed + 5 * minute < l.val

theorem Remembered.later (h : Remembered db e) (hl : db.Later db') :
    Remembered db' e := by
  unfold Remembered
  rw [hl.events, hl.eventClock]
  exact h

/-- Any accepted callback keeps what is remembered: a row it purges is past its use. -/
theorem Remembered.reserved {e e' : CallbackEvent} (h : Remembered db e) (hr : Reserved env db db' key e' now)
    (hp : env.Prompt) : Remembered db' e := by
  rcases h with ⟨row, hrow, hev, hexp⟩ | ⟨l, hl, hlt⟩
  · by_cases hkeep : now.val < row.expires
    · refine .inl ⟨row, ?_, hev, hexp⟩
      rw [hr.events]
      exact List.mem_append_left _ (List.mem_filter.2 ⟨hrow, decide_eq_true hkeep⟩)
    · refine .inr ⟨env.actual, hr.eventClock, ?_⟩
      have hlt := (hr.le_clock hp).2
      simp only [minute, second] at *
      omega
  · have hle := (validateCallbackClock_ok hr.clock).1 l hl
    exact .inr ⟨env.actual, hr.eventClock, by omega⟩

/-- The accepted event itself is remembered. -/
theorem Reserved.remembered (hr : Reserved env db db' key e now) (hp : env.Prompt) : Remembered db' e := by
  have hwin : e.signed ≤ env.actual.val + 5 * minute := (validateCallbackClock_ok hr.clock).2.2
  have hle := (hr.le_clock hp).1
  refine .inl ⟨{ event := e.eventID, tenant := e.tenant, keyID := key.id,
                 accepted := now.val, expires := now.val + 11 * minute }, ?_, rfl, ?_⟩
  · rw [hr.events]
    exact List.mem_append_right _ (List.mem_singleton.2 rfl)
  · simp only [minute, second] at *
    omega

/-- While the signed time is inside the window of a reading, the row of a remembered event has not
expired. -/
theorem Remembered.row {db db₁ : Db} (h : Remembered db e) (hp : env.Prompt)
    (hclock : validateCallbackClock env db key e.timestamp = .ok ()) (hnow : storeNow env db = .ok (db₁, now)) :
    ∃ row ∈ db.events, row.event = e.eventID ∧ now.val < row.expires := by
  obtain ⟨hl, hhi, -⟩ := validateCallbackClock_ok hclock
  obtain ⟨-, -, htol, -⟩ := storeNow_spec hnow
  obtain ⟨-, hprompt⟩ := hp
  rcases h with ⟨row, hrow, hev, hexp⟩ | ⟨l, hl', hlt⟩
  · refine ⟨row, hrow, hev, ?_⟩
    simp only [CallbackEvent.signed, clockTolerance, minute, second] at *
    omega
  · have hle := hl l hl'
    simp only [CallbackEvent.signed] at hlt
    omega

/-! ## Requests -/

theorem callbackMessage_event {key : BridgeKey} (hm : callbackMessage codec h r = .ok (key, e)) :
    e.eventID = r.eventID ∧ some (e.timestamp : Int) = r.timestamp := by
  simp only [callbackMessage, authenticateCallback, bind_ok, check_ok, need_ok, pure_ok, Prod.exists,
    exists_const] at hm
  obtain ⟨-, body, -, key', -, seconds, hs, mac, -, -, version, e', -, hv, he⟩ := hm
  cases he
  simp only [validCallbackEvent, Bool.and_eq_true, decide_eq_true_eq] at hv
  obtain ⟨⟨⟨⟨⟨⟨-, hid⟩, htime⟩, -⟩, -⟩, -⟩, -⟩ := hv
  exact ⟨hid, by rw [hs, htime]⟩

theorem callbackMessage_refused {status : Nat} (hm : callbackMessage codec h r = .error status) : status ≠ 202 := by
  simp only [callbackMessage, callbackRequestBody, authenticateCallback, bind_error, check_error, need_error,
    pure_error, Prod.exists, and_false, exists_false, or_false] at hm
  rintro rfl
  omega

theorem callbackStatus_ne (err : Err) : callbackStatus err ≠ 202 := by
  cases err <;> simp [callbackStatus]

theorem receive_cases {α : Type} {closed : Bool} {tx : CallbackKey → CallbackEvent → Except Err α} {status : Nat}
    {o : Option α} (hr : receive codec h closed r tx = (status, o)) :
    (status ≠ 202 ∧ o = none) ∨ ∃ key e a, callbackMessage codec h r = .ok (key, e) ∧
      tx key.toCallbackKey e = .ok a ∧ o = some a := by
  unfold receive at hr
  split at hr
  · rename_i status' hm
    cases hr
    exact .inl ⟨callbackMessage_refused hm, rfl⟩
  · rename_i key e hm
    split at hr
    · cases hr
      exact .inl ⟨by decide, rfl⟩
    split at hr
    · rename_i a htx
      cases hr
      exact .inr ⟨key, e, a, hm, htx, rfl⟩
    · rename_i err _
      cases hr
      exact .inl ⟨callbackStatus_ne err, rfl⟩

theorem exec_callback {ret : Ret} (h : exec cfg env (.callback key e) s = .ok (s', ret)) :
    ∃ now, Reserved env s.db s'.db key e now := by
  obtain ⟨db, j, hx, rfl, -⟩ := withJob_ok h
  exact persistCallback_reserved hx

/-- The clock readings of the callback transaction of a step. -/
def ReceiverEvent.env? : ReceiverEvent → Option Env
  | .request _ _ env _ => some env
  | .unreported _ _ env => some env
  | .store _ => none

/-- The request a step answers with 202. -/
def ReceiverEvent.accepted? : ReceiverEvent → Option (Receiver × CallbackRequest)
  | .request h r _ status => if status = 202 then some (h, r) else none
  | _ => none

/-- A step leaves the replay rows alone, or commits the transaction of one callback. -/
theorem receiver_cases {e : ReceiverEvent} (hstep : (receiverSystem cfg codec).step s e s') :
    (s.db.Later s'.db ∧ e.accepted? = none) ∨
      ∃ h r env key ev ret, e.env? = some env ∧ (∀ p ∈ e.accepted?, p = (h, r)) ∧
        callbackMessage codec h r = .ok (key, ev) ∧
        exec cfg env (.callback key.toCallbackKey ev) s = .ok (s', ret) := by
  cases e with
  | request h r env status =>
    obtain ⟨closed, o, hr, rfl⟩ := hstep
    rcases receive_cases hr with ⟨hne, rfl⟩ | ⟨key, ev, ⟨s₁, ret⟩, hm, hx, rfl⟩
    · exact .inl ⟨.refl _, if_neg hne⟩
    · refine .inr ⟨h, r, env, key, ev, ret, rfl, fun p hp => ?_, hm, hx⟩
      simp only [ReceiverEvent.accepted?, Option.mem_def, Option.ite_none_right_eq_some,
        Option.some.injEq] at hp
      exact hp.2.symm
  | unreported h r env =>
    obtain ⟨closed, ret, hr⟩ := hstep
    rcases receive_cases hr with ⟨hne, -⟩ | ⟨key, ev, a, hm, hx, ho⟩
    · exact absurd rfl hne
    · cases ho
      exact .inr ⟨h, r, env, key, ev, ret, rfl, fun p hp => (by cases hp), hm, hx⟩
  | store e => exact .inl ⟨storeStep_later hstep.1 hstep.2, rfl⟩

/-- The same, with what a commit does to the replay rows. -/
theorem receiver_step {e : ReceiverEvent} (hstep : (receiverSystem cfg codec).step s e s') :
    (s.db.Later s'.db ∧ e.accepted? = none) ∨
      ∃ h r env key ev now, e.env? = some env ∧ (∀ p ∈ e.accepted?, p = (h, r)) ∧
        callbackMessage codec h r = .ok (key, ev) ∧ Reserved env s.db s'.db key.toCallbackKey ev now := by
  rcases receiver_cases hstep with hlater | ⟨h, r, env, key, ev, ret, henv, hreq, hm, hx⟩
  · exact .inl hlater
  · obtain ⟨now, hres⟩ := exec_callback hx
    exact .inr ⟨h, r, env, key, ev, now, henv, hreq, hm, hres⟩

/-- Every message accepted so far is remembered. -/
theorem accepted_remembered {es : List ReceiverEvent} (hrun : Run (receiverSystem cfg codec) {} es s) :
    (∀ e ∈ es, ∀ env ∈ e.env?, env.Prompt) → ∀ e ∈ es, ∀ h r key ev, e.accepted? = some (h, r) →
      callbackMessage codec h r = .ok (key, ev) → Remembered s.db ev := by
  refine Run.history (I := fun es s => (∀ e ∈ es, ∀ env ∈ e.env?, env.Prompt) → ∀ e ∈ es, ∀ h r key ev,
    e.accepted? = some (h, r) → callbackMessage codec h r = .ok (key, ev) → Remembered s.db ev)
    (by simp) ?_ hrun
  intro s es e s' _ ih hstep hprompt e₀ he₀ h₀ r₀ key₀ ev₀ hacc hm₀
  have hp : ∀ e ∈ es, ∀ env ∈ e.env?, env.Prompt := fun e he => hprompt e (List.mem_append_left _ he)
  rcases receiver_step hstep with ⟨hlater, hno⟩ | ⟨h, r, env, key, ev, now, henv, hreq, hm, hres⟩
  · rcases List.mem_append.1 he₀ with he₀ | he₀
    · exact (ih hp e₀ he₀ h₀ r₀ key₀ ev₀ hacc hm₀).later hlater
    · rw [List.mem_singleton.1 he₀, hno] at hacc
      cases hacc
  · have hpe := hprompt e (by simp) env henv
    rcases List.mem_append.1 he₀ with he₀ | he₀
    · exact (ih hp e₀ he₀ h₀ r₀ key₀ ev₀ hacc hm₀).reserved hres hpe
    · rw [List.mem_singleton.1 he₀] at hacc
      cases hreq _ hacc
      rw [hm] at hm₀
      cases hm₀
      exact hres.remembered hpe

/-! ## One message, received twice -/

theorem receiver_of_execAll :
    ∀ {ops : List StoreOp} {s s' : Store}, (∀ op ∈ ops, ∀ key e, op ≠ .callback key e) →
      execAll cfg env ops s = .ok s' → ∃ es : List StoreEvent, Run (receiverSystem cfg codec) s (es.map .store) s'
  | [], s, s', _, h => by
    cases h
    exact ⟨[], .nil⟩
  | op :: ops, s, s', hops, h => by
    simp only [execAll, bind_ok, Prod.exists] at h
    obtain ⟨s₁, r, h₁, h₂⟩ := h
    obtain ⟨es, hrun⟩ := receiver_of_execAll (fun op hop => hops op (List.mem_cons_of_mem _ hop)) h₂
    have hstep : (receiverSystem cfg codec).step s (.store (.commit op r)) s₁ :=
      ⟨fun key e he => hops op List.mem_cons_self key e (Option.some.inj he), env, h₁⟩
    exact ⟨.commit op r :: es, (Run.single hstep).append hrun⟩

def sampleKey : BridgeKey :=
  { id := "bridge", notBefore := unixEpoch, notAfter := unixEpoch + 24 * hour
    secret := List.replicate 32 0, tenants := ["tenant"], generations := ["gen"] }

def sampleReceiver : Receiver := ⟨⟨[sampleKey], List.nodup_singleton _⟩⟩

def sampleEvent : CallbackEvent :=
  ⟨"0123456789abcdef0123456789abcdef", "tenant", 7, "gen", 1, 600⟩

def sampleCallbackCodec : CallbackCodec := ⟨fun _ _ _ _ => List.replicate 32 0, fun _ => some (1, sampleEvent)⟩

def sampleCallback : CallbackRequest :=
  ⟨true, 0, some [], "bridge", some 600, sampleEvent.eventID, some (List.replicate 32 0)⟩

/-- Its one task came back. -/
def sampleOwned : List StoreOp :=
  sampleBegun ++ [.recordSubmission "tenant" 7 3 { tasks := [⟨1, "gen"⟩] } .empty 0]

/-- The readings of a callback: its own, and the store's `pause` seconds later. -/
def sampleReading (seconds pause : Fin 1000) : Env where
  clock := ⟨unixEpoch + (seconds + pause : Nat) * second, by simp only [second]; omega⟩
  actual := ⟨unixEpoch + seconds * second, by simp only [second]; omega⟩

/-- The answer to the message and the store after it. -/
def sampleReceive (env : Env) (s : Store) : Nat × Option (Store × Ret) :=
  receive sampleCallbackCodec sampleReceiver false sampleCallback fun key e =>
    exec sampleConfig env (.callback key e) s

/-- The store after the message came in at these readings. -/
def sampleReceived (envs : List Env) : Store :=
  envs.foldl (fun s env => ((sampleReceive env s).2.map Prod.fst).getD s) (sampleStore sampleOwned)

theorem sample_run {codec : CallbackCodec} : ∃ es : List StoreEvent,
    Run (receiverSystem sampleConfig codec) {} (es.map .store) (sampleStore sampleOwned) := by
  have hexec : execAll sampleConfig sampleEnv sampleOwned {} = .ok (sampleStore sampleOwned) := rfl
  refine receiver_of_execAll (fun op hop key e he => ?_) hexec
  subst he
  simp [sampleOwned, sampleBegun] at hop

/-- The message arrives five minutes before its signed time. -/
theorem sample_first : (receiverSystem sampleConfig sampleCallbackCodec).step (sampleStore sampleOwned)
    (.request sampleReceiver sampleCallback (sampleReading 300 0) 202) (sampleReceived [sampleReading 300 0]) :=
  ⟨false, (sampleReceive (sampleReading 300 0) (sampleStore sampleOwned)).2, rfl, rfl⟩

/-- In every run whose callbacks read the store's clock promptly, no message is accepted twice, and
while an accepted message is inside the window of a reading its replay row has not expired. -/
theorem callback_accepted_once {cfg : StoreConfig} {codec : CallbackCodec} {s : Store} {es : List ReceiverEvent}
    (hrun : Run (receiverSystem cfg codec) {} es s) (hprompt : ∀ e ∈ es, ∀ env ∈ e.env?, env.Prompt) :
    (∀ before h r env between h' r' env' after,
      es = before ++ .request h r env 202 :: between ++ .request h' r' env' 202 :: after → ¬ r.Same r') ∧
    ∀ h r env key e, .request h r env 202 ∈ es → callbackMessage codec h r = .ok (key, e) →
      ∀ (env' : Env) (key' : CallbackKey) (db₁ : Db) (now : Stamp), env'.Prompt →
        validateCallbackClock env' s.db key' e.timestamp = .ok () → storeNow env' s.db = .ok (db₁, now) →
        ∃ row ∈ s.db.events, row.event = e.eventID ∧ now.val < row.expires := by
  constructor
  · rintro before h r env between h' r' env' after rfl ⟨-, htime, hid, -⟩
    obtain ⟨s₁, hrun₁, hrest⟩ := hrun.split
    obtain ⟨s₂, hstep, -⟩ := hrest.cons_inv
    have hfirst : ∃ key e, callbackMessage codec h r = .ok (key, e) := by
      obtain ⟨s₀, -, hrest₀⟩ := hrun₁.split
      obtain ⟨s₀', hstep₀, -⟩ := hrest₀.cons_inv
      rcases receiver_step hstep₀ with ⟨-, hno⟩ | ⟨h₀, r₀, env₀, key, e, now, -, hreq, hm, -⟩
      · cases hno
      · cases hreq (h, r) rfl
        exact ⟨key, e, hm⟩
    obtain ⟨key, e, hm⟩ := hfirst
    have hrem : Remembered s₁.db e := accepted_remembered hrun₁
      (fun e he => hprompt e (List.mem_append_left _ he)) (.request h r env 202) (by simp) h r key e rfl hm
    rcases receiver_step hstep with ⟨-, hno⟩ | ⟨h₀, r₀, env₀, key', e', now, henv, hreq, hm', hres⟩
    · cases hno
    · cases hreq (h', r') rfl
      obtain ⟨hid₁, ht₁⟩ := callbackMessage_event hm
      obtain ⟨hid₂, ht₂⟩ := callbackMessage_event hm'
      have hsame : e'.timestamp = e.timestamp := by
        have hs : some (e'.timestamp : Int) = some (e.timestamp : Int) := by rw [ht₁, ht₂, htime]
        exact_mod_cast Option.some.inj hs
      obtain ⟨db₁, hnow⟩ := hres.time
      obtain ⟨row, hrow, hev, hexp⟩ := hrem.row (hprompt _ (by simp) env₀ henv) (hsame ▸ hres.clock) hnow
      exact hres.fresh row hrow hexp (by rw [hev, hid₁, hid₂, hid])
  · intro h r env key e hmem hm env' key' db₁ now hp hclock hnow
    have hrem : Remembered s.db e := accepted_remembered hrun hprompt _ hmem h r key e rfl hm
    exact hrem.row hp hclock hnow

theorem callback_accepted_once_replayed : ∃ es s, Run (receiverSystem sampleConfig sampleCallbackCodec) {} es s ∧
    .request sampleReceiver sampleCallback (sampleReading 300 0) 202 ∈ es ∧
    ∃ row ∈ s.db.events, row.event = sampleEvent.eventID ∧ (sampleReading 900 0).clock.val < row.expires := by
  obtain ⟨es, hrun⟩ := sample_run
  refine ⟨_, _, hrun.append (Run.single sample_first), by simp, ?_⟩
  have hprompt : ∀ e ∈ es.map ReceiverEvent.store ++ [.request sampleReceiver sampleCallback (sampleReading 300 0) 202],
      ∀ env ∈ e.env?, env.Prompt := by
    intro e he env henv
    rcases List.mem_append.1 he with he | he
    · obtain ⟨e', -, rfl⟩ := List.mem_map.1 he
      cases henv
    · rw [List.mem_singleton.1 he] at henv
      cases henv
      exact ⟨by decide, by decide⟩
  have hm : callbackMessage sampleCallbackCodec sampleReceiver sampleCallback = .ok (sampleKey, sampleEvent) := rfl
  have hlast : (sampleReading 900 0).Prompt := ⟨by decide, by decide⟩
  have hclock : validateCallbackClock (sampleReading 900 0) (sampleReceived [sampleReading 300 0]).db
      sampleKey.toCallbackKey sampleEvent.timestamp = .ok () := rfl
  have hnow : storeNow (sampleReading 900 0) (sampleReceived [sampleReading 300 0]).db = .ok
      ({ (sampleReceived [sampleReading 300 0]).db with latest := some (sampleReading 900 0).clock },
        (sampleReading 900 0).clock) := by
    have hl : (sampleReceived [sampleReading 300 0]).db.latest = some (sampleReading 300 0).clock := rfl
    simp only [storeNow, hl]
    rw [if_neg (by decide), if_neg (by decide)]
  exact (callback_accepted_once (hrun.append (Run.single sample_first)) hprompt).2 sampleReceiver sampleCallback
    (sampleReading 300 0) sampleKey sampleEvent (by simp) hm (sampleReading 900 0) sampleKey.toCallbackKey _ _
    hlast hclock hnow

/-- The process is paused for a minute between the two readings of the second callback: the same
message is accepted twice. -/
theorem callback_accepted_twice : ∃ before s, Run (receiverSystem sampleConfig sampleCallbackCodec) {}
    (before ++ [.request sampleReceiver sampleCallback (sampleReading 300 0) 202,
      .request sampleReceiver sampleCallback (sampleReading 900 60) 202]) s := by
  obtain ⟨es, hrun⟩ := sample_run
  have hsecond : (receiverSystem sampleConfig sampleCallbackCodec).step (sampleReceived [sampleReading 300 0])
      (.request sampleReceiver sampleCallback (sampleReading 900 60) 202)
      (sampleReceived [sampleReading 300 0, sampleReading 900 60]) :=
    ⟨false, (sampleReceive (sampleReading 900 60) (sampleReceived [sampleReading 300 0])).2, rfl, rfl⟩
  exact ⟨es.map .store, _, hrun.append ((Run.single sample_first).append (Run.single hsecond))⟩

end MS.Cape
