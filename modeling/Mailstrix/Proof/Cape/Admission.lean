import Mailstrix.Framework.Window
import Mailstrix.Proof.Cape.Replay

/-!
# The limits of callback admission

The limits are checked by counting replay rows when a row is added, in the transaction that purges
the expired ones.  `Admitted` ties the rows to the log of everything accepted so far: a purge drops
only what expired, and a row outlives the minute it counts for, so what the rate check counts is what
the log holds (`Admitted.counted`).  The bounds of every window and of the table follow
(`callback_admission`).
-/

namespace MS.Cape

open Framework

variable {key : CallbackKey} {e : CallbackEvent}

/-- The replay rows that are there after a step and were not before it. -/
def inserted (s s' : Store) : List EventRow := s'.db.events.filter fun row => row ∉ s.db.events

/-- The limits a callback passed at the store's time `now`. -/
structure Counted (db : Db) (keyID tenant : String) (now : Stamp) : Prop where
  total : (db.events.filter fun row => now.val < row.expires).length < 10000
  tenant : ((db.events.filter fun row => now.val < row.expires).filter fun row =>
    row.tenant = tenant).length < 1000
  rate : ((db.events.filter fun row => now.val < row.expires).filter fun row =>
    row.keyID = keyID ∧ now.val - minute < row.accepted).length < 10

theorem exec_counted {cfg : StoreConfig} {env : Env} {s s' : Store} {ret : Ret} {now : Stamp}
    (h : exec cfg env (.callback key e) s = .ok (s', ret)) (hres : Reserved env s.db s'.db key e now) :
    Counted s.db key.id e.tenant now := by
  obtain ⟨db, j, hx, -, -⟩ := withJob_ok h
  simp only [persistCallback, reserveCallbackEvent, bind_ok, check_ok, pure_ok, Prod.exists,
    exists_const] at hx
  obtain ⟨-, -, db₁, now', hnow', j₀, -, db₂, ⟨-, ⟨htotal, htenant, hrate⟩, -⟩, -⟩ := hx
  obtain ⟨db₁', hnow⟩ := hres.time
  rw [hnow] at hnow'
  cases hnow'
  obtain ⟨rfl, -⟩ := storeNow_spec hnow
  exact ⟨htotal, htenant, hrate⟩

/-! ## The rows and the log -/

/-- The rows are the entries of the log that had not expired at some earlier time, and every limit
held when an entry was added. -/
structure Admitted (log : List EventRow) (db : Db) : Prop where
  rows : ∃ purged, (purged = 0 ∨ ∃ l ∈ db.latest, purged ≤ l.val) ∧
    db.events = log.filter fun row => purged < row.expires
  lasting : ∀ row ∈ log, 0 < row.accepted ∧ row.expires = row.accepted + 11 * minute
  paced : ∀ keyID, Paced EventRow.accepted minute 10 (log.filter fun row => row.keyID = keyID)
  total : db.events.length ≤ 10000
  tenant : ∀ tenant, (db.events.filter fun row => row.tenant = tenant).length ≤ 1000

theorem admitted_empty : Admitted [] {} where
  rows := ⟨0, .inl rfl, rfl⟩
  lasting := by simp
  paced _ := paced_nil
  total := Nat.zero_le _
  tenant _ := Nat.zero_le _

theorem Admitted.later {log : List EventRow} {db db' : Db} (h : Admitted log db) (hl : db.Later db') :
    Admitted log db' := by
  obtain ⟨purged, hpurged, hrows⟩ := h.rows
  refine ⟨⟨purged, hpurged.imp_right ?_, hl.events.trans hrows⟩, h.lasting, h.paced, ?_, ?_⟩
  · rintro ⟨l, hmem, hle⟩
    obtain ⟨l', hl', hle'⟩ := hl.latest l hmem
    exact ⟨l', hl', hle.trans hle'⟩
  · rw [hl.events]
    exact h.total
  · rw [hl.events]
    exact h.tenant

section
variable {log : List EventRow} {env : Env} {db db₁ : Db} {now : Stamp}

/-- A purge at a later reading leaves what has not expired of the whole log. -/
theorem Admitted.purge (h : Admitted log db) (hnow : storeNow env db = .ok (db₁, now)) :
    (db.events.filter fun row => now.val < row.expires) = log.filter fun row => now.val < row.expires := by
  obtain ⟨purged, hpurged, hrows⟩ := h.rows
  obtain ⟨-, -, -, hlatest⟩ := storeNow_spec hnow
  have hle : purged ≤ now.val := by
    rcases hpurged with rfl | ⟨l, hl, hle⟩
    · exact Nat.zero_le _
    · exact hle.trans (hlatest l hl)
  rw [hrows, List.filter_filter]
  refine List.filter_congr fun row _ => ?_
  rw [← Bool.decide_and, decide_eq_decide]
  omega

/-- The rate check counts the accepted events of the last minute, all of them and nothing else. -/
theorem Admitted.counted (h : Admitted log db) (hnow : storeNow env db = .ok (db₁, now)) (keyID : String) :
    ((db.events.filter fun row => now.val < row.expires).filter fun row =>
      row.keyID = keyID ∧ now.val - minute < row.accepted) =
    (log.filter fun row => row.keyID = keyID).filter fun row => now.val < row.accepted + minute := by
  rw [h.purge hnow, List.filter_filter, List.filter_filter]
  refine List.filter_congr fun row hrow => ?_
  obtain ⟨hpos, hexp⟩ := h.lasting row hrow
  rw [← Bool.decide_and, ← Bool.decide_and, decide_eq_decide]
  constructor
  · rintro ⟨⟨hkey, hage⟩, -⟩
    exact ⟨by omega, hkey⟩
  · rintro ⟨hage, hkey⟩
    exact ⟨⟨hkey, by omega⟩, by omega⟩

end

section
variable {cfg : StoreConfig} {codec : CallbackCodec} {s s' : Store}

/-- An accepted callback inserts its own row and no other. -/
theorem Reserved.inserted {env : Env} {now : Stamp} (h : Reserved env s.db s'.db key e now) : inserted s s' =
      [{ event := e.eventID, tenant := e.tenant, keyID := key.id
         accepted := now.val, expires := now.val + 11 * minute }] := by
  have hpos : 0 < 11 * minute := by decide
  rw [MS.Cape.inserted, h.events, List.filter_append, List.filter_filter]
  have hold : (s.db.events.filter fun row => decide (row ∉ s.db.events) && decide (now.val < row.expires)) = [] := by
    refine List.filter_eq_nil_iff.2 fun row hrow hkeep => ?_
    simp [hrow] at hkeep
  rw [hold, List.nil_append, List.filter_eq_self]
  intro row hrow
  rw [List.mem_singleton.1 hrow, decide_eq_true_eq]
  -- a row equal to the new one would not have expired
  intro hmem
  exact h.fresh _ hmem (Nat.lt_add_of_pos_right hpos) rfl

theorem Admitted.reserved {log : List EventRow} {env : Env} {now : Stamp} (h : Admitted log s.db)
    (hres : Reserved env s.db s'.db key e now) (hcount : Counted s.db key.id e.tenant now) :
    Admitted (log ++ inserted s s') s'.db := by
  obtain ⟨db₁, hnow⟩ := hres.time
  have hpos : 0 < 11 * minute := by decide
  rw [hres.inserted]
  refine ⟨⟨now.val, .inr ⟨now, hres.latest, le_refl _⟩, ?_⟩, ?_, fun keyID => ?_, ?_, fun tenant => ?_⟩
  · rw [hres.events, h.purge hnow, List.filter_append]
    congr 1
    refine (List.filter_eq_self.2 fun row hrow => ?_).symm
    rw [List.mem_singleton.1 hrow, decide_eq_true_eq]
    exact Nat.lt_add_of_pos_right hpos
  · intro row hrow
    rcases List.mem_append.1 hrow with hrow | hrow
    · exact h.lasting row hrow
    · rw [List.mem_singleton.1 hrow]
      exact ⟨now.pos, rfl⟩
  · rw [List.filter_append, List.filter_singleton, Bool.cond_eq_ite]
    by_cases hkey : key.id = keyID
    · subst hkey
      rw [if_pos (decide_eq_true rfl)]
      refine paced_snoc.2 ⟨h.paced key.id, ?_⟩
      rw [← h.counted hnow key.id]
      exact hcount.rate
    · rw [if_neg (by simpa using hkey), List.append_nil]
      exact h.paced keyID
  · rw [hres.events, List.length_append, List.length_singleton]
    exact hcount.total
  · rw [hres.events, List.filter_append, List.filter_singleton, List.length_append, Bool.cond_eq_ite]
    by_cases ht : e.tenant = tenant
    · subst ht
      rw [if_pos (decide_eq_true rfl), List.length_singleton]
      exact hcount.tenant
    · rw [if_neg (by simpa using ht), List.length_nil]
      exact le_trans ((List.filter_sublist).filter _).length_le (h.tenant tenant)

theorem inserted_later (h : s.db.Later s'.db) : inserted s s' = [] := by
  refine List.filter_eq_nil_iff.2 fun row hrow hnew => ?_
  rw [h.events] at hrow
  simp [hrow] at hnew

theorem Admitted.step {log : List EventRow} {e : ReceiverEvent} (h : Admitted log s.db)
    (hstep : (receiverSystem cfg codec).step s e s') : Admitted (log ++ inserted s s') s'.db := by
  rcases receiver_cases hstep with ⟨hlater, -⟩ | ⟨_, _, env, key, ev, ret, -, -, -, hx⟩
  · rw [inserted_later hlater, List.append_nil]
    exact h.later hlater
  · obtain ⟨now, hres⟩ := exec_callback hx
    exact h.reserved hres (exec_counted hx hres)

/-- Every run keeps its rows and its log together. -/
theorem admitted_run {es : List ReceiverEvent} {log : List EventRow}
    (hrun : Run ((receiverSystem cfg codec).logged inserted) ({}, []) es (s, log)) : Admitted log s.db := by
  refine Run.history (I := fun _ p => Admitted p.2 p.1.db) admitted_empty ?_ hrun
  rintro ⟨s, log⟩ es e ⟨s', log'⟩ - ih ⟨hstep, hlog⟩
  change log' = log ++ inserted s s' at hlog
  subst hlog
  exact Admitted.step ih hstep

theorem callbackMessage_key {h : Receiver} {r : CallbackRequest} {key : BridgeKey}
    (hm : callbackMessage codec h r = .ok (key, e)) : key.id = r.keyID := by
  simp only [callbackMessage, authenticateCallback, bind_ok, check_ok, need_ok, pure_ok, Prod.exists,
    exists_const] at hm
  obtain ⟨-, body, -, key', hkey, seconds, -, mac, -, -, version, e', -, -, he⟩ := hm
  cases he
  exact h.keys.key_of_get? hkey

/-- The limits of callback admission, in every run and with `log` everything accepted in it.  No
half-open minute holds more than ten events of one key, whichever end is open; the table holds at
most 10000 rows and at most 1000 of a tenant; at any later reading of the store's clock the purge
keeps every event of the last minute, so the rate check counts them all; and a request answered
with 202 adds its own event to the log. -/
theorem callback_admission {es : List ReceiverEvent} {log : List EventRow}
    (hrun : Run ((receiverSystem cfg codec).logged inserted) ({}, []) es (s, log)) :
    (∀ keyID a,
      (log.filter fun row => row.keyID = keyID ∧ a ≤ row.accepted ∧ row.accepted < a + minute).length ≤ 10 ∧
      (log.filter fun row => row.keyID = keyID ∧ a < row.accepted ∧ row.accepted ≤ a + minute).length ≤ 10) ∧
    s.db.events.length ≤ 10000 ∧
    (∀ tenant, (s.db.events.filter fun row => row.tenant = tenant).length ≤ 1000) ∧
    (∀ env db₁ now, storeNow env s.db = .ok (db₁, now) → ∀ row ∈ log, now.val < row.accepted + minute →
      row ∈ s.db.events.filter fun row => now.val < row.expires) ∧
    ∀ e s' h r, (receiverSystem cfg codec).step s e s' → e.accepted? = some (h, r) →
      ∃ row, inserted s s' = [row] ∧ row.keyID = r.keyID ∧ row.event = r.eventID := by
  have hadm : Admitted log s.db := admitted_run hrun
  have hwin : ∀ keyID a, (log.filter fun row =>
      row.keyID = keyID ∧ a ≤ row.accepted ∧ row.accepted < a + minute).length ≤ 10 := by
    intro keyID a
    have h := (hadm.paced keyID).window a
    rw [List.filter_filter] at h
    refine le_trans (le_of_eq ?_) h
    congr 1
    refine List.filter_congr fun row _ => ?_
    rw [← Bool.decide_and, decide_eq_decide]
    exact and_comm
  refine ⟨fun keyID a => ⟨hwin keyID a, ?_⟩, hadm.total, hadm.tenant, ?_, ?_⟩
  · refine le_trans (le_of_eq ?_) (hwin keyID (a + 1))
    congr 1
    refine List.filter_congr fun row _ => ?_
    rw [decide_eq_decide, Nat.succ_le_iff, Nat.add_right_comm, Nat.lt_succ_iff]
  · intro env db₁ now hnow row hrow hage
    rw [hadm.purge hnow]
    have hexp := (hadm.lasting row hrow).2
    exact List.mem_filter.2 ⟨hrow, decide_eq_true (by omega)⟩
  · intro e s' h r hstep hacc
    rcases receiver_step hstep with ⟨-, hno⟩ | ⟨h₀, r₀, env, key, ev, now, -, hreq, hm, hres⟩
    · rw [hno] at hacc
      cases hacc
    · cases hreq _ hacc
      exact ⟨_, hres.inserted, callbackMessage_key hm, (callbackMessage_event hm).1⟩

end

/-- Messages that tell their event by the one byte of their body. -/
def distinctEvent (n : Nat) : String :=
  match n with
  | 0 => "0123456789abcdef0123456789abcde0"
  | 1 => "0123456789abcdef0123456789abcde1"
  | _ => "0123456789abcdef0123456789abcde2"

def distinctCodec : CallbackCodec where
  mac _ _ _ _ := List.replicate 32 0
  decode b := some (1, { sampleEvent with eventID := distinctEvent (b.headD 0).toNat })

def distinctCallback (n : Nat) : CallbackRequest :=
  { sampleCallback with body := some [UInt8.ofNat n], eventID := distinctEvent n }

/-- The answer to message `n`, which comes ten seconds after the one before, and the store after it. -/
def distinctReceive (n : Nat) (s : Store) : Nat × Option (Store × Ret) :=
  receive distinctCodec sampleReceiver false (distinctCallback n) fun key e =>
    exec sampleConfig (sampleReading (Fin.ofNat 1000 (300 + 10 * n)) 0) (.callback key e) s

/-- The store after the first `n` messages. -/
def sampleAccepted : Nat → Store
  | 0 => sampleStore sampleOwned
  | n + 1 => ((distinctReceive n (sampleAccepted n)).2.map Prod.fst).getD (sampleAccepted n)

/-- Three events of one key are accepted within a minute. -/
theorem callback_admission_three : ∃ es log,
    Run ((receiverSystem sampleConfig distinctCodec).logged inserted) ({}, []) es
      (sampleAccepted 3, log ++ (sampleAccepted 3).db.events) ∧
    (sampleAccepted 3).db.events.map EventRow.accepted = [300, 310, 320].map (unixEpoch + · * second) ∧
    ((log ++ (sampleAccepted 3).db.events).filter fun row => row.keyID = "bridge" ∧
      unixEpoch + 300 * second ≤ row.accepted ∧ row.accepted < unixEpoch + 300 * second + minute).length ≤ 10 := by
  have hstep : ∀ n < 3, (receiverSystem sampleConfig distinctCodec).step (sampleAccepted n)
      (.request sampleReceiver (distinctCallback n) (sampleReading (Fin.ofNat 1000 (300 + 10 * n)) 0) 202)
      (sampleAccepted (n + 1)) := by
    intro n hn
    have hstatus : (distinctReceive n (sampleAccepted n)).1 = 202 := by
      revert n
      decide +kernel
    exact ⟨false, (distinctReceive n (sampleAccepted n)).2, Prod.ext hstatus rfl, rfl⟩
  have hgrow : ∀ n < 3, ∀ es log,
      Run ((receiverSystem sampleConfig distinctCodec).logged inserted) ({}, []) es (sampleAccepted n, log) →
      ∃ es', Run ((receiverSystem sampleConfig distinctCodec).logged inserted) ({}, []) es'
        (sampleAccepted (n + 1), log ++ inserted (sampleAccepted n) (sampleAccepted (n + 1))) :=
    fun n hn es log h => ⟨_, h.snoc ⟨hstep n hn, rfl⟩⟩
  obtain ⟨es, hrun⟩ := @sample_run distinctCodec
  obtain ⟨log, hlog⟩ := hrun.logged inserted
  obtain ⟨es₁, h₁⟩ := hgrow 0 (by decide) _ log hlog
  obtain ⟨es₂, h₂⟩ := hgrow 1 (by decide) _ _ h₁
  obtain ⟨es₃, h₃⟩ := hgrow 2 (by decide) _ _ h₂
  have hrows : inserted (sampleAccepted 0) (sampleAccepted 1) ++ (inserted (sampleAccepted 1) (sampleAccepted 2) ++
      inserted (sampleAccepted 2) (sampleAccepted 3)) = (sampleAccepted 3).db.events := by decide +kernel
  rw [List.append_assoc, List.append_assoc, hrows] at h₃
  exact ⟨es₃, log, h₃, by decide +kernel, ((callback_admission h₃).1 "bridge" _).1⟩

end MS.Cape
