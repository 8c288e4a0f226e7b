import Mailstrix.Impl.Cape.Ops

/-!
# The store's clock

`storeNow_spec` is what one reading of the store's clock gives.  `Db.Later` is what every call other
than a callback does outside the jobs: the recorded time moves forward only, and the replay rows and
their clock stay.
-/

namespace MS.Cape

open Framework

variable {now : Stamp}

theorem Stamp.pos (t : Stamp) : 0 < t.val := by
  have h := t.range.1
  simp only [unixEpoch, second] at h
  omega

theorem Stamp.soon (t : Stamp) {d : Nat} (hd : d ≤ 2 ^ 63) : t.val + d < lastTime := by
  have h := t.range.2
  unfold lastTime
  omega

theorem Stamp.lt_lastTime (t : Stamp) : t.val < lastTime := t.soon (Nat.zero_le _)

theorem Stamp.add_lt (t : Stamp) (d : Duration) : (t.val + d.val).toNat < lastTime := by
  have h := t.soon le_rfl
  have hd := d.2.2
  omega

theorem Stamp.backoff_lt (t : Stamp) (b : Int) : t.val + clampBackoff b < lastTime := by
  refine t.soon ?_
  simp only [clampBackoff, minute, second]
  omega

/-- A granted reading is never before the clock, never more than the tolerance after it, and never
before a time that was granted already. -/
theorem storeNow_spec {env : Env} {db db' : Db} (h : storeNow env db = .ok (db', now)) :
    db' = { db with latest := some now } ∧ env.clock.val ≤ now.val ∧
      now.val ≤ env.clock.val + clockTolerance ∧ ∀ l ∈ db.latest, l.val ≤ now.val := by
  unfold storeNow at h
  split at h
  · rename_i hl
    cases h
    exact ⟨rfl, le_refl _, Nat.le_add_right .., by simp [hl]⟩
  · rename_i previous hl
    split at h
    · cases h
    · rename_i htol
      cases h
      refine ⟨rfl, ?_, ?_, fun l hl' => ?_⟩
      · split_ifs <;> omega
      · split_ifs <;> omega
      · rw [hl, Option.mem_some_iff] at hl'
        subst hl'
        split_ifs <;> omega

/-- Time has passed and jobs may have changed, nothing else. -/
structure Db.Later (db db' : Db) : Prop where
  events : db'.events = db.events
  eventClock : db'.eventClock = db.eventClock
  latest : ∀ l ∈ db.latest, ∃ l' ∈ db'.latest, l.val ≤ l'.val

theorem Db.Later.refl (db : Db) : db.Later db := ⟨rfl, rfl, fun l hl => ⟨l, hl, le_refl _⟩⟩

theorem Db.Later.trans {db db₁ db₂ : Db} (h : db.Later db₁) (h' : db₁.Later db₂) : db.Later db₂ := by
  refine ⟨h'.events.trans h.events, h'.eventClock.trans h.eventClock, fun l hl => ?_⟩
  obtain ⟨l₁, hl₁, hle₁⟩ := h.latest l hl
  obtain ⟨l₂, hl₂, hle₂⟩ := h'.latest l₁ hl₁
  exact ⟨l₂, hl₂, hle₁.trans hle₂⟩

theorem Db.Later.jobs (db : Db) (jobs : Table Job.id) : db.Later { db with jobs := jobs } :=
  ⟨rfl, rfl, (Db.Later.refl db).latest⟩

/-- Time has passed, nothing else. -/
structure Db.Waits (db db' : Db) : Prop extends Db.Later db db' where
  jobs : db'.jobs = db.jobs

theorem Db.Waits.refl (db : Db) : db.Waits db := ⟨.refl db, rfl⟩

theorem storeNow_waits {env : Env} {db db' : Db} (h : storeNow env db = .ok (db', now)) : db.Waits db' := by
  obtain ⟨rfl, -, -, hl⟩ := storeNow_spec h
  exact ⟨⟨rfl, rfl, fun l hl' => ⟨now, rfl, hl l hl'⟩⟩, rfl⟩

end MS.Cape
