import Mailstrix.Framework.Rotation
import Mailstrix.Impl.Cape.Dispatch
import Mailstrix.Proof.Cape.Upload

/-!
# Round robin in dispatch

`candidate_chosen` is what one scan chooses, `serveClass_cases` what one turn of the loop does.  The
turns of a class go round the tenants on offer (`serveClass_rotates`), so a tenant has no second turn
while another one waits that was on offer ever since its first (`dispatch_fair`).  A row may stop
being throttled in the middle of a pass, and then the tenant it belongs to may have to wait for a
second turn of another: `dispatch_unfair_late`.

`dispatch_turn` ties the turns to the steps of the scheduler.
-/

namespace MS.Cape

open Framework

variable {r : Round} {i : Nat} {j : Job}

/-! ## One scan -/

/-- The order of `sortJobs`. -/
def jobLE (a b : Job) : Prop := a.tenant < b.tenant ∨ a.tenant = b.tenant ∧ a.createdAt ≤ b.createdAt

instance : DecidableRel jobLE := fun a b =>
  inferInstanceAs (Decidable (a.tenant < b.tenant ∨ a.tenant = b.tenant ∧ a.createdAt ≤ b.createdAt))

theorem jobLE_refl (a : Job) : jobLE a a := .inr ⟨rfl, le_refl _⟩

instance : Std.Total jobLE where
  total a b := by
    rcases lt_trichotomy a.tenant b.tenant with h | h | h
    · exact .inl (.inl h)
    · rcases le_total a.createdAt b.createdAt with hc | hc
      · exact .inl (.inr ⟨h, hc⟩)
      · exact .inr (.inr ⟨h.symm, hc⟩)
    · exact .inr (.inl h)

instance : IsTrans Job jobLE where
  trans a b c := by
    rintro (hab | ⟨hab, hab'⟩) (hbc | ⟨hbc, hbc'⟩)
    · exact .inl (hab.trans hbc)
    · exact .inl (hbc ▸ hab)
    · exact .inl (hab ▸ hbc)
    · exact .inr ⟨hab.trans hbc, hab'.trans hbc'⟩

theorem jobLE.tenant {a b : Job} (h : jobLE a b) : a.tenant ≤ b.tenant := by
  rcases h with h | ⟨h, -⟩
  · exact h.le
  · exact h.le

theorem jobLE.created {a b : Job} (h : jobLE a b) (ht : b.tenant = a.tenant) : a.createdAt ≤ b.createdAt := by
  rcases h with h | ⟨-, h⟩
  · exact absurd ht h.ne'
  · exact h

theorem sortJobs_sorted (jobs : List Job) : (sortJobs jobs).Pairwise jobLE :=
  List.pairwise_insertionSort jobLE jobs

theorem sortJobs_perm (jobs : List Job) : (sortJobs jobs).Perm jobs := List.perm_insertionSort _ _

/-- The scan is a search for the first eligible row past the cursor, with the first eligible row at
all to fall back on. -/
theorem selectFrom_eq (ok : Nat → Job → Bool) (last : String) (i : Nat) (selected : Option Nat) (jobs : List Job) :
    selectFrom ok last i selected jobs =
      (((jobs.zipIdx i).find? fun p => ok p.2 p.1 && decide (last < p.1.tenant)).map Prod.snd).or
        (selected.or (((jobs.zipIdx i).find? fun p => ok p.2 p.1).map Prod.snd)) := by
  induction jobs generalizing i selected with
  | nil => cases selected <;> rfl
  | cons j jobs ih =>
    rw [selectFrom, List.zipIdx_cons, List.find?_cons, List.find?_cons]
    cases hok : ok i j with
    | false =>
      simp only [Bool.false_and, Bool.false_eq_true, if_false]
      exact ih (i + 1) selected
    | true =>
      by_cases hlt : last < j.tenant
      · simp [hlt]
      · simp only [hlt, decide_false, Bool.and_false, if_true, if_false]
        rw [ih]
        cases selected <;> rfl

/-- The first of a list with its indices is at the least index. -/
theorem find_zipIdx {α : Type} {l : List α} {p : α × Nat → Bool} {a : α}
    (h : l.zipIdx.find? p = some (a, i)) :
    l[i]? = some a ∧ p (a, i) = true ∧ ∀ k a', l[k]? = some a' → p (a', k) = true → i ≤ k := by
  obtain ⟨hp, front, back, hl, hfront⟩ := List.find?_eq_some_iff_append.1 h
  have hat : l.zipIdx[front.length]? = some (a, i) := by rw [hl]; simp
  rw [List.getElem?_zipIdx, Option.map_eq_some_iff] at hat
  obtain ⟨a₀, ha, hi⟩ := hat
  simp only [Nat.zero_add, Prod.mk.injEq] at hi
  obtain ⟨rfl, rfl⟩ := hi
  refine ⟨ha, hp, fun k a' hk hpk => ?_⟩
  by_contra hlt
  have hmem : (a', k) ∈ front := by
    have hat' : l.zipIdx[k]? = some (a', k) := by rw [List.getElem?_zipIdx, hk]; simp
    rw [hl, List.getElem?_append_left (by omega)] at hat'
    exact List.mem_of_getElem? hat'
  have hno := hfront _ hmem
  rw [hpk] at hno
  cases hno

section
variable {cfg : SchedulerConfig} {clock : Nat → Nat → Nat} {priority : Nat}

/-- What a scan chooses: the first eligible row past the cursor, or if there is none the first
eligible row. -/
structure Chosen (cfg : SchedulerConfig) (clock : Nat → Nat → Nat) (priority : Nat) (r : Round) (i : Nat)
    (j : Job) : Prop where
  row : r.jobs[i]? = some j
  eligible : r.eligible cfg clock priority i j = true
  first : (r.lastTenant priority < j.tenant ∧ ∀ k j', r.jobs[k]? = some j' →
      r.eligible cfg clock priority k j' = true → r.lastTenant priority < j'.tenant → i ≤ k) ∨
    ((∀ k j', r.jobs[k]? = some j' → r.eligible cfg clock priority k j' = true →
      j'.tenant ≤ r.lastTenant priority) ∧
      ∀ k j', r.jobs[k]? = some j' → r.eligible cfg clock priority k j' = true → i ≤ k)

theorem candidate_chosen (h : r.candidate cfg clock priority = some i) :
    ∃ j, Chosen cfg clock priority r i j := by
  rw [Round.candidate, selectFrom_eq, Option.none_or] at h
  cases hpast : r.jobs.zipIdx.find? fun p =>
      r.eligible cfg clock priority p.2 p.1 && decide (r.lastTenant priority < p.1.tenant) with
  | some p =>
    obtain ⟨j, k⟩ := p
    rw [hpast] at h
    cases h
    obtain ⟨hrow, hok, hleast⟩ := find_zipIdx hpast
    simp only [Bool.and_eq_true, decide_eq_true_eq] at hok hleast
    exact ⟨j, hrow, hok.1, .inl ⟨hok.2, fun k j' hk hel hlt => hleast k j' hk ⟨hel, hlt⟩⟩⟩
  | none =>
    rw [hpast, Option.map_none, Option.none_or, Option.map_eq_some_iff] at h
    obtain ⟨⟨j, k⟩, hfind, rfl⟩ := h
    obtain ⟨hrow, hok, hleast⟩ := find_zipIdx hfind
    refine ⟨j, hrow, hok, .inr ⟨fun k' j' hk hel => ?_, hleast⟩⟩
    have hno := List.find?_eq_none.1 hpast (j', k') (List.mk_mem_zipIdx_iff_getElem?.2 hk)
    simp only [hel, Bool.true_and, decide_eq_true_eq] at hno
    exact not_lt.1 hno

/-- The scan finds the row eligible, so it has not been inspected. -/
def Round.Offers (cfg : SchedulerConfig) (clock : Nat → Nat → Nat) (priority : Nat) (r : Round) (j : Job) : Prop :=
  ∃ i, r.jobs[i]? = some j ∧ r.eligible cfg clock priority i j = true

theorem Chosen.offers (h : Chosen cfg clock priority r i j) :
    r.Offers cfg clock priority j := ⟨i, h.row, h.eligible⟩

/-- In a sorted list a later row is not before an earlier one. -/
theorem sorted_le {jobs : List Job} (hs : jobs.Pairwise jobLE) {i k : Nat} {j j' : Job} (hi : jobs[i]? = some j)
    (hk : jobs[k]? = some j') (hle : i ≤ k) : jobLE j j' := by
  rcases hle.eq_or_lt with rfl | hlt
  · rw [hi] at hk
    cases hk
    exact jobLE_refl j
  · obtain ⟨hi', rfl⟩ := List.getElem?_eq_some_iff.1 hi
    obtain ⟨hk', rfl⟩ := List.getElem?_eq_some_iff.1 hk
    exact List.pairwise_iff_getElem.1 hs i k hi' hk' hlt

/-- The tenants on offer. -/
def Round.tenants (cfg : SchedulerConfig) (clock : Nat → Nat → Nat) (priority : Nat) (r : Round) (t : String) : Prop :=
  ∃ j, r.Offers cfg clock priority j ∧ j.tenant = t

/-- The scan goes on to the next tenant. -/
theorem Chosen.next (h : Chosen cfg clock priority r i j)
    (hs : r.jobs.Pairwise jobLE) :
    NextAfter (r.tenants cfg clock priority) (r.lastTenant priority) j.tenant := by
  refine ⟨⟨j, h.offers, rfl⟩, ?_⟩
  rcases h.first with ⟨hlt, hfirst⟩ | ⟨hnone, hfirst⟩
  · refine .inl ⟨hlt, ?_⟩
    rintro _ ⟨j', ⟨k, hk, hel⟩, rfl⟩ hlast
    exact (sorted_le hs h.row hk (hfirst k j' hk hel hlast)).tenant
  · refine .inr ⟨?_, ?_⟩
    · rintro _ ⟨j', ⟨k, hk, hel⟩, rfl⟩
      exact hnone k j' hk hel
    · rintro _ ⟨j', ⟨k, hk, hel⟩, rfl⟩
      exact (sorted_le hs h.row hk (hfirst k j' hk hel)).tenant

/-- Of the rows of its tenant on offer, the scan takes the oldest. -/
theorem Chosen.oldest {j j' : Job} (h : Chosen cfg clock priority r i j)
    (hs : r.jobs.Pairwise jobLE) (hoffer : r.Offers cfg clock priority j') (ht : j'.tenant = j.tenant) :
    j.createdAt ≤ j'.createdAt := by
  obtain ⟨k, hk, hel⟩ := hoffer
  have hle : i ≤ k := by
    rcases h.first with ⟨hlt, hfirst⟩ | ⟨-, hfirst⟩
    · exact hfirst k j' hk hel (ht ▸ hlt)
    · exact hfirst k j' hk hel
  exact (sorted_le hs h.row hk hle).created ht

theorem eligible_class {live : List JobID} {now : Nat} (h : eligible cfg live now priority j = true) :
    j.id ∉ live ∧ ((requestFor j).kind = .delete ↔ priority = 0) := by
  simp only [eligible, Bool.and_eq_true, decide_eq_true_eq, beq_iff_eq] at h
  obtain ⟨⟨⟨⟨-, hlive⟩, -⟩, hclass⟩, -⟩ := h
  refine ⟨hlive, ?_⟩
  rw [← decide_eq_true_iff (p := priority = 0), hclass, requestFor]
  cases cleanupTask j with
  | some task => simp
  | none =>
    simp only [Option.isSome_none, Bool.false_eq_true, iff_false]
    split_ifs <;> simp

theorem Chosen.perm (h : Chosen cfg clock priority r i j) :
    (j :: (r.serve priority i j).jobs).Perm r.jobs := by
  obtain ⟨hi, hj⟩ := List.getElem?_eq_some_iff.1 h.row
  have hperm := List.getElem_cons_eraseIdx_perm hi
  rwa [hj] at hperm

theorem Chosen.sorted (hs : r.jobs.Pairwise jobLE) :
    (r.serve priority i j).jobs.Pairwise jobLE := hs.sublist (List.eraseIdx_sublist r.jobs i)

/-! ## The turns of a class -/

variable (cfg clock priority)

/-- The loop ends, or serves one row and goes on. -/
theorem serveClass_cases (n : Nat) (r : Round) :
    ((serveClass cfg clock priority n r).1 = [] ∧ (serveClass cfg clock priority n r).2.live = r.live ∧
      (serveClass cfg clock priority n r).2.lastTenant = r.lastTenant ∧
      (serveClass cfg clock priority n r).2.jobs = r.jobs) ∨
    ∃ m i j, n = m + 1 ∧ r.live.length < cfg.workers ∧ Chosen cfg clock priority r i j ∧
      serveClass cfg clock priority n r =
        (⟨priority, r, j⟩ :: (serveClass cfg clock priority m (r.serve priority i j)).1,
          (serveClass cfg clock priority m (r.serve priority i j)).2) := by
  cases n with
  | zero => exact .inl ⟨rfl, rfl, rfl, rfl⟩
  | succ m =>
    rw [serveClass]
    split_ifs with hfull
    · exact .inl ⟨rfl, rfl, rfl, rfl⟩
    · cases hc : r.candidate cfg clock priority with
      | none => exact .inl ⟨rfl, rfl, rfl, rfl⟩
      | some i =>
        obtain ⟨j, hj⟩ := candidate_chosen hc
        refine .inr ⟨m, i, j, rfl, not_le.1 hfull, hj, ?_⟩
        simp only [hj.row]

/-- With more scans than rows the loop ends with all workers busy, or with a scan that finds no row. -/
theorem serveClass_ends (n : Nat) (r : Round) (hn : r.jobs.length < n) :
    cfg.workers ≤ (serveClass cfg clock priority n r).2.live.length ∨
      ∃ last : Round, (serveClass cfg clock priority n r).2 = last.scanned ∧ last.candidate cfg clock priority = none := by
  induction n generalizing r with
  | zero => omega
  | succ m ih =>
    rw [serveClass]
    split_ifs with hfull
    · exact .inl hfull
    · cases hc : r.candidate cfg clock priority with
      | none => exact .inr ⟨r, rfl, hc⟩
      | some i =>
        obtain ⟨j, hj⟩ := candidate_chosen hc
        simp only [hj.row]
        refine ih (r.serve priority i j) ?_
        have hlen := hj.perm.length_eq
        rw [List.length_cons] at hlen
        omega

/-- What is known of every turn of a class. -/
structure Turn.Fair (cfg : SchedulerConfig) (clock : Nat → Nat → Nat) (t : Turn) : Prop where
  offers : t.found.Offers cfg clock t.priority t.job
  free : t.found.live.length < cfg.workers
  oldest : ∀ j, t.found.Offers cfg clock t.priority j → j.tenant = t.job.tenant → t.job.createdAt ≤ j.createdAt

theorem serveClass_turns (n : Nat) (r : Round) (hs : r.jobs.Pairwise jobLE) :
    (serveClass cfg clock priority n r).2.jobs.Pairwise jobLE ∧
      ∀ t ∈ (serveClass cfg clock priority n r).1, t.priority = priority ∧ t.Fair cfg clock := by
  induction n generalizing r with
  | zero => exact ⟨hs, by simp [serveClass]⟩
  | succ n ih =>
    rcases serveClass_cases cfg clock priority (n + 1) r with
      ⟨hnil, -, -, hjobs⟩ | ⟨m, i, j, hm, hfree, hj, heq⟩
    · rw [hnil, hjobs]
      exact ⟨hs, by simp⟩
    · cases hm
      rw [heq]
      obtain ⟨hsorted, hturns⟩ := ih (r.serve priority i j) (Chosen.sorted hs)
      refine ⟨hsorted, fun t ht => ?_⟩
      rcases List.mem_cons.1 ht with rfl | ht
      · exact ⟨rfl, hj.offers, hfree, fun j' ho ht => hj.oldest hs ho ht⟩
      · exact hturns t ht

/-- A turn as a turn of the rotation. -/
def Turn.rotation (cfg : SchedulerConfig) (clock : Nat → Nat → Nat) (t : Turn) : (String → Prop) × String :=
  (t.found.tenants cfg clock t.priority, t.job.tenant)

theorem serveClass_rotates (n : Nat) (r : Round) (hs : r.jobs.Pairwise jobLE) :
    Rotates (r.lastTenant priority) ((serveClass cfg clock priority n r).1.map (Turn.rotation cfg clock)) := by
  induction n generalizing r with
  | zero => trivial
  | succ n ih =>
    rcases serveClass_cases cfg clock priority (n + 1) r with
      ⟨hnil, -⟩ | ⟨m, i, j, hm, -, hj, heq⟩
    · rw [hnil]
      trivial
    · cases hm
      rw [heq]
      refine ⟨hj.next hs, ?_⟩
      have hrest := ih (r.serve priority i j) (Chosen.sorted hs)
      have hlast : (r.serve priority i j).lastTenant priority = j.tenant := Function.update_self ..
      rwa [hlast] at hrest

/-- The other class keeps its cursor. -/
theorem serveClass_lastTenant (n : Nat) (r : Round) {other : Nat} (hne : other ≠ priority) :
    (serveClass cfg clock priority n r).2.lastTenant other = r.lastTenant other := by
  induction n generalizing r with
  | zero => rfl
  | succ n ih =>
    rcases serveClass_cases cfg clock priority (n + 1) r with
      ⟨-, -, hlast, -⟩ | ⟨m, i, j, hm, -, -, heq⟩
    · rw [hlast]
    · cases hm
      rw [heq]
      exact (ih (r.serve priority i j)).trans (Function.update_of_ne hne _ _)

/-- Each row is inspected at most once, and the requests that were live stay live. -/
theorem serveClass_rows (n : Nat) (r : Round) :
    ((serveClass cfg clock priority n r).1.map Turn.job ++ (serveClass cfg clock priority n r).2.jobs).Perm r.jobs ∧
      (serveClass cfg clock priority n r).2.live =
        ((serveClass cfg clock priority n r).1.map fun t => t.job.id).reverse ++ r.live ∧
      (serveClass cfg clock priority n r).2.live.length ≤ max cfg.workers r.live.length ∧
      (r.live.Nodup → (serveClass cfg clock priority n r).2.live.Nodup) := by
  induction n generalizing r with
  | zero => exact ⟨.refl _, rfl, Nat.le_max_right _ _, id⟩
  | succ n ih =>
    rcases serveClass_cases cfg clock priority (n + 1) r with
      ⟨hnil, hlive, -, hjobs⟩ | ⟨m, i, j, hm, hfree, hj, heq⟩
    · rw [hnil, hlive, hjobs]
      exact ⟨.refl _, rfl, Nat.le_max_right _ _, id⟩
    · cases hm
      rw [heq]
      obtain ⟨hrows, hlive, hbound, hnodup⟩ := ih (r.serve priority i j)
      refine ⟨(hrows.cons j).trans hj.perm, ?_, ?_, fun hr => ?_⟩
      · rw [hlive, List.map_cons, List.reverse_cons, List.append_assoc]
        rfl
      · refine hbound.trans ?_
        have hlen : (r.serve priority i j).live.length = r.live.length + 1 := rfl
        omega
      · refine hnodup (List.nodup_cons.2 ⟨?_, hr⟩)
        exact (eligible_class hj.eligible).1

end

/-! ## A whole pass -/

section
variable (cfg : SchedulerConfig) (clock : Nat → Nat → Nat) (live : List JobID) (lastTenant : Nat → String)
  (batch : List Job)

/-- A pass is its deletions and then the rest, each class in the rotation of its own cursor. -/
theorem dispatchPass_classes : ∃ deletions others,
    (dispatchPass cfg clock live lastTenant batch).1 = deletions ++ others ∧
      (∀ t ∈ deletions, t.priority = 0 ∧ t.Fair cfg clock) ∧ (∀ t ∈ others, t.priority = 1 ∧ t.Fair cfg clock) ∧
      Rotates (lastTenant 0) (deletions.map (Turn.rotation cfg clock)) ∧
      Rotates (lastTenant 1) (others.map (Turn.rotation cfg clock)) := by
  let start : Round := { live := live, lastTenant := lastTenant, jobs := sortJobs batch }
  have hs : start.jobs.Pairwise jobLE := sortJobs_sorted batch
  obtain ⟨hs', hdel⟩ := serveClass_turns cfg clock 0 (start.jobs.length + 1) start hs
  let rest : Round := (serveAll cfg clock 0 start).2
  obtain ⟨-, hoth⟩ := serveClass_turns cfg clock 1 (rest.jobs.length + 1) rest hs'
  have hrot₀ := serveClass_rotates cfg clock 0 (start.jobs.length + 1) start hs
  have hrot₁ := serveClass_rotates cfg clock 1 (rest.jobs.length + 1) rest hs'
  have hlast : rest.lastTenant 1 = lastTenant 1 := serveClass_lastTenant cfg clock 0 _ _ (by decide)
  rw [hlast] at hrot₁
  exact ⟨_, _, rfl, hdel, hoth, hrot₀, hrot₁⟩

/-- Two turns of one class, with the turns between them, lie in the rotation of that class. -/
theorem dispatchPass_rotation {before between after : List Turn} {x y : Turn}
    (h : (dispatchPass cfg clock live lastTenant batch).1 = before ++ x :: (between ++ y :: after))
    (hxy : x.priority = y.priority) : (∀ z ∈ between, z.priority = x.priority) ∧ ∃ last before' after',
      Rotates last (before' ++ x.rotation cfg clock ::
        (between.map (Turn.rotation cfg clock) ++ y.rotation cfg clock :: after')) := by
  obtain ⟨deletions, others, heq, hdel, hoth, hrot₀, hrot₁⟩ := dispatchPass_classes cfg clock live lastTenant batch
  rw [heq] at h
  rcases List.append_eq_append_iff.1 h with ⟨front, rfl, hrest⟩ | ⟨rest, rfl, hrest⟩
  · -- the first of the two is not a deletion, so nothing from there on is one
    rw [hrest] at hoth hrot₁
    refine ⟨fun z hz => ?_, lastTenant 1, front.map (Turn.rotation cfg clock), after.map (Turn.rotation cfg clock), ?_⟩
    · rw [(hoth z (by simp [hz])).1, (hoth x (by simp)).1]
    · simpa using hrot₁
  · cases rest with
    | nil =>
      rw [List.nil_append] at hrest
      rw [← hrest] at hoth hrot₁
      refine ⟨fun z hz => ?_, lastTenant 1, [], after.map (Turn.rotation cfg clock), ?_⟩
      · rw [(hoth z (by simp [hz])).1, (hoth x (by simp)).1]
      · simpa using hrot₁
    | cons x' rest =>
      rw [List.cons_append, List.cons.injEq] at hrest
      obtain ⟨rfl, hrest⟩ := hrest
      have hx : x.priority = 0 := (hdel x (by simp)).1
      rcases List.append_eq_append_iff.1 hrest with ⟨front, rfl, hrest'⟩ | ⟨rest', rfl, hrest'⟩
      · -- the second is a deletion only if it stands among them
        cases front with
        | nil =>
          rw [List.nil_append] at hrest'
          have hy := (hoth y (by simp [← hrest'])).1
          omega
        | cons y' front =>
          rw [List.cons_append, List.cons.injEq] at hrest'
          obtain ⟨rfl, -⟩ := hrest'
          refine ⟨fun z hz => ?_, lastTenant 0, before.map (Turn.rotation cfg clock),
            front.map (Turn.rotation cfg clock), ?_⟩
          · rw [(hdel z (by simp [hz])).1, hx]
          · simpa using hrot₀
      · have hy := (hoth y (by simp [hrest'])).1
        omega

/-- The pass inspects each row of the batch at most once and keeps the requests within the workers. -/
theorem dispatchPass_rows :
    ((dispatchPass cfg clock live lastTenant batch).1.map Turn.job ++
        (dispatchPass cfg clock live lastTenant batch).2.jobs).Perm batch ∧
      (dispatchPass cfg clock live lastTenant batch).2.live.length ≤ max cfg.workers live.length ∧
      (live.Nodup → (dispatchPass cfg clock live lastTenant batch).2.live.Nodup) := by
  let start : Round := { live := live, lastTenant := lastTenant, jobs := sortJobs batch }
  let rest : Round := (serveAll cfg clock 0 start).2
  obtain ⟨hrows₀, -, hbound₀, hnodup₀⟩ := serveClass_rows cfg clock 0 (start.jobs.length + 1) start
  obtain ⟨hrows₁, -, hbound₁, hnodup₁⟩ := serveClass_rows cfg clock 1 (rest.jobs.length + 1) rest
  have hsort : start.jobs.Perm batch := sortJobs_perm batch
  refine ⟨?_, ?_, fun h => hnodup₁ (hnodup₀ h)⟩
  · change (((serveAll cfg clock 0 start).1 ++ (serveAll cfg clock 1 rest).1).map Turn.job ++
      (serveAll cfg clock 1 rest).2.jobs).Perm batch
    rw [List.map_append, List.append_assoc]
    exact ((hrows₁.append_left _).trans hrows₀).trans hsort
  · refine hbound₁.trans (max_le (le_max_left _ _) ?_)
    exact hbound₀

/-- No worker is left idle over work: a pass ends with all of them busy, or in each class its last scan has found no row
on offer. -/
theorem dispatchPass_busy :
    cfg.workers ≤ (dispatchPass cfg clock live lastTenant batch).2.live.length ∨
      (∃ last : Round, (serveAll cfg clock 0 ⟨live, lastTenant, sortJobs batch, 0⟩).2 = last.scanned ∧
        last.candidate cfg clock 0 = none) ∧
      ∃ last : Round, (dispatchPass cfg clock live lastTenant batch).2 = last.scanned ∧
        last.candidate cfg clock 1 = none := by
  rcases serveClass_ends cfg clock 0 _ ⟨live, lastTenant, sortJobs batch, 0⟩ (Nat.lt_succ_self _) with
    hbusy | hdeletions
  · -- busy workers get nothing on top
    refine .inl ?_
    simp only [dispatchPass]
    rw [← serveAll] at hbusy
    generalize (serveAll cfg clock 0 _).2 = r at hbusy ⊢
    rwa [serveAll, serveClass, if_pos hbusy]
  · exact (serveClass_ends cfg clock 1 _ _ (Nat.lt_succ_self _)).imp_right fun hothers => ⟨hdeletions, hothers⟩

end

/-! ## A pass in which no throttle changes -/

/-- The readings of a pass all agree on which rows are throttled. -/
def Steady (clock : Nat → Nat → Nat) (batch : List Job) : Prop :=
  ∀ j ∈ batch, ∀ scan i scan' i', readThrottled j (clock scan i) = readThrottled j (clock scan' i')

section
variable {cfg : SchedulerConfig} {clock : Nat → Nat → Nat} {priority : Nat}

/-- A row that is on offer after a turn was on offer before it. -/
theorem Chosen.offered {j j' : Job} (hsteady : Steady clock r.jobs)
    (h : (r.serve priority i j).Offers cfg clock priority j') : r.Offers cfg clock priority j' := by
  obtain ⟨k, hk, hel⟩ := h
  have hmem : j' ∈ r.jobs := (List.eraseIdx_sublist r.jobs i).mem (List.mem_of_getElem? hk)
  obtain ⟨k', hk'⟩ := List.mem_iff_getElem?.1 hmem
  refine ⟨k', hk', ?_⟩
  simp only [Round.eligible, MS.Cape.eligible, Bool.and_eq_true, decide_eq_true_eq] at hel ⊢
  obtain ⟨⟨⟨⟨hclient, hlive⟩, hthrottle⟩, hclass⟩, hstate⟩ := hel
  refine ⟨⟨⟨⟨hclient, fun hin => hlive (List.mem_cons_of_mem _ hin)⟩, ?_⟩, hclass⟩, hstate⟩
  rw [hsteady j' hmem]
  exact hthrottle

theorem Steady.serve (h : Steady clock r.jobs) :
    Steady clock (r.serve priority i j).jobs :=
  fun j' hj' => h j' ((List.eraseIdx_sublist r.jobs i).mem hj')

variable (cfg priority)

/-- What is on offer at a later turn of a class was on offer at every earlier one. -/
theorem serveClass_offered (n : Nat) (r : Round) (h : Steady clock r.jobs) :
    (∀ t ∈ (serveClass cfg clock priority n r).1, ∀ j, t.found.Offers cfg clock priority j →
      r.Offers cfg clock priority j) ∧
    (serveClass cfg clock priority n r).1.Pairwise fun x y => ∀ j, y.found.Offers cfg clock priority j →
      x.found.Offers cfg clock priority j := by
  induction n generalizing r with
  | zero => exact ⟨by simp [serveClass], by simp [serveClass]⟩
  | succ n ih =>
    rcases serveClass_cases cfg clock priority (n + 1) r with ⟨hnil, -⟩ | ⟨m, i, j, hm, -, -, heq⟩
    · rw [hnil]
      exact ⟨by simp, .nil⟩
    · cases hm
      rw [heq]
      obtain ⟨hstart, hpair⟩ := ih (r.serve priority i j) h.serve
      have hback : ∀ t ∈ (serveClass cfg clock priority n (r.serve priority i j)).1, ∀ j',
          t.found.Offers cfg clock priority j' → r.Offers cfg clock priority j' :=
        fun t ht j' ho => Chosen.offered h (hstart t ht j' ho)
      refine ⟨fun t ht j' ho => ?_, List.pairwise_cons.2 ⟨hback, hpair⟩⟩
      rcases List.mem_cons.1 ht with rfl | ht
      · exact ho
      · exact hback t ht j' ho

theorem dispatchPass_offered (live : List JobID) (lastTenant : Nat → String) {batch : List Job}
    (h : Steady clock batch) :
    (dispatchPass cfg clock live lastTenant batch).1.Pairwise fun x y => x.priority = y.priority →
      ∀ j, y.found.Offers cfg clock y.priority j → x.found.Offers cfg clock x.priority j := by
  let start : Round := { live := live, lastTenant := lastTenant, jobs := sortJobs batch }
  let rest : Round := (serveAll cfg clock 0 start).2
  have hs : start.jobs.Pairwise jobLE := sortJobs_sorted batch
  have hsort : start.jobs.Perm batch := sortJobs_perm batch
  obtain ⟨hs', hdel⟩ := serveClass_turns cfg clock 0 (start.jobs.length + 1) start hs
  obtain ⟨-, hoth⟩ := serveClass_turns cfg clock 1 (rest.jobs.length + 1) rest hs'
  obtain ⟨hrows, -⟩ := serveClass_rows cfg clock 0 (start.jobs.length + 1) start
  have hsteady₀ : Steady clock start.jobs := fun j hj => h j (hsort.mem_iff.1 hj)
  have hsteady₁ : Steady clock rest.jobs := fun j hj =>
    hsteady₀ j (hrows.mem_iff.1 (List.mem_append_right _ hj))
  have hpair₀ := (serveClass_offered cfg 0 (start.jobs.length + 1) start hsteady₀).2
  have hpair₁ := (serveClass_offered cfg 1 (rest.jobs.length + 1) rest hsteady₁).2
  refine List.pairwise_append.2 ⟨hpair₀.imp_of_mem ?_, hpair₁.imp_of_mem ?_, fun x hx y hy hxy => ?_⟩
  · intro x y hx hy hxy _ j
    rw [(hdel x hx).1, (hdel y hy).1]
    exact hxy j
  · intro x y hx hy hxy _ j
    rw [(hoth x hx).1, (hoth y hy).1]
    exact hxy j
  · rw [(hdel x hx).1, (hoth y hy).1] at hxy
    cases hxy

end

/-! ## The turns are steps of the scheduler -/

/-- What the next scan of a pass finds. -/
def World.round (w : World) (pass : Pass) (scans : Nat) : Round where
  live := w.live.map (·.packet.job.id)
  lastTenant := w.lastTenant
  jobs := pass.jobs
  scans := scans

theorem beginSubmission_id {cfg : StoreConfig} {env : Env} {live : List (JobID × String)} {db db' : Db}
    {tenant : String} {id : JobID} {version : Int}
    (h : beginSubmission cfg env live db tenant id version = .ok (db', j)) : j.id = id := by
  simp only [beginSubmission, admissionGeneration, bind_ok, check_ok, readJob_ok, pure_ok, Prod.exists,
    exists_const] at h
  obtain ⟨j₀, ⟨hj, -⟩, -, -, db₁, now, -, -, -, -, -, -, db₂, -, he⟩ := h
  have hid : j₀.id = id := Table.key_of_get? hj
  cases he
  exact hid

theorem reserveRead_id {env : Env} {db db' : Db} {snapshot j : Job} {delay : Duration}
    (h : reserveRead env db snapshot delay = .ok (db', j)) : j.id = snapshot.id := by
  obtain ⟨j₀, db₁, now, hj, -, -, -, -, rfl, -⟩ := reserveRead_spec h
  have hid : j₀.id = snapshot.id := Table.key_of_get? hj
  exact hid

/-- A sent request makes its row live and moves the cursor of its class. -/
theorem send_round (w : World) (pass : Pass) (i scans : Nat) {j reserved : Job} (hid : reserved.id = j.id) :
    (w.send pass j reserved).round (pass.without i) (scans + 1) =
      (w.round pass scans).serve pass.priority i j := by
  simp only [World.round, World.send, Round.serve, List.map_cons, hid]
  rfl

/-- A step of the scheduler that sends a request in a pass is one turn of its class: the scan's
candidate is served. -/
theorem dispatch_turn {cfg : SchedulerConfig} {w w' : World} {e : Label} {pass : Pass} (hstep : Step cfg w e w')
    (hpc : w.pc = .dispatching pass) (hsent : w.live.length < w'.live.length) (scans : Nat) :
    ∃ clock i j, (w.round pass scans).candidate cfg (fun _ => clock) pass.priority = some i ∧
      pass.jobs[i]? = some j ∧ w.live.length < cfg.workers ∧ w'.pc = .dispatching (pass.without i) ∧
      w'.round (pass.without i) (scans + 1) = (w.round pass scans).serve pass.priority i j := by
  cases hstep with
  | @begin pass' clock i j reserved out s hp hfree hi hj hk hcall hans =>
    rw [hpc] at hp
    cases hp
    have hc := Outcome.committed_of_ok hans
    obtain ⟨env, s₁, r, hexec, -, hret⟩ := call_exec hcall hc
    rw [hret _ hans] at hexec
    simp only [exec, bind_ok, pure_ok, Prod.exists] at hexec
    obtain ⟨db, j', hb, he⟩ := hexec
    cases he
    exact ⟨clock, i, j, hi, hj, hfree, rfl, send_round w pass i scans (beginSubmission_id hb)⟩
  | @reserveRead pass' clock i j out s delay hp hfree hi hj hk hdelay hcall =>
    rw [hpc] at hp
    cases hp
    split at hsent
    · rename_i reserved hans
      have hc := Outcome.committed_of_ok hans
      obtain ⟨env, s₁, r, hexec, -, hret⟩ := call_exec hcall hc
      rw [hret _ hans] at hexec
      obtain ⟨db, j', hx, -, hjob⟩ := withJob_ok hexec
      cases hjob
      exact ⟨clock, i, j, hi, hj, hfree, rfl, send_round w pass i scans (reserveRead_id hx)⟩
    · exact absurd hsent (lt_irrefl _)
  | crash => simp at hsent
  | recover | recovered | api | run | cancelled | persistPending | keep | persist | persistCall | persistRet
  | persisted | maintainCall | maintained | tick | joined | drain | drained | dispatch | nextPriority
  | beginError | reconcileCall | reconciled | unreconciled => exact absurd hsent (lt_irrefl _)
  | openPayload hl | refuse hl | upload hl | submit hl | answer hl =>
    rw [hl] at hsent
    simp at hsent
  | receive _ hl | join _ hl =>
    rw [hl] at hsent
    simp at hsent

theorem dispatch_turn_begin : ∃ clock i,
    (sampleReady.round { priority := 1, jobs := [sampleQueued] } 0).candidate sampleScheduler (fun _ => clock) 1
      = some i := by
  obtain ⟨clock, i, -, hi, -⟩ := dispatch_turn
    (@Step.begin sampleScheduler sampleReady _ (fun _ => hour) 0 sampleQueued _ _ _ rfl (by decide) rfl rfl rfl
      (.ok sample_begin) rfl)
    rfl (by decide) 0
  exact ⟨clock, i, hi⟩

/-! ## Fairness -/

def fourWorkers : SchedulerConfig := ⟨sampleConfig, ["gen"], none, 4⟩

/-- A row that waits for its remote task. -/
def sampleWaiting (id : JobID) (tenant : String) (nextAttempt : Nat) : Job :=
  { id := id, tenant := tenant, generation := "gen", submissionPolicy := "submit", resultPolicy := "result"
    state := .remotePending, version := 4, taskIDs := [1], cleanup := .deletePending, nextAttempt := nextAttempt }

/-- One pass in which every reservation succeeds, for every batch, live set, clock and cursors.

The turns of a class go round the tenants on offer from the cursor of the class, so between two turns
of one tenant every other tenant that is on offer at each scan in between is served; in a pass in which
no throttle changes it is enough that the tenant is on offer at the second turn.  Deletions come first,
a tenant's oldest row on offer is taken, no row is inspected twice, and no request is sent while all
workers are busy. -/
theorem dispatch_fair (cfg : SchedulerConfig) (clock : Nat → Nat → Nat) (live : List JobID)
    (lastTenant : Nat → String) (batch : List Job) :
    (∃ deletions others, (dispatchPass cfg clock live lastTenant batch).1 = deletions ++ others ∧
      (∀ t ∈ deletions, t.priority = 0 ∧ (requestFor t.job).kind = .delete) ∧
      (∀ t ∈ others, t.priority = 1 ∧ (requestFor t.job).kind ≠ .delete) ∧
      Rotates (lastTenant 0) (deletions.map (Turn.rotation cfg clock)) ∧
      Rotates (lastTenant 1) (others.map (Turn.rotation cfg clock))) ∧
    (∀ before x between y after tenant, (dispatchPass cfg clock live lastTenant batch).1 =
        before ++ x :: (between ++ y :: after) → x.priority = y.priority → y.job.tenant = x.job.tenant →
      tenant ≠ x.job.tenant → y.found.tenants cfg clock y.priority tenant →
      (Steady clock batch ∨ ∀ z ∈ between, z.found.tenants cfg clock z.priority tenant) →
      ∃ z ∈ between, z.job.tenant = tenant) ∧
    (∀ t ∈ (dispatchPass cfg clock live lastTenant batch).1, t.found.live.length < cfg.workers ∧
      ∀ j, t.found.Offers cfg clock t.priority j → j.tenant = t.job.tenant → t.job.createdAt ≤ j.createdAt) ∧
    ((dispatchPass cfg clock live lastTenant batch).1.map Turn.job ++
      (dispatchPass cfg clock live lastTenant batch).2.jobs).Perm batch ∧
    (live.length ≤ cfg.workers → (dispatchPass cfg clock live lastTenant batch).2.live.length ≤ cfg.workers) ∧
    (live.Nodup → (dispatchPass cfg clock live lastTenant batch).2.live.Nodup) := by
  obtain ⟨deletions, others, heq, hdel, hoth, hrot₀, hrot₁⟩ := dispatchPass_classes cfg clock live lastTenant batch
  obtain ⟨hrows, hbound, hnodup⟩ := dispatchPass_rows cfg clock live lastTenant batch
  have hkind : ∀ t : Turn, t.Fair cfg clock → ((requestFor t.job).kind = .delete ↔ t.priority = 0) := by
    intro t ht
    obtain ⟨i, -, hel⟩ := ht.offers
    exact (eligible_class hel).2
  refine ⟨⟨deletions, others, heq, fun t ht => ?_, fun t ht => ?_, hrot₀, hrot₁⟩, ?_, fun t ht => ?_, hrows,
    fun hlive => hbound.trans (max_le (le_refl _) hlive), hnodup⟩
  · obtain ⟨hp, hfair⟩ := hdel t ht
    exact ⟨hp, (hkind t hfair).2 hp⟩
  · obtain ⟨hp, hfair⟩ := hoth t ht
    exact ⟨hp, fun hk => by simp [(hkind t hfair).1 hk] at hp⟩
  · intro before x between y after tenant hturns hxy htenant hne hoffer hstay
    obtain ⟨hclass, last, before', after', hrot⟩ := dispatchPass_rotation cfg clock live lastTenant batch hturns hxy
    have hbetween : ∀ z ∈ between, z.found.tenants cfg clock z.priority tenant := by
      rcases hstay with hsteady | hstay
      · intro z hz
        obtain ⟨j, hj, hjt⟩ := hoffer
        have hpair := dispatchPass_offered cfg live lastTenant hsteady
        rw [hturns] at hpair
        have hin := (List.pairwise_cons.1 (List.pairwise_append.1 hpair).2.1).2
        have hzy := (List.pairwise_append.1 hin).2.2 z hz y (by simp)
        exact ⟨j, hzy ((hclass z hz).trans hxy) j hj, hjt⟩
      · exact hstay
    obtain ⟨_, hmem, hserved⟩ := hrot.fair htenant hne fun z hz => by
      rcases List.mem_append.1 hz with hz | hz
      · obtain ⟨t, ht, rfl⟩ := List.mem_map.1 hz
        exact hbetween t ht
      · rw [List.mem_singleton.1 hz]
        exact hoffer
    obtain ⟨t, ht, rfl⟩ := List.mem_map.1 hmem
    exact ⟨t, ht, hserved⟩
  · rw [heq] at ht
    have hfair : t.Fair cfg clock := by
      rcases List.mem_append.1 ht with ht | ht
      · exact (hdel t ht).2
      · exact (hoth t ht).2
    exact ⟨hfair.free, hfair.oldest⟩

/-- Two tenants with two rows each. -/
def sampleEven : List Job :=
  [sampleWaiting 1 "a" 0, sampleWaiting 2 "a" 0, sampleWaiting 3 "b" 0, sampleWaiting 4 "b" 0]

theorem dispatch_fair_even : ∃ x between y after,
    (dispatchPass fourWorkers (fun _ _ => 5) [] (fun _ => "") sampleEven).1 = x :: (between ++ y :: after) ∧
    y.job.tenant = x.job.tenant ∧ ∃ z ∈ between, z.job.tenant = "b" := by
  have hturns : (dispatchPass fourWorkers (fun _ _ => 5) [] (fun _ => "") sampleEven).1.map
      (fun t => (t.priority, t.job)) = [(1, sampleWaiting 1 "a" 0), (1, sampleWaiting 3 "b" 0),
        (1, sampleWaiting 2 "a" 0), (1, sampleWaiting 4 "b" 0)] := by decide +kernel
  have hfound : ∀ t ∈ (dispatchPass fourWorkers (fun _ _ => 5) [] (fun _ => "") sampleEven).1[2]?,
      t.found.jobs[1]? = some (sampleWaiting 4 "b" 0) ∧
      t.found.eligible fourWorkers (fun _ _ => 5) 1 1 (sampleWaiting 4 "b" 0) = true := by decide +kernel
  have hfair := (dispatch_fair fourWorkers (fun _ _ => 5) [] (fun _ => "") sampleEven).2.1
  generalize (dispatchPass fourWorkers (fun _ _ => 5) [] (fun _ => "") sampleEven).1 = turns at hturns hfound hfair
  obtain ⟨x, _, rfl, hx, hturns⟩ := List.map_eq_cons_iff.1 hturns
  obtain ⟨z, _, rfl, hz, hturns⟩ := List.map_eq_cons_iff.1 hturns
  obtain ⟨y, _, rfl, hy, hturns⟩ := List.map_eq_cons_iff.1 hturns
  rw [Prod.mk.injEq] at hx hy
  obtain ⟨hrow, hel⟩ := hfound y rfl
  have htenant : y.job.tenant = x.job.tenant := by rw [hx.2, hy.2]; rfl
  refine ⟨x, [z], y, _, rfl, htenant, hfair [] x [z] y _ "b" rfl (hx.1.trans hy.1.symm) htenant ?_ ?_ ?_⟩
  · rw [hx.2]
    decide
  · rw [hy.1]
    exact ⟨_, ⟨1, hrow, hel⟩, rfl⟩
  · exact .inl fun _ _ _ _ _ _ => rfl

/-! ## A row whose throttle ends during the pass -/

/-- Two rows of tenant `a`, one of `c`, and one of `b` that is throttled until the time 10. -/
def sampleBatch : List Job :=
  [sampleWaiting 1 "a" 0, sampleWaiting 2 "a" 0, sampleWaiting 3 "b" 10, sampleWaiting 4 "c" 0]

/-- The time 10 comes after two requests have been sent. -/
def sampleClock (scan _row : Nat) : Nat := if scan < 3 then 5 else 10

def sampleTurns : List Turn := (dispatchPass fourWorkers sampleClock [] (fun _ => "") sampleBatch).1

/-- Tenant `a` has its second turn while the row of `b` is eligible and not inspected, and `b` has not
been served since: it was throttled when the scan passed it. -/
theorem dispatch_unfair_late : ∃ x between y after, sampleTurns = x :: (between ++ y :: after) ∧
    x.priority = y.priority ∧ x.job.tenant = "a" ∧ y.job.tenant = "a" ∧
    y.found.tenants fourWorkers sampleClock y.priority "b" ∧ ∀ z ∈ between, z.job.tenant ≠ "b" := by
  have hturns : sampleTurns.map (fun t => (t.priority, t.job)) =
      [(1, sampleWaiting 1 "a" 0), (1, sampleWaiting 4 "c" 0), (1, sampleWaiting 2 "a" 0),
        (1, sampleWaiting 3 "b" 10)] := by decide +kernel
  have hfound : ∀ t ∈ sampleTurns[2]?, t.found.jobs[0]? = some (sampleWaiting 2 "a" 0) ∧
      t.found.jobs[1]? = some (sampleWaiting 3 "b" 10) ∧
      t.found.eligible fourWorkers sampleClock 1 1 (sampleWaiting 3 "b" 10) = true := by decide +kernel
  generalize sampleTurns = turns at hturns hfound
  obtain ⟨x, _, rfl, hx, hturns⟩ := List.map_eq_cons_iff.1 hturns
  obtain ⟨z, _, rfl, hz, hturns⟩ := List.map_eq_cons_iff.1 hturns
  obtain ⟨y, _, rfl, hy, hturns⟩ := List.map_eq_cons_iff.1 hturns
  rw [Prod.mk.injEq] at hx hy hz
  obtain ⟨-, hrow, hel⟩ := hfound y rfl
  refine ⟨x, [z], y, _, rfl, hx.1.trans hy.1.symm, by rw [hx.2]; rfl, by rw [hy.2]; rfl, ?_, fun z' hz' => ?_⟩
  · rw [hy.1]
    exact ⟨_, ⟨1, hrow, hel⟩, rfl⟩
  · rw [List.mem_singleton.1 hz', hz.2]
    decide

end MS.Cape
