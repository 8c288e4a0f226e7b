import Mailstrix.Framework.Sweep
import Mailstrix.Proof.Cape.History

/-!
# The cursor sweeps

The calls of one phase are a sweep of its cursor over the ids of the rows the phase selects
(`calls_sweep`), so its fairness is that of any such sweep (`sweep_fair`).  `exec_cursor` says which
calls of the store move which cursor.
-/

namespace MS.Cape

open Framework

/-! ## A phase and its calls -/

inductive SweepPhase
  | deadline | cleanup | cleanupDeadline | scheduler

/-- The states a phase selects. -/
def SweepPhase.states : SweepPhase → JobState → Bool
  | .deadline => deadlineStates
  | .cleanup => cleanupStates
  | .cleanupDeadline => cleanupDeadlineStates
  | .scheduler => schedulerStates

def SweepPhase.cursor : SweepPhase → Mem → Option JobID
  | .deadline => Mem.maintenanceDeadlineCursor
  | .cleanup => Mem.maintenanceCleanupCursor
  | .cleanupDeadline => Mem.cleanupDeadlineCursor
  | .scheduler => Mem.schedulerCursor

/-- The call of the store that reads the next batch of a phase. -/
def SweepPhase.runs : SweepPhase → StoreOp → Bool
  | .deadline, .maintainDeadlines => true
  | .cleanup, .maintainCleanup _ => true
  | .cleanupDeadline, .markCleanupDeadlines => true
  | .scheduler, .schedulerJobs => true
  | _, _ => false

/-- The table has a row with this id in one of the states. -/
def Selected (states : JobState → Bool) (db : Db) (id : JobID) : Prop :=
  ∃ j ∈ db.jobs.rows, j.id = id ∧ states j.state = true

/-- Calls of a phase one after another, each with its cursor and the tables it finds. -/
def batchCalls (states : JobState → Bool) : Option JobID → List Db → List (Option JobID × Db)
  | _, [] => []
  | cursor, db :: dbs => (cursor, db) :: batchCalls states (nextMaintenanceBatch db states cursor).2 dbs

/-- The ids of the batch a call returns. -/
def visited (states : JobState → Bool) (call : Option JobID × Db) : List JobID :=
  (nextMaintenanceBatch call.2 states call.1).1.map Job.id

/-- A call reads from the first row on: its cursor is empty, or no row is left after it. -/
def startsOver (states : JobState → Bool) (call : Option JobID × Db) : Bool :=
  call.1.isNone || (batchAfter call.2 states call.1).isEmpty

/-! ## A batch is a page -/

/-- The ids of the selected rows in ascending order. -/
def selectedIds (states : JobState → Bool) (db : Db) : List JobID :=
  ((db.jobs.rows.filter fun j => states j.state).map Job.id).insertionSort (· ≤ ·)

theorem mem_selectedIds {states : JobState → Bool} {db : Db} {id : JobID} :
    id ∈ selectedIds states db ↔ Selected states db id := by
  simp only [selectedIds, List.mem_insertionSort, List.mem_map, List.mem_filter, Selected]
  constructor
  · rintro ⟨j, ⟨hj, hs⟩, hid⟩
    exact ⟨j, hj, hid, hs⟩
  · rintro ⟨j, hj, hid, hs⟩
    exact ⟨j, ⟨hj, hs⟩, hid⟩

theorem nodup_ids (db : Db) (p : Job → Bool) : ((db.jobs.rows.filter p).map Job.id).Nodup :=
  db.jobs.nodup.sublist (List.filter_sublist.map _)

theorem selectedIds_sorted (states : JobState → Bool) (db : Db) : (selectedIds states db).SortedLT := by
  refine List.SortedLE.sortedLT_of_nodup List.sortedLE_insertionSort ?_
  exact (List.perm_insertionSort _ _).nodup_iff.2 (nodup_ids db _)

/-- The rows of a batch, by their ids. -/
theorem batchAfter_ids (db : Db) (states : JobState → Bool) (cursor : Option JobID) :
    (batchAfter db states cursor).map Job.id =
      (keysAfter (selectedIds states db) cursor).take maintenanceBatchSize := by
  rw [batchAfter, List.map_take]
  congr 1
  have hsort : ((db.jobs.rows.filter fun j => states j.state && cursor.all (· < j.id)).insertionSort
      fun a b => a.id ≤ b.id).map Job.id =
      ((db.jobs.rows.filter fun j => states j.state && cursor.all (· < j.id)).map Job.id).insertionSort (· ≤ ·) :=
    List.map_insertionSort _ _ _ _ fun a _ b _ => Iff.rfl
  rw [hsort]
  refine List.Perm.eq_of_sortedLE List.sortedLE_insertionSort
    ((selectedIds_sorted states db).sortedLE.pairwise.filter _).sortedLE ?_
  refine (List.perm_insertionSort _ _).trans (List.Perm.trans ?_ ((List.perm_insertionSort _ _).symm.filter _))
  rw [List.filter_map, List.filter_filter]
  refine List.Perm.of_eq (congrArg _ (List.filter_congr fun j _ => ?_))
  exact Bool.and_comm _ _

theorem startsOver_wraps (states : JobState → Bool) (call : Option JobID × Db) :
    startsOver states call = wraps (selectedIds states call.2) call.1 := by
  have hbatch : (batchAfter call.2 states call.1).isEmpty = (keysAfter (selectedIds states call.2) call.1).isEmpty := by
    rw [← List.isEmpty_map (f := Job.id), batchAfter_ids, Bool.eq_iff_iff, List.isEmpty_iff, List.isEmpty_iff,
      List.take_eq_nil_iff]
    exact or_iff_right (by decide)
  rw [startsOver, wraps, hbatch]

/-- A batch is one page of the selected ids, and the cursor is its last id. -/
theorem nextMaintenanceBatch_page (db : Db) (states : JobState → Bool) (cursor : Option JobID) :
    (nextMaintenanceBatch db states cursor).1.map Job.id =
        page maintenanceBatchSize (selectedIds states db) cursor ∧
      (nextMaintenanceBatch db states cursor).2 =
        (page maintenanceBatchSize (selectedIds states db) cursor).getLast? := by
  have hids : (nextMaintenanceBatch db states cursor).1.map Job.id =
      page maintenanceBatchSize (selectedIds states db) cursor := by
    have hstart := startsOver_wraps states (cursor, db)
    have hall : keysAfter (selectedIds states db) none = selectedIds states db := by simp [keysAfter]
    simp only [nextMaintenanceBatch, startsOver] at hstart ⊢
    rw [page, ← hstart]
    cases cursor with
    | none =>
      rw [Option.isSome_none, Bool.and_false, if_neg (by decide), batchAfter_ids, hall]
      rfl
    | some c =>
      rw [Option.isSome_some, Bool.and_true, Option.isNone_some, Bool.false_or]
      split
      · rw [batchAfter_ids, hall]
      · rw [batchAfter_ids]
  refine ⟨hids, ?_⟩
  rw [← hids, List.getLast?_map]
  rfl

/-! ## The calls are a sweep -/

theorem calls_sweep (states : JobState → Bool) (cursor : Option JobID) (dbs : List Db) :
    (batchCalls states cursor dbs).map (fun call => (call.1, selectedIds states call.2)) =
      sweep maintenanceBatchSize cursor (dbs.map (selectedIds states)) := by
  induction dbs generalizing cursor with
  | nil => rfl
  | cons db dbs ih =>
    rw [batchCalls, List.map_cons, List.map_cons, sweep, ih, (nextMaintenanceBatch_page db states cursor).2]

theorem visited_calls (states : JobState → Bool) (calls : List (Option JobID × Db)) :
    calls.flatMap (visited states) =
      (calls.map fun call => (call.1, selectedIds states call.2)).flatMap (visit maintenanceBatchSize) := by
  rw [List.flatMap_map]
  refine List.flatMap_congr fun call _ => ?_
  exact (nextMaintenanceBatch_page call.2 states call.1).1

/-- While the selected ids are those of `ids`, every table gives the same list. -/
theorem selectedIds_const {states : JobState → Bool} {dbs : List Db} {ids : Finset JobID}
    (h : ∀ db ∈ dbs, ∀ id, id ∈ ids ↔ Selected states db id) :
    dbs.map (selectedIds states) = List.replicate dbs.length ids.sort := by
  rw [List.eq_replicate_iff]
  refine ⟨List.length_map _, fun l hl => ?_⟩
  obtain ⟨db, hdb, rfl⟩ := List.mem_map.1 hl
  refine (selectedIds_sorted states db).eq_of_mem_iff (Finset.sortedLT_sort ids) fun id => ?_
  rw [mem_selectedIds, Finset.mem_sort, h db hdb id]

/-! ## The cursors of the store -/

/-- A committed call of a phase moves the cursor of that phase as its batch says, and no other call
moves it. -/
theorem exec_cursor {cfg : StoreConfig} {env : Env} {op : StoreOp} {s s' : Store} {ret : Ret}
    (h : exec cfg env op s = .ok (s', ret)) (p : SweepPhase) :
    p.cursor s'.mem =
      if p.runs op then (nextMaintenanceBatch s.db p.states (p.cursor s.mem)).2 else p.cursor s.mem := by
  rw [(exec_executed h).mem]
  cases op <;> cases ret <;> cases p <;> rfl

/-- The sweeps are fair, for every phase, from every cursor and over any tables.  While the selected
ids stay the same, as many calls as there are ids visit them all, and between two visits of an id each
of the others is visited exactly once.  Whatever happens to the tables, an id that every call from one
start to the next finds selected is visited exactly once in between.  The store's cursors move by
these calls alone. -/
theorem sweep_fair (p : SweepPhase) (cursor : Option JobID) (dbs : List Db) :
    (∀ ids : Finset JobID, (∀ db ∈ dbs, ∀ id, id ∈ ids ↔ Selected p.states db id) →
      (ids.card ≤ dbs.length → ∀ id ∈ ids, id ∈ (batchCalls p.states cursor dbs).flatMap (visited p.states)) ∧
      ∀ id before between after, (batchCalls p.states cursor dbs).flatMap (visited p.states) =
          before ++ id :: (between ++ id :: after) → id ∉ between →
        (∀ other ∈ ids, other ≠ id → between.count other = 1) ∧ ∀ other ∈ between, other ∈ ids) ∧
    (∀ before call during next after id,
      batchCalls p.states cursor dbs = before ++ call :: (during ++ next :: after) →
      startsOver p.states call = true → startsOver p.states next = true →
      (∀ c ∈ during, startsOver p.states c = false) →
      (∀ c ∈ call :: during ++ [next], Selected p.states c.2 id) →
      ((call :: during).flatMap (visited p.states)).count id = 1) ∧
    ∀ cfg env op s s' ret, exec cfg env op s = .ok (s', ret) → p.cursor s'.mem =
      if p.runs op then (nextMaintenanceBatch s.db p.states (p.cursor s.mem)).2 else p.cursor s.mem := by
  have hlimit : 0 < maintenanceBatchSize := by decide
  refine ⟨fun ids hids => ⟨fun hcard id hid => ?_, fun id before between after hvisits hno => ?_⟩, ?_, ?_⟩
  · rw [visited_calls, calls_sweep, selectedIds_const hids]
    refine sweep_all hlimit (Finset.sortedLT_sort ids) ?_ cursor ?_
    · rwa [Finset.length_sort]
    · rwa [Finset.mem_sort]
  · rw [visited_calls, calls_sweep, selectedIds_const hids] at hvisits
    obtain ⟨hall, hin⟩ := sweep_between hlimit (Finset.sortedLT_sort ids) hno hvisits
    refine ⟨fun other hother hne => ?_, fun other hother => ?_⟩
    · exact hall other ((Finset.mem_sort _).2 hother) hne
    · exact (Finset.mem_sort _).1 (hin other hother)
  · intro before call during next after id hcalls hstart hnext hgo hsel
    rw [visited_calls, List.map_cons]
    have hsweep := calls_sweep p.states cursor dbs
    rw [hcalls, List.map_append, List.map_cons, List.map_append, List.map_cons] at hsweep
    refine sweep_cycle hlimit ?_ hsweep.symm ?_ ?_ ?_ ?_
    · intro l hl
      obtain ⟨db, -, rfl⟩ := List.mem_map.1 hl
      exact selectedIds_sorted p.states db
    · rwa [startsOver_wraps] at hstart
    · intro c hc
      obtain ⟨c', hc', rfl⟩ := List.mem_map.1 hc
      have hgo' := hgo c' hc'
      rwa [startsOver_wraps] at hgo'
    · rwa [startsOver_wraps] at hnext
    · intro c hc
      have hmap : c ∈ (call :: during ++ [next]).map fun call => (call.1, selectedIds p.states call.2) := by
        simpa using hc
      obtain ⟨c', hc', rfl⟩ := List.mem_map.1 hmap
      exact mem_selectedIds.2 (hsel c' hc')
  · intro cfg env op s s' ret h
    exact exec_cursor h p

/-- Three rows that wait for their payloads. -/
def sampleStaged : Db :=
  (sampleStore [.reserve sampleRequest 7 1, .reserve sampleRequest 3 1, .reserve sampleRequest 9 1]).db

/-- Three calls, from behind row 7 on: between two visits of row 9 the others are visited once. -/
theorem sweep_fair_between :
    (batchCalls deadlineStates (some 7) [sampleStaged, sampleStaged, sampleStaged]).flatMap (visited deadlineStates) =
        [9, 3, 7, 9, 3, 7, 9] ∧
      ∀ other ∈ ({3, 7, 9} : Finset JobID), other ≠ 9 → [3, 7].count other = 1 := by
  have hvisits : (batchCalls deadlineStates (some 7) [sampleStaged, sampleStaged, sampleStaged]).flatMap
      (visited deadlineStates) = [9, 3, 7, 9, 3, 7, 9] := by decide +kernel
  have hrows : (sampleStaged.jobs.rows.filter fun j => deadlineStates j.state).map Job.id = [7, 3, 9] := by
    decide +kernel
  have hids : ∀ db ∈ [sampleStaged, sampleStaged, sampleStaged], ∀ id, id ∈ ({3, 7, 9} : Finset JobID) ↔
      Selected SweepPhase.deadline.states db id := by
    intro db hdb id
    obtain rfl : db = sampleStaged := by simpa using hdb
    rw [← mem_selectedIds, selectedIds, List.mem_insertionSort]
    change _ ↔ id ∈ (sampleStaged.jobs.rows.filter fun j => deadlineStates j.state).map Job.id
    rw [hrows]
    simp only [Finset.mem_insert, Finset.mem_singleton, List.mem_cons, List.not_mem_nil, or_false]
    tauto
  have hfair := (sweep_fair .deadline (some 7) [sampleStaged, sampleStaged, sampleStaged]).1 {3, 7, 9} hids
  exact ⟨hvisits, (hfair.2 9 [] [3, 7] [3, 7, 9] hvisits (by decide)).1⟩

end MS.Cape
