import Mathlib

/-!
# Sweeps of a cursor

A table is read page by page: the keys after a cursor in ascending order, at most `limit` of them,
and again from the start when none is left.  The cursor moves to the last key of a page.

Over a table that does not change, the pages one after another run through the keys in laps
(`sweep_laps`), so every key comes up (`sweep_all`) and between two visits of a key each other key is
visited exactly once (`sweep_between`).  Over a table that changes, a key that stays from one start to
the next is visited exactly once in between (`sweep_cycle`).
-/

namespace Framework

/-! ## Laps -/

section
variable {α : Type} {ids : List α}

/-- The list `n` times over. -/
def laps (ids : List α) (n : Nat) : List α := (List.replicate n ids).flatten

theorem laps_succ (n : Nat) : laps ids (n + 1) = ids ++ laps ids n := rfl

theorem mem_laps {n : Nat} {i : α} (h : i ∈ laps ids n) : i ∈ ids := by
  obtain ⟨l, hl, hi⟩ := List.mem_flatten.1 h
  rwa [List.eq_of_mem_replicate hl] at hi

/-- A part of the laps that is as long as the keys has all of them. -/
theorem mem_of_laps {front visits rest : List α} {n : Nat} (hfront : front <+: ids)
    (h : front ++ (visits ++ rest) = laps ids (n + 1)) (hlen : ids.length ≤ visits.length) {i : α} (hi : i ∈ ids) :
    i ∈ visits := by
  obtain ⟨back, rfl⟩ := hfront
  rw [laps_succ, List.append_assoc, List.append_cancel_left_eq] at h
  rw [List.length_append] at hlen
  obtain ⟨more, rfl⟩ : back <+: visits := by
    refine List.prefix_of_prefix_length_le (List.prefix_append back (laps (front ++ back) n)) ?_ (by omega)
    exact ⟨rest, h⟩
  rw [List.append_assoc, List.append_cancel_left_eq] at h
  rw [List.length_append] at hlen
  rcases List.mem_append.1 hi with hi | hi
  · cases n with
    | zero =>
      have hnil : more = [] := (List.append_eq_nil_iff.1 h).1
      rw [hnil, List.length_nil] at hlen
      rw [List.length_eq_zero_iff.1 (by omega : front.length = 0)] at hi
      cases hi
    | succ n =>
      rw [laps_succ, List.append_assoc] at h
      obtain ⟨_, rfl⟩ : front <+: more := by
        refine List.prefix_of_prefix_length_le (List.prefix_append front (back ++ laps (front ++ back) n)) ?_
          (by omega)
        exact ⟨rest, h⟩
      simp [hi]
  · exact List.mem_append_left _ hi

variable [DecidableEq α]

/-- The first occurrence of an element is where it is. -/
theorem first_unique {i : α} {a b c d : List α} (ha : i ∉ a) (hc : i ∉ c) (h : a ++ i :: b = c ++ i :: d) :
    a = c ∧ b = d := by
  have hlen : a.length = c.length := by
    have hidx := congrArg (List.idxOf i) h
    rwa [List.idxOf_append_of_notMem ha, List.idxOf_append_of_notMem hc, List.idxOf_cons_self,
      List.idxOf_cons_self, Nat.add_zero, Nat.add_zero] at hidx
  obtain ⟨hac, hbd⟩ := List.append_inj h hlen
  exact ⟨hac, (List.cons.inj hbd).2⟩

/-- Between two visits of `i` come the keys after it, then those before it. -/
theorem between_laps {i : α} {xs ys : List α} (hx : i ∉ xs) (hy : i ∉ ys) {n : Nat} {before between after : List α}
    (hno : i ∉ between) (h : laps (xs ++ i :: ys) n = before ++ i :: (between ++ i :: after)) :
    between = ys ++ xs := by
  induction n generalizing before with
  | zero => simp [laps] at h
  | succ n ih =>
    rw [laps_succ, List.append_assoc, List.cons_append] at h
    by_cases hmem : i ∈ before
    · -- the first lap is over before the first of the two visits
      obtain ⟨a, b, rfl, ha⟩ := List.eq_append_cons_of_mem hmem
      rw [List.append_assoc, List.cons_append] at h
      obtain ⟨rfl, hlap⟩ := first_unique hx ha h
      rcases List.append_eq_append_iff.1 hlap with ⟨rest, rfl, hrest⟩ | ⟨rest, rfl, hrest⟩
      · exact ih hrest
      · cases rest with
        | nil => exact ih (hrest.symm.trans (List.nil_append _).symm)
        | cons z rest =>
          rw [List.cons_append, List.cons.injEq] at hrest
          obtain ⟨rfl, -⟩ := hrest
          simp at hy
    · obtain ⟨rfl, hlap⟩ := first_unique hx hmem h
      cases n with
      | zero =>
        rw [laps, List.replicate_zero, List.flatten_nil, List.append_nil] at hlap
        rw [hlap] at hy
        simp at hy
      | succ n =>
        rw [laps_succ, List.append_assoc, List.cons_append, ← List.append_assoc] at hlap
        exact (first_unique (by simp [hx, hy]) hno hlap).1.symm

end

/-! ## Pages -/

section
variable {κ : Type} [LinearOrder κ] {limit : Nat} {ids : List κ} {cursor : Option κ}

/-- The keys after the cursor. -/
def keysAfter (ids : List κ) (cursor : Option κ) : List κ := ids.filter fun i => cursor.all (· < i)

/-- A call starts again from the first key. -/
def wraps (ids : List κ) (cursor : Option κ) : Bool := cursor.isNone || (keysAfter ids cursor).isEmpty

/-- The keys a call visits; its cursor moves to the last of them. -/
def page (limit : Nat) (ids : List κ) (cursor : Option κ) : List κ :=
  (if wraps ids cursor then ids else keysAfter ids cursor).take limit

/-- The calls one after another, each with its cursor and the keys there are. -/
def sweep (limit : Nat) : Option κ → List (List κ) → List (Option κ × List κ)
  | _, [] => []
  | cursor, ids :: later => (cursor, ids) :: sweep limit (page limit ids cursor).getLast? later

/-- What a call visits. -/
def visit (limit : Nat) (call : Option κ × List κ) : List κ := page limit call.2 call.1

theorem keysAfter_suffix (hids : ids.SortedLT) (cursor : Option κ) : keysAfter ids cursor <:+ ids := by
  cases cursor with
  | none => exact ⟨[], by simp [keysAfter]⟩
  | some c =>
    induction ids with
    | nil => exact List.suffix_rfl
    | cons i ids ih =>
      have hpair := List.pairwise_cons.1 hids.pairwise
      by_cases hc : c < i
      · refine ⟨[], ?_⟩
        rw [List.nil_append, keysAfter, List.filter_eq_self]
        intro j hj
        rcases List.mem_cons.1 hj with rfl | hj
        · exact decide_eq_true hc
        · exact decide_eq_true (hc.trans (hpair.1 j hj))
      · have hskip : keysAfter (i :: ids) (some c) = keysAfter ids (some c) := by
          rw [keysAfter, List.filter_cons_of_neg (by simpa using hc)]
          rfl
        rw [hskip]
        exact (ih hpair.2.sortedLT).trans (List.suffix_cons i ids)

/-- After a page that was cut from the end of the keys, what follows it is left. -/
theorem keysAfter_page (hids : ids.SortedLT) {front part : List κ} (h : ids = front ++ part)
    (hne : part.take limit ≠ []) : keysAfter ids (part.take limit).getLast? = part.drop limit := by
  obtain ⟨keys, last, hlast⟩ := (List.eq_nil_or_concat (part.take limit)).resolve_left hne
  rw [List.concat_eq_append] at hlast
  have hcut : ids = (front ++ keys ++ [last]) ++ part.drop limit := by
    rw [h, List.append_assoc front, ← hlast, List.append_assoc, List.take_append_drop]
  have hpair := hids.pairwise
  rw [hcut] at hpair
  obtain ⟨hfirst, -, hcross⟩ := List.pairwise_append.1 hpair
  rw [hlast, List.getLast?_concat, keysAfter, hcut, List.filter_append]
  have hold : (front ++ keys ++ [last]).filter (fun i => (some last).all (· < i)) = [] := by
    refine List.filter_eq_nil_iff.2 fun i hi hlt => ?_
    rcases List.mem_append.1 hi with hi' | hi'
    · exact absurd ((List.pairwise_append.1 hfirst).2.2 i hi' last (by simp)) (not_lt_of_gt (by simpa using hlt))
    · rw [List.mem_singleton.1 hi'] at hlt
      simp at hlt
  have hnew : (part.drop limit).filter (fun i => (some last).all (· < i)) = part.drop limit := by
    refine List.filter_eq_self.2 fun i hi => ?_
    exact decide_eq_true (hcross last (by simp) i hi)
  rw [hold, hnew, List.nil_append]

/-- A call takes its page from the rest of the lap, or from a new lap when nothing is left. -/
theorem page_lap (hlimit : 0 < limit) (hids : ids.SortedLT) (cursor : Option κ) :
    ∃ n, keysAfter ids cursor ++ laps ids n =
      page limit ids cursor ++ keysAfter ids (page limit ids cursor).getLast? := by
  have hcut : ∀ front part, ids = front ++ part → part ≠ [] →
      part.take limit ++ keysAfter ids (part.take limit).getLast? = part := by
    intro front part h hne
    have htake : part.take limit ≠ [] := by
      rw [Ne, List.take_eq_nil_iff]
      rintro (h0 | h0)
      · omega
      · exact hne h0
    rw [keysAfter_page hids h htake, List.take_append_drop]
  unfold page
  split
  · rename_i hwrap
    by_cases hnil : ids = []
    · exact ⟨0, by simp [hnil, keysAfter, laps]⟩
    · rw [hcut [] ids rfl hnil]
      rcases Bool.or_eq_true_iff.1 hwrap with hnone | hempty
      · refine ⟨0, ?_⟩
        rw [Option.isNone_iff_eq_none.1 hnone]
        simp [keysAfter, laps]
      · refine ⟨1, ?_⟩
        rw [List.isEmpty_iff.1 hempty]
        simp [laps]
  · rename_i hwrap
    obtain ⟨front, hfront⟩ := keysAfter_suffix hids cursor
    have hne : keysAfter ids cursor ≠ [] := by
      intro hnil
      simp [wraps, hnil] at hwrap
    exact ⟨0, by rw [hcut front _ hfront.symm hne]; simp [laps]⟩

theorem page_ne_nil (hlimit : 0 < limit) (hne : ids ≠ []) : page limit ids cursor ≠ [] := by
  rw [page, Ne, List.take_eq_nil_iff]
  rintro (h0 | h0)
  · omega
  · split at h0
    · exact hne h0
    · rename_i hwrap
      simp [wraps, h0] at hwrap

/-! ## An unchanged table -/

/-- The visits run through the rest of a lap and then through whole ones. -/
theorem sweep_laps (hlimit : 0 < limit) (hids : ids.SortedLT) (n : Nat) (cursor : Option κ) :
    ∃ m rest, (sweep limit cursor (List.replicate n ids)).flatMap (visit limit) ++ rest =
      keysAfter ids cursor ++ laps ids m := by
  induction n generalizing cursor with
  | zero => exact ⟨0, keysAfter ids cursor, by simp [sweep, laps]⟩
  | succ n ih =>
    obtain ⟨k, hpage⟩ := page_lap hlimit hids cursor
    obtain ⟨m, rest, hrest⟩ := ih (page limit ids cursor).getLast?
    refine ⟨k + m, rest, ?_⟩
    have hlaps : laps ids (k + m) = laps ids k ++ laps ids m := by
      rw [laps, List.replicate_add, List.flatten_append]
      rfl
    rw [List.replicate_succ, sweep, List.flatMap_cons, List.append_assoc, hrest, hlaps, ← List.append_assoc,
      ← List.append_assoc, hpage]
    rfl

/-- The visits are a part of the laps. -/
theorem sweep_part (hlimit : 0 < limit) (hids : ids.SortedLT) (n : Nat) (cursor : Option κ) :
    ∃ front m rest, front <+: ids ∧
      front ++ ((sweep limit cursor (List.replicate n ids)).flatMap (visit limit) ++ rest) = laps ids (m + 1) := by
  obtain ⟨m, rest, h⟩ := sweep_laps hlimit hids n cursor
  obtain ⟨front, hfront⟩ := keysAfter_suffix hids cursor
  refine ⟨front, m, rest, ⟨_, hfront⟩, ?_⟩
  rw [h, ← List.append_assoc, hfront, laps_succ]

theorem sweep_all (hlimit : 0 < limit) (hids : ids.SortedLT) {n : Nat} (hn : ids.length ≤ n) (cursor : Option κ)
    {i : κ} (hi : i ∈ ids) : i ∈ (sweep limit cursor (List.replicate n ids)).flatMap (visit limit) := by
  obtain ⟨front, m, rest, hfront, h⟩ := sweep_part hlimit hids n cursor
  refine mem_of_laps hfront h (hn.trans ?_) hi
  -- no call is empty
  clear h hn hfront
  induction n generalizing cursor with
  | zero => exact Nat.zero_le _
  | succ n ih =>
    have hpage : page limit ids cursor ≠ [] := page_ne_nil hlimit (List.ne_nil_of_mem hi)
    have hpos := List.length_pos_iff.2 hpage
    have hlen := ih (page limit ids cursor).getLast?
    rw [List.replicate_succ, sweep, List.flatMap_cons, List.length_append]
    exact (Nat.add_comm n 1).le.trans (Nat.add_le_add hpos hlen)

theorem sweep_between (hlimit : 0 < limit) (hids : ids.SortedLT) {n : Nat} {cursor : Option κ} {i : κ}
    {before between after : List κ} (hno : i ∉ between)
    (h : (sweep limit cursor (List.replicate n ids)).flatMap (visit limit) =
      before ++ i :: (between ++ i :: after)) :
    (∀ j ∈ ids, j ≠ i → between.count j = 1) ∧ ∀ j ∈ between, j ∈ ids := by
  obtain ⟨front, m, rest, -, hlaps⟩ := sweep_part hlimit hids n cursor
  have hnodup : ids.Nodup := hids.nodup
  have hmem : i ∈ ids := by
    refine mem_laps (n := m + 1) ?_
    rw [← hlaps, h]
    simp
  obtain ⟨xs, ys, rfl⟩ := List.append_of_mem hmem
  have hxy : i ∉ xs ∧ i ∉ ys := by
    rw [List.nodup_middle, List.nodup_cons, List.mem_append, not_or] at hnodup
    exact hnodup.1
  have hbetween : between = ys ++ xs := by
    have hvisits : laps (xs ++ i :: ys) (m + 1) = (front ++ before) ++ i :: (between ++ i :: (after ++ rest)) := by
      rw [← hlaps, h]
      simp
    exact between_laps hxy.1 hxy.2 hno hvisits
  subst hbetween
  refine ⟨fun j hj hne => ?_, fun j hj => ?_⟩
  · have hone : (xs ++ i :: ys).count j = 1 := List.count_eq_one_of_mem hnodup hj
    rw [List.count_append, List.count_cons_of_ne hne.symm] at hone
    rw [List.count_append]
    omega
  · rcases List.mem_append.1 hj with hj | hj
    · exact List.mem_append_right _ (List.mem_cons_of_mem _ hj)
    · exact List.mem_append_left _ hj

/-! ## A table that changes -/

/-- The sweep has passed `i` with one visit, or has not come to it. -/
def Swept (i : κ) (visits : List κ) (cursor : Option κ) : Prop :=
  ∃ last, cursor = some last ∧ (i ≤ last ∧ visits.count i = 1 ∨ last < i ∧ visits.count i = 0)

/-- The page cut from a part of the keys that has `i`. -/
theorem swept_take (hlimit : 0 < limit) {part : List κ} (hpart : part.SortedLT) {i : κ} (hi : i ∈ part) :
    Swept i (part.take limit) (part.take limit).getLast? := by
  have hne : part.take limit ≠ [] := by
    rw [Ne, List.take_eq_nil_iff]
    rintro (h0 | rfl)
    · omega
    · cases hi
  obtain ⟨keys, last, hlast⟩ := (List.eq_nil_or_concat (part.take limit)).resolve_left hne
  rw [List.concat_eq_append] at hlast
  have hpair := hpart.pairwise
  rw [← List.take_append_drop limit part] at hpair hi
  obtain ⟨htake, -, hcross⟩ := List.pairwise_append.1 hpair
  refine ⟨last, by rw [hlast, List.getLast?_concat], ?_⟩
  rcases List.mem_append.1 hi with hi | hi
  · refine .inl ⟨?_, List.count_eq_one_of_mem htake.sortedLT.nodup hi⟩
    rw [hlast] at hi htake
    rcases List.mem_append.1 hi with hi | hi
    · exact le_of_lt ((List.pairwise_append.1 htake).2.2 i hi last (by simp))
    · exact le_of_eq (List.mem_singleton.1 hi)
  · refine .inr ⟨hcross last (by simp [hlast]) i hi, List.count_eq_zero_of_not_mem fun hmem => ?_⟩
    exact lt_irrefl i (hcross i hmem i hi)

/-- A further call that does not start again. -/
theorem Swept.page (hlimit : 0 < limit) (hids : ids.SortedLT) {i : κ} (hi : i ∈ ids) {visits : List κ}
    (h : Swept i visits cursor) (hgo : wraps ids cursor = false) :
    Swept i (visits ++ page limit ids cursor) (page limit ids cursor).getLast? := by
  obtain ⟨last, rfl, hcase⟩ := h
  have hpart : (keysAfter ids (some last)).SortedLT := (hids.pairwise.filter _).sortedLT
  have hpage : Framework.page limit ids (some last) = (keysAfter ids (some last)).take limit := by
    rw [Framework.page, if_neg (by rw [hgo]; decide)]
  rcases hcase with ⟨hle, hone⟩ | ⟨hlt, hzero⟩
  · have hlater : ∀ j ∈ Framework.page limit ids (some last), last < j := by
      intro j hj
      rw [hpage] at hj
      have hj' := List.mem_of_mem_take hj
      rw [keysAfter, List.mem_filter] at hj'
      simpa using hj'.2
    obtain ⟨keys, last', hlast'⟩ := (List.eq_nil_or_concat (Framework.page limit ids (some last))).resolve_left
      (page_ne_nil hlimit (List.ne_nil_of_mem hi))
    rw [List.concat_eq_append] at hlast'
    have hlt' : last < last' := hlater last' (by simp [hlast'])
    refine ⟨last', by rw [hlast', List.getLast?_concat], .inl ⟨hle.trans (le_of_lt hlt'), ?_⟩⟩
    rw [List.count_append, hone, List.count_eq_zero_of_not_mem]
    intro hmem
    exact absurd (hlater i hmem) (not_lt_of_ge hle)
  · have hmem : i ∈ keysAfter ids (some last) := List.mem_filter.2 ⟨hi, by simpa using hlt⟩
    obtain ⟨last', hl', hcase'⟩ := swept_take hlimit hpart hmem
    rw [hpage]
    refine ⟨last', hl', ?_⟩
    rw [List.count_append, hzero, Nat.zero_add]
    exact hcase'

/-- The calls after `visits` up to the next one that starts again. -/
theorem Swept.calls (hlimit : 0 < limit) {i : κ} {tables : List (List κ)} {visits : List κ} {cursor : Option κ}
    {during after : List (Option κ × List κ)} {next : Option κ × List κ} (h : Swept i visits cursor)
    (hcalls : sweep limit cursor tables = during ++ next :: after)
    (hsorted : ∀ ids ∈ tables, ids.SortedLT) (hgo : ∀ call ∈ during, wraps call.2 call.1 = false)
    (hwrap : wraps next.2 next.1 = true) (hi : ∀ call ∈ during ++ [next], i ∈ call.2) :
    (visits ++ during.flatMap (visit limit)).count i = 1 := by
  induction during generalizing visits cursor tables with
  | nil =>
    cases tables with
    | nil => simp [sweep] at hcalls
    | cons ids tables =>
      rw [sweep, List.nil_append, List.cons.injEq] at hcalls
      obtain ⟨rfl, -⟩ := hcalls
      obtain ⟨last, hcursor, ⟨-, hone⟩ | ⟨hlt, -⟩⟩ := h
      · simpa using hone
      · -- `i` is still ahead, so the call does not start again
        have hmem : i ∈ keysAfter ids (some last) := List.mem_filter.2 ⟨hi (cursor, ids) (by simp), by simpa using hlt⟩
        change wraps ids cursor = true at hwrap
        rw [hcursor, wraps, Option.isNone_some, Bool.false_or, List.isEmpty_iff] at hwrap
        rw [hwrap] at hmem
        cases hmem
  | cons call during ih =>
    cases tables with
    | nil => simp [sweep] at hcalls
    | cons ids tables =>
      rw [sweep, List.cons_append, List.cons.injEq] at hcalls
      obtain ⟨rfl, hcalls⟩ := hcalls
      have hstep := h.page hlimit (hsorted ids List.mem_cons_self) (hi (cursor, ids) (by simp))
        (hgo (cursor, ids) List.mem_cons_self)
      have hrest := ih hstep hcalls (fun l hl => hsorted l (List.mem_cons_of_mem _ hl))
        (fun c hc => hgo c (List.mem_cons_of_mem _ hc)) fun c hc => hi c (by simp at hc ⊢; tauto)
      rw [List.flatMap_cons, ← List.append_assoc]
      exact hrest

theorem sweep_drop {tables : List (List κ)} {before rest : List (Option κ × List κ)}
    (h : sweep limit cursor tables = before ++ rest) :
    ∃ cursor' tables', tables' <:+ tables ∧ rest = sweep limit cursor' tables' := by
  induction before generalizing cursor tables with
  | nil => exact ⟨cursor, tables, List.suffix_rfl, h.symm⟩
  | cons call before ih =>
    cases tables with
    | nil => simp [sweep] at h
    | cons ids tables =>
      rw [sweep, List.cons_append, List.cons.injEq] at h
      obtain ⟨cursor', tables', hsuffix, hrest⟩ := ih h.2
      exact ⟨cursor', tables', hsuffix.trans (List.suffix_cons ids tables), hrest⟩

/-- From one start to the next, whatever else comes and goes. -/
theorem sweep_cycle (hlimit : 0 < limit) {tables : List (List κ)} (hsorted : ∀ ids ∈ tables, ids.SortedLT)
    {before during after : List (Option κ × List κ)} {call next : Option κ × List κ} {i : κ}
    (h : sweep limit cursor tables = before ++ call :: (during ++ next :: after))
    (hstart : wraps call.2 call.1 = true) (hgo : ∀ c ∈ during, wraps c.2 c.1 = false)
    (hwrap : wraps next.2 next.1 = true) (hi : ∀ c ∈ call :: during ++ [next], i ∈ c.2) :
    ((call :: during).flatMap (visit limit)).count i = 1 := by
  obtain ⟨cursor', tables', hsuffix, hrest⟩ := sweep_drop h
  cases tables' with
  | nil => simp [sweep] at hrest
  | cons ids tables' =>
    rw [sweep, List.cons.injEq] at hrest
    obtain ⟨rfl, hrest⟩ := hrest
    have hsorted' : ∀ l ∈ ids :: tables', l.SortedLT := fun l hl => hsorted l (hsuffix.mem hl)
    have hfirst : Swept i (page limit ids cursor') (page limit ids cursor').getLast? := by
      change wraps ids cursor' = true at hstart
      rw [page, if_pos hstart]
      exact swept_take hlimit (hsorted' ids List.mem_cons_self) (hi (cursor', ids) (by simp))
    rw [List.flatMap_cons]
    exact hfirst.calls hlimit hrest.symm (fun l hl => hsorted' l (List.mem_cons_of_mem _ hl)) hgo hwrap
      fun c hc => hi c (by simp at hc ⊢; tauto)

end

end Framework
