import Mailstrix.Impl.Scan.Marker

/-!
# The closure of the marker rules

`Found` says what the search of `markerRuleClosure` has done up to an entry of its queue.  A visit keeps it
(`Found.visit`), and at the end of the queue it makes the queue the least closed set.
-/

namespace MS.Marker

open Framework

variable {g : Graph} {r : InventoryRule} {s s' : Search} {i j head : Nat}

/-! ## A validated graph -/

theorem inventoryMatches_spec {completions : List Int} {ids : List (String × String)}
    {rs : List InventoryRule} (h : inventoryMatches completions i ids rs) :
    (∀ k r, rs[k]? = some r → r.index = ((i + k : Nat) : Int)) ∧ (rs.map (·.identity)).Nodup ∧
      ∀ r ∈ rs, r.identity ∉ ids := by
  induction rs generalizing i ids with
  | nil => exact ⟨nofun, List.nodup_nil, nofun⟩
  | cons r rs ih =>
    obtain ⟨⟨hindex, -, -, -, hnew⟩, hrest⟩ := h
    obtain ⟨h1, h2, h3⟩ := ih hrest
    refine ⟨fun k r' hk => ?_, ?_, fun r' hr' => ?_⟩
    · cases k with
      | zero =>
        cases hk
        exact hindex
      | succ k =>
        rw [h1 k r' hk]
        omega
    · rw [List.map_cons, List.nodup_cons]
      refine ⟨fun hmem => ?_, h2⟩
      obtain ⟨r', hr', heq⟩ := List.mem_map.1 hmem
      exact h3 r' hr' (by rw [heq]; exact List.mem_cons_self)
    · rcases List.mem_cons.1 hr' with rfl | hr'
      · exact hnew
      · exact fun hmem => h3 r' hr' (List.mem_cons_of_mem _ hmem)

/-- What `markerValidateGraph` leaves to rely on. -/
structure ValidGraph (g : Graph) : Prop where
  index : ∀ (i : Nat) (r : InventoryRule), g.inventory[i]? = some r → r.index = (i : Int)
  distinct : (g.inventory.map (·.identity)).Nodup
  edges : ∀ e ∈ g.references, ∃ (i j : Nat) (r r' : InventoryRule), e = ((i : Int), (j : Int)) ∧
    g.inventory[i]? = some r ∧ g.inventory[j]? = some r' ∧ r.nameSpace = r'.nameSpace

theorem rule?_some {i : Int} (h : g.rule? i = some r) :
    ∃ k : Nat, i = k ∧ g.inventory[k]? = some r := by
  unfold Graph.rule? at h
  split at h
  case isTrue hi => exact ⟨i.toNat, by omega, h⟩
  case isFalse => cases h

theorem validGraph_of_ok (h : markerValidateGraph g = .ok ()) : ValidGraph g := by
  simp only [markerValidateGraph, bind_ok, check_ok, each_ok] at h
  obtain ⟨-, -, -, hinv, -, -, hedges⟩ := h
  obtain ⟨hindex, hdistinct, -⟩ := inventoryMatches_spec hinv
  refine ⟨fun i r hi => ?_, hdistinct, fun e he => ?_⟩
  · rw [hindex i r hi, Nat.zero_add]
  · have hsame := hedges e he
    unfold Graph.sameNamespace at hsame
    split at hsame
    case h_1 r r' hr hr' =>
      obtain ⟨i, hi, hgi⟩ := rule?_some hr
      obtain ⟨j, hj, hgj⟩ := rule?_some hr'
      exact ⟨i, j, r, r', by rw [← hi, ← hj], hgi, hgj, by simpa using hsame⟩
    case h_2 => cases hsame

/-! ## Closed sets of rules -/

/-- With the markers, the rules that are referenced, and the global rules of every namespace of which there is a rule. -/
structure Closed (g : Graph) (S : Set Nat) : Prop where
  markers : ∀ i r, g.inventory[i]? = some r → r.isMarker = true → i ∈ S
  references : ∀ i j : Nat, i ∈ S → ((i : Int), (j : Int)) ∈ g.references → j ∈ S
  globals : ∀ i j r r', i ∈ S → g.inventory[i]? = some r → g.inventory[j]? = some r' → r'.isGlobal = true →
    r'.nameSpace = r.nameSpace → j ∈ S

/-- In every closed set. -/
def Graph.Needed (g : Graph) (i : Nat) : Prop := ∀ S, Closed g S → i ∈ S

def Graph.nameSpaceAt (g : Graph) (i : Nat) : String := ((g.inventory[i]?).map (·.nameSpace)).getD ""

theorem mem_positions {P : InventoryRule × Nat → Bool} :
    i ∈ (g.inventory.zipIdx.filter P).map (·.2) ↔ ∃ r, g.inventory[i]? = some r ∧ P (r, i) = true := by
  rw [List.mem_map]
  constructor
  · rintro ⟨⟨r, i⟩, hp, rfl⟩
    exact ⟨r, List.mem_zipIdx_iff_getElem?.1 (List.mem_filter.1 hp).1, (List.mem_filter.1 hp).2⟩
  · rintro ⟨r, hr, hP⟩
    exact ⟨(r, i), List.mem_filter.2 ⟨List.mem_zipIdx_iff_getElem?.2 hr, hP⟩, rfl⟩

theorem mem_globalsOf {ns : String} :
    i ∈ g.globalsOf ns ↔ ∃ r, g.inventory[i]? = some r ∧ r.isGlobal = true ∧ r.nameSpace = ns := by
  rw [Graph.globalsOf, mem_positions]
  simp

theorem mem_referencesOf (hg : ValidGraph g) : j ∈ g.referencesOf i ↔ ((i : Int), (j : Int)) ∈ g.references := by
  simp only [Graph.referencesOf, List.mem_map, List.mem_filter, beq_iff_eq]
  constructor
  · rintro ⟨e, ⟨he, hi⟩, rfl⟩
    obtain ⟨a, b, -, -, rfl, -⟩ := hg.edges e he
    rw [← hi]
    simpa using he
  · intro he
    exact ⟨_, ⟨he, rfl⟩, rfl⟩

theorem closed_inventory (hg : ValidGraph g) : Closed g {i | i < g.inventory.length} where
  markers _ _ hi _ := (List.getElem?_eq_some_iff.1 hi).1
  references i j _ he := by
    obtain ⟨a, b, r, r', heq, -, hb, -⟩ := hg.edges _ he
    obtain rfl : j = b := by exact_mod_cast (Prod.mk.inj heq).2
    exact (List.getElem?_eq_some_iff.1 hb).1
  globals _ _ _ _ _ _ hj _ _ := (List.getElem?_eq_some_iff.1 hj).1

theorem Graph.Needed.rule (hg : ValidGraph g) (h : g.Needed i) :
    ∃ r, g.inventory[i]? = some r ∧ g.nameSpaceAt i = r.nameSpace := by
  have hlt : i < g.inventory.length := h _ (closed_inventory hg)
  exact ⟨_, List.getElem?_eq_getElem hlt, by simp [Graph.nameSpaceAt, List.getElem?_eq_getElem hlt]⟩

/-! ## The search -/

/-- Each rule is queued once, and marked as it is queued. -/
structure Queued (s : Search) : Prop where
  nodup : s.queue.Nodup
  retained : ∀ i, s.retained i = true ↔ i ∈ s.queue

/-- Some of the rules `is` have been queued, and now all of them are. -/
structure Enqueued (is : List Nat) (s s' : Search) : Prop where
  queued : Queued s'
  new : ∃ more, s'.queue = s.queue ++ more ∧ ∀ i ∈ more, i ∈ is
  all : ∀ i ∈ is, i ∈ s'.queue
  globals : s'.globals = s.globals
  namespaces : s'.namespaces = s.namespaces

theorem enqueued_one (h : Queued s) (i : Nat) : Enqueued [i] s (s.enqueue i) := by
  unfold Search.enqueue
  split
  case isTrue hr => exact ⟨h, ⟨[], by simp⟩, by simpa [h.retained] using hr, rfl, rfl⟩
  case isFalse hr =>
    refine ⟨⟨?_, fun j => ?_⟩, ⟨[i], rfl, fun _ h => h⟩, by simp, rfl, rfl⟩
    · exact List.nodup_append_comm.1 (List.nodup_cons.2 ⟨fun hmem => hr ((h.retained i).2 hmem), h.nodup⟩)
    · by_cases hj : j = i
      · simp [hj]
      · simp [h.retained, hj]

theorem enqueued_foldl (h : Queued s) (is : List Nat) : Enqueued is s (is.foldl Search.enqueue s) := by
  induction is generalizing s with
  | nil => exact ⟨h, ⟨[], by simp⟩, by simp, rfl, rfl⟩
  | cons i is ih =>
    have hone := enqueued_one h i
    obtain ⟨hqueued, ⟨more, hmore, hin⟩, hall, hglobals, hnames⟩ := ih hone.queued
    obtain ⟨first, hfirst, hin'⟩ := hone.new
    rw [List.foldl_cons]
    refine ⟨hqueued, ⟨first ++ more, ?_, ?_⟩, List.forall_mem_cons.2 ⟨?_, hall⟩, hglobals.trans hone.globals,
      hnames.trans hone.namespaces⟩
    · rw [hmore, hfirst, List.append_assoc]
    · intro k hk
      rcases List.mem_append.1 hk with hk | hk
      · exact List.mem_cons.2 (.inl (List.mem_singleton.1 (hin' k hk)))
      · exact List.mem_cons_of_mem _ (hin k hk)
    · rw [hmore]
      exact List.mem_append_left _ (hone.all i List.mem_cons_self)

/-- What a visit does: it queues references and globals that were not, and deletes the globals. -/
structure Visited (g : Graph) (i : Nat) (s s' : Search) : Prop where
  queued : Queued s'
  new : ∃ more, s'.queue = s.queue ++ more ∧ ∀ j ∈ more, j ∈ g.referencesOf i ∨ j ∈ s.globals (g.nameSpaceAt i)
  references : ∀ j ∈ g.referencesOf i, j ∈ s'.queue
  ambient : ∀ j ∈ s.globals (g.nameSpaceAt i), j ∈ s'.queue
  globals : s'.globals = Function.update s.globals (g.nameSpaceAt i) []
  namespaces : s'.namespaces = s.namespaces ++ [g.nameSpaceAt i]

theorem visited (h : Queued s) (i : Nat) : Visited g i s (s.visit g i) := by
  have h₁ : Queued { s with namespaces := s.namespaces ++ [g.nameSpaceAt i] } := ⟨h.nodup, h.retained⟩
  have hrefs := enqueued_foldl h₁ (g.referencesOf i)
  have hglobs := enqueued_foldl hrefs.queued (((g.referencesOf i).foldl Search.enqueue
    { s with namespaces := s.namespaces ++ [g.nameSpaceAt i] }).globals (g.nameSpaceAt i))
  obtain ⟨refs, hq₂, hin₂⟩ := hrefs.new
  obtain ⟨globs, hq₃, hin₃⟩ := hglobs.new
  rw [hq₂, List.append_assoc] at hq₃
  refine ⟨⟨hglobs.queued.nodup, hglobs.queued.retained⟩, ⟨refs ++ globs, hq₃, fun j hj => ?_⟩, fun j hj => ?_, fun j hj => ?_,
    congrArg (fun f : String → List Nat => Function.update f (g.nameSpaceAt i) []) (hglobs.globals.trans hrefs.globals),
    hglobs.namespaces.trans hrefs.namespaces⟩
  · rcases List.mem_append.1 hj with hj | hj
    · exact .inl (hin₂ j hj)
    · exact .inr (hrefs.globals ▸ hin₃ j hj)
  · obtain ⟨more, hmore, -⟩ := hglobs.new
    exact hmore ▸ List.mem_append_left _ (hrefs.all j hj)
  · exact hglobs.all j (by rw [hrefs.globals]; exact hj)

/-- The search up to the entry `head` of its queue. -/
structure Found (g : Graph) (head : Nat) (s : Search) : Prop where
  queued : Queued s
  markers : ∀ i ∈ g.markers, i ∈ s.queue
  needed : ∀ i ∈ s.queue, g.Needed i
  namespaces : s.namespaces = (s.queue.take head).map g.nameSpaceAt
  references : ∀ i ∈ s.queue.take head, ∀ j ∈ g.referencesOf i, j ∈ s.queue
  /-- The globals of a namespace are queued as it is first seen, and then deleted. -/
  globals : ∀ ns, ns ∉ s.namespaces ∧ s.globals ns = g.globalsOf ns ∨
    ns ∈ s.namespaces ∧ s.globals ns = [] ∧ ∀ j ∈ g.globalsOf ns, j ∈ s.queue

theorem Found.visit (hg : ValidGraph g) (h : Found g head s) (hi : s.queue[head]? = some i) :
    Found g (head + 1) (s.visit g i) := by
  obtain ⟨hqueued, ⟨more, hmore, hin⟩, hrefs, hambient, hglobals, hnames⟩ := visited (g := g) h.queued i
  generalize s.visit g i = s' at *
  have hneeded := h.needed i (List.mem_of_getElem? hi)
  obtain ⟨r, hr, hns⟩ := hneeded.rule hg
  have hmono : ∀ {k}, k ∈ s.queue → k ∈ s'.queue := fun hk => hmore ▸ List.mem_append_left _ hk
  have htake : s'.queue.take (head + 1) = s.queue.take head ++ [i] := by
    rw [hmore, List.take_append_of_le_length (List.getElem?_eq_some_iff.1 hi).1, List.take_add_one, hi]
    rfl
  refine ⟨hqueued, fun j hj => hmono (h.markers j hj), fun j hj => ?_, ?_, fun k hk j hj => ?_, fun ns => ?_⟩
  · rw [hmore, List.mem_append] at hj
    rcases hj with hj | hj
    · exact h.needed j hj
    · intro S hS
      rcases hin j hj with hj | hj
      · exact hS.references i j (hneeded S hS) ((mem_referencesOf hg).1 hj)
      · rcases h.globals (g.nameSpaceAt i) with ⟨-, heq⟩ | ⟨-, heq, -⟩ <;> rw [heq] at hj
        · obtain ⟨r', hr', hglobal, hsame⟩ := mem_globalsOf.1 hj
          exact hS.globals i j r r' (hneeded S hS) hr hr' hglobal (hsame.trans hns)
        · cases hj
  · rw [hnames, htake, List.map_append, h.namespaces]
    rfl
  · rw [htake, List.mem_append, List.mem_singleton] at hk
    rcases hk with hk | rfl
    · exact hmono (h.references k hk j hj)
    · exact hrefs j hj
  · rw [hnames, hglobals, List.mem_append, List.mem_singleton]
    by_cases heq : ns = g.nameSpaceAt i
    · subst heq
      refine .inr ⟨.inr rfl, Function.update_self .., fun j hj => ?_⟩
      rcases h.globals (g.nameSpaceAt i) with ⟨-, hsame⟩ | ⟨-, -, hall⟩
      · exact hambient j (hsame ▸ hj)
      · exact hmono (hall j hj)
    · rw [Function.update_of_ne heq]
      refine (h.globals ns).imp (fun h => ⟨not_or.2 ⟨h.1, heq⟩, h.2⟩) fun h => ⟨.inl h.1, h.2.1, fun j hj => ?_⟩
      exact hmono (h.2.2 j hj)

theorem Found.loop (hg : ValidGraph g) (h : Found g head s) (fuel : Nat) :
    ∃ last, Found g last (Search.loop g fuel head s) ∧
      (last = head + fuel ∨ (Search.loop g fuel head s).queue.length ≤ last) := by
  induction fuel generalizing head s with
  | zero => exact ⟨head, h, .inl rfl⟩
  | succ fuel ih =>
    rw [Search.loop]
    split
    case h_1 hend => exact ⟨head, h, .inr (List.getElem?_eq_none_iff.1 hend)⟩
    case h_2 i hi =>
      obtain ⟨last, hlast, hend⟩ := ih (h.visit hg hi)
      exact ⟨last, hlast, hend.imp_left fun h => by omega⟩

theorem Found.length_le (hg : ValidGraph g) (h : Found g head s) : s.queue.length ≤ g.inventory.length := by
  have hsub : s.queue ⊆ List.range g.inventory.length := fun i hi =>
    List.mem_range.2 (h.needed i hi _ (closed_inventory hg))
  have hle := (List.Nodup.subperm h.queued.nodup hsub).length_le
  rwa [List.length_range] at hle

theorem markers_sorted (g : Graph) : g.markers.Pairwise (· < ·) := by
  rw [Graph.markers]
  refine List.Pairwise.sublist (List.Sublist.map _ List.filter_sublist) ?_
  rw [List.zipIdx_map_snd]
  exact List.pairwise_lt_range'

theorem found_start (g : Graph) : Found g 0 g.start where
  queued := ⟨(markers_sorted g).imp Nat.ne_of_lt, by simp [Graph.start]⟩
  markers _ h := h
  needed i hi S hS := by
    obtain ⟨r, hr, hmarker⟩ := mem_positions.1 hi
    exact hS.markers i r hr hmarker
  namespaces := by simp [Graph.start]
  references := by simp
  globals _ := .inl ⟨by simp [Graph.start], rfl⟩

/-- A loop that has come to the end of its queue has no use for more rounds. -/
theorem loop_stable {fuel : Nat}
    (h : (Search.loop g fuel head s).queue.length ≤ head + fuel) (more : Nat) :
    Search.loop g (fuel + more) head s = Search.loop g fuel head s := by
  induction fuel generalizing head s with
  | zero =>
    cases more with
    | zero => rfl
    | succ more =>
      have hend : s.queue[head]? = none := List.getElem?_eq_none h
      rw [Nat.zero_add, Search.loop, Search.loop]
      simp only [hend]
  | succ fuel ih =>
    rw [Search.loop] at h
    rw [Nat.add_right_comm, Search.loop, Search.loop]
    split
    case h_1 => rfl
    case h_2 i hi =>
      simp only [hi] at h
      exact ih (by omega)


theorem found_searched (hg : ValidGraph g) : ∃ last, Found g last g.searched ∧ g.searched.queue.length ≤ last := by
  obtain ⟨last, hlast, hend⟩ := (found_start g).loop hg g.inventory.length
  refine ⟨last, hlast, hend.elim (fun h => ?_) id⟩
  rw [h, Nat.zero_add]
  exact hlast.length_le hg

theorem mem_closure (hg : ValidGraph g) : i ∈ (markerRuleClosure g).2.1 ↔ i ∈ g.searched.queue := by
  obtain ⟨last, h, -⟩ := found_searched hg
  rw [markerRuleClosure, List.mem_filter, List.mem_range, h.queued.retained]
  exact ⟨And.right, fun hi => ⟨h.needed i hi _ (closed_inventory hg), hi⟩⟩

theorem mem_namespaces (hg : ValidGraph g) {ns : String} : ns ∈ (markerRuleClosure g).2.2 ↔
    ∃ i ∈ (markerRuleClosure g).2.1, ∃ r, g.inventory[i]? = some r ∧ r.nameSpace = ns := by
  obtain ⟨last, h, hend⟩ := found_searched hg
  rw [markerRuleClosure, h.namespaces, List.take_of_length_le hend, List.mem_map]
  refine exists_congr fun i => ?_
  rw [← mem_closure hg]
  refine and_congr_right fun hi => ?_
  obtain ⟨r, hr, hns⟩ := (h.needed i ((mem_closure hg).1 hi)).rule hg
  rw [hns]
  simp [hr]

theorem marker_namespace (hg : ValidGraph g) (hi : g.inventory[i]? = some r) (hr : r.isMarker = true) :
    r.nameSpace ∈ (markerRuleClosure g).2.2 := by
  obtain ⟨last, h, -⟩ := found_searched hg
  exact (mem_namespaces hg).2 ⟨i, (mem_closure hg).2 (h.markers i (mem_positions.2 ⟨r, hi, hr⟩)), r, hi, rfl⟩

/-- The loop ends within the rounds the model gives it.  The markers are in inventory order, the retained rules in
increasing order the least closed set, and the namespaces those of the retained rules. -/
theorem markerRuleClosure_least (g : Graph) (h : markerValidateGraph g = .ok ()) :
    (∀ more, Search.loop g (g.inventory.length + more) 0 g.start = g.searched) ∧
    (markerRuleClosure g).1.Pairwise (· < ·) ∧
    (∀ i, i ∈ (markerRuleClosure g).1 ↔ ∃ r, g.inventory[i]? = some r ∧ markerTag ∈ r.tags) ∧
    (markerRuleClosure g).2.1.Pairwise (· < ·) ∧
    IsLeast {S | Closed g S} {i | i ∈ (markerRuleClosure g).2.1} ∧
    ∀ ns, ns ∈ (markerRuleClosure g).2.2 ↔
      ∃ i ∈ (markerRuleClosure g).2.1, ∃ r, g.inventory[i]? = some r ∧ r.nameSpace = ns := by
  have hg := validGraph_of_ok h
  obtain ⟨last, hfound, hend⟩ := found_searched hg
  have hqueue := fun i => mem_closure (i := i) hg
  refine ⟨fun more => ?_, markers_sorted g, fun i => ?_, List.pairwise_lt_range.filter _,
    ⟨?_, ?_⟩, fun ns => mem_namespaces hg⟩
  · refine loop_stable ?_ more
    rw [Nat.zero_add]
    exact hfound.length_le hg
  · rw [markerRuleClosure, Graph.markers, mem_positions]
    simp [InventoryRule.isMarker]
  · refine ⟨fun i r hi hr => ?_, fun i j hi he => ?_, fun i j r r' hi hr hr' hglobal hns => ?_⟩
    · exact (hqueue i).2 (hfound.markers i (mem_positions.2 ⟨r, hi, hr⟩))
    · refine (hqueue j).2 (hfound.references i ?_ j ((mem_referencesOf hg).2 he))
      rw [List.take_of_length_le hend]
      exact (hqueue i).1 hi
    · have hseen : r.nameSpace ∈ g.searched.namespaces := (mem_namespaces hg).2 ⟨i, hi, r, hr, rfl⟩
      obtain ⟨hnew, -⟩ | ⟨-, -, hall⟩ := hfound.globals r.nameSpace
      · exact absurd hseen hnew
      · exact (hqueue j).2 (hall j (mem_globalsOf.2 ⟨r', hr', hglobal, hns⟩))
  · intro S hS i hi
    exact hfound.needed i ((hqueue i).1 hi) S hS

/-- A marker and a rule that reference each other, and a global rule of their namespace. -/
def sampleGraph : Graph where
  schema := 1
  complete := true
  inventory := [⟨0, "mail", "gate", 2, []⟩, ⟨1, "mail", "base", 1, []⟩, ⟨2, "mail", "hit", 0, ["marker"]⟩]
  references := [(2, 1), (1, 2)]
  completions := [0, 1, 2]
  summary := [3, 2, 3, 1]

theorem markerRuleClosure_least_cycle :
    IsLeast {S | Closed sampleGraph S} {i | i ∈ (markerRuleClosure sampleGraph).2.1} :=
  (markerRuleClosure_least sampleGraph (by decide)).2.2.2.2.1

end MS.Marker
