import Mailstrix.Framework.Modules
import Mailstrix.Proof.Scan.Closure

/-!
# The narrow rules decide as the full ones

A graph with its descriptors is a program: rules in namespaces, which use the rules they reference and
see the globals of their namespace.  An accepted binding makes the narrow program the restriction of
the main one to whole namespaces, those of the markers among them (`program_narrow`), so every marker
rule has the match it has in the full set.
-/

namespace MS.Marker

open Framework

variable {r : InventoryRule} {i : Nat}

/-! ## What rules mean -/

/-- A reading of rules: on an input, a rule's value comes from its descriptor, the values of the rules
it references that precede it, and of the global rules of its namespace that do; whether it matches,
from its descriptor, its value and those of all global rules of its namespace. -/
structure RuleSemantics (X : Type) where
  V : Type
  meaning : X → Meaning Descriptor V Bool

/-- A graph and the descriptors of its rules, as a program. -/
def program (g : Graph) (ds : List Descriptor) : List (Definition String Descriptor) :=
  (g.inventory.zip ds).mapIdx fun i p =>
    { home := p.1.nameSpace, ambient := p.1.isGlobal, body := p.2, uses := g.referencesOf i }

/-- For each rule of the inventory, whether it matches. -/
def RuleSemantics.matched {X : Type} (S : RuleSemantics X) (x : X) (g : Graph) (ds : List Descriptor) : List Bool :=
  results (S.meaning x) (program g ds)

/-- The marker rules that match, in the order of the inventory, as the scan reports them. -/
def RuleSemantics.markerVerdict {X : Type} (S : RuleSemantics X) (x : X) (g : Graph) (ds : List Descriptor) :
    List ((String × String) × List String) :=
  ((g.inventory.zip (S.matched x g ds)).filter fun p => p.1.isMarker && p.2).map fun p => (p.1.identity, p.1.tags)

/-! ## The projection -/

section

variable {sel : String → Bool}

/-- The rules kept by a projection. -/
abbrev kept (sel : String → Bool) (r : InventoryRule) : Bool := sel r.nameSpace

theorem project_snoc (inv : List InventoryRule) (r : InventoryRule) :
    project sel (inv ++ [r]) =
      if sel r.nameSpace then
        ((project sel inv).1 ++ [{ r with index := (project sel inv).1.length }],
          (project sel inv).2 ++ [(r.index, ((project sel inv).1.length : Int))])
      else project sel inv := by
  rw [project, List.foldl_append]
  rfl

theorem project_inventory (inv : List InventoryRule) :
    (project sel inv).1 = (inv.filter (kept sel)).mapIdx fun k r => { r with index := (k : Int) } := by
  induction inv using List.reverseRecOn with
  | nil => rfl
  | append_singleton inv r ih =>
    rw [project_snoc, List.filter_append]
    by_cases hr : sel r.nameSpace = true
    · simp [hr, ih, List.mapIdx_append]
    · simp [hr, ih]

/-- Where the projection sends a position. -/
theorem lookup_project {inv : List InventoryRule}
    (hindex : ∀ (i : Nat) (r : InventoryRule), inv[i]? = some r → r.index = (i : Int)) (k : Nat) :
    (project sel inv).2.lookup (k : Int) =
      (inv[k]?).bind fun r => if sel r.nameSpace then some (rank (kept sel) inv k : Int) else none := by
  induction inv using List.reverseRecOn with
  | nil => rfl
  | append_singleton inv r ih =>
    have hold : ∀ (i : Nat) (q : InventoryRule), inv[i]? = some q → q.index = (i : Int) := fun i q hq =>
      hindex i q (by rw [List.getElem?_append_left (List.getElem?_eq_some_iff.1 hq).1]; exact hq)
    have hr : r.index = (inv.length : Int) := hindex inv.length r List.getElem?_concat_length
    have hlen : (project sel inv).1.length = (inv.filter (kept sel)).length := by
      rw [project_inventory, List.length_mapIdx]
    rw [project_snoc]
    rcases Nat.lt_trichotomy k inv.length with hk | rfl | hk
    · have hne : ((k : Int) == (inv.length : Int)) = false := by simp; omega
      rw [List.getElem?_append_left hk, rank_append (Nat.le_of_lt hk), ← ih hold]
      split
      · rw [List.lookup_append, List.lookup_cons, hr, hne]
        simp
      · rfl
    · have hnone : (project sel inv).2.lookup (inv.length : Int) = none := by
        rw [ih hold, List.getElem?_eq_none (Nat.le_refl _)]
        rfl
      rw [List.getElem?_concat_length, rank_length]
      split
      case isTrue hs => simp [List.lookup_append, hnone, hr, hs, hlen]
      case isFalse hs => simp [hnone, hs]
    · have hne : ((k : Int) == (inv.length : Int)) = false := by simp; omega
      have hnone : (project sel inv).2.lookup (k : Int) = none := by
        rw [ih hold, List.getElem?_eq_none (Nat.le_of_lt hk)]
        rfl
      rw [List.getElem?_eq_none (by simp; omega)]
      split
      · rw [List.lookup_append, List.lookup_cons, hr, hne, hnone]
        rfl
      · exact hnone

/-- The references of a kept rule, renumbered, are those that the projected graph gives it. -/
theorem referencesOf_project {g g' : Graph} (hg : ValidGraph g)
    (hrefs : projectReferences (project sel g.inventory).2 g.references = g'.references)
    (hi : g.inventory[i]? = some r) (hs : sel r.nameSpace = true) :
    g'.referencesOf (rank (kept sel) g.inventory i) = (g.referencesOf i).map (rank (kept sel) g.inventory) := by
  rw [Graph.referencesOf, ← hrefs, Graph.referencesOf]
  have hedges := hg.edges
  generalize g.references = refs at hedges
  induction refs with
  | nil => rfl
  | cons e refs ih =>
    have hrest := ih fun e he => hedges e (List.mem_cons_of_mem _ he)
    obtain ⟨a, b, ra, rb, rfl, ha, hb, hsame⟩ := hedges e List.mem_cons_self
    have hla := @lookup_project sel _ hg.index a
    have hlb := @lookup_project sel _ hg.index b
    rw [ha, Option.bind_some] at hla
    rw [hb, Option.bind_some, ← hsame] at hlb
    by_cases hsa : sel ra.nameSpace = true
    · rw [if_pos hsa] at hla hlb
      have hstep : projectReferences (project sel g.inventory).2 (((a : Int), (b : Int)) :: refs) =
          ((rank (kept sel) g.inventory a : Int), (rank (kept sel) g.inventory b : Int)) ::
            projectReferences (project sel g.inventory).2 refs := by
        simp [projectReferences, hla, hlb]
      rw [hstep]
      by_cases hai : a = i
      · subst hai
        simpa using hrest
      · have hne : rank (kept sel) g.inventory a ≠ rank (kept sel) g.inventory i := fun h =>
          hai (rank_inj ha hsa hi hs h)
        rw [List.filter_cons_of_neg (by simpa [Int.natCast_inj] using hne),
          List.filter_cons_of_neg (by simpa [Int.natCast_inj] using hai)]
        exact hrest
    · rw [if_neg hsa] at hla
      have hstep : projectReferences (project sel g.inventory).2 (((a : Int), (b : Int)) :: refs) =
          projectReferences (project sel g.inventory).2 refs := by
        simp [projectReferences, hla]
      have hai : a ≠ i := by
        rintro rfl
        cases ha.symm.trans hi
        exact hsa hs
      rw [hstep, List.filter_cons_of_neg (by simpa [Int.natCast_inj] using hai)]
      exact hrest

/-- The descriptors are selected by the namespace they name, which is that of the rule. -/
theorem zip_filter {inv : List InventoryRule} {ds : List Descriptor} (hlen : ds.length = inv.length)
    (hid : ∀ p ∈ ds.zip inv, p.1.identity = p.2.identity) :
    (inv.filter (kept sel)).zip (ds.filter fun d => sel d.identity.1) =
      (inv.zip ds).filter fun p => sel p.1.nameSpace := by
  induction inv generalizing ds with
  | nil =>
    cases List.length_eq_zero_iff.1 hlen
    rfl
  | cons r inv ih =>
    cases ds with
    | nil => cases hlen
    | cons d ds =>
      have hd : d.identity.1 = r.nameSpace := congrArg Prod.fst (hid (d, r) List.mem_cons_self)
      have hrest := ih (Nat.succ.inj hlen) fun p hp => hid p (List.mem_cons_of_mem _ hp)
      by_cases hs : sel r.nameSpace = true
      · simp [kept, hd, hs, hrest]
      · simp [kept, hd, hs, hrest]

theorem mapIdx_zip {A B C : Type} (F : Nat → A → C) (as : List A) (bs : List B) :
    (as.mapIdx F).zip bs = (as.zip bs).mapIdx fun k p => (F k p.1, p.2) := by
  refine List.ext_getElem? fun k => ?_
  rw [List.getElem?_mapIdx]
  cases ha : as[k]? <;> cases hb : bs[k]? <;> simp [List.zip, List.getElem?_zipWith, ha, hb]

theorem homes_program {g : Graph} {ds : List Descriptor} (hlen : ds.length = g.inventory.length) :
    (program g ds).map (·.home) = g.inventory.map (·.nameSpace) := by
  refine List.ext_getElem? fun k => ?_
  rw [List.getElem?_map, program, List.getElem?_mapIdx, List.getElem?_map]
  cases hr : g.inventory[k]? with
  | none => simp [List.zip, List.getElem?_zipWith, hr]
  | some r =>
    have hk : k < ds.length := by
      rw [hlen]
      exact (List.getElem?_eq_some_iff.1 hr).1
    simp [List.zip, List.getElem?_zipWith, hr, List.getElem?_eq_getElem hk]

theorem rank_program {g : Graph} {ds : List Descriptor} (hlen : ds.length = g.inventory.length) :
    rank (fun e : Definition String Descriptor => sel e.home) (program g ds) = rank (kept sel) g.inventory := by
  funext i
  have hmap : rank sel ((program g ds).map (·.home)) i = _ := rank_map Definition.home (program g ds) i
  rw [homes_program hlen, rank_map] at hmap
  exact hmap.symm

theorem keep_program {V : Type} {g : Graph} {ds : List Descriptor} (hlen : ds.length = g.inventory.length)
    (vs : List V) : keep (fun e : Definition String Descriptor => sel e.home) (program g ds) vs =
      keep (kept sel) g.inventory vs := by
  have hmap : keep sel ((program g ds).map (·.home)) vs = _ := keep_map Definition.home (program g ds) vs
  rw [homes_program hlen, keep_map] at hmap
  exact hmap.symm

/-- The program of the projected graph is the restriction of the program to the selected namespaces. -/
theorem program_project {g g' : Graph} {ds : List Descriptor} (hg : ValidGraph g)
    (hlen : ds.length = g.inventory.length) (hid : ∀ p ∈ ds.zip g.inventory, p.1.identity = p.2.identity)
    (hinv : (project sel g.inventory).1 = g'.inventory)
    (hrefs : projectReferences (project sel g.inventory).2 g.references = g'.references) :
    program g' (ds.filter fun d => sel d.identity.1) = restrict sel (program g ds) := by
  have hfst : (g.inventory.zip ds).map Prod.fst = g.inventory := List.map_fst_zip (Nat.le_of_eq hlen.symm)
  have hrankZip : rank (fun p : InventoryRule × Descriptor => sel p.1.nameSpace) (g.inventory.zip ds) =
      rank (kept sel) g.inventory := by
    funext i
    have hmap : rank (kept sel) ((g.inventory.zip ds).map Prod.fst) i = _ := rank_map Prod.fst _ i
    rw [hfst] at hmap
    exact hmap.symm
  have hprog : program g ds = ((g.inventory.zip ds).mapIdx fun i p => (i, p)).map fun q =>
      { home := q.2.1.nameSpace, ambient := q.2.1.isGlobal, body := q.2.2, uses := g.referencesOf q.1 } := by
    refine List.ext_getElem? fun k => ?_
    simp [program]
    rfl
  rw [program, ← hinv, project_inventory, mapIdx_zip, zip_filter hlen hid, List.mapIdx_mapIdx, mapIdx_filter,
    restrict, restrictBy, rank_program hlen, hprog, List.filter_map, List.map_map, hrankZip]
  refine List.map_congr_left fun q hq => ?_
  obtain ⟨hmem, hsel⟩ := List.mem_filter.1 hq
  obtain ⟨i, hi, rfl⟩ := List.mem_mapIdx.1 hmem
  have hget : g.inventory[i]? = some (g.inventory.zip ds)[i].1 := by
    rw [List.getElem_zip]
    exact List.getElem?_eq_getElem _
  simp only [Function.comp_apply]
  rw [referencesOf_project hg hrefs hget hsel]
  rfl

/-- The rule at a position of the program. -/
theorem getElem?_program {g : Graph} {ds : List Descriptor} (hlen : ds.length = g.inventory.length)
    (hi : g.inventory[i]? = some r) :
    ∃ e, (program g ds)[i]? = some e ∧ e.home = r.nameSpace := by
  have hhome : ((program g ds).map (·.home))[i]? = some r.nameSpace := by
    rw [homes_program hlen, List.getElem?_map, hi]
    rfl
  rw [List.getElem?_map] at hhome
  obtain ⟨e, he, hr⟩ := Option.map_eq_some_iff.1 hhome
  exact ⟨e, he, hr⟩

theorem local_program {g : Graph} {ds : List Descriptor} (hg : ValidGraph g)
    (hlen : ds.length = g.inventory.length) : Local (program g ds) := by
  intro e he u hu
  obtain ⟨i, hi, rfl⟩ := List.mem_mapIdx.1 he
  have hget : g.inventory[i]? = some (g.inventory.zip ds)[i].1 := by
    rw [List.getElem_zip]
    exact List.getElem?_eq_getElem _
  obtain ⟨edge, hedge, rfl⟩ := List.mem_map.1 hu
  obtain ⟨hmem, hsource⟩ := List.mem_filter.1 hedge
  obtain ⟨a, b, ra, rb, rfl, ha, hb, hsame⟩ := hg.edges edge hmem
  have hai : a = i := by simpa [Int.natCast_inj] using hsource
  subst hai
  cases ha.symm.trans hget
  obtain ⟨e', he', hhome⟩ := getElem?_program hlen hb
  exact ⟨e', he', hhome.trans hsame.symm⟩

end

/-! ## An accepted binding -/

/-- What an accepted binding says about the two graphs; `sel` are the namespaces it selects. -/
structure Bound (g g' : Graph) (ds ds' : List Descriptor) (sel : String → Bool) : Prop where
  main : ValidGraph g
  narrow : ValidGraph g'
  markers : ∀ (i : Nat) (r : InventoryRule), g.inventory[i]? = some r → r.isMarker = true → sel r.nameSpace = true
  inventory : (project sel g.inventory).1 = g'.inventory
  references : projectReferences (project sel g.inventory).2 g.references = g'.references
  length : ds.length = g.inventory.length
  identities : ∀ p ∈ ds.zip g.inventory, p.1.identity = p.2.identity
  descriptors : ds.filter (fun d => sel d.identity.1) = ds'

variable {rt : Runtime} {paths : PathOps} {b : Binding} {main narrow : Manifest} {fp fp' fp'' : Fingerprint}

theorem bound_of_ok (h : markerValidateBinding rt paths b main narrow fp fp' fp'' = .ok ()) :
    ∃ sel, Bound main.final.graph narrow.final.graph b.mainDescriptors.rules b.markerDescriptors.rules sel := by
  simp only [markerValidateBinding, bind_ok, check_ok, each_ok, List.mem_cons, List.not_mem_nil, or_false] at h
  obtain ⟨-, -, -, -, -, -, -, -, -, -, -, -, -, hgraphs, -, ⟨hmain, hmarker⟩, -, -, -, -, -, hns, -, hproj, -, hrefs,
    -, -, -, -, -, hlen, -, hid, hdesc⟩ := h
  refine ⟨_, validGraph_of_ok (hgraphs _ (.inl rfl)), validGraph_of_ok (hgraphs _ (.inr rfl)), fun i r hi hr => ?_,
    hproj.trans hmarker, hrefs, ?_, ?_, congrArg Descriptors.rules hdesc⟩
  · exact hns _ (marker_namespace (validGraph_of_ok (hgraphs _ (.inl rfl))) hi hr)
  · rw [hlen, hmain]
  · rw [hmain] at hid
    exact hid

namespace Bound

variable {g g' : Graph} {ds ds' : List Descriptor} {sel : String → Bool} {X : Type} {S : RuleSemantics X}

/-- The matches of the narrow rules are those of the rules that were kept. -/
theorem matched (h : Bound g g' ds ds' sel) (x : X) :
    S.matched x g' ds' = keep (kept sel) g.inventory (S.matched x g ds) := by
  have hprog := program_project h.main h.length h.identities h.inventory h.references
  rw [h.descriptors] at hprog
  rw [RuleSemantics.matched, hprog, results_restrict (local_program h.main h.length), keep_program h.length]
  rfl

theorem inventory_eq (h : Bound g g' ds ds' sel) :
    g'.inventory = (g.inventory.filter (kept sel)).mapIdx fun k r => { r with index := (k : Int) } := by
  rw [← h.inventory, project_inventory]

/-- A kept rule stands under its rank. -/
theorem found (h : Bound g g' ds ds' sel) (hi : g.inventory[i]? = some r)
    (hr : sel r.nameSpace = true) :
    g'.inventory[rank (kept sel) g.inventory i]? =
      some { r with index := (rank (kept sel) g.inventory i : Int) } := by
  have hkeep : (keep (kept sel) g.inventory g.inventory)[rank (kept sel) (g.inventory ++ []) i]? = g.inventory[i]? :=
    keep_rank rfl fun r' hr' => by
      cases hi.symm.trans hr'
      exact hr
  rw [keep_self, List.append_nil, hi] at hkeep
  rw [h.inventory_eq, List.getElem?_mapIdx, hkeep]
  rfl

theorem length_matched (h : Bound g g' ds ds' sel) (x : X) : (S.matched x g ds).length = g.inventory.length := by
  have hvalues := length_values (M := S.meaning x) (program g ds)
  simp only [RuleSemantics.matched, results, List.length_map, List.length_zip, hvalues, Nat.min_self]
  simp [program, h.length]

/-- Of one identity there is one rule. -/
theorem unique (h : ValidGraph g) {i j : Nat} {r r' : InventoryRule} (hi : g.inventory[i]? = some r)
    (hj : g.inventory[j]? = some r') (heq : r.identity = r'.identity) : i = j := by
  have hlt : i < (g.inventory.map (·.identity)).length := by
    rw [List.length_map]
    exact (List.getElem?_eq_some_iff.1 hi).1
  refine (List.getElem?_inj hlt h.distinct).1 ?_
  rw [List.getElem?_map, List.getElem?_map, hi, hj, Option.map_some, Option.map_some, heq]

theorem markerVerdict (h : Bound g g' ds ds' sel) (x : X) : S.markerVerdict x g' ds' = S.markerVerdict x g ds := by
  rw [RuleSemantics.markerVerdict, RuleSemantics.markerVerdict, h.inventory_eq, h.matched x, mapIdx_zip]
  refine (map_filter_mapIdx (fun _ _ => by rfl) (fun _ _ => by rfl) _).trans ?_
  rw [filter_zip_keep fun r hr m hm => ?_]
  obtain ⟨i, hi⟩ := List.mem_iff_getElem?.1 hr
  have hmarker : r.isMarker = true := by
    simp only [Bool.and_eq_true] at hm
    exact hm.1
  exact h.markers i r hi hmarker

end Bound

/-- The narrow rules of an accepted binding have every marker rule of the main inventory exactly once
and no other, and in every reading of rules it matches there exactly when it does in the full set, so
the marker rules reported for an input are the same. -/
theorem narrow_agrees {X : Type} (S : RuleSemantics X)
    (h : markerValidateBinding rt paths b main narrow fp fp' fp'' = .ok ()) :
    (∀ (i : Nat) (r : InventoryRule), main.final.graph.inventory[i]? = some r → r.isMarker = true →
      ∃ j, (∃ r', narrow.final.graph.inventory[j]? = some r' ∧ r'.identity = r.identity ∧ r'.flags = r.flags ∧
          r'.tags = r.tags) ∧
        (∀ (k : Nat) (r' : InventoryRule), narrow.final.graph.inventory[k]? = some r' →
          r'.identity = r.identity → k = j) ∧
        ∀ x, ∃ m, (S.matched x narrow.final.graph b.markerDescriptors.rules)[j]? = some m ∧
          (S.matched x main.final.graph b.mainDescriptors.rules)[i]? = some m) ∧
    (∀ (j : Nat) (r' : InventoryRule), narrow.final.graph.inventory[j]? = some r' → r'.isMarker = true →
      ∃ (i : Nat) (r : InventoryRule), main.final.graph.inventory[i]? = some r ∧ r.isMarker = true ∧
        r.identity = r'.identity) ∧
    ∀ x, S.markerVerdict x narrow.final.graph b.markerDescriptors.rules =
      S.markerVerdict x main.final.graph b.mainDescriptors.rules := by
  obtain ⟨sel, hb⟩ := bound_of_ok h
  refine ⟨fun i r hi hr => ?_, fun j r' hj hr' => ?_, fun x => hb.markerVerdict x⟩
  · have hsel := hb.markers i r hi hr
    have hfound := hb.found hi hsel
    refine ⟨_, ⟨_, hfound, rfl, rfl, rfl⟩, fun k r' hk hid => Bound.unique hb.narrow hk hfound hid, fun x => ?_⟩
    have hlen := hb.length_matched (S := S) x
    have hlt : i < (S.matched x main.final.graph b.mainDescriptors.rules).length := by
      rw [hlen]
      exact (List.getElem?_eq_some_iff.1 hi).1
    have hkeep : (keep (kept sel) main.final.graph.inventory
        (S.matched x main.final.graph b.mainDescriptors.rules))[rank (kept sel) (main.final.graph.inventory ++ []) i]? =
          _ :=
      keep_rank hlen.symm fun r' hr' => by
        cases hi.symm.trans hr'
        exact hsel
    rw [List.append_nil] at hkeep
    refine ⟨_, ?_, List.getElem?_eq_getElem hlt⟩
    rw [hb.matched x, hkeep, List.getElem?_eq_getElem hlt]
  · rw [hb.inventory_eq, List.getElem?_mapIdx] at hj
    obtain ⟨r, hr, rfl⟩ := Option.map_eq_some_iff.1 hj
    have hmem := (List.mem_filter.1 (List.mem_iff_getElem?.2 ⟨j, hr⟩)).1
    obtain ⟨i, hi⟩ := List.mem_iff_getElem?.1 hmem
    exact ⟨i, r, hi, hr', rfl⟩

/-! A main set of two namespaces, of which the narrow one keeps the marker's, with its global rule. -/

section Sample

def sampleHash (c : Char) : String := String.ofList (List.replicate 64 c)

def sampleRuntime : Runtime := ⟨"4.5", sampleHash 'a', sampleHash 'b'⟩

def samplePaths : PathOps where
  isAbs p := p.toList.head? == some '/'
  join dir p := dir ++ "/" ++ p
  clean p := p

def sampleSource (ns : String) : Source := ⟨ns, "/r/" ++ ns, ⟨ns, 1⟩⟩

def sampleObserved (ns : String) : Observed :=
  { nameSpace := ns, path := "/r/" ++ ns, observed := ⟨ns, 1⟩, eof := true, errors := some 0 }

def sampleInvocation (namespaces : List String) (output : String) (g : Graph) : Invocation where
  argv := "/yarac" :: externalArguments ++ namespaces.map (fun ns => ns ++ ":/r/" ++ ns) ++ [output]
  cwd := "/w"
  exit := 0
  candidate := sampleSource (namespaces.headD "")
  accepted := true
  sources := namespaces.map sampleObserved
  includes := []
  graph := g
  compilerVersion := "4.5"
  libraryVersion := "4.5"

def sampleExternals : List External :=
  externalNames.map fun name => if name = "VBA" then ⟨name, "integer", "0"⟩ else ⟨name, "string", "\"\""⟩

def sampleManifest (namespaces : List String) (compiled : String) (g : Graph) : Manifest where
  directories := ["/", "/out", "/r", "/w"]
  schema := 2
  output := "/out/" ++ compiled
  compiled := ⟨compiled, 1⟩
  versions := [("libyara", "4.5"), ("yarac", "4.5")]
  externals := sampleExternals
  validations := namespaces.map fun ns => sampleInvocation [ns] "/tmp" g
  final := sampleInvocation namespaces ("/out/" ++ compiled) g
  inputs := namespaces.map fun ns => ("/r/" ++ ns, ⟨ns, 1⟩)

def sampleMainGraph : Graph where
  schema := 1
  complete := true
  inventory := [⟨0, "other", "plain", 0, []⟩, ⟨1, "mail", "gate", 2, []⟩, ⟨2, "mail", "base", 1, []⟩,
    ⟨3, "mail", "hit", 0, ["marker"]⟩]
  references := [(3, 2)]
  completions := [0, 1, 2, 3]
  summary := [4, 1, 4, 1]

def sampleNarrowGraph : Graph where
  schema := 1
  complete := true
  inventory := [⟨0, "mail", "gate", 2, []⟩, ⟨1, "mail", "base", 1, []⟩, ⟨2, "mail", "hit", 0, ["marker"]⟩]
  references := [(2, 1)]
  completions := [0, 1, 2]
  summary := [3, 1, 3, 1]

def sampleDescriptors (g : Graph) : Descriptors := ⟨g.inventory.map fun r => ⟨r.identity, [r.identifier]⟩, []⟩

def sampleMain : Manifest := sampleManifest ["other", "mail"] "main" sampleMainGraph

def sampleNarrow : Manifest := sampleManifest ["mail"] "marker" sampleNarrowGraph

def sampleBinding : Binding where
  schema := 1
  construction := "complete-native-namespace-closure/1"
  main := ⟨"main", 1⟩
  marker := ⟨"marker", 1⟩
  mainManifest := ⟨"main manifest", 1⟩
  markerManifest := ⟨"marker manifest", 1⟩
  versions := [("yarac", "4.5"), ("libyara", "4.5")]
  abi := [("descriptor_source", ⟨"d71b05039b8dd71e3e472e5f48f6d81e1b86a5602ba214853fe3812b170944f3", 1400⟩),
    ("libyara", ⟨sampleHash 'a', 1⟩), ("compiler", ⟨sampleHash 'b', 1⟩)]
  moduleIdentity := [("static_libyara", ⟨sampleHash 'a', 1⟩)]
  externals := sampleExternals
  namespaces := ["mail"]
  sources := [sampleSource "mail"]
  includes := []
  closureMarkers := [3]
  closureRetained := [1, 2, 3]
  mainInventory := sampleMainGraph.inventory
  markerInventory := sampleNarrowGraph.inventory
  mainDescriptors := sampleDescriptors sampleMainGraph
  markerDescriptors := sampleDescriptors sampleNarrowGraph

/-- A rule holds if its text is in the input and the rules it references hold; it matches if the global
rules of its namespace hold too. -/
def sampleSemantics : RuleSemantics (List String) where
  V := Bool
  meaning x := {
    value := fun d refs _ => d.lines.all (x.contains ·) && refs.all (· == some true)
    result := fun _ v globals => v && globals.all (· == true) }

theorem narrow_agrees_dropped :
    markerValidateBinding sampleRuntime samplePaths sampleBinding sampleMain sampleNarrow ⟨"main", 1⟩
      ⟨"main manifest", 1⟩ ⟨"marker manifest", 1⟩ = .ok () ∧
    sampleSemantics.markerVerdict ["gate", "base", "hit"] sampleNarrow.final.graph
      sampleBinding.markerDescriptors.rules = [(("mail", "hit"), ["marker"])] ∧
    ∀ x, sampleSemantics.markerVerdict x sampleNarrow.final.graph sampleBinding.markerDescriptors.rules =
      sampleSemantics.markerVerdict x sampleMain.final.graph sampleBinding.mainDescriptors.rules := by
  have hok : (markerValidateBinding sampleRuntime samplePaths sampleBinding sampleMain sampleNarrow ⟨"main", 1⟩
      ⟨"main manifest", 1⟩ ⟨"marker manifest", 1⟩).toBool = true := by decide +kernel
  have haccepted : markerValidateBinding sampleRuntime samplePaths sampleBinding sampleMain sampleNarrow ⟨"main", 1⟩
      ⟨"main manifest", 1⟩ ⟨"marker manifest", 1⟩ = .ok () := by
    revert hok
    cases markerValidateBinding sampleRuntime samplePaths sampleBinding sampleMain sampleNarrow ⟨"main", 1⟩
      ⟨"main manifest", 1⟩ ⟨"marker manifest", 1⟩ with
    | error e => exact nofun
    | ok u => exact fun _ => rfl
  exact ⟨haccepted, by decide +kernel, (narrow_agrees sampleSemantics haccepted).2.2⟩

end Sample

end MS.Marker
