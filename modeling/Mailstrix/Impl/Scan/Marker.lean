import Mailstrix.Framework.Except

/-!
# The marker artifact

`marker_artifact.go`: the contract between the main rules, the narrow rules for the marker channel and
the binding that ties them together, as `markerValidateBinding` checks it.

Go's `int` is an integer, a slice a list, and a map with string keys a list of pairs, compared by what
is found under each key.  `reflect.DeepEqual` moreover tells a nil slice from an empty one; equality of
the contents accepts no less.  What the binary was linked with and `path/filepath` are parameters.
-/

namespace MS.Marker

open Framework

def markerTag : String := "marker"

/-! ## Data -/

structure Fingerprint where
  sha256 : String := ""
  size : Int := 0
deriving DecidableEq

/-- A Go map with string keys. -/
abbrev GoMap (α : Type) := List (String × α)

namespace GoMap

variable {α : Type} [DecidableEq α]

/-- `reflect.DeepEqual` of two maps. -/
def Same (m m' : GoMap α) : Prop := ∀ p ∈ m ++ m', m.lookup p.1 = m'.lookup p.1

instance (m m' : GoMap α) : Decidable (Same m m') := by unfold Same; infer_instance

omit [DecidableEq α] in
/-- `m[k]`, which is the zero value where there is none. -/
def get [Inhabited α] (m : GoMap α) (k : String) : α := (m.lookup k).getD default

end GoMap

instance : Inhabited Fingerprint := ⟨{}⟩

structure InventoryRule where
  index : Int
  nameSpace : String
  identifier : String
  flags : Int
  tags : List String
deriving DecidableEq

structure Graph where
  schema : Int
  complete : Bool
  inventory : List InventoryRule
  references : List (Int × Int)
  completions : List Int
  summary : List Int
deriving DecidableEq

structure External where
  name : String
  type : String
  value : String
deriving DecidableEq

structure Source where
  nameSpace : String
  path : String
  snapshot : Fingerprint
deriving DecidableEq

structure Observed where
  nameSpace : String
  path : String
  root : String := ""
  observed : Fingerprint
  eof : Bool
  errors : Option Int
deriving DecidableEq

structure Invocation where
  argv : List String
  cwd : String
  exit : Int
  candidate : Source
  accepted : Bool
  sources : List Observed
  includes : List Observed
  graph : Graph
  compilerVersion : String
  libraryVersion : String

structure Manifest where
  directories : List String
  schema : Int
  output : String
  compiled : Fingerprint
  versions : GoMap String
  externals : List External
  validations : List Invocation
  final : Invocation
  inputs : GoMap Fingerprint

/-- What the native object says about one rule. -/
structure Descriptor where
  identity : String × String
  lines : List String
deriving DecidableEq

structure Descriptors where
  rules : List Descriptor
  externals : List String
deriving DecidableEq

structure Binding where
  schema : Int
  construction : String
  main : Fingerprint
  marker : Fingerprint
  mainManifest : Fingerprint
  markerManifest : Fingerprint
  versions : GoMap String
  abi : GoMap Fingerprint
  moduleIdentity : GoMap Fingerprint
  externals : List External
  namespaces : List String
  sources : List Source
  includes : List Observed
  closureMarkers : List Int
  closureRetained : List Int
  mainInventory : List InventoryRule
  markerInventory : List InventoryRule
  mainDescriptors : Descriptors
  markerDescriptors : Descriptors

/-- `markerRuntimeVersion` and the two hashes, set when the binary is linked. -/
structure Runtime where
  version : String
  libYaraSHA256 : String
  compilerSHA256 : String

/-- `path/filepath` -/
structure PathOps where
  isAbs : String → Bool
  join : String → String → String
  clean : String → String

/-! ## Rules -/

namespace InventoryRule

/-- `flags & ^3 == 0` -/
def flagsKnown (r : InventoryRule) : Prop := 0 ≤ r.flags ∧ r.flags ≤ 3

instance (r : InventoryRule) : Decidable r.flagsKnown := by unfold flagsKnown; infer_instance

/-- `flags&2 != 0` -/
def isGlobal (r : InventoryRule) : Bool := r.flags / 2 % 2 = 1

def isMarker (r : InventoryRule) : Bool := r.tags.contains markerTag

def identity (r : InventoryRule) : String × String := (r.nameSpace, r.identifier)

end InventoryRule

/-- The rule at a position that may be out of range. -/
def Graph.rule? (g : Graph) (i : Int) : Option InventoryRule := if 0 ≤ i then g.inventory[i.toNat]? else none

/-- Both ends of a reference are there and of one namespace. -/
def Graph.sameNamespace (g : Graph) (e : Int × Int) : Bool := match g.rule? e.1, g.rule? e.2 with
  | some r, some r' => r.nameSpace == r'.nameSpace
  | _, _ => false

/-! ## Checks -/

/-- The loop of `markerValidateGraph` over the inventory: from position `i`, with the identities seen. -/
def inventoryMatches (completions : List Int) : Nat → List (String × String) → List InventoryRule → Prop
  | _, _, [] => True
  | i, identities, r :: rs =>
    (r.index = i ∧ completions[i]? = some (i : Int) ∧ r.identifier ≠ "" ∧ r.flagsKnown ∧ r.identity ∉ identities) ∧
      inventoryMatches completions (i + 1) (r.identity :: identities) rs

instance decidableInventoryMatches (completions : List Int) :
    ∀ (i : Nat) (ids : List (String × String)) (rs : List InventoryRule),
      Decidable (inventoryMatches completions i ids rs)
  | _, _, [] => .isTrue trivial
  | i, ids, r :: rs =>
    have := decidableInventoryMatches completions (i + 1) (r.identity :: ids) rs
    inferInstanceAs (Decidable (_ ∧ _))

def markerValidateGraph (g : Graph) : Except String Unit := do
  check (g.complete = true ∧ g.schema = 1 ∧ g.summary.length = 4 ∧
      g.summary[0]? = some (g.inventory.length : Int) ∧ g.summary[1]? = some (g.references.length : Int) ∧
      g.summary[2]? = some (g.completions.length : Int) ∧ g.completions.length = g.inventory.length)
    "incomplete native graph"
  check (inventoryMatches g.completions 0 [] g.inventory) "native inventory mismatch"
  check (g.summary[3]? = some ((g.inventory.map (·.tags.length)).sum : Int)) "native tag count mismatch"
  each (fun e => check (g.sameNamespace e = true) "native reference mismatch") g.references

def externalNames : List String := ["filepath", "filename", "extension", "filetype", "file_type", "owner", "VBA"]

def markerValidateExternals (externals : List External) : Except String Unit := do
  check (externals.length = externalNames.length) "external inventory mismatch"
  each (fun p => do
    check (externalNames[p.2]? = some p.1.name) "external order mismatch"
    if p.2 = 6 then
      check (p.1.type = "integer" ∧ p.1.value = "0") "external integer default mismatch"
    else
      check (p.1.type = "string" ∧ p.1.value = "\"\"") "external string default mismatch") externals.zipIdx

/-! ## The manifest -/

/-- The definitions of the externals on a compiler's command line. -/
def externalArguments : List String :=
  externalNames.flatMap fun name => ["-d", name ++ "=" ++ if name = "VBA" then "0" else ""]

/-- `argv[lo:hi]` -/
def arguments (argv : List String) (lo hi : Nat) : List String := (argv.take hi).drop lo

/-- `strings.Split(path, "/")` -/
def splitSlash : List Char → List (List Char)
  | [] => [[]]
  | c :: cs =>
    if c = '/' then [] :: splitSlash cs
    else match splitSlash cs with
      | [] => [[c]]
      | w :: ws => (c :: w) :: ws

/-- The directories on the way to a path, without its last part. -/
def parents (path : String) : List String :=
  ((splitSlash path.toList).dropLast.foldl (fun s part =>
    let current : List String :=
      if part = ['.', '.'] then s.1.dropLast
      else if part ≠ [] ∧ part ≠ ['.'] then s.1 ++ [String.ofList part]
      else s.1
    (current, s.2 ++ ["/" ++ String.intercalate "/" current])) (([] : List String), ([] : List String))).2

/-- Under which path each final input was read; `none` for two different ones at one path. -/
def inputPaths (paths : PathOps) (cwd : String) : List Observed → GoMap Fingerprint → Option (GoMap Fingerprint)
  | [], m => some m
  | s :: ss, m =>
    let path := paths.clean (if paths.isAbs s.path then s.path else paths.join cwd s.path)
    match m.lookup path with
    | none => inputPaths paths cwd ss (m ++ [(path, s.observed)])
    | some previous => if previous = s.observed then inputPaths paths cwd ss m else none

def acceptedSources (m : Manifest) : List Source := (m.validations.filter (·.accepted)).map (·.candidate)

def markerValidateManifest (paths : PathOps) (m : Manifest) : Except String Unit := do
  each (fun v => check ((v.exit = 0 ∨ v.exit = 1) ∧ v.accepted = decide (v.exit = 0) ∧ v.argv.length = 17 ∧
      arguments v.argv 1 15 = externalArguments ∧
      v.argv[15]? = some (v.candidate.nameSpace ++ ":" ++ v.candidate.path))
    "validation compiler contract mismatch") m.validations
  let accepted := acceptedSources m
  check (accepted ≠ [] ∧ m.final.argv.length = 16 + accepted.length ∧ m.final.sources.length = accepted.length ∧
    arguments m.final.argv 1 15 = externalArguments) "final compiler contract mismatch"
  each (fun p => check ((accepted[p.2]?).map (fun a => (a.path, a.nameSpace)) = some (p.1.path, p.1.nameSpace) ∧
      m.final.argv[15 + p.2]? = some (p.1.nameSpace ++ ":" ++ p.1.path))
    "accepted compiler root/order mismatch") m.final.sources.zipIdx
  let inputs ← need (inputPaths paths m.final.cwd (m.final.sources ++ m.final.includes) [])
    "different final input bytes at one path"
  check (inputs.Same m.inputs) "final input mapping mismatch"
  let last := m.final.argv.getLastD ""
  check (paths.clean (if paths.isAbs last then last else paths.join m.final.cwd last) = m.output)
    "final compiler output mismatch"
  let consumed := (m.final.sources ++ m.final.includes).map (·.path) ++
    [m.final.cwd ++ "/", m.final.argv.headD "", last]
  let directories := ("/" :: consumed.flatMap fun path =>
    parents (if path.toList.head? = some '/' then path else m.final.cwd ++ "/" ++ path)).dedup
  check (∀ path ∈ directories, inputs.lookup path = none) "final input file/directory collision"
  check (directories.insertionSort (· ≤ ·) = m.directories) "final directory mapping mismatch"

/-! ## The closure -/

/-- `references[i]` -/
def Graph.referencesOf (g : Graph) (i : Nat) : List Nat :=
  (g.references.filter fun e => e.1 == (i : Int)).map fun e => e.2.toNat

/-- `globals[namespace]`, before the search deletes it. -/
def Graph.globalsOf (g : Graph) (nameSpace : String) : List Nat :=
  (g.inventory.zipIdx.filter fun p => p.1.isGlobal && p.1.nameSpace == nameSpace).map (·.2)

def Graph.markers (g : Graph) : List Nat := (g.inventory.zipIdx.filter fun p => p.1.isMarker).map (·.2)

/-- The variables of the search in `markerRuleClosure`. -/
structure Search where
  retained : Nat → Bool
  queue : List Nat
  globals : String → List Nat
  namespaces : List String

def Search.enqueue (s : Search) (index : Nat) : Search :=
  if s.retained index then s
  else { s with retained := Function.update s.retained index true, queue := s.queue ++ [index] }

/-- The body of the loop over the queue. -/
def Search.visit (g : Graph) (s : Search) (current : Nat) : Search :=
  let nameSpace := ((g.inventory[current]?).map (·.nameSpace)).getD ""
  let s := { s with namespaces := s.namespaces ++ [nameSpace] }
  let s := (g.referencesOf current).foldl Search.enqueue s
  let s := (s.globals nameSpace).foldl Search.enqueue s
  { s with globals := Function.update s.globals nameSpace [] }

/-- The loop over the queue, from `head`.  Every rule is queued once, so it makes at most as many
rounds as there are rules. -/
def Search.loop (g : Graph) : Nat → Nat → Search → Search
  | 0, _, s => s
  | fuel + 1, head, s => match s.queue[head]? with
    | none => s
    | some current => Search.loop g fuel (head + 1) (s.visit g current)

/-- The variables before the loop. -/
def Graph.start (g : Graph) : Search :=
  { retained := fun i => decide (i ∈ g.markers), queue := g.markers, globals := g.globalsOf, namespaces := [] }

def Graph.searched (g : Graph) : Search := Search.loop g g.inventory.length 0 g.start

/-- `markerRuleClosure`: the markers, the rules they need, and the namespaces of those. -/
def markerRuleClosure (g : Graph) : List Nat × List Nat × List String :=
  (g.markers, (List.range g.inventory.length).filter g.searched.retained, g.searched.namespaces)

/-! ## The binding -/

/-- The rules of the selected namespaces, renumbered, and where each went. -/
def project (selected : String → Bool) (inventory : List InventoryRule) : List InventoryRule × List (Int × Int) :=
  inventory.foldl (fun s r =>
    if selected r.nameSpace then
      (s.1 ++ [{ r with index := s.1.length }], s.2 ++ [(r.index, (s.1.length : Int))])
    else s) ([], [])

/-- The references of the selected rules, renumbered. -/
def projectReferences (mapping : List (Int × Int)) (references : List (Int × Int)) : List (Int × Int) :=
  references.filterMap fun e => (mapping.lookup e.1).map fun source => (source, (mapping.lookup e.2).getD 0)

def markerValidateBinding (rt : Runtime) (paths : PathOps) (b : Binding) (main narrow : Manifest)
    (mainIdentity mainManifest narrowManifest : Fingerprint) : Except String Unit := do
  check (b.schema = 1 ∧ b.construction = "complete-native-namespace-closure/1" ∧ main.schema = 2 ∧
      narrow.schema = 2 ∧ main.final.exit = 0 ∧ narrow.final.exit = 0 ∧ b.main = mainIdentity ∧
      b.main = main.compiled ∧ b.marker = narrow.compiled ∧ b.mainManifest = mainManifest ∧
      b.markerManifest = narrowManifest) "marker main/graph identity mismatch"
  each (markerValidateManifest paths) [main, narrow]
  let versions : GoMap String := [("yarac", rt.version), ("libyara", rt.version)]
  check (rt.version ≠ "" ∧ b.versions.Same versions ∧ main.versions.Same versions ∧
      narrow.versions.Same versions ∧ main.final.compilerVersion = rt.version ∧
      main.final.libraryVersion = rt.version ∧ narrow.final.compilerVersion = rt.version ∧
      narrow.final.libraryVersion = rt.version) "compiler version mismatch"
  check (b.abi.length = 3 ∧ b.abi.get "descriptor_source" =
        ⟨"d71b05039b8dd71e3e472e5f48f6d81e1b86a5602ba214853fe3812b170944f3", 1400⟩ ∧
      (b.abi.get "libyara").sha256 = rt.libYaraSHA256 ∧ (b.abi.get "compiler").sha256 = rt.compilerSHA256 ∧
      rt.libYaraSHA256.utf8ByteSize = 64 ∧ rt.compilerSHA256.utf8ByteSize = 64 ∧
      b.moduleIdentity.Same [("static_libyara", b.abi.get "libyara")]) "linked compiler/library ABI mismatch"
  markerValidateExternals b.externals
  check (main.externals = b.externals ∧ narrow.externals = b.externals) "graph external identity mismatch"
  each markerValidateGraph [main.final.graph, narrow.final.graph]
  check (b.mainInventory = main.final.graph.inventory ∧ b.markerInventory = narrow.final.graph.inventory)
    "binding native inventory mismatch"
  let graph := main.final.graph
  let closure := markerRuleClosure graph
  check (closure.1.map Int.ofNat = b.closureMarkers ∧ closure.2.1.map Int.ofNat = b.closureRetained)
    "marker closure mismatch"
  let selected := (main.validations.filter fun v =>
    v.accepted && (closure.1.isEmpty || closure.2.2.contains v.candidate.nameSpace)).map (·.candidate)
  let order := selected.map (·.nameSpace)
  check (selected = b.sources ∧ order = b.namespaces) "marker source namespace/order mismatch"
  let selectedNS := fun n => order.contains n
  each (fun n => check (selectedNS n = true) "closure namespace missing") closure.2.2
  let projected := project selectedNS graph.inventory
  check (projected.1 = b.markerInventory) "marker projected inventory mismatch"
  check (projectReferences projected.2 graph.references = narrow.final.graph.references)
    "marker projected references mismatch"
  check (main.final.sources.filter (fun s => selectedNS s.nameSpace) = narrow.final.sources ∧
      b.includes = narrow.final.includes ∧ main.final.cwd = narrow.final.cwd ∧ 15 ≤ main.final.argv.length ∧
      15 ≤ narrow.final.argv.length ∧ main.final.argv.take 15 = narrow.final.argv.take 15)
    "marker compiler/include invocation mismatch"
  each (fun p => check (main.inputs.get p.1 = p.2) "marker input identity mismatch") narrow.inputs
  check (b.mainDescriptors.rules.length = b.mainInventory.length) "main descriptor inventory mismatch"
  each (fun p => check (p.1.identity = p.2.identity) "main descriptor identity mismatch")
    (b.mainDescriptors.rules.zip b.mainInventory)
  check ({ rules := b.mainDescriptors.rules.filter fun r => selectedNS r.identity.1
           externals := b.mainDescriptors.externals } = b.markerDescriptors) "marker descriptor projection mismatch"

end MS.Marker
