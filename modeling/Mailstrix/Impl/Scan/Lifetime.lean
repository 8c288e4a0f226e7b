import Mailstrix.Framework.Pool
import Mailstrix.Framework.Run

/-!
# The lifetime of native rules

`generation.go`, `rule_generations.go` and the scanner pools, `reloadLockedCacheDeny` and `Close` of
`scanner.go`.  Goroutines are threads with a stack of tasks.  A task is what runs between two points
where another goroutine can interfere: one critical section, one atomic load, store or
compare-and-swap, or one native call.

Rules, pins, pools and native scanners are identified by number, in the order in which they are made.
The `nativeRulesOwner` of a `yara.Rules` object and the observer's record of its identity are kept
with the object.
-/

namespace MS.Native

open Framework

def maxPooledScanners : Nat := 6

/-- A `yara.Rules` object, its owner and what the observer knows of it. -/
structure Rules where
  refs : Nat := 0
  destroyClaimed : Bool := false
  destroyed : Bool := false
  /-- `ruleGenerationState.claimed` -/
  claimed : Bool := false
  /-- The observer's `managed` names an owner. -/
  managed : Bool := false
  /-- How often `Destroy` was called on the native object. -/
  destroys : Nat := 0

structure GenerationPin where
  refs : Nat
  owners : List Nat

/-- `scannerGen`; a pool that does not exist yet reads as an empty retired one. -/
structure ScannerGen where
  rules : Nat := 0
  free : List Nat := []
  retired : Bool := true

/-- A native scanner, and the pool and owner of its entry in that pool's `dependencies`. -/
structure NativeScanner where
  rules : Nat
  dependency : Option (Nat × Option Nat) := none
  alive : Bool := true

/-- The two fields that hold a pool. -/
inductive Slot
  | scanners
  | bigScanners
deriving DecidableEq

/-- What `Scanner`, the observer and the heap hold. -/
structure State where
  natives : Nat → Rules := fun _ => {}
  nextRules : Nat := 0
  pins : List GenerationPin := []
  generation : Option Nat := none
  rules : Option Nat := none
  bigRules : Option Nat := none
  markerRules : Option Nat := none
  slots : Slot → Option Nat := fun _ => none
  gens : Nat → ScannerGen := fun _ => {}
  nextGen : Nat := 0
  natScanners : List NativeScanner := []
  /-- `s.mu` is held. -/
  mu : Bool := false
  closed : Bool := false
  panicked : Bool := false

/-- `reloadBundle`, as far as it names rules. -/
structure Bundle where
  rules : Nat
  bigRules : Option Nat := none
  markerRules : Option Nat := none

/-- The rules a reload holds a temporary reference to. -/
def Bundle.candidates (b : Bundle) : List Nat := b.rules :: (b.bigRules.toList ++ b.markerRules.toList)

/-- The rules a published bundle is made of, each once. -/
def Bundle.owners (b : Bundle) : List Nat :=
  (b.bigRules.toList ++ b.markerRules.toList).foldl
    (fun owners r => if r ∈ owners then owners else owners ++ [r]) [b.rules]

inductive Task
  /-- `generationPin.release` -/
  | releasePin (p : Nat)
  /-- `nativeRulesOwner.release` -/
  | releaseOwner (r : Nat)
  /-- `nativeRulesOwner.destroy`: its first critical section, the observer's two with the native call
  between them, and its last. -/
  | claimOwner (r : Nat)
  | claimRules (r : Nat)
  | destroyRules (r : Nat)
  | forgetOwner (r : Nat)
  | finishOwner (r : Nat)
  /-- `reloadLockedCacheDeny` -/
  | lockReload
  | checkClosed
  | loadMain
  | loadBig (rules : Nat)
  | loadMarker (rules : Nat) (bigRules : Option Nat)
  | publishReload (b : Bundle)
  | unlockMu
  /-- `Close` -/
  | lockClose
  | detach
  | swap (k : Slot)
  /-- `retireStale` -/
  | staleLoad (k : Slot)
  | staleCheck (k : Slot) (g : Nat)
  | staleCas (k : Slot) (g : Nat)
  /-- `scannerGen.retire` -/
  | retire (g : Nat)
  /-- `scannerGen.destroyScanner`, and the native call with the owner it then releases. -/
  | destroyScanner (g sc : Nat)
  | destroyNative (sc : Nat) (owner : Option Nat)
  /-- `getScanner` -/
  | select (r : Nat)
  | selectBig (r : Nat)
  /-- `installGen` -/
  | install (k : Option Slot) (r : Nat)
  | installSlot (k : Slot) (r : Nat)
  | installLive (k : Slot) (r : Nat) (cur : Option Nat)
  | installCas (k : Slot) (r : Nat) (cur : Option Nat)
  | installCheck (k : Slot) (r g : Nat)
  | installClear (k : Slot) (r g : Nat)
  /-- The rest of `getScanner`: from the pool's free list, or a new scanner. -/
  | take (r g : Nat)
  | retainManaged (r g : Nat)
  | newScanner (r g : Nat) (owner : Option Nat)
  | register (r g sc : Nat) (owner : Option Nat)
  /-- The scan has the scanner and will `putScanner` it. -/
  | put (g sc : Nat)

/-- How a call into code outside goes: it succeeds, it has nothing to load, or it fails. -/
inductive Outcome
  | ok
  | absent
  | failed
deriving DecidableEq

/-! ## Critical sections -/

namespace State

def panic (c : State) : State := { c with panicked := true }

def setRules (c : State) (r : Nat) (x : Rules) : State := { c with natives := Function.update c.natives r x }

def setPin (c : State) (p : Nat) (x : GenerationPin) : State := { c with pins := c.pins.set p x }

def setSlot (c : State) (k : Slot) (g : Option Nat) : State := { c with slots := Function.update c.slots k g }

def setGen (c : State) (g : Nat) (x : ScannerGen) : State := { c with gens := Function.update c.gens g x }

def setScanner (c : State) (sc : Nat) (x : NativeScanner) : State :=
  { c with natScanners := c.natScanners.set sc x }

/-- A new pool; its number is `c.nextGen`. -/
def newGen (c : State) (x : ScannerGen) : State := { c.setGen c.nextGen x with nextGen := c.nextGen + 1 }

/-- The field of `Scanner` that the slot's pool has to agree with. -/
def live (c : State) : Slot → Option Nat
  | .scanners => c.rules
  | .bigScanners => c.bigRules

/-- The rules that the fields of `Scanner` publish. -/
def published (c : State) : List Nat := c.rules.toList ++ (c.bigRules.toList ++ c.markerRules.toList)

def pinRefs (c : State) (p : Nat) : Nat := match c.pins[p]? with
  | some pin => pin.refs
  | none => 0

/-- `generationPin.retain` -/
def retainPin (c : State) (p : Nat) : State := match c.pins[p]? with
  | none => c.panic
  | some pin => if pin.refs = 0 then c.panic else c.setPin p { pin with refs := pin.refs + 1 }

def releasePin (c : State) (p : Nat) : State × List Task := match c.pins[p]? with
  | none => (c.panic, [])
  | some pin =>
    if pin.refs = 0 then (c.panic, [])
    else (c.setPin p { pin with refs := pin.refs - 1 },
      if pin.refs = 1 then pin.owners.map .releaseOwner else [])

/-- `nativeRulesOwner.retain` -/
def retainOwner (c : State) (r : Nat) : State :=
  if (c.natives r).refs = 0 then c.panic
  else c.setRules r { c.natives r with refs := (c.natives r).refs + 1 }

def releaseOwner (c : State) (r : Nat) : State × List Task :=
  if (c.natives r).refs = 0 then (c.panic, [])
  else (c.setRules r { c.natives r with refs := (c.natives r).refs - 1 },
    if (c.natives r).refs = 1 then [.claimOwner r] else [])

def claimOwner (c : State) (r : Nat) : State × List Task :=
  if (c.natives r).destroyClaimed then (c, [])
  else (c.setRules r { c.natives r with destroyClaimed := true, refs := 0 }, [.claimRules r])

/-- The observer's first critical section; every adopted identity is in its `live`. -/
def claimRules (c : State) (r : Nat) : State × List Task :=
  if (c.natives r).claimed then (c, [.finishOwner r])
  else (c.setRules r { c.natives r with claimed := true }, [.destroyRules r])

/-- `ruleGenerationObserver.adopt` -/
def adopt (c : State) (r : Nat) : State :=
  if (c.natives r).claimed then c.panic
  else if (c.natives r).managed then c.retainOwner r
  else c.setRules r
    { c.natives r with refs := 1, destroyClaimed := false, destroyed := false, managed := true }

/-- `ruleGenerationObserver.retainManaged` -/
def retainManaged (c : State) (r : Nat) : State × Option Nat :=
  if (c.natives r).claimed then (c.panic, none)
  else if (c.natives r).managed then (c.retainOwner r, some r)
  else (c, none)

/-- New rules are loaded and adopted; their number is `c.nextRules`. -/
def load (c : State) : State := { c with nextRules := c.nextRules + 1 }.adopt c.nextRules

/-- `publishReload` -/
def publishReload (c : State) (b : Bundle) : State :=
  let c' := b.owners.foldl adopt c
  { c' with
    pins := c'.pins ++ [{ refs := 1, owners := b.owners }]
    generation := some c'.pins.length
    rules := some b.rules
    bigRules := b.bigRules
    markerRules := b.markerRules }

/-- The critical section of `Close`. -/
def detach (c : State) : State :=
  { c with generation := none, closed := true, rules := none, bigRules := none, markerRules := none }

/-- A slot is emptied and the pool that was in it retired. -/
def swap (c : State) (k : Slot) : State × List Task := match c.slots k with
  | none => (c, [])
  | some g => (c.setSlot k none, [.retire g])

/-- The compare-and-swap of a pool for nothing. -/
def clearSlot (c : State) (k : Slot) (g : Nat) : State × List Task :=
  if c.slots k = some g then (c.setSlot k none, [.retire g]) else (c, [])

def retire (c : State) (g : Nat) : State × List Task :=
  (c.setGen g { c.gens g with free := [], retired := true }, (c.gens g).free.map (.destroyScanner g))

def destroyScanner (c : State) (g sc : Nat) : State × List Task := match c.natScanners[sc]? with
  | none => (c, [])
  | some n => match n.dependency with
    | none => (c, [.destroyNative sc none])
    | some (g', owner) =>
      if g' = g then (c.setScanner sc { n with dependency := none }, [.destroyNative sc owner])
      else (c, [.destroyNative sc none])

def destroyNative (c : State) (sc : Nat) : State := match c.natScanners[sc]? with
  | none => c
  | some n => c.setScanner sc { n with alive := false }

def register (c : State) (g sc : Nat) (owner : Option Nat) : State := match c.natScanners[sc]? with
  | none => c
  | some n => c.setScanner sc { n with dependency := some (g, owner) }

/-- The compare-and-swap of `installGen`. -/
def installCas (c : State) (k : Slot) (r : Nat) (cur : Option Nat) : State × List Task :=
  if c.slots k = cur then
    ((c.newGen { rules := r, retired := false }).setSlot k (some c.nextGen),
      cur.toList.map .retire ++ [.installCheck k r c.nextGen])
  else (c, [.install (some k) r])

/-- `scannerGen.get` -/
def take (c : State) (r g : Nat) : State × List Task := match (c.gens g).free.getLast? with
  | none => (c, [.retainManaged r g])
  | some sc => (c.setGen g { c.gens g with free := (c.gens g).free.dropLast }, [.put g sc])

/-- `scannerGen.put` -/
def put (c : State) (g sc : Nat) : State × List Task :=
  if (c.gens g).retired ∨ maxPooledScanners ≤ (c.gens g).free.length then (c, [.destroyScanner g sc])
  else (c.setGen g { c.gens g with free := (c.gens g).free ++ [sc] }, [])

end State

/-- What the deferred function of a reload still does: `retired` is the root that was replaced. -/
def deferred (retired : Option Nat) (candidates : List Nat) : List Task :=
  .unlockMu :: ((match retired with
    | none => []
    | some p => [.staleLoad .scanners, .staleLoad .bigScanners, .releasePin p]) ++ candidates.map .releaseOwner)

/-! ## One task -/

/-- A task, and what is left to do after it; `none` while it waits for `s.mu`. -/
def turn (c : State) (o : Outcome) : Task → Option (State × List Task)
  | .releasePin p => some (c.releasePin p)
  | .releaseOwner r => some (c.releaseOwner r)
  | .claimOwner r => some (c.claimOwner r)
  | .claimRules r => some (c.claimRules r)
  | .destroyRules r =>
    some (c.setRules r { c.natives r with destroys := (c.natives r).destroys + 1 }, [.forgetOwner r])
  | .forgetOwner r => some (c.setRules r { c.natives r with managed := false }, [.finishOwner r])
  | .finishOwner r => some (c.setRules r { c.natives r with destroyed := true }, [])
  | .lockReload => if c.mu then none else some ({ c with mu := true }, [.checkClosed])
  | .checkClosed => some (c, if c.closed then deferred none [] else [.loadMain])
  | .loadMain => match o with
    | .ok => some (c.load, [.loadBig c.nextRules])
    | _ => some (c, deferred none [])
  -- Without a new bundle the published one is retained, if there is one.
  | .loadBig r => match o with
    | .ok => some (c.load, [.loadMarker r (some c.nextRules)])
    | .absent => match c.bigRules with
      | none => some (c, [.loadMarker r none])
      | some big => some (c.adopt big, [.loadMarker r (some big)])
    | .failed => some (c, deferred none [r])
  | .loadMarker r big => match o with
    | .ok => some (c.load, [.publishReload { rules := r, bigRules := big, markerRules := some c.nextRules }])
    | .absent => some (c, [.publishReload { rules := r, bigRules := big }])
    | .failed => some (c, deferred none (r :: big.toList))
  -- An operator's callback may panic before the publication.
  | .publishReload b => match o with
    | .failed => some (c, deferred none b.candidates)
    | _ => some (c.publishReload b, deferred c.generation b.candidates)
  | .unlockMu => some ({ c with mu := false }, [])
  | .lockClose => if c.mu then none else some ({ c with mu := true }, [.detach])
  | .detach =>
    some (c.detach, [.unlockMu, .swap .scanners, .swap .bigScanners] ++ c.generation.toList.map .releasePin)
  | .swap k => some (c.swap k)
  | .staleLoad k => some (c, (c.slots k).toList.map (.staleCheck k))
  | .staleCheck k g => some (c, if c.live k = some (c.gens g).rules then [] else [.staleCas k g])
  | .staleCas k g => some (c.clearSlot k g)
  | .retire g => some (c.retire g)
  | .destroyScanner g sc => some (c.destroyScanner g sc)
  | .destroyNative sc owner => some (c.destroyNative sc, owner.toList.map .releaseOwner)
  | .select r =>
    some (c, if c.rules = some r then
      [.staleLoad .scanners, .staleLoad .bigScanners, .install (some .scanners) r] else [.selectBig r])
  | .selectBig r =>
    some (c, [.staleLoad .scanners, .staleLoad .bigScanners,
      .install (if c.bigRules = some r then some .bigScanners else none) r])
  | .install none r => some (c.newGen { rules := r }, [.take r c.nextGen])
  | .install (some k) r =>
    if c.live k = some r then some (c, [.installSlot k r])
    else some (c.newGen { rules := r }, [.take r c.nextGen])
  | .installSlot k r =>
    some (c, match c.slots k with
      | none => [.installLive k r none]
      | some g => if (c.gens g).rules = r then [.take r g] else [.installLive k r (some g)])
  | .installLive k r cur =>
    some (c, if c.live k = some r then [.installCas k r cur] else [.install (some k) r])
  | .installCas k r cur => some (c.installCas k r cur)
  | .installCheck k r g =>
    some (c, if c.live k = some r then [.take r g] else [.installClear k r g])
  | .installClear k r g => some ((c.clearSlot k g).1, (c.clearSlot k g).2 ++ [.take r g])
  | .take r g => some (c.take r g)
  | .retainManaged r g => some ((c.retainManaged r).1, [.newScanner r g (c.retainManaged r).2])
  | .newScanner r g owner => match o with
    | .ok => some ({ c with natScanners := c.natScanners ++ [{ rules := r }] },
        [.register r g c.natScanners.length owner])
    | _ => some (c, owner.toList.map .releaseOwner)
  | .register _ g sc owner => some (c.register g sc owner, [.put g sc])
  | .put g sc => some (c.put g sc)

/-! ## The system -/

/-- A lease of an open scanner: the pin it retained and the rules it was given. -/
structure Lease where
  pin : Option Nat
  rules : List Nat

/-- The shared state, and every goroutine there has been with the lease it holds. -/
structure World where
  core : State := {}
  threads : List (Thread (Option Lease) Task) := []

inductive Event
  | acquire
  /-- The holder of a lease scans with native scanners of some of its rules. -/
  | scan (i r : Nat)
  | release (i : Nat)
  | reload
  | close
  /-- Thread `i` runs its next task. -/
  | run (i : Nat) (o : Outcome)

def World.setThread (w : World) (i : Nat) (t : Thread (Option Lease) Task) : World :=
  { w with threads := w.threads.set i t }

def World.spawn (w : World) (t : Thread (Option Lease) Task) : World := { w with threads := w.threads ++ [t] }

/-- `acquireScanLease`; a closed scanner's lease holds nothing. -/
def World.acquire (w : World) : World :=
  if w.core.closed then w
  else match w.core.generation with
    | none => w.spawn { held := some { pin := none, rules := w.core.published } }
    | some p =>
      { w with core := w.core.retainPin p }.spawn { held := some { pin := some p, rules := w.core.published } }

/-- One event; `none` where it cannot happen.  The model ends at the first panic. -/
def World.exec (w : World) (e : Event) : Option World :=
  if w.core.panicked then none
  else match e with
    | .acquire => some w.acquire
    | .scan i r => match w.threads[i]? with
      | some ⟨some l, []⟩ => if r ∈ l.rules then some (w.setThread i ⟨some l, [.select r]⟩) else none
      | _ => none
    | .release i => match w.threads[i]? with
      | some ⟨some l, []⟩ => some (w.setThread i ⟨none, l.pin.toList.map .releasePin⟩)
      | _ => none
    | .reload => some (w.spawn ⟨none, [.lockReload]⟩)
    | .close => some (w.spawn ⟨none, [.lockClose]⟩)
    | .run i o => match w.threads[i]? with
      | some ⟨l, t :: rest⟩ => match turn w.core o t with
        | some (c, ts) => some { core := c, threads := w.threads.set i ⟨l, ts ++ rest⟩ }
        | none => none
      | _ => none

def lifetimeSystem : System World Event where
  init w := w = {}
  step w e w' := w.exec e = some w'

end MS.Native
