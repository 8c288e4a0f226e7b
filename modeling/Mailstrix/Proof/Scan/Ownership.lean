import Mailstrix.Impl.Scan.Lifetime

/-!
# Who owns native rules

References to rules, pins and native scanners are tokens.  A token is carried by a task that will give
it back, or it lies in the shared state: the published root is a pin's reference, a pin in use has a
reference to each of its owners, an entry in a pool's `dependencies` has one to the entry's owner.
`Change` says once what a task can do to the state and to the tokens; the counts of `Refs` and the
single destruction of `Life` follow from it.
-/

namespace MS.Native

open Framework

variable {p sc r refs : Nat} {pin : GenerationPin} {s : NativeScanner} {rs : List Nat} {b : Bundle}

/-! ## Tokens -/

inductive Token
  /-- A reference to a pin, to an owner. -/
  | pin (p : Nat)
  | owner (r : Nat)
  /-- The stages of a destruction. -/
  | claim (r : Nat)
  | seize (r : Nat)
  | doom (r : Nat)
  | bury (r : Nat)
  /-- The pool will be retired. -/
  | retire (g : Nat)
  /-- The slot will be emptied; it will be, if the pool is stale. -/
  | swap (k : Slot)
  | guard (k : Slot) (g : Nat)
  /-- The scanner is out of the pool's free list. -/
  | held (g sc : Nat)
  /-- The scanner exists without an entry in `dependencies`. -/
  | built (sc r : Nat)
  | unowned
  /-- `s.mu` is held; and the scanner was open when it was taken. -/
  | mu
  | body
deriving DecidableEq

@[simp] def Task.tokens : Task → List Token
  | .releasePin p => [.pin p]
  | .releaseOwner r => [.owner r]
  | .claimOwner r => [.claim r]
  | .claimRules r => [.seize r]
  | .destroyRules r => [.doom r]
  | .forgetOwner r => [.bury r]
  | .finishOwner r => [.bury r]
  | .checkClosed => [.mu]
  | .loadMain => [.mu, .body]
  | .loadBig r => .mu :: .body :: [r].map .owner
  | .loadMarker r big => .mu :: .body :: (r :: big.toList).map .owner
  | .publishReload b => .mu :: .body :: b.candidates.map .owner
  | .unlockMu => [.mu]
  | .detach => [.mu]
  | .swap k => [.swap k]
  | .retire g => [.retire g]
  | .destroyScanner g sc => [.held g sc]
  | .destroyNative _ none => []
  | .destroyNative sc (some r) => [.built sc r, .owner r]
  | .installCheck k _ g => [.guard k g]
  | .installClear k _ g => [.guard k g]
  | .newScanner r _ owner => if owner = some r then [.owner r] else [.unowned]
  | .register r _ sc owner => if owner = some r then [.built sc r, .owner r] else [.unowned]
  | .put g sc => [.held g sc]
  | _ => []

def Lease.tokens : Option Lease → List Token
  | some ⟨some p, _⟩ => [.pin p]
  | _ => []

/-- The rules that a scan's task goes on to use, by its lease. -/
@[simp] def Task.needs : Task → List Nat
  | .select r => [r]
  | .selectBig r => [r]
  | .install _ r => [r]
  | .installSlot _ r => [r]
  | .installLive _ r _ => [r]
  | .installCas _ r _ => [r]
  | .installCheck _ r _ => [r]
  | .installClear _ r _ => [r]
  | .take r _ => [r]
  | .retainManaged r _ => [r]
  | _ => []

/-- Tokens in hand, besides `n`. -/
@[simp] def plus (ks : List Token) (n : Token → Nat) (x : Token) : Nat := ks.count x + n x

theorem plus_cons_pos (x : Token) (ks : List Token) (n : Token → Nat) : 0 < plus (x :: ks) n x := by
  rw [plus, List.count_cons_self]
  omega

/-! ## What a task can do -/

/-- The owners of a pin are references while it is in use. -/
def GenerationPin.holds (pin : GenerationPin) (r : Nat) : Nat := if pin.refs = 0 then 0 else pin.owners.count r

def NativeScanner.holds (n : NativeScanner) (r : Nat) : Nat :=
  if n.dependency.bind Prod.snd = some r then 1 else 0

namespace State

/-- References to rules from pins in use, from registered scanners. -/
def pinned (c : State) (r : Nat) : Nat := (c.pins.map (·.holds r)).sum

def depended (c : State) (r : Nat) : Nat := (c.natScanners.map (·.holds r)).sum

def withRefs (c : State) (r refs : Nat) : State := c.setRules r { c.natives r with refs := refs }

/-- One more reference to each of `rs`. -/
def retainAll (c : State) (rs : List Nat) : State :=
  { c with natives := fun r => { c.natives r with refs := (c.natives r).refs + if r ∈ rs then 1 else 0 } }

/-- `b` is published; its owners have been retained. -/
def publish (c : State) (b : Bundle) : State :=
  { c.retainAll b.owners with
    pins := c.pins ++ [{ refs := 1, owners := b.owners }]
    generation := some c.pins.length
    rules := some b.rules
    bigRules := b.bigRules
    markerRules := b.markerRules }

end State

/-- What a task does to the state, and to the tokens it carries. -/
inductive Change (c : State) : List Token → State → List Token → Prop
  | idle {ks : List Token} : Change c ks c ks
  | retainPin {p : Nat} {pin : GenerationPin} (hp : c.pins[p]? = some pin) (hr : 0 < pin.refs) :
      Change c [] (c.setPin p { pin with refs := pin.refs + 1 }) [.pin p]
  | releasePin {p : Nat} {pin : GenerationPin} (hp : c.pins[p]? = some pin) (hr : 1 < pin.refs) :
      Change c [.pin p] (c.setPin p { pin with refs := pin.refs - 1 }) []
  | releaseRoot {p : Nat} {pin : GenerationPin} (hp : c.pins[p]? = some pin) (hr : pin.refs = 1) :
      Change c [.pin p] (c.setPin p { pin with refs := pin.refs - 1 }) (pin.owners.map .owner)
  | retainOwner {ks : List Token} {r : Nat} (hr : 0 < (c.natives r).refs) :
      Change c ks (c.withRefs r ((c.natives r).refs + 1)) (.owner r :: ks)
  | releaseOwner {r : Nat} (hr : 1 < (c.natives r).refs) :
      Change c [.owner r] (c.withRefs r ((c.natives r).refs - 1)) []
  | releaseLast {r : Nat} (hr : (c.natives r).refs = 1) :
      Change c [.owner r] (c.withRefs r ((c.natives r).refs - 1)) [.claim r]
  | claimOwner {r : Nat} (h : (c.natives r).destroyClaimed = false) :
      Change c [.claim r] (c.setRules r { c.natives r with destroyClaimed := true, refs := 0 }) [.seize r]
  | claimRules {r : Nat} (h : (c.natives r).claimed = false) :
      Change c [.seize r] (c.setRules r { c.natives r with claimed := true }) [.doom r]
  | destroyRules {r : Nat} :
      Change c [.doom r] (c.setRules r { c.natives r with destroys := (c.natives r).destroys + 1 }) [.bury r]
  | forgetOwner {r : Nat} : Change c [.bury r] (c.setRules r { c.natives r with managed := false }) [.bury r]
  | finishOwner {r : Nat} : Change c [.bury r] (c.setRules r { c.natives r with destroyed := true }) []
  | lock (h : c.mu = false) : Change c [] { c with mu := true } [.mu]
  | unlock : Change c [.mu] { c with mu := false } []
  | enter (h : c.closed = false) : Change c [.mu] c [.mu, .body]
  | abort {rs : List Nat} : Change c (.mu :: .body :: rs.map .owner) c (.mu :: rs.map .owner)
  | load {ks : List Token} :
      Change c ks ({ c with nextRules := c.nextRules + 1 }.setRules c.nextRules { refs := 1, managed := true })
        (.owner c.nextRules :: ks)
  | publish {b : Bundle} (hb : ∀ r ∈ b.owners, 0 < (c.natives r).refs) :
      Change c (.mu :: .body :: b.candidates.map .owner) (c.publish b)
        (.mu :: (c.generation.toList.map .pin ++ b.candidates.map .owner))
  | detach :
      Change c [.mu] c.detach (.mu :: .swap .scanners :: .swap .bigScanners :: c.generation.toList.map .pin)
  | clear {ks : List Token} {k : Slot} {g : Nat} (hg : c.slots k = some g)
      (hks : ks = [] ∨ ks = [.swap k] ∨ ks = [.guard k g]) : Change c ks (c.setSlot k none) [.retire g]
  | swapEmpty {k : Slot} (h : c.slots k = none) : Change c [.swap k] c []
  | unguard {k : Slot} {g : Nat} (h : c.slots k = some g → c.live k ≠ none) : Change c [.guard k g] c []
  | newGen {r : Nat} : Change c [] (c.newGen { rules := r }) []
  | install {k : Slot} {r : Nat} {cur : Option Nat} (h : c.slots k = cur) :
      Change c [] ((c.newGen { rules := r, retired := false }).setSlot k (some c.nextGen))
        (cur.toList.map .retire ++ [.guard k c.nextGen])
  | retire {g : Nat} :
      Change c [.retire g] (c.setGen g { c.gens g with free := [], retired := true })
        ((c.gens g).free.map (.held g))
  | take {g sc : Nat} {free : List Nat} (h : (c.gens g).free = free ++ [sc]) :
      Change c [] (c.setGen g { c.gens g with free := free }) [.held g sc]
  | put {g sc : Nat} (h : (c.gens g).retired = false) :
      Change c [.held g sc] (c.setGen g { c.gens g with free := (c.gens g).free ++ [sc] }) []
  | newScanner {r : Nat} :
      Change c [.owner r] { c with natScanners := c.natScanners ++ [{ rules := r }] }
        [.built c.natScanners.length r, .owner r]
  | register {r g sc : Nat} {n : NativeScanner} (hn : c.natScanners[sc]? = some n) :
      Change c [.built sc r, .owner r] (c.setScanner sc { n with dependency := some (g, some r) }) [.held g sc]
  | unregister {r g sc : Nat} {n : NativeScanner} (hn : c.natScanners[sc]? = some n)
      (hd : n.dependency = some (g, some r)) :
      Change c [.held g sc] (c.setScanner sc { n with dependency := none }) [.built sc r, .owner r]
  | missing {g sc : Nat} (h : ∀ n, c.natScanners[sc]? = some n → ∀ o, n.dependency ≠ some (g, o)) :
      Change c [.held g sc] c []
  | destroyNative {r sc : Nat} {n : NativeScanner} (hn : c.natScanners[sc]? = some n) :
      Change c [.built sc r, .owner r] (c.setScanner sc { n with alive := false }) [.owner r]
  | destroyUnowned {sc : Nat} {n : NativeScanner} (hn : c.natScanners[sc]? = some n) :
      Change c [] (c.setScanner sc { n with alive := false }) []

/-! ## Counts -/

@[simp] theorem count_map_eq_zero {f : Nat → Token} {x : Token} (h : ∀ a, f a ≠ x) (l : List Nat) :
    (l.map f).count x = 0 :=
  List.count_eq_zero.2 fun hx => by
    obtain ⟨a, -, ha⟩ := List.mem_map.1 hx
    exact h a ha

theorem count_map_token {f : Nat → Token} (hf : Function.Injective f) (l : List Nat) (a : Nat) :
    (l.map f).count (f a) = l.count a := List.count_map_of_injective l f hf a

/-- Every reference that was counted is somewhere. -/
structure Refs (c : State) (n : Token → Nat) : Prop where
  pins : ∀ p, c.pinRefs p = (if c.generation = some p then 1 else 0) + n (.pin p)
  owners : ∀ r, (c.natives r).refs = c.pinned r + c.depended r + n (.owner r)

variable {c c' : State} {ks ks' : List Token} {n : Token → Nat}

theorem Refs.congr {n' : Token → Nat} (hi : Refs c n) (hp : c'.pins = c.pins) (hg : c'.generation = c.generation)
    (hr : ∀ r, (c'.natives r).refs = (c.natives r).refs) (hd : ∀ r, c'.depended r = c.depended r)
    (hpin : ∀ p, n' (.pin p) = n (.pin p)) (hown : ∀ r, n' (.owner r) = n (.owner r)) : Refs c' n' := by
  refine ⟨fun p => ?_, fun r => ?_⟩
  · rw [State.pinRefs, hp, hg, hpin]
    exact hi.pins p
  · rw [hr, hd, hown, State.pinned, hp]
    exact hi.owners r

theorem pinRefs_setPin (hp : c.pins[p]? = some pin) (x : GenerationPin) (q : Nat) :
    (c.setPin p x).pinRefs q = if q = p then x.refs else c.pinRefs q := by
  have hlt : p < c.pins.length := (List.getElem?_eq_some_iff.1 hp).1
  unfold State.pinRefs State.setPin
  by_cases hq : q = p
  · subst hq
    simp [hlt]
  · rw [List.getElem?_set_ne (fun h => hq h.symm), if_neg hq]

theorem pinned_setPin (hp : c.pins[p]? = some pin) (x : GenerationPin) (r : Nat) :
    (c.setPin p x).pinned r + pin.holds r = c.pinned r + x.holds r :=
  sum_map_set (fun q : GenerationPin => q.holds r) hp x

theorem depended_setScanner (hs : c.natScanners[sc]? = some s) (x : NativeScanner) (r : Nat) :
    (c.setScanner sc x).depended r + s.holds r = c.depended r + x.holds r :=
  sum_map_set (fun q : NativeScanner => q.holds r) hs x

theorem refs_setRules (r : Nat) (x : Rules) (q : Nat) :
    ((c.setRules r x).natives q).refs = if q = r then x.refs else (c.natives q).refs := by
  by_cases hq : q = r
  · subst hq
    simp [State.setRules]
  · simp [State.setRules, hq]

theorem mem_owners_foldl (acc : List Nat) (r : Nat) :
    r ∈ rs.foldl (fun owners r => if r ∈ owners then owners else owners ++ [r]) acc ↔ r ∈ acc ∨ r ∈ rs := by
  induction rs generalizing acc with
  | nil => simp
  | cons x rs ih =>
    rw [List.foldl_cons, ih]
    split
    case isTrue hx =>
      constructor
      · rintro (h | h)
        · exact .inl h
        · exact .inr (List.mem_cons_of_mem _ h)
      · rintro (h | h)
        · exact .inl h
        · rcases List.mem_cons.1 h with rfl | h
          · exact .inl hx
          · exact .inr h
    case isFalse => simp [or_assoc]

theorem nodup_owners_foldl {acc : List Nat} (h : acc.Nodup) :
    (rs.foldl (fun owners r => if r ∈ owners then owners else owners ++ [r]) acc).Nodup := by
  induction rs generalizing acc with
  | nil => exact h
  | cons x rs ih =>
    rw [List.foldl_cons]
    apply ih
    split
    case isTrue => exact h
    case isFalse hx => exact List.nodup_append_comm.1 (List.nodup_cons.2 ⟨hx, h⟩)

/-- What is published is what the reload holds, each once. -/
theorem mem_owners : r ∈ b.owners ↔ r ∈ b.candidates := by
  rw [Bundle.owners, mem_owners_foldl, List.mem_singleton, Bundle.candidates, List.mem_cons]

theorem count_owners (b : Bundle) (r : Nat) : b.owners.count r = if r ∈ b.owners then 1 else 0 :=
  (nodup_owners_foldl (List.nodup_singleton _)).count

/-! ## One destruction -/

/-- Rules without a reference have been destroyed, or are on the way there, exactly once; the numbers
are those of the tokens for its destruction. -/
structure LifeOf (x : Rules) (born : Prop) [Decidable born] (claim seize doom bury : Nat) : Prop where
  unborn : ¬ born → x = {}
  once : x.destroys + claim + seize + doom = if born ∧ x.refs = 0 then 1 else 0
  claimOnce : x.destroyClaimed = true → claim = 0
  seizeOnce : x.claimed = true → claim = 0 ∧ seize = 0
  used : 0 < x.refs → x.destroyClaimed = false ∧ x.claimed = false ∧ x.managed = true
  buried : 0 < bury → 0 < x.destroys

def Life (c : State) (n : Token → Nat) : Prop :=
  ∀ r, LifeOf (c.natives r) (r < c.nextRules) (n (.claim r)) (n (.seize r)) (n (.doom r)) (n (.bury r))

namespace LifeOf

variable {x : Rules} {born : Prop} [Decidable born] {claim seize doom bury : Nat}

theorem born_of_refs (hi : LifeOf x born claim seize doom bury) (hr : 0 < x.refs) : born := by
  by_contra hb
  rw [hi.unborn hb] at hr
  exact absurd hr (by decide)

/-- Rules that are referenced have not been destroyed, and nothing is about to. -/
theorem intact (hi : LifeOf x born claim seize doom bury) (hr : 0 < x.refs) :
    x.destroys = 0 ∧ claim = 0 ∧ seize = 0 ∧ doom = 0 := by
  have h := hi.once
  rw [if_neg (by omega)] at h
  omega

/-- A token of the destruction is the only one, and there is no reference. -/
theorem alone (hi : LifeOf x born claim seize doom bury) (h : 0 < claim + seize + doom + x.destroys) :
    born ∧ x.refs = 0 ∧ x.destroys + claim + seize + doom = 1 := by
  have h' := hi.once
  by_cases hb : born ∧ x.refs = 0
  · rw [if_pos hb] at h'
    exact ⟨hb.1, hb.2, h'⟩
  · rw [if_neg hb] at h'
    omega

theorem withRefs (hi : LifeOf x born claim seize doom bury) (hr : 0 < x.refs) (hn : 0 < refs) :
    LifeOf { x with refs := refs } born claim seize doom bury where
  unborn hb := absurd (hi.born_of_refs hr) hb
  once := by
    have h := hi.intact hr
    rw [if_neg (fun h => absurd h.2 (Nat.ne_of_gt hn))]
    show x.destroys + _ + _ + _ = 0
    omega
  claimOnce := hi.claimOnce
  seizeOnce := hi.seizeOnce
  used _ := hi.used hr
  buried := hi.buried

theorem release (hi : LifeOf x born claim seize doom bury) (hr : x.refs = 1) :
    LifeOf { x with refs := x.refs - 1 } born (1 + claim) seize doom bury where
  unborn hb := absurd (hi.born_of_refs (by omega)) hb
  once := by
    have h := hi.intact (by omega)
    rw [if_pos ⟨hi.born_of_refs (by omega), show x.refs - 1 = 0 by omega⟩]
    show x.destroys + _ + _ + _ = 1
    omega
  claimOnce h := absurd ((hi.used (by omega)).1.symm.trans h) (by decide)
  seizeOnce h := absurd ((hi.used (by omega)).2.1.symm.trans h) (by decide)
  used h := absurd (show 0 < x.refs - 1 from h) (by omega)
  buried := hi.buried

theorem claimOwner (hi : LifeOf x born (1 + claim) seize doom bury) :
    LifeOf { x with destroyClaimed := true, refs := 0 } born claim (1 + seize) doom bury where
  unborn hb := absurd (hi.alone (by omega)).1 hb
  once := by
    have h := hi.alone (by omega)
    rw [if_pos ⟨h.1, rfl⟩]
    show x.destroys + _ + _ + _ = 1
    omega
  claimOnce _ := by
    have h := hi.alone (by omega)
    omega
  seizeOnce h := absurd (hi.seizeOnce h).1 (by omega)
  used h := absurd h (Nat.lt_irrefl 0)
  buried := hi.buried

theorem claimRules (hi : LifeOf x born claim (1 + seize) doom bury) :
    LifeOf { x with claimed := true } born claim seize (1 + doom) bury where
  unborn hb := absurd (hi.alone (by omega)).1 hb
  once := by
    have h := hi.alone (by omega)
    rw [if_pos ⟨h.1, h.2.1⟩]
    show x.destroys + _ + _ + _ = 1
    omega
  claimOnce := hi.claimOnce
  seizeOnce _ := by
    have h := hi.alone (by omega)
    omega
  used h := absurd (hi.alone (by omega)).2.1 (Nat.ne_of_gt h)
  buried := hi.buried

theorem destroyRules (hi : LifeOf x born claim seize (1 + doom) bury) :
    LifeOf { x with destroys := x.destroys + 1 } born claim seize doom (1 + bury) where
  unborn hb := absurd (hi.alone (by omega)).1 hb
  once := by
    have h := hi.alone (by omega)
    rw [if_pos ⟨h.1, h.2.1⟩]
    show x.destroys + 1 + _ + _ + _ = 1
    omega
  claimOnce := hi.claimOnce
  seizeOnce := hi.seizeOnce
  used := hi.used
  buried _ := Nat.succ_pos _

/-- What the owner and the observer note about rules that were destroyed. -/
theorem noteDestroyed (hi : LifeOf x born claim seize doom (1 + bury)) (managed destroyed : Bool) :
    LifeOf { x with managed := managed, destroyed := destroyed } born claim seize doom (1 + bury) where
  unborn hb := by
    have hd := hi.buried (by omega)
    exact absurd (hi.alone (by omega)).1 hb
  once := hi.once
  claimOnce := hi.claimOnce
  seizeOnce := hi.seizeOnce
  used h := by
    have hd := hi.buried (by omega)
    exact absurd (hi.alone (by omega)).2.1 (Nat.ne_of_gt h)
  buried := hi.buried

theorem fewer (hi : LifeOf x born claim seize doom (1 + bury)) : LifeOf x born claim seize doom bury :=
  ⟨hi.unborn, hi.once, hi.claimOnce, hi.seizeOnce, hi.used, fun _ => hi.buried (by omega)⟩

end LifeOf

theorem Life.congr {n' : Token → Nat} (hi : Life c n) (hr : c'.natives = c.natives)
    (hx : c'.nextRules = c.nextRules) (hc : ∀ r, n' (.claim r) = n (.claim r))
    (hs : ∀ r, n' (.seize r) = n (.seize r)) (hd : ∀ r, n' (.doom r) = n (.doom r))
    (hb : ∀ r, n' (.bury r) = n (.bury r)) : Life c' n' := by
  intro r
  simp only [hr, hx, hc, hs, hd, hb]
  exact hi r

/-- Only the rules `r` are touched, and only tokens about them. -/
theorem Life.setRules {x : Rules} (hi : Life c (plus ks n))
    (hks : ∀ q, q ≠ r → ∀ k ∈ [Token.claim q, .seize q, .doom q, .bury q], plus ks' n k = plus ks n k)
    (hr : LifeOf x (r < c.nextRules) (plus ks' n (.claim r)) (plus ks' n (.seize r)) (plus ks' n (.doom r))
      (plus ks' n (.bury r))) : Life (c.setRules r x) (plus ks' n) := by
  intro q
  by_cases hq : q = r
  · subst hq
    simpa only [State.setRules, Function.update_self] using hr
  · have hold := hi q
    simp only [State.setRules, Function.update_of_ne hq]
    rw [hks q hq (.claim q) (by simp), hks q hq (.seize q) (by simp), hks q hq (.doom q) (by simp),
      hks q hq (.bury q) (by simp)]
    exact hold

theorem life_load (hi : Life c (plus ks n)) :
    Life ({ c with nextRules := c.nextRules + 1 }.setRules c.nextRules { refs := 1, managed := true })
      (plus (.owner c.nextRules :: ks) n) := by
  have hsame : ∀ k, k ≠ Token.owner c.nextRules → plus (.owner c.nextRules :: ks) n k = plus ks n k := by
    intro k hk
    simp [List.count_cons_of_ne hk.symm]
  intro q
  rw [hsame (.claim q) nofun, hsame (.seize q) nofun, hsame (.doom q) nofun, hsame (.bury q) nofun]
  have hold := hi q
  by_cases hq : q = c.nextRules
  · subst hq
    have hnone := hold.once
    have hbury := hold.buried
    rw [hold.unborn (Nat.lt_irrefl _), if_neg (by simp)] at hnone
    rw [hold.unborn (Nat.lt_irrefl _)] at hbury
    simp only [State.setRules, Function.update_self]
    constructor
    case unborn => exact fun h => absurd (Nat.lt_succ_self _) h
    case once =>
      rw [if_neg (by simp)]
      exact hnone
    case claimOnce => exact nofun
    case seizeOnce => exact nofun
    case used => exact fun _ => ⟨rfl, rfl, rfl⟩
    case buried => exact hbury
  · simp only [State.setRules, Function.update_of_ne hq]
    have hlt : q < c.nextRules + 1 ↔ q < c.nextRules := by omega
    simp only [hlt]
    exact hold

theorem life_publish (hb : ∀ r ∈ b.owners, 0 < (c.natives r).refs) (hi : Life c n) : Life (c.publish b) n := by
  intro r
  have hold := hi r
  by_cases hr : r ∈ b.owners
  · have hnew := hold.withRefs (hb r hr) (Nat.succ_pos (c.natives r).refs)
    simpa only [State.publish, State.retainAll, if_pos hr] using hnew
  · simpa only [State.publish, State.retainAll, if_neg hr, Nat.add_zero] using hold

/-- A change of one object's references, none of them the last. -/
theorem life_withRefs (hr : 0 < (c.natives r).refs) (hn : 0 < refs)
    (hks : ∀ q, ∀ k ∈ [Token.claim q, .seize q, .doom q, .bury q], plus ks' n k = plus ks n k) (hi : Life c (plus ks n)) :
    Life (c.withRefs r refs) (plus ks' n) := by
  refine hi.setRules (fun q _ => hks q) ?_
  rw [hks r (.claim r) (by simp), hks r (.seize r) (by simp), hks r (.doom r) (by simp),
    hks r (.bury r) (by simp)]
  exact (hi r).withRefs hr hn

theorem life_change (h : Change c ks c' ks') (hi : Life c (plus ks n)) : Life c' (plus ks' n) := by
  cases h with
  | idle => exact hi
  | @retainOwner _ r hr => exact life_withRefs hr (Nat.succ_pos _) (by simp) hi
  | @releaseOwner r hr => exact life_withRefs (by omega) (by omega) (by simp) hi
  | @releaseLast r hr =>
    refine hi.setRules (by simp +contextual [plus, eq_comm]) ?_
    have hold := hi r
    simp only [plus] at hold ⊢
    simpa using hold.release hr
  | @claimOwner r h =>
    refine hi.setRules (by simp +contextual [plus, eq_comm]) ?_
    have hold := hi r
    simp only [plus] at hold ⊢
    simpa using LifeOf.claimOwner (by simpa using hold)
  | @claimRules r h =>
    refine hi.setRules (by simp +contextual [plus, eq_comm]) ?_
    have hold := hi r
    simp only [plus] at hold ⊢
    simpa using LifeOf.claimRules (by simpa using hold)
  | @destroyRules r =>
    refine hi.setRules (by simp +contextual [plus, eq_comm]) ?_
    have hold := hi r
    simp only [plus] at hold ⊢
    simpa using LifeOf.destroyRules (by simpa using hold)
  | @forgetOwner r =>
    refine hi.setRules (by simp +contextual [plus, eq_comm]) ?_
    have hold := hi r
    simp only [plus] at hold ⊢
    simpa using LifeOf.noteDestroyed (by simpa using hold) false (c.natives r).destroyed
  | @finishOwner r =>
    refine hi.setRules (by simp +contextual [plus, eq_comm]) ?_
    have hold := hi r
    simp only [plus] at hold ⊢
    simpa using (LifeOf.noteDestroyed (by simpa using hold) (c.natives r).managed true).fewer
  | load => exact life_load hi
  | publish hb =>
    refine (life_publish hb hi).congr rfl rfl ?_ ?_ ?_ ?_ <;> simp
  | clear hg hks =>
    refine hi.congr rfl rfl ?_ ?_ ?_ ?_ <;> rcases hks with rfl | rfl | rfl <;> simp
  | _ => refine hi.congr rfl rfl ?_ ?_ ?_ ?_ <;> simp

/-! ## Native scanners -/

/-- What is known of one scanner: an entry in a pool's `dependencies` is its rules' owner's, and the
scanner is then in that pool or in a scan's hands; without an entry it is dead or its task has the
reference. -/
structure ScannerOf (c : State) (n : Token → Nat) (sc : Nat) (s : NativeScanner) : Prop where
  owned : ∀ g o, s.dependency = some (g, o) → o = some s.rules
  located : ∀ g o, s.dependency = some (g, o) → sc ∈ (c.gens g).free ∨ 0 < n (.held g sc)
  alive : s.alive = true → s.dependency = none → 0 < n (.built sc s.rules)

structure Scanners (c : State) (n : Token → Nat) : Prop where
  scanner : ∀ sc s, c.natScanners[sc]? = some s → ScannerOf c n sc s
  built : ∀ sc r, 0 < n (.built sc r) →
    n (.built sc r) = 1 ∧ ∃ s, c.natScanners[sc]? = some s ∧ s.rules = r ∧ s.dependency = none
  unowned : n .unowned = 0

theorem Scanners.congr {n' : Token → Nat} (hi : Scanners c n) (hs : c'.natScanners = c.natScanners)
    (hg : ∀ g sc, sc ∈ (c.gens g).free ∨ 0 < n (.held g sc) → sc ∈ (c'.gens g).free ∨ 0 < n' (.held g sc))
    (hb : ∀ sc r, n' (.built sc r) = n (.built sc r)) (hu : n' .unowned = n .unowned) : Scanners c' n' := by
  refine ⟨fun sc s h => ?_, fun sc r h => ?_, hu.trans hi.unowned⟩
  · rw [hs] at h
    have hold := hi.scanner sc s h
    exact ⟨hold.owned, fun g o hd => hg g sc (hold.located g o hd), fun ha hd => by rw [hb]; exact hold.alive ha hd⟩
  · rw [hb] at h ⊢
    rw [hs]
    exact hi.built sc r h

theorem Scanners.frame {n' : Token → Nat} (hi : Scanners c n) (hs : c'.natScanners = c.natScanners)
    (hg : c'.gens = c.gens) (hh : ∀ g sc, n' (.held g sc) = n (.held g sc))
    (hb : ∀ sc r, n' (.built sc r) = n (.built sc r)) (hu : n' .unowned = n .unowned) : Scanners c' n' :=
  hi.congr hs (fun g sc h => by rw [hg, hh]; exact h) hb hu

/-- Only scanner `sc` is touched, and only tokens about it. -/
theorem Scanners.setScanner {x : NativeScanner} (hi : Scanners c (plus ks n)) (hn : c.natScanners[sc]? = some s)
    (hh : ∀ q g, q ≠ sc → plus ks' n (.held g q) = plus ks n (.held g q))
    (hb : ∀ q r, q ≠ sc → plus ks' n (.built q r) = plus ks n (.built q r))
    (hu : plus ks' n .unowned = plus ks n .unowned) (hx : ScannerOf c (plus ks' n) sc x)
    (hbx : ∀ r, 0 < plus ks' n (.built sc r) → plus ks' n (.built sc r) = 1 ∧ x.rules = r ∧ x.dependency = none) :
    Scanners (c.setScanner sc x) (plus ks' n) := by
  have hlt : sc < c.natScanners.length := (List.getElem?_eq_some_iff.1 hn).1
  have hself : (c.setScanner sc x).natScanners[sc]? = some x := by simp [State.setScanner, hlt]
  have hother : ∀ q, q ≠ sc → (c.setScanner sc x).natScanners[q]? = c.natScanners[q]? := fun q hq =>
    List.getElem?_set_ne fun h => hq h.symm
  refine ⟨fun q y h => ?_, fun q r h => ?_, hu.trans hi.unowned⟩
  · by_cases hq : q = sc
    · subst hq
      cases hself.symm.trans h
      exact ⟨hx.owned, hx.located, hx.alive⟩
    · rw [hother q hq] at h
      have hold := hi.scanner q y h
      refine ⟨hold.owned, fun g o hd => ?_, fun ha hd => ?_⟩
      · rw [hh q g hq]
        exact hold.located g o hd
      · rw [hb q _ hq]
        exact hold.alive ha hd
  · by_cases hq : q = sc
    · subst hq
      obtain ⟨h1, h2, h3⟩ := hbx r h
      exact ⟨h1, x, hself, h2, h3⟩
    · rw [hb q r hq] at h ⊢
      rw [hother q hq]
      exact hi.built q r h

/-- A pool's free list is replaced, each scanner it loses is in hand. -/
theorem Scanners.setGen {g : Nat} {x : ScannerGen} (hi : Scanners c (plus ks n))
    (hh : ∀ q sc, q ≠ g → plus ks n (.held q sc) ≤ plus ks' n (.held q sc))
    (hg : ∀ sc, sc ∈ (c.gens g).free ∨ 0 < plus ks n (.held g sc) → sc ∈ x.free ∨ 0 < plus ks' n (.held g sc))
    (hb : ∀ sc r, plus ks' n (.built sc r) = plus ks n (.built sc r))
    (hu : plus ks' n .unowned = plus ks n .unowned) : Scanners (c.setGen g x) (plus ks' n) := by
  refine hi.congr rfl (fun q sc h => ?_) hb hu
  by_cases hq : q = g
  · subst hq
    simpa only [State.setGen, Function.update_self] using hg sc h
  · simp only [State.setGen, Function.update_of_ne hq]
    exact h.imp_right fun h => Nat.lt_of_lt_of_le h (hh q sc hq)

/-- While a task has the reference of a scanner without an entry, it is the scanner's only one. -/
theorem Scanners.sole (hi : Scanners c (plus (.built sc r :: ks) n)) (hn : c.natScanners[sc]? = some s) :
    s.rules = r ∧ s.dependency = none ∧ ∀ q, plus ks n (.built sc q) = 0 := by
  obtain ⟨h1, s', hs', hr, hd⟩ := hi.built sc r (plus_cons_pos ..)
  cases hn.symm.trans hs'
  refine ⟨hr, hd, fun q => ?_⟩
  by_cases hq : q = r
  · subst hq
    simp only [plus, List.count_cons_self] at h1 ⊢
    omega
  · by_contra hpos
    have hcount : plus (.built sc r :: ks) n (.built sc q) = plus ks n (.built sc q) := by
      simp [Ne.symm hq]
    obtain ⟨-, s', hs', hr', -⟩ := hi.built sc q (by omega)
    cases hn.symm.trans hs'
    exact hq (hr'.symm.trans hr)

theorem scanners_newScanner (hi : Scanners c (plus [.owner r] n)) :
    Scanners { c with natScanners := c.natScanners ++ [{ rules := r }] }
      (plus [.built c.natScanners.length r, .owner r] n) := by
  have hold : ∀ q x, q < c.natScanners.length →
      plus [.built c.natScanners.length r, .owner r] n (.built q x) = plus [.owner r] n (.built q x) := by
    intro q x hq
    simp [Nat.ne_of_gt hq]
  have hnew : ∀ x, n (.built c.natScanners.length x) = 0 := by
    intro x
    by_contra hpos
    obtain ⟨-, s, hs, -⟩ := hi.built c.natScanners.length x (by simp; omega)
    simp at hs
  refine ⟨fun q y h => ?_, fun q x h => ?_, ?_⟩
  · by_cases hq : q < c.natScanners.length
    · rw [List.getElem?_append_left hq] at h
      have hs := hi.scanner q y h
      refine ⟨hs.owned, fun g o hd => ?_, fun ha hd => ?_⟩
      · simpa using hs.located g o hd
      · rw [hold q _ hq]
        exact hs.alive ha hd
    · have hlen := (List.getElem?_eq_some_iff.1 h).1
      simp only [List.length_append, List.length_singleton] at hlen
      obtain rfl : q = c.natScanners.length := by omega
      rw [List.getElem?_concat_length] at h
      cases h
      exact ⟨nofun, nofun, fun _ _ => plus_cons_pos ..⟩
  · by_cases hq : q < c.natScanners.length
    · rw [hold q x hq] at h ⊢
      obtain ⟨h1, s, hs, h2⟩ := hi.built q x h
      exact ⟨h1, s, (List.getElem?_append_left hq).trans hs, h2⟩
    · have hqn : q = c.natScanners.length := by
        by_contra hne
        obtain ⟨-, s, hs, -⟩ := hi.built q x (by simpa [Ne.symm hne] using h)
        exact hq (List.getElem?_eq_some_iff.1 hs).1
      subst hqn
      have hx : x = r := by
        by_contra hne
        simp [Ne.symm hne, hnew x] at h
      subst hx
      exact ⟨by simp [hnew], _, List.getElem?_concat_length, rfl, rfl⟩
  · simpa using hi.unowned

theorem scanners_newGen {x : ScannerGen} (hfree : (c.gens c.nextGen).free = []) (hi : Scanners c (plus [] n)) :
    Scanners (c.setGen c.nextGen x) (plus [] n) := by
  refine hi.setGen (fun q sc _ => Nat.le_refl _) (fun sc h => ?_) (fun sc q => rfl) rfl
  rw [hfree] at h
  exact .inr (h.resolve_left List.not_mem_nil)

theorem scanners_change (h : Change c ks c' ks') (hfree : (c.gens c.nextGen).free = [])
    (hi : Scanners c (plus ks n)) : Scanners c' (plus ks' n) := by
  cases h with
  | idle => exact hi
  | newGen => exact (scanners_newGen hfree hi).frame rfl rfl (fun _ _ => rfl) (fun _ _ => rfl) rfl
  | install h => refine (scanners_newGen hfree hi).frame rfl rfl ?_ ?_ ?_ <;> simp
  | @retire g =>
    refine hi.setGen (fun q sc hq => ?_) (fun sc h => ?_) (fun sc q => ?_) ?_
    · simp
    · right
      rcases h with h | h
      · have hpos := List.count_pos_iff.2 h
        simp only [plus, count_map_token (f := Token.held g) (fun a b h => by cases h; rfl)]
        omega
      · simp only [plus, List.count_cons, List.count_nil] at h ⊢
        simp at h
        omega
    · simp
    · simp
  | @take g sc free hf =>
    refine hi.setGen (fun q x _ => ?_) (fun x h => ?_) (fun x q => ?_) ?_
    · simp
    · rw [hf] at h
      by_cases hx : x = sc
      · subst hx
        exact .inr (plus_cons_pos ..)
      · simpa [hx, Ne.symm hx] using h
    · simp
    · simp
  | @put g sc hr =>
    refine hi.setGen (fun q x hq => ?_) (fun x h => ?_) (fun x q => ?_) ?_
    · simp [Ne.symm hq]
    · by_cases hx : x = sc
      · subst hx
        simp
      · simpa [hx, Ne.symm hx] using h
    · simp
    · simp
  | newScanner => exact scanners_newScanner hi
  | @register r g sc s hn =>
    obtain ⟨hr, hd, hsole⟩ := hi.sole hn
    have hnone : ∀ q, plus [.held g sc] n (.built sc q) = 0 := by simpa using hsole
    refine hi.setScanner hn (fun q x hq => ?_) (fun q x hq => ?_) ?_ ⟨?_, ?_, nofun⟩ (fun q h => ?_)
    · simp [Ne.symm hq]
    · simp [Ne.symm hq]
    · simp
    · rintro g' o ⟨⟩
      rw [hr]
    · rintro g' o ⟨⟩
      exact .inr (plus_cons_pos ..)
    · exact absurd (hnone q) (Nat.ne_of_gt h)
  | @unregister r g sc s hn hd =>
    have hs := hi.scanner sc s hn
    have hr : r = s.rules := Option.some.inj (hs.owned g (some r) hd)
    have hnone : ∀ q, n (.built sc q) = 0 := by
      intro q
      by_contra hpos
      obtain ⟨-, s', hs', -, hd'⟩ := hi.built sc q (by simp; omega)
      cases hn.symm.trans hs'
      rw [hd] at hd'
      cases hd'
    refine hi.setScanner hn (fun q x hq => ?_) (fun q x hq => ?_) ?_ ⟨nofun, nofun, fun _ _ => ?_⟩ (fun q h => ?_)
    · simp [Ne.symm hq]
    · simp [Ne.symm hq]
    · simp
    · rw [hr]
      exact plus_cons_pos ..
    · have hq : q = r := by
        by_contra hne
        simp [Ne.symm hne, hnone q] at h
      subst hq
      exact ⟨by simp [hnone], hr.symm, rfl⟩
  | @missing g sc hm =>
    refine ⟨fun q s hs => ?_, fun q r h => ?_, ?_⟩
    · have hold := hi.scanner q s hs
      refine ⟨hold.owned, fun g' o hd => ?_, fun ha hd => ?_⟩
      · by_cases hq : q = sc ∧ g' = g
        · obtain ⟨rfl, rfl⟩ := hq
          exact absurd hd (hm s hs o)
        · refine (hold.located g' o hd).imp_right fun h => ?_
          have hne : ¬ (g = g' ∧ sc = q) := fun h => hq ⟨h.2.symm, h.1.symm⟩
          simpa [List.count_cons, hne] using h
      · simpa using hold.alive ha hd
    · have h' : 0 < plus [.held g sc] n (.built q r) := by simpa using h
      simpa using hi.built q r h'
    · simpa using hi.unowned
  | @destroyNative r sc s hn =>
    obtain ⟨hr, hd, hsole⟩ := hi.sole hn
    refine hi.setScanner hn (fun q x hq => ?_) (fun q x hq => ?_) ?_ ⟨?_, ?_, nofun⟩ (fun q h => ?_)
    · simp
    · simp [Ne.symm hq]
    · simp
    · exact fun g o h => absurd (hd.symm.trans h) nofun
    · exact fun g o h => absurd (hd.symm.trans h) nofun
    · exact absurd (hsole q) (Nat.ne_of_gt h)
  | @destroyUnowned sc s hn =>
    have hold := hi.scanner sc s hn
    refine hi.setScanner hn (fun q x hq => rfl) (fun q x hq => rfl) rfl ⟨hold.owned, hold.located, nofun⟩
      (fun q h => ?_)
    obtain ⟨h1, s', hs', h2, h3⟩ := hi.built sc q h
    cases hn.symm.trans hs'
    exact ⟨h1, h2, h3⟩
  | clear hg hks =>
    refine hi.frame rfl rfl ?_ ?_ ?_ <;> rcases hks with rfl | rfl | rfl <;> simp
  | _ => refine hi.frame rfl rfl ?_ ?_ ?_ <;> simp

/-! ## Balance -/

/-- The pin `p` and the tokens for it are replaced. -/
theorem Refs.setPin {x : GenerationPin} (hi : Refs c (plus ks n)) (hp : c.pins[p]? = some pin)
    (hx : x.refs + plus ks n (.pin p) = pin.refs + plus ks' n (.pin p))
    (hpin : ∀ q, q ≠ p → plus ks' n (.pin q) = plus ks n (.pin q))
    (hown : ∀ r, x.holds r + plus ks' n (.owner r) = pin.holds r + plus ks n (.owner r)) :
    Refs (c.setPin p x) (plus ks' n) := by
  refine ⟨fun q => ?_, fun r => ?_⟩
  · rw [pinRefs_setPin hp]
    have hold := hi.pins q
    by_cases hq : q = p
    · subst hq
      rw [if_pos rfl]
      have hq : c.pinRefs q = pin.refs := by rw [State.pinRefs, hp]
      show x.refs = (if c.generation = some q then 1 else 0) + _
      omega
    · rw [if_neg hq, hpin q hq]
      exact hold
  · have hsum := pinned_setPin hp x r
    have hold := hi.owners r
    have htok := hown r
    show (c.natives r).refs = (c.setPin p x).pinned r + c.depended r + _
    omega

theorem Refs.withRefs (hi : Refs c (plus ks n))
    (hr : refs + plus ks n (.owner r) = (c.natives r).refs + plus ks' n (.owner r))
    (hpin : ∀ p, plus ks' n (.pin p) = plus ks n (.pin p))
    (hown : ∀ q, q ≠ r → plus ks' n (.owner q) = plus ks n (.owner q)) : Refs (c.withRefs r refs) (plus ks' n) := by
  refine ⟨fun p => ?_, fun q => ?_⟩
  · rw [hpin]
    exact hi.pins p
  · rw [State.withRefs, refs_setRules]
    have hold := hi.owners q
    show _ = c.pinned q + c.depended q + _
    by_cases hq : q = r
    · subst hq
      rw [if_pos rfl]
      show refs = _
      omega
    · rw [if_neg hq, hown q hq]
      exact hold

/-- What is noted about rules besides their references. -/
theorem Refs.note {x : Rules} {n' : Token → Nat} (hi : Refs c n) (hx : x.refs = (c.natives r).refs)
    (hpin : ∀ p, n' (.pin p) = n (.pin p)) (hown : ∀ q, n' (.owner q) = n (.owner q)) : Refs (c.setRules r x) n' := by
  refine hi.congr rfl rfl (fun q => ?_) (fun _ => rfl) hpin hown
  rw [refs_setRules]
  split
  case isTrue hq => rw [hx, hq]
  case isFalse => rfl

theorem Refs.setScanner {x : NativeScanner} (hi : Refs c (plus ks n)) (hs : c.natScanners[sc]? = some s)
    (hpin : ∀ p, plus ks' n (.pin p) = plus ks n (.pin p))
    (hown : ∀ r, x.holds r + plus ks' n (.owner r) = s.holds r + plus ks n (.owner r)) :
    Refs (c.setScanner sc x) (plus ks' n) := by
  refine ⟨fun p => ?_, fun r => ?_⟩
  · rw [hpin]
    exact hi.pins p
  · have hsum := depended_setScanner hs x r
    have hold := hi.owners r
    have htok := hown r
    show (c.natives r).refs = c.pinned r + (c.setScanner sc x).depended r + _
    omega

theorem refs_load (hi : Refs c (plus ks n)) (hun : c.natives c.nextRules = {}) :
    Refs ({ c with nextRules := c.nextRules + 1 }.setRules c.nextRules { refs := 1, managed := true })
      (plus (.owner c.nextRules :: ks) n) := by
  refine ⟨fun p => ?_, fun r => ?_⟩
  · have hsame : plus (.owner c.nextRules :: ks) n (.pin p) = plus ks n (.pin p) := by simp
    rw [hsame]
    exact hi.pins p
  · have hold := hi.owners r
    rw [refs_setRules]
    show _ = c.pinned r + c.depended r + _
    by_cases hr : r = c.nextRules
    · subst hr
      rw [hun] at hold
      simp only [plus, List.count_cons_self, if_pos] at hold ⊢
      omega
    · have hsame : plus (.owner c.nextRules :: ks) n (.owner r) = plus ks n (.owner r) := by
        simp [Ne.symm hr]
      rw [if_neg hr, hsame]
      exact hold

/-- The root's reference, once it is taken out of the state. -/
theorem count_root (c : State) (p : Nat) :
    (c.generation.toList.map Token.pin).count (.pin p) = if c.generation = some p then 1 else 0 := by
  cases hg : c.generation with
  | none => rfl
  | some q =>
    by_cases hq : q = p
    · simp [hq]
    · simp [hq]

theorem refs_publish (hi : Refs c (plus (.mu :: .body :: rs.map .owner) n)) :
    Refs (c.publish b) (plus (.mu :: (c.generation.toList.map .pin ++ rs.map .owner)) n) := by
  have hnew : n (.pin c.pins.length) = 0 := by
    have hold := hi.pins c.pins.length
    have hout : c.pinRefs c.pins.length = 0 := by simp [State.pinRefs]
    simp only [plus] at hold
    omega
  refine ⟨fun p => ?_, fun r => ?_⟩
  · have hold := hi.pins p
    have hplus : plus (.mu :: (c.generation.toList.map .pin ++ rs.map .owner)) n (.pin p) =
        (if c.generation = some p then 1 else 0) + n (.pin p) := by
      rw [← count_root]
      simp
    have holdn : plus (.mu :: .body :: rs.map .owner) n (.pin p) = n (.pin p) := by
      simp
    rw [hplus]
    rw [holdn] at hold
    rw [State.pinRefs, show (c.publish b).pins = c.pins ++ [{ refs := 1, owners := b.owners }] from rfl,
      show (c.publish b).generation = some c.pins.length from rfl]
    rcases Nat.lt_trichotomy p c.pins.length with hp | rfl | hp
    · rw [List.getElem?_append_left hp, if_neg (by simp; omega), Nat.zero_add, ← hold]
      rfl
    · have hout : c.pinRefs c.pins.length = 0 := by simp [State.pinRefs]
      rw [List.getElem?_concat_length, if_pos rfl]
      simp only
      omega
    · have hout : c.pinRefs p = 0 := by
        rw [State.pinRefs, List.getElem?_eq_none (by omega)]
      rw [List.getElem?_eq_none (by simp; omega), if_neg (by simp; omega)]
      simp only
      omega
  · have hold := hi.owners r
    have hsame : plus (.mu :: (c.generation.toList.map .pin ++ rs.map .owner)) n (.owner r) =
        plus (.mu :: .body :: rs.map .owner) n (.owner r) := by
      simp
    have hpinned : (c.publish b).pinned r = c.pinned r + b.owners.count r := by
      simp [State.pinned, State.publish, State.retainAll, GenerationPin.holds]
    rw [hpinned, hsame, count_owners]
    show (c.natives r).refs + _ = _ + c.depended r + _
    omega

theorem refs_change (h : Change c ks c' ks') (hl : Life c (plus ks n)) (hs : Scanners c (plus ks n))
    (hi : Refs c (plus ks n)) : Refs c' (plus ks' n) := by
  cases h with
  | idle => exact hi
  | @retainPin p pin hp hr =>
    refine hi.setPin hp ?_ (fun q hq => ?_) (fun r => ?_)
    · simp
      omega
    · simp [Ne.symm hq]
    · simp [GenerationPin.holds, Nat.ne_of_gt hr]
  | @releasePin p pin hp hr =>
    refine hi.setPin hp ?_ (fun q hq => ?_) (fun r => ?_)
    · simp
      omega
    · simp [Ne.symm hq]
    · simp [GenerationPin.holds, show pin.refs ≠ 0 by omega, show pin.refs - 1 ≠ 0 by omega]
  | @releaseRoot p pin hp hr =>
    refine hi.setPin hp ?_ (fun q hq => ?_) (fun r => ?_)
    · simp [hr]
    · simp [Ne.symm hq]
    · simp [GenerationPin.holds, hr, count_map_token (f := Token.owner) (fun a b h => by cases h; rfl)]
  | @retainOwner _ r hr =>
    refine hi.withRefs ?_ (fun p => ?_) (fun q hq => ?_)
    · simp only [plus, List.count_cons_self]
      omega
    · simp
    · simp [Ne.symm hq]
  | @releaseOwner r hr =>
    refine hi.withRefs ?_ (fun p => ?_) (fun q hq => ?_)
    · simp
      omega
    · simp
    · simp [Ne.symm hq]
  | @releaseLast r hr =>
    refine hi.withRefs ?_ (fun p => ?_) (fun q hq => ?_)
    · simp [hr]
    · simp
    · simp [Ne.symm hq]
  | @claimOwner r h =>
    have hzero : (c.natives r).refs = 0 := ((hl r).alone (by have := plus_cons_pos (.claim r) [] n; omega)).2.1
    exact hi.note hzero.symm (by simp) (by simp)
  | claimRules => exact hi.note rfl (by simp) (by simp)
  | destroyRules => exact hi.note rfl (by simp) (by simp)
  | forgetOwner => exact hi.note rfl (by simp) (by simp)
  | finishOwner => exact hi.note rfl (by simp) (by simp)
  | load => exact refs_load hi ((hl _).unborn (Nat.lt_irrefl _))
  | publish hb => exact refs_publish hi
  | detach =>
    refine ⟨fun p => ?_, fun r => ?_⟩
    · have hold := hi.pins p
      have hroot := count_root c p
      show c.pinRefs p = 0 + _
      simp only [plus, List.count_cons] at hold ⊢
      rw [hroot]
      simpa using hold
    · have hsame : plus (.mu :: .swap .scanners :: .swap .bigScanners :: c.generation.toList.map .pin) n (.owner r) =
          plus [.mu] n (.owner r) := by
        simp
      rw [hsame]
      exact hi.owners r
  | newScanner =>
    refine hi.congr rfl rfl (fun q => rfl) (fun q => ?_) (by simp) (by simp)
    simp [State.depended, NativeScanner.holds]
  | @register r g sc s hn =>
    obtain ⟨-, hd, -⟩ := hs.sole hn
    refine hi.setScanner hn (by simp) (fun q => ?_)
    simp [NativeScanner.holds, hd, List.count_cons]
  | @unregister r g sc s hn hd =>
    refine hi.setScanner hn (by simp) (fun q => ?_)
    simp [NativeScanner.holds, hd, List.count_cons]
  | destroyNative hn => exact hi.setScanner hn (by simp) (fun q => by simp [NativeScanner.holds])
  | destroyUnowned hn => exact hi.setScanner hn (by simp) (fun q => by simp [NativeScanner.holds])
  | clear hg hks =>
    refine hi.congr rfl rfl (fun _ => rfl) (fun _ => rfl) ?_ ?_ <;> rcases hks with rfl | rfl | rfl <;> simp
  | _ => refine hi.congr rfl rfl (fun _ => rfl) (fun _ => rfl) ?_ ?_ <;> simp

end MS.Native
