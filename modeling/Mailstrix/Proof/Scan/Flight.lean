import Mailstrix.Impl.Scan.Flight

/-!
# Coalesced scans

A flight is led, its scan function ends, its end is published and its channel closed, in this order
and by one caller: `life` reads that off a history.  `Inv` ties the state to it, and
`coalescing_sound` says what callers can rely on in every interleaving.
-/

namespace MS.Coalesce

open Framework

variable {K O : Type}

variable {i f : Nat} {fl : Flight O}
variable {pc p q : Pc O} {l j : Nat} {r : Ending O}

/-! ## The life of a flight -/

inductive Life (O : Type)
  | unborn
  | running (l : Nat)
  | ended (l : Nat) (r : Ending O)
  | published (l : Nat) (r : Ending O)
  | closed (l : Nat) (r : Ending O)

/-- What an event means for flight `f`. -/
def Life.next (f : Nat) (x : Life O) (e : FlightEvent O) : Life O :=
  match e, x with
  | .led l f', x => if f' = f then .running l else x
  | .ran i f' r, .running l => if f' = f ∧ i = l then .ended l r else .running l
  | .published i f', .ended l r => if f' = f ∧ i = l then .published l r else .ended l r
  | .closed i f', .published l r => if f' = f ∧ i = l then .closed l r else .published l r
  | _, x => x

/-- The life of flight `f`, read off a history. -/
def life (es : List (FlightEvent O)) (f : Nat) : Life O := es.foldl (Life.next f) .unborn

theorem life_snoc (es : List (FlightEvent O)) (e : FlightEvent O) (f : Nat) :
    life (es ++ [e]) f = (life es f).next f e := by
  rw [life, List.foldl_append]
  rfl

def Life.leader : Life O → Option Nat
  | .unborn => none
  | .running l => some l
  | .ended l _ => some l
  | .published l _ => some l
  | .closed l _ => some l

/-- Whether the flight can still be joined. -/
def Life.isOpen : Life O → Bool
  | .running _ => true
  | .ended _ _ => true
  | _ => false

/-- How the scan function ended. -/
def Life.ending : Life O → Option (Ending O)
  | .ended _ r => some r
  | .published _ r => some r
  | .closed _ r => some r
  | _ => none

def Life.isClosed : Life O → Bool
  | .closed _ _ => true
  | _ => false

/-- A life tells of its leader and of how the leader's scan function ended. -/
theorem life_told (es : List (FlightEvent O)) (f : Nat) : (∀ l, (life es f).leader = some l → .led l f ∈ es) ∧
    ∀ l r, (life es f).leader = some l → (life es f).ending = some r → .ran l f r ∈ es := by
  induction es using List.reverseRecOn with
  | nil => exact ⟨fun l hl => (nomatch hl), fun l r hl => (nomatch hl)⟩
  | append_singleton es e ih =>
    rw [life_snoc]
    simp only [List.mem_append, List.mem_singleton]
    cases e <;> cases hx : life es f <;> simp only [hx, Life.next] at ih ⊢ <;> grind [Life.leader, Life.ending]

/-- What the flight holds at each point of its life. -/
def Life.Record (zero : O) (flight : Option (Flight O)) : Life O → Prop
  | .unborn => flight = none
  | .running _ => ∃ fl, flight = some fl ∧ fl.done = false
  | .ended _ r => ∃ fl, flight = some fl ∧ fl.done = false ∧ fl.outcome = r.outcome zero
  | .published _ r => ∃ fl, flight = some fl ∧ fl.done = false ∧ fl.outcome = r.outcome zero ∧ fl.aborted = r.isAborted
  | .closed _ r => ∃ fl, flight = some fl ∧ fl.done = true ∧ fl.outcome = r.outcome zero ∧ fl.aborted = r.isAborted

/-- The flight that a caller leads, and where its life is. -/
def Pc.lead (i : Nat) : Pc O → Option (Nat × Life O)
  | .leading f => some (f, .running i)
  | .publishing f r => some (f, .ended i r)
  | .closing f r => some (f, .published i r)
  | _ => none

theorem Pc.lead_leader {x : Life O} (h : pc.lead i = some (f, x)) : x.leader = some i := by
  cases pc <;> cases h <;> rfl

theorem Pc.lead_alive {x : Life O} (h : pc.lead i = some (f, x)) : x.isClosed = false := by
  cases pc <;> cases h <;> rfl

/-- How the state follows from the lives of the flights. -/
structure Inv (zero : O) (key : Nat → K) (es : List (FlightEvent O)) (s : Group K O) : Prop where
  fresh : ∀ f, s.next ≤ f → s.flights f = none
  record : ∀ f, (life es f).Record zero (s.flights f)
  own : ∀ i f x, (s.pc i).lead i = some (f, x) → life es f = x
  owner : ∀ f l, (life es f).leader = some l → (life es f).isClosed = false → (s.pc l).lead l = some (f, life es f)
  woken : ∀ i f, s.pc i = .woken f → (life es f).isClosed = true
  map : ∀ k f, s.m k = some f ↔ (life es f).isOpen = true ∧ ∃ l, (life es f).leader = some l ∧ key l = k
  newest : ∀ k f, s.m k = some f → ∀ f' l, (life es f').leader = some l → key l = k → f' ≤ f

/-- What the steps of followers leave alone. -/
structure Quiet (s s' : Group K O) : Prop where
  m : s'.m = s.m
  next : s'.next = s.next
  unmade : ∀ f, s.flights f = none → s'.flights f = none
  kept : ∀ f fl, s.flights f = some fl → ∃ fl', s'.flights f = some fl' ∧ fl'.done = fl.done ∧
    fl'.outcome = fl.outcome ∧ fl'.aborted = fl.aborted
  lead : ∀ i, (s'.pc i).lead i = (s.pc i).lead i
  woken : ∀ i f, s'.pc i = .woken f → s.pc i = .woken f ∨ ∃ fl, s.flights f = some fl ∧ fl.done = true

section

variable {zero : O} {key : Nat → K} {es : List (FlightEvent O)} {s s' : Group K O} {e : FlightEvent O}

/-- Only a closed flight has a closed channel. -/
theorem Life.Record.closed {x : Life O} (h : x.Record zero (some fl)) (hdone : fl.done = true) :
    x.isClosed = true := by
  cases x with
  | closed => rfl
  | unborn => cases h
  | running l =>
    obtain ⟨fl', hfl, hd⟩ := h
    cases hfl
    rw [hdone] at hd
    cases hd
  | ended l r | published l r =>
    obtain ⟨fl', hfl, hd, -⟩ := h
    cases hfl
    rw [hdone] at hd
    cases hd

theorem Life.Record.kept {x : Life O} {a b : Option (Flight O)} (h : x.Record zero a) (hnone : a = none → b = none)
    (hsome : ∀ fl, a = some fl → ∃ fl', b = some fl' ∧ fl'.done = fl.done ∧ fl'.outcome = fl.outcome ∧
      fl'.aborted = fl.aborted) : x.Record zero b := by
  cases x with
  | unborn => exact hnone h
  | running l =>
    obtain ⟨fl, hfl, hdone⟩ := h
    obtain ⟨fl', hfl', hd, -⟩ := hsome fl hfl
    exact ⟨fl', hfl', hd.trans hdone⟩
  | ended l r =>
    obtain ⟨fl, hfl, hdone, ho⟩ := h
    obtain ⟨fl', hfl', hd, ho', -⟩ := hsome fl hfl
    exact ⟨fl', hfl', hd.trans hdone, ho'.trans ho⟩
  | published l r | closed l r =>
    obtain ⟨fl, hfl, hdone, ho, ha⟩ := h
    obtain ⟨fl', hfl', hd, ho', ha'⟩ := hsome fl hfl
    exact ⟨fl', hfl', hd.trans hdone, ho'.trans ho, ha'.trans ha⟩

/-- A flight that was made has a leader. -/
theorem Inv.made (h : Inv zero key es s) {f : Nat} (hl : (life es f).leader = some l) : f < s.next := by
  by_contra hf
  have hrec := h.record f
  rw [h.fresh f (Nat.not_lt.1 hf)] at hrec
  cases hx : life es f with
  | unborn =>
    rw [hx] at hl
    cases hl
  | running | ended | published | closed =>
    rw [hx] at hrec
    obtain ⟨fl, hfl, -⟩ := hrec
    cases hfl

/-! ## Steps of followers -/

theorem Inv.quiet (h : Inv zero key es s) (hq : Quiet s s') (hlife : ∀ f x, Life.next f x e = x) :
    Inv zero key (es ++ [e]) s' := by
  have hsame : ∀ f, life (es ++ [e]) f = life es f := fun f => (life_snoc es e f).trans (hlife f _)
  refine ⟨fun f hf => hq.unmade f (h.fresh f (hq.next ▸ hf)), fun f => ?_, fun i f x hi => ?_, fun f l => ?_,
    fun i f hi => ?_, ?_, ?_⟩
  · rw [hsame]
    exact (h.record f).kept (hq.unmade f) (hq.kept f)
  · rw [hsame]
    exact h.own i f x (hq.lead i ▸ hi)
  · rw [hsame, hq.lead]
    exact h.owner f l
  · rw [hsame]
    rcases hq.woken i f hi with hw | ⟨fl, hfl, hdone⟩
    · exact h.woken i f hw
    · exact (hfl ▸ h.record f).closed hdone
  · simp only [hsame, hq.m]
    exact h.map
  · simp only [hsame, hq.m]
    exact h.newest

/-- A caller that leads nothing moves to where it leads nothing. -/
theorem quiet_move {i : Nat} (hi : s.pc i = q) (hq : q.lead i = none) (hp : p.lead i = none)
    (hw : ∀ f, p = .woken f → ∃ fl, s.flights f = some fl ∧ fl.done = true) : Quiet s (s.move i p) where
  m := rfl
  next := rfl
  unmade _ hf := hf
  kept _ fl hfl := ⟨fl, hfl, rfl, rfl, rfl⟩
  lead j := by
    by_cases hj : j = i
    · subst hj
      rw [hi, hq, Group.move_pc, hp]
    · rw [Group.move_pc_ne _ _ hj]
  woken j f hj := by
    by_cases hji : j = i
    · subst hji
      rw [Group.move_pc] at hj
      exact .inr (hw f hj)
    · rw [Group.move_pc_ne _ _ hji] at hj
      exact .inl hj

/-- A flight is stored with another count. -/
theorem Quiet.set (h : Quiet s s') {f : Nat} {fl fl' : Flight O} (hfl : s'.flights f = some fl)
    (hd : fl'.done = fl.done) (ho : fl'.outcome = fl.outcome) (ha : fl'.aborted = fl.aborted) :
    Quiet s (s'.set f fl') where
  m := h.m
  next := h.next
  unmade f' hf' := by
    have hne : f' ≠ f := by
      rintro rfl
      rw [h.unmade f' hf'] at hfl
      cases hfl
    rw [Group.set_flights_ne _ _ hne]
    exact h.unmade f' hf'
  kept f' g hg := by
    obtain ⟨g', hg', hd', ho', ha'⟩ := h.kept f' g hg
    by_cases hf : f' = f
    · subst hf
      rw [hfl] at hg'
      cases hg'
      exact ⟨fl', Group.set_flights .., hd.trans hd', ho.trans ho', ha.trans ha'⟩
    · exact ⟨g', (Group.set_flights_ne _ _ hf).trans hg', hd', ho', ha'⟩
  lead := h.lead
  woken := h.woken

theorem Quiet.refl (s : Group K O) : Quiet s s where
  m := rfl
  next := rfl
  unmade _ hf := hf
  kept _ fl hfl := ⟨fl, hfl, rfl, rfl, rfl⟩
  lead _ := rfl
  woken _ _ hw := .inl hw

/-! ## Steps of leaders -/

/-- Caller `i` takes its flight `f` to `x`; nothing else changes. -/
structure Leads (zero : O) (key : Nat → K) (es : List (FlightEvent O)) (s : Group K O) (e : FlightEvent O)
    (s' : Group K O) (i f : Nat) (x : Life O) : Prop where
  next : s.next ≤ s'.next ∧ f < s'.next
  mine : (life es f).next f e = x ∧ x.leader = some i
  other : ∀ f' ≠ f, ∀ y : Life O, y.next f' e = y
  record : x.Record zero (s'.flights f)
  flights : ∀ f' ≠ f, s'.flights f' = s.flights f'
  pc : ∀ j ≠ i, s'.pc j = s.pc j
  before : ∀ f' y, (s.pc i).lead i = some (f', y) → f' = f
  after : (s'.pc i).lead i = if x.isClosed then none else some (f, x)
  awake : ∀ f', s'.pc i ≠ .woken f'
  alive : (life es f).isClosed = false
  born : (life es f).leader = some i ∨ life es f = .unborn ∧ s.m (key i) = none
  latest : x.isOpen = true → ∀ f' l, (life es f').leader = some l → key l = key i → f' ≤ f
  map : ∀ k f', s'.m k = some f' ↔ f' ≠ f ∧ s.m k = some f' ∨ f' = f ∧ x.isOpen = true ∧ key i = k

theorem Inv.leads (h : Inv zero key es s) {x : Life O} (hl : Leads zero key es s e s' i f x) :
    Inv zero key (es ++ [e]) s' := by
  have hx : life (es ++ [e]) f = x := (life_snoc es e f).trans hl.mine.1
  have hother : ∀ f' ≠ f, life (es ++ [e]) f' = life es f' := fun f' hf =>
    (life_snoc es e f').trans (hl.other f' hf _)
  refine ⟨fun f' hf' => ?_, fun f' => ?_, fun j f' y hj => ?_, fun f' l hlead hopen => ?_, fun j f' hj => ?_,
    fun k f' => ?_, fun k f' hk f'' l hlead hkey => ?_⟩
  · have hne : f' ≠ f := by
      have := hl.next.2
      omega
    rw [hl.flights f' hne]
    exact h.fresh f' (hl.next.1.trans hf')
  · by_cases hf : f' = f
    · subst hf
      rw [hx]
      exact hl.record
    · rw [hother f' hf, hl.flights f' hf]
      exact h.record f'
  · by_cases hji : j = i
    · subst hji
      rw [hl.after] at hj
      split_ifs at hj
      cases hj
      exact hx
    · rw [hl.pc j hji] at hj
      have hold := h.own j f' y hj
      -- another caller leads another flight
      have hne : f' ≠ f := by
        rintro rfl
        have hlead := Pc.lead_leader hj
        rcases hl.born with hb | ⟨hb, -⟩ <;> rw [hold] at hb
        · exact hji (Option.some.inj (hlead.symm.trans hb))
        · rw [hb] at hlead
          cases hlead
      rw [hother f' hne, hold]
  · by_cases hf : f' = f
    · subst hf
      rw [hx] at hlead hopen ⊢
      cases hl.mine.2.symm.trans hlead
      rw [hl.after, if_neg (by simp [hopen])]
    · rw [hother f' hf] at hlead hopen ⊢
      have hold := h.owner f' l hlead hopen
      have hli : l ≠ i := by
        rintro rfl
        exact hf (hl.before _ _ hold)
      rw [hl.pc l hli]
      exact hold
  · have hji : j ≠ i := by
      rintro rfl
      exact hl.awake f' hj
    rw [hl.pc j hji] at hj
    have hclosed := h.woken j f' hj
    have hf : f' ≠ f := by
      rintro rfl
      rw [hl.alive] at hclosed
      cases hclosed
    rwa [hother f' hf]
  · rw [hl.map]
    by_cases hf : f' = f
    · subst hf
      rw [hx, hl.mine.2]
      simp
    · rw [hother f' hf, h.map]
      simp [hf]
  · by_cases hf : f'' = f
    · subst hf
      rw [hx, hl.mine.2] at hlead
      cases hlead
      rcases (hl.map k f').1 hk with ⟨-, hold⟩ | ⟨rfl, -⟩
      · rcases hl.born with hb | ⟨-, hnone⟩
        · exact h.newest k f' hold f'' i hb hkey
        · rw [← hkey, hnone] at hold
          cases hold
      · exact Nat.le_refl _
    · rw [hother f'' hf] at hlead
      rcases (hl.map k f').1 hk with ⟨-, hold⟩ | ⟨rfl, hopen, hik⟩
      · exact h.newest k f' hold f'' l hlead hkey
      · exact hl.latest hopen f'' l hlead (hkey.trans hik.symm)

theorem Inv.unborn_next (h : Inv zero key es s) : life es s.next = .unborn := by
  cases hx : life es s.next with
  | unborn => rfl
  | running l | ended l | published l | closed l =>
    have hmade := h.made (f := s.next) (l := l) (by rw [hx]; rfl)
    omega

/-- A caller takes the key. -/
theorem leads_lead [DecidableEq K] (h : Inv zero key es s) {i : Nat} (hpc : s.pc i = .enter) (hm : s.m (key i) = none) :
    Leads zero key es s (.led i s.next)
      { (s.move i (.leading s.next)).set s.next { outcome := zero } with
        m := Function.update s.m (key i) (some s.next), next := s.next + 1 } i s.next (.running i) where
  next := ⟨Nat.le_succ _, Nat.lt_succ_self _⟩
  mine := ⟨if_pos rfl, rfl⟩
  other f' hf' y := if_neg (Ne.symm hf')
  record := ⟨_, Group.set_flights .., rfl⟩
  flights f' hf' := Group.set_flights_ne _ _ hf'
  pc j hj := Group.move_pc_ne _ _ hj
  before f' y hy := by
    rw [hpc] at hy
    cases hy
  after := by
    simp only [Group.set_pc, Group.move_pc]
    rfl
  awake f' hf' := by
    simp only [Group.set_pc, Group.move_pc] at hf'
    cases hf'
  alive := by
    rw [h.unborn_next]
    rfl
  born := .inr ⟨h.unborn_next, hm⟩
  latest _ f' l hl _ := (h.made hl).le
  map k f' := by
    by_cases hk : k = key i
    · subst hk
      simp only [Function.update_self, hm, Option.some.injEq, reduceCtorEq, and_false, false_or]
      exact ⟨fun he => ⟨he.symm, rfl, trivial⟩, fun he => he.1.symm⟩
    · have hne : s.m k = some f' → f' ≠ s.next := by
        rintro hs rfl
        obtain ⟨-, l, hl, -⟩ := (h.map k s.next).1 hs
        rw [h.unborn_next] at hl
        cases hl
      simp only [Function.update_of_ne hk]
      exact ⟨fun hs => .inl ⟨hne hs, hs⟩, fun hs => hs.elim And.right fun ⟨_, _, he⟩ => absurd he.symm hk⟩

theorem Inv.map_own (h : Inv zero key es s) {x : Life O} (hx : life es f = x) (hl : x.leader = some i) (k : K) :
    s.m k = some f ↔ x.isOpen = true ∧ key i = k := by
  rw [h.map, hx, hl]
  simp

/-- A leader takes its flight one step on. -/
theorem leads_own (h : Inv zero key es s) {x x' : Life O} (hown : (s.pc i).lead i = some (f, x))
    (hnext : x.next f e = x' ∧ ∀ f' ≠ f, ∀ y : Life O, y.next f' e = y) (hx' : x'.leader = some i)
    (hopen : x'.isOpen = true → x.isOpen = true) (hrec : x'.Record zero (s'.flights f))
    (hsame : s'.next = s.next ∧ (∀ f' ≠ f, s'.flights f' = s.flights f') ∧ ∀ j ≠ i, s'.pc j = s.pc j)
    (hafter : (s'.pc i).lead i = if x'.isClosed then none else some (f, x')) (hawake : ∀ f', s'.pc i ≠ .woken f')
    (hmap : ∀ k f', s'.m k = some f' ↔ f' ≠ f ∧ s.m k = some f' ∨ f' = f ∧ x'.isOpen = true ∧ key i = k) :
    Leads zero key es s e s' i f x' := by
  have hx : life es f = x := h.own i f x hown
  have hl : x.leader = some i := Pc.lead_leader hown
  refine ⟨⟨hsame.1.ge, ?_⟩, ⟨?_, hx'⟩, hnext.2, hrec, hsame.2.1, hsame.2.2, fun f' y hy => ?_, hafter, hawake, ?_, ?_,
    fun ho f' l hl' hk => ?_, hmap⟩
  · rw [hsame.1]
    exact h.made (hx.symm ▸ hl)
  · rw [hx]
    exact hnext.1
  · rw [hown] at hy
    cases hy
    rfl
  · rw [hx]
    exact Pc.lead_alive hown
  · rw [hx]
    exact .inl hl
  · have hkey := (h.map_own hx hl (key i)).2 ⟨hopen ho, rfl⟩
    exact h.newest (key i) f hkey f' l hl' hk

/-- A scan function ends. -/
theorem leads_finish (h : Inv zero key es s) (r : Ending O) (hpc : s.pc i = .leading f)
    (hfl : s.flights f = some fl) :
    Leads zero key es s (.ran i f r) ((s.move i (.publishing f r)).set f { fl with outcome := r.outcome zero }) i f
      (.ended i r) := by
  have hown : (s.pc i).lead i = some (f, .running i) := by
    rw [hpc]
    rfl
  have hx := h.own i f _ hown
  have hrec := h.record f
  rw [hx, hfl] at hrec
  obtain ⟨fl', he, hdone⟩ := hrec
  cases he
  refine leads_own h hown ⟨if_pos ⟨rfl, rfl⟩, fun f' hf' y => ?_⟩ rfl (fun ho => ho) ⟨_, Group.set_flights .., hdone, rfl⟩
    ⟨rfl, fun f' hf' => Group.set_flights_ne _ _ hf', fun j hj => Group.move_pc_ne _ _ hj⟩ ?_ (fun f' hf' => ?_)
    fun k f' => ?_
  · cases y <;> first | rfl | exact if_neg fun hf => hf' hf.1.symm
  · rw [Group.set_pc, Group.move_pc]
    rfl
  · rw [Group.set_pc, Group.move_pc] at hf'
    cases hf'
  · by_cases hf : f' = f
    · subst hf
      have hkey : s.m k = some f' ↔ (Life.ended i r).isOpen = true ∧ key i = k := h.map_own hx rfl k
      simpa using hkey
    · simp [hf]

/-- The lock of `finishLeader`: the key is free again. -/
theorem leads_publish [DecidableEq K] (h : Inv zero key es s) (hpc : s.pc i = .publishing f r) (hfl : s.flights f = some fl) :
    Leads zero key es s (.published i f)
      { (s.move i (.closing f r)).set f { fl with aborted := r.isAborted, shared := 0 < fl.joiners } with
        m := Function.update s.m (key i) none } i f (.published i r) := by
  have hown : (s.pc i).lead i = some (f, .ended i r) := by
    rw [hpc]
    rfl
  have hx := h.own i f _ hown
  have hrec := h.record f
  rw [hx, hfl] at hrec
  obtain ⟨fl', he, hdone, ho⟩ := hrec
  cases he
  refine leads_own h hown ⟨if_pos ⟨rfl, rfl⟩, fun f' hf' y => ?_⟩ rfl nofun ⟨_, Group.set_flights .., hdone, ho, rfl⟩
    ⟨rfl, fun f' hf' => Group.set_flights_ne _ _ hf', fun j hj => Group.move_pc_ne _ _ hj⟩ ?_ (fun f' hf' => ?_)
    fun k f' => ?_
  · cases y <;> first | rfl | exact if_neg fun hf => hf' hf.1.symm
  · simp only [Group.set_pc, Group.move_pc]
    rfl
  · simp only [Group.set_pc, Group.move_pc] at hf'
    cases hf'
  · have hkey := h.map_own hx rfl
    by_cases hk : k = key i
    · subst hk
      simp only [Function.update_self, (hkey (key i)).2 ⟨rfl, rfl⟩]
      simp only [reduceCtorEq, Option.some.injEq, false_iff, not_or, not_and]
      exact ⟨fun hf he => hf he.symm, fun _ hopen => by cases hopen⟩
    · have hne : s.m k = some f' → f' ≠ f := by
        rintro hs rfl
        exact hk ((hkey k).1 hs).2.symm
      simp only [Function.update_of_ne hk]
      exact ⟨fun hs => .inl ⟨hne hs, hs⟩, fun hs => hs.elim And.right fun ⟨_, hopen, _⟩ => by cases hopen⟩

/-- The channel is closed. -/
theorem leads_close (h : Inv zero key es s) (hpc : s.pc i = .closing f r) (hfl : s.flights f = some fl)
    (hp : p.lead i = none) (hawake : ∀ f', p ≠ .woken f') :
    Leads zero key es s (.closed i f) ((s.move i p).set f { fl with done := true }) i f (.closed i r) := by
  have hown : (s.pc i).lead i = some (f, .published i r) := by
    rw [hpc]
    rfl
  have hx := h.own i f _ hown
  have hrec := h.record f
  rw [hx, hfl] at hrec
  obtain ⟨fl', he, -, ho, ha⟩ := hrec
  cases he
  refine leads_own h hown ⟨if_pos ⟨rfl, rfl⟩, fun f' hf' y => ?_⟩ rfl nofun ⟨_, Group.set_flights .., rfl, ho, ha⟩
    ⟨rfl, fun f' hf' => Group.set_flights_ne _ _ hf', fun j hj => Group.move_pc_ne _ _ hj⟩ ?_ (fun f' hf' => ?_)
    fun k f' => ?_
  · cases y <;> first | rfl | exact if_neg fun hf => hf' hf.1.symm
  · rw [Group.set_pc, Group.move_pc, hp]
    rfl
  · rw [Group.set_pc, Group.move_pc] at hf'
    exact hawake f' hf'
  · by_cases hf : f' = f
    · subst hf
      have hkey : s.m k = some f' ↔ (Life.closed i r).isOpen = true ∧ key i = k := h.map_own hx rfl k
      simpa using hkey
    · simp [hf]

variable [DecidableEq K]

theorem Inv.step (h : Inv zero key es s) (hstep : FlightStep zero key s e s') : Inv zero key (es ++ [e]) s' := by
  cases hstep with
  | lead hpc hm => exact h.leads (leads_lead h hpc hm)
  | finish r hpc hfl => exact h.leads (leads_finish h r hpc hfl)
  | publish hpc hfl => exact h.leads (leads_publish h hpc hfl)
  | @close i f fl r hpc hfl hdone =>
    cases r <;> exact h.leads (leads_close h hpc hfl rfl nofun)
  | join hpc hm hfl => exact h.quiet ((quiet_move hpc rfl rfl fun _ hw => by cases hw).set hfl rfl rfl rfl) fun _ _ => rfl
  | start hpc hfl hs => exact h.quiet ((Quiet.refl s).set hfl rfl rfl rfl) fun _ _ => rfl
  | wake hpc hfl hdone =>
    refine h.quiet (quiet_move hpc rfl rfl fun f' hf' => ?_) fun _ _ => rfl
    cases hf'
    exact ⟨_, hfl, hdone⟩
  | leave hpc hfl => exact h.quiet ((quiet_move hpc rfl rfl fun _ hw => by cases hw).set hfl rfl rfl rfl) fun _ _ => rfl
  | hear hpc | answer hpc | follow hpc | retry hpc | abandon hpc | giveUp hpc =>
    exact h.quiet (quiet_move hpc rfl rfl fun _ hw => by cases hw) fun _ _ => rfl
  | cancel => exact h.quiet ⟨rfl, rfl, fun _ hf => hf, fun f fl hfl => ⟨fl, hfl, rfl, rfl, rfl⟩, fun _ => rfl,
      fun _ _ hw => .inl hw⟩ fun _ _ => rfl

/-! ## Followers -/

/-- The joiners of an open flight are the callers that wait for it. -/
def Group.Counted (s : Group K O) (f : Nat) : Prop :=
  ∀ fl, s.flights f = some fl → fl.done = false →
    ∃ ws : Finset Nat, (∀ i, i ∈ ws ↔ (s.pc i).awaits = some f) ∧ fl.joiners = ws.card

/-- The caller joined the flight while it was open, under its own key. -/
def Joined (key : Nat → K) (es : List (FlightEvent O)) (i f : Nat) : Prop :=
  ∃ before after l, es = before ++ .joined i f :: after ∧ key l = key i ∧ (life before f).isOpen = true ∧
    (life before f).leader = some l ∧ (life es f).leader = some l

/-- The flight that the caller waits for, or was woken by. -/
def Pc.follows : Pc O → Option Nat
  | .waiting f _ => some f
  | .cancelling f => some f
  | .woken f => some f
  | _ => none

theorem Pc.follows_of_awaits {f : Nat} (h : pc.awaits = some f) : pc.follows = some f := by
  cases pc <;> first | exact h | cases h

structure Followed (key : Nat → K) (es : List (FlightEvent O)) (s : Group K O) : Prop where
  counted : ∀ f, s.Counted f
  joined : ∀ i f, (s.pc i).follows = some f → Joined key es i f

omit [DecidableEq K] in
theorem Life.leader_next {x : Life O} {f : Nat} (he : ∀ l f', e ≠ .led l f') : (x.next f e).leader = x.leader := by
  cases e with
  | led l f' => exact absurd rfl (he l f')
  | ran | published | closed =>
    cases x <;> simp only [Life.next]
    split_ifs <;> rfl
  | _ => rfl

theorem Inv.leader_stays (h : Inv zero key es s) (hstep : FlightStep zero key s e s') {f : Nat}
    (hl : (life es f).leader = some l) : (life (es ++ [e]) f).leader = some l := by
  rw [life_snoc]
  by_cases he : ∃ l' f', e = .led l' f'
  · obtain ⟨l', f', rfl⟩ := he
    cases hstep with
    | lead hpc hm =>
      have hmade := h.made hl
      rw [Life.next, if_neg (by omega)]
      exact hl
  · push Not at he
    rw [Life.leader_next he]
    exact hl

omit [DecidableEq K] in
/-- A caller that moves and joins nothing follows what it followed. -/
theorem follows_move {i f : Nat} (hi : s.pc i = q) (hp : p.follows = none ∨ p.follows = q.follows)
    (h : ((s.move i p).pc j).follows = some f) : (s.pc j).follows = some f := by
  by_cases hj : j = i
  · subst hj
    rw [Group.move_pc] at h
    rcases hp with hp | hp <;> rw [hp] at h
    · cases h
    · rwa [hi]
  · rwa [Group.move_pc_ne _ _ hj] at h

/-- Only a caller that joins a flight begins to follow it. -/
theorem follows_step (hstep : FlightStep zero key s e s') {f : Nat} (hj : (s'.pc j).follows = some f) :
    (s.pc j).follows = some f ∨ e = .joined j f := by
  cases hstep with
  | @join i f₀ fl hpc hm hfl =>
    by_cases hji : j = i
    · subst hji
      rw [Group.set_pc, Group.move_pc] at hj
      cases hj
      exact .inr rfl
    · rw [Group.set_pc, Group.move_pc_ne _ _ hji] at hj
      exact .inl hj
  | start | cancel => exact .inl hj
  | hear hpc | giveUp hpc | wake hpc => exact .inl (follows_move hpc (.inr (by rfl)) hj)
  | @close i f₀ fl r hpc => cases r <;> exact .inl (follows_move hpc (.inl rfl) hj)
  | lead hpc | finish r hpc | publish hpc | answer hpc | follow hpc | retry hpc | abandon hpc | leave hpc =>
    exact .inl (follows_move hpc (.inl rfl) hj)

theorem Followed.joined_step (h : Followed key es s) (hinv : Inv zero key es s) (hstep : FlightStep zero key s e s')
    {f : Nat} (hj : (s'.pc j).follows = some f) : Joined key (es ++ [e]) j f := by
  rcases follows_step hstep hj with hold | rfl
  · obtain ⟨before, after, l, hes, hk, ho, hb, hlead⟩ := h.joined j f hold
    refine ⟨before, after ++ [e], l, by simp [hes], hk, ho, hb, hinv.leader_stays hstep hlead⟩
  · have hlater := fun l => hinv.leader_stays (f := f) (l := l) hstep
    cases hstep with
    | join hpc hm hfl =>
      obtain ⟨hopen, l, hl, hk⟩ := (hinv.map _ _).1 hm
      exact ⟨es, [], l, rfl, hk, hopen, hl, hlater l hl⟩

/-! ## Counting them -/

omit [DecidableEq K] in
/-- A caller moves, and waits for the flight afterwards if it did before. -/
theorem Group.Counted.move (h : s.Counted f) (hi : s.pc i = q) (hp : p.awaits = some f ↔ q.awaits = some f) :
    (s.move i p).Counted f := by
  intro fl hfl hdone
  obtain ⟨ws, hws, hcard⟩ := h fl hfl hdone
  refine ⟨ws, fun j => (hws j).trans ?_, hcard⟩
  by_cases hj : j = i
  · subst hj
    rw [Group.move_pc, hp, hi]
  · rw [Group.move_pc_ne _ _ hj]

omit [DecidableEq K] in
theorem Group.Counted.set_ne {f f₀ : Nat} (h : s.Counted f) (hf : f ≠ f₀) : (s.set f₀ fl).Counted f := by
  intro g hg hdone
  rw [Group.set_flights_ne _ _ hf] at hg
  exact h g hg hdone

omit [DecidableEq K] in
/-- A flight is stored with the same count. -/
theorem Group.Counted.set {f f₀ : Nat} {fl fl' : Flight O} (h : s.Counted f) (hfl : s.flights f₀ = some fl)
    (hj : fl'.joiners = fl.joiners) (hd : fl'.done = false → fl.done = false) : (s.set f₀ fl').Counted f := by
  intro g hg hdone
  by_cases hf : f = f₀
  · subst hf
    rw [Group.set_flights] at hg
    cases hg
    obtain ⟨ws, hws, hcard⟩ := h fl hfl (hd hdone)
    exact ⟨ws, hws, hj.trans hcard⟩
  · exact h.set_ne hf g hg hdone

theorem Followed.counted_step (h : Followed key es s) (hinv : Inv zero key es s) (hstep : FlightStep zero key s e s')
    (f : Nat) : s'.Counted f := by
  have hf := h.counted f
  cases hstep with
  | @lead i hpc hm =>
    by_cases hn : f = s.next
    · subst hn
      intro fl hfl hdone
      have hfl : ((s.move i (.leading s.next)).set s.next { outcome := zero }).flights s.next = some fl := hfl
      rw [Group.set_flights] at hfl
      cases hfl
      -- no one follows a flight that was not made
      refine ⟨∅, fun j => ⟨fun hj => absurd hj (Finset.notMem_empty j), fun hj => ?_⟩, rfl⟩
      have hj : ((s.move i (.leading s.next)).pc j).awaits = some s.next := hj
      have hfol := follows_move hpc (.inl rfl) (Pc.follows_of_awaits hj)
      obtain ⟨-, -, l, -, -, -, -, hl⟩ := h.joined j s.next hfol
      have hmade := hinv.made hl
      omega
    · have hmoved : (s.move i (.leading s.next)).Counted f := hf.move hpc (by exact Iff.rfl)
      exact hmoved.set_ne hn
  | @join i f₀ fl hpc hm hfl =>
    by_cases hn : f = f₀
    · subst hn
      intro g hg hdone
      rw [Group.set_flights] at hg
      cases hg
      obtain ⟨ws, hws, hcard⟩ := hf fl hfl hdone
      have hi : i ∉ ws := by
        rw [hws, hpc]
        nofun
      refine ⟨insert i ws, fun j => ?_, ?_⟩
      · rw [Finset.mem_insert, hws, Group.set_pc]
        by_cases hj : j = i
        · subst hj
          simp [Pc.awaits]
        · simp [hj, Group.move_pc_ne _ _ hj]
      · change fl.joiners + 1 = ((insert i ws).card : Int)
        rw [Finset.card_insert_of_notMem hi]
        omega
    · exact (hf.move hpc (by simp [Pc.awaits, Ne.symm hn])).set_ne hn
  | @leave i f₀ fl hpc hfl =>
    by_cases hn : f = f₀
    · subst hn
      intro g hg hdone
      rw [Group.set_flights] at hg
      cases hg
      obtain ⟨ws, hws, hcard⟩ := hf fl hfl hdone
      have hi : i ∈ ws := by
        rw [hws, hpc]
        rfl
      refine ⟨ws.erase i, fun j => ?_, ?_⟩
      · rw [Finset.mem_erase, hws, Group.set_pc]
        by_cases hj : j = i
        · subst hj
          simp [Pc.awaits]
        · simp [hj, Group.move_pc_ne _ _ hj]
      · have hpos := Finset.card_pos.2 ⟨i, hi⟩
        change fl.joiners - 1 = ((ws.erase i).card : Int)
        rw [Finset.card_erase_of_mem hi]
        omega
    · exact (hf.move hpc (by simp [Pc.awaits, Ne.symm hn])).set_ne hn
  | @wake i f₀ fl l hpc hfl hdone =>
    by_cases hn : f = f₀
    · subst hn
      intro g hg hd
      rw [Group.move_flights, hfl] at hg
      cases hg
      rw [hdone] at hd
      cases hd
    · exact hf.move hpc (by simp [Pc.awaits, Ne.symm hn])
  | start hpc hfl => exact hf.set hfl rfl fun hd => hd
  | @finish i f₀ fl r hpc hfl =>
    have hmoved := hf.move hpc (p := .publishing f₀ r) (by exact Iff.rfl)
    exact hmoved.set hfl rfl fun hd => hd
  | @publish i f₀ fl r hpc hfl =>
    have hmoved := hf.move hpc (p := .closing f₀ r) (by exact Iff.rfl)
    have hset : ((s.move i (.closing f₀ r)).set f₀
        { fl with aborted := r.isAborted, shared := 0 < fl.joiners }).Counted f := hmoved.set hfl rfl fun hd => hd
    exact hset
  | @close i f₀ fl r hpc hfl =>
    refine (hf.move hpc ?_).set hfl rfl fun hd => ?_
    · cases r <;> exact Iff.rfl
    · cases hd
  | hear hpc | giveUp hpc | answer hpc | follow hpc | retry hpc | abandon hpc =>
    exact hf.move hpc (by exact Iff.rfl)
  | cancel => exact hf

end

/-! ## All interleavings -/

section

variable [DecidableEq K] {zero : O} {key : Nat → K} {es : List (FlightEvent O)} {s s' : Group K O} {e : FlightEvent O}

theorem run_inv (hrun : Run (flightSystem zero key) {} es s) : Inv zero key es s ∧ Followed key es s := by
  refine Run.history (I := fun es s => Inv zero key es s ∧ Followed key es s) ⟨?_, ?_⟩ (fun s es e s' _ h hstep => ?_) hrun
  · exact ⟨fun _ _ => rfl, fun _ => rfl, fun i f x hx => (nomatch hx), fun f l hl => (nomatch hl),
      fun i f hf => (nomatch hf), fun k f => ⟨fun hk => (nomatch hk), fun hk => (nomatch hk.1)⟩,
      fun k f hk => (nomatch hk)⟩
  · exact ⟨fun f fl hfl => (nomatch hfl), fun i f hf => (nomatch hf)⟩
  · exact ⟨h.1.step hstep, fun f => h.2.counted_step h.1 hstep f, fun i f hi => h.2.joined_step h.1 hstep hi⟩

/-- What a caller before the lock does next. -/
theorem enter_step (hstep : FlightStep zero key s e s') {i : Nat} (hi : s.pc i = .enter) :
    s'.pc i = .enter ∨ e = .led i s.next ∧ s'.pc i = .leading s.next ∨
      ∃ f, e = .joined i f ∧ s.m (key i) = some f ∧ s'.pc i = .waiting f true := by
  cases hstep with
  | @lead j hpc hm =>
    by_cases hj : i = j
    · subst hj
      exact .inr (.inl ⟨rfl, Group.move_pc ..⟩)
    · exact .inl ((Group.move_pc_ne _ _ hj).trans hi)
  | @join j f fl hpc hm hfl =>
    by_cases hj : i = j
    · subst hj
      exact .inr (.inr ⟨f, rfl, hm, Group.move_pc ..⟩)
    · exact .inl ((Group.move_pc_ne _ _ hj).trans hi)
  | start | cancel => exact .inl hi
  | @hear j _ _ hpc | @finish j _ _ _ hpc | @publish j _ _ _ hpc | @close j _ _ _ hpc | @answer j _ _ _ hpc
  | @wake j _ _ _ hpc | @follow j _ _ hpc | @retry j _ _ hpc | @abandon j _ _ hpc | @giveUp j _ _ hpc
  | @leave j _ _ hpc =>
    have hj : i ≠ j := by
      rintro rfl
      rw [hi] at hpc
      cases hpc
    exact .inl ((Group.move_pc_ne _ _ hj).trans hi)

/-- What a follower does when its leader has closed the flight. -/
theorem woken_step (hstep : FlightStep zero key s e s') (hi : s.pc i = .woken f)
    (hfl : s.flights f = some fl) :
    s'.pc i = .woken f ∨ fl.aborted = false ∧ e = .followed i f fl.outcome ∨
      fl.aborted = true ∧ (e = .retried i f ∧ s'.pc i = .enter ∨
        e = .abandoned i f ∧ s.cancelled i = true ∧ s'.pc i = .returned zero true true) := by
  cases hstep with
  | @follow j f₀ g hpc hg ha =>
    by_cases hj : i = j
    · subst hj
      rw [hi] at hpc
      cases hpc
      cases hfl.symm.trans hg
      exact .inr (.inl ⟨ha, rfl⟩)
    · exact .inl ((Group.move_pc_ne _ _ hj).trans hi)
  | @retry j f₀ g hpc hg ha hc =>
    by_cases hj : i = j
    · subst hj
      rw [hi] at hpc
      cases hpc
      cases hfl.symm.trans hg
      exact .inr (.inr ⟨ha, .inl ⟨rfl, Group.move_pc ..⟩⟩)
    · exact .inl ((Group.move_pc_ne _ _ hj).trans hi)
  | @abandon j f₀ g hpc hg ha hc =>
    by_cases hj : i = j
    · subst hj
      rw [hi] at hpc
      cases hpc
      cases hfl.symm.trans hg
      exact .inr (.inr ⟨ha, .inr ⟨rfl, hc, Group.move_pc ..⟩⟩)
    · exact .inl ((Group.move_pc_ne _ _ hj).trans hi)
  | start | cancel => exact .inl hi
  | @lead j hpc | @join j _ _ hpc | @hear j _ _ hpc | @finish j _ _ _ hpc | @publish j _ _ _ hpc | @close j _ _ _ hpc
  | @answer j _ _ _ hpc | @wake j _ _ _ hpc | @giveUp j _ _ hpc | @leave j _ _ hpc =>
    have hj : i ≠ j := by
      rintro rfl
      rw [hi] at hpc
      cases hpc
    exact .inl ((Group.move_pc_ne _ _ hj).trans hi)

omit [DecidableEq K] in
/-- A closed flight, and what is in it. -/
theorem Inv.closed_record (h : Inv zero key es s) {f : Nat} (hl : life es f = .closed l r) :
    ∃ fl, s.flights f = some fl ∧ fl.done = true ∧ fl.outcome = r.outcome zero ∧ fl.aborted = r.isAborted := by
  have hrec := h.record f
  rwa [hl] at hrec

theorem Inv.followed (h : Inv zero key es s) (hfol : Followed key es s) {o : O}
    (hstep : FlightStep zero key s (.followed i f o) s') : s'.pc i = .returned o true false ∧
      ∃ l before after, key l = key i ∧ es = before ++ .joined i f :: after ∧ .led l f ∈ before ∧
        (life before f).isOpen = true ∧ life es f = .closed l (.returned o) ∧ .ran l f (.returned o) ∈ es := by
  cases hstep with
  | @follow _ _ fl hpc hfl ha =>
    obtain ⟨before, after, l, hes, hk, ho, hb, hl⟩ := hfol.joined i f (by rw [hpc]; rfl)
    have hclosed := h.woken i f hpc
    cases hx : life es f with
    | unborn | running | ended | published =>
      rw [hx] at hclosed
      cases hclosed
    | closed l' r =>
      obtain ⟨fl', hfl', -, hout, hab⟩ := h.closed_record hx
      cases hfl.symm.trans hfl'
      rw [hx] at hl
      cases hl
      rw [ha] at hab
      cases r with
      | aborted | panicked => cases hab
      | returned o' =>
        rw [hout]
        refine ⟨Group.move_pc .., l, before, after, hk, hes, (life_told before f).1 l hb, ho, rfl, ?_⟩
        exact (life_told es f).2 l _ (by rw [hx]; rfl) (by rw [hx]; rfl)

end

/-- Coalescing.  Whatever callers do, in every interleaving and however scan functions end:
one scan function at most runs for a key; what a follower returns without an error is what the scan
function of one leader returned, a leader with its key that had not finished when it joined; a follower
of a leader that aborted or panicked starts over or returns the error of its own context, and from
there leads a flight or joins a later one.  A leader that finishes, in whatever way, frees the key and
leaves a count of exactly the followers that still wait, its next steps are open to it, and once it has
closed the flight every one of them can go on. -/
theorem coalescing_sound [DecidableEq K] (zero : O) (key : Nat → K) {es : List (FlightEvent O)} {s : Group K O}
    (hrun : Run (flightSystem zero key) {} es s) :
    (∀ i j f f', s.pc i = .leading f → s.pc j = .leading f' → key i = key j → i = j) ∧
    (∀ i f o s', FlightStep zero key s (.followed i f o) s' → s'.pc i = .returned o true false ∧
      ∃ l before after, key l = key i ∧ es = before ++ .joined i f :: after ∧ .led l f ∈ before ∧
        (life before f).isOpen = true ∧ life es f = .closed l (.returned o) ∧ .ran l f (.returned o) ∈ es) ∧
    (∀ i f l r, s.pc i = .woken f → life es f = .closed l r → r.isAborted = true →
      ∀ e s', FlightStep zero key s e s' → s'.pc i = .woken f ∨ e = .retried i f ∧ s'.pc i = .enter ∨
        e = .abandoned i f ∧ s.cancelled i = true ∧ s'.pc i = .returned zero true true) ∧
    (∀ i, s.pc i = .enter → ∀ e s', FlightStep zero key s e s' → s'.pc i = .enter ∨
      ∃ f, (e = .led i f ∧ s'.pc i = .leading f ∨ e = .joined i f ∧ s'.pc i = .waiting f true) ∧
        ∀ f' l r, life es f' = .closed l r → key l = key i → f' < f) ∧
    (∀ i f s', FlightStep zero key s (.published i f) s' → s'.m (key i) = none ∧
      ∃ fl ws, s'.flights f = some fl ∧ (∀ j, j ∈ ws ↔ (s'.pc j).awaits = some f) ∧
        fl.joiners = (Finset.card ws : Int) ∧ (fl.shared = true ↔ ws.Nonempty)) ∧
    (∀ i f r, (s.pc i = .publishing f r → ∃ s', FlightStep zero key s (.published i f) s') ∧
      (s.pc i = .closing f r → ∃ s', FlightStep zero key s (.closed i f) s')) ∧
    ∀ f l r, life es f = .closed l r → s.m (key l) ≠ some f ∧
      ∀ j listens, s.pc j = .waiting f listens → ∃ s', FlightStep zero key s (.woke j f) s' := by
  obtain ⟨hinv, hfol⟩ := run_inv hrun
  refine ⟨fun i j f f' hi hj hk => ?_, fun i f o s' hstep => ?_, fun i f l r hi hlife ha e s' hstep => ?_,
    fun i hi e s' hstep => ?_, fun i f s' hstep => ?_, fun i f r => ⟨fun hi => ?_, fun hi => ?_⟩,
    fun f l r hlife => ⟨?_, fun j listens hj => ?_⟩⟩
  · have hf := hinv.own i f _ (by rw [hi]; rfl)
    have hf' := hinv.own j f' _ (by rw [hj]; rfl)
    have hm := (hinv.map_own hf rfl (key i)).2 ⟨rfl, rfl⟩
    have hm' := (hinv.map_own hf' rfl (key j)).2 ⟨rfl, rfl⟩
    rw [hk, hm'] at hm
    cases hm
    rw [hf] at hf'
    cases hf'
    rfl
  · exact hinv.followed hfol hstep
  · obtain ⟨fl, hfl, -, -, hab⟩ := hinv.closed_record hlife
    rcases woken_step hstep hi hfl with hsame | ⟨hno, -⟩ | ⟨-, hnext⟩
    · exact .inl hsame
    · rw [hab, ha] at hno
      cases hno
    · exact .inr hnext
  · rcases enter_step hstep hi with hsame | ⟨rfl, hpc⟩ | ⟨f, rfl, hm, hpc⟩
    · exact .inl hsame
    · refine .inr ⟨s.next, .inl ⟨rfl, hpc⟩, fun f' l r hl _ => hinv.made (l := l) (by rw [hl]; rfl)⟩
    · refine .inr ⟨f, .inr ⟨rfl, hpc⟩, fun f' l r hl hk => ?_⟩
      have hle := hinv.newest (key i) f hm f' l (by rw [hl]; rfl) hk
      have hne : f' ≠ f := by
        rintro rfl
        have hopen := ((hinv.map _ _).1 hm).1
        rw [hl] at hopen
        cases hopen
      omega
  · have hcount := hfol.counted_step hinv hstep f
    cases hstep with
    | @publish _ _ fl r hpc hfl =>
      have hrec := hinv.record f
      rw [hinv.own i f _ (by rw [hpc]; rfl), hfl] at hrec
      obtain ⟨fl', he, hdone, -⟩ := hrec
      cases he
      obtain ⟨ws, hws, hcard⟩ := hcount _ (Group.set_flights ..) hdone
      refine ⟨Function.update_self .., _, ws, Group.set_flights .., hws, hcard, ?_⟩
      have hcard : fl.joiners = (ws.card : Int) := hcard
      rw [← Finset.card_pos, decide_eq_true_eq, hcard]
      omega
  · obtain ⟨fl, hfl, -⟩ : ∃ fl, s.flights f = some fl ∧ _ := by
      have hrec := hinv.record f
      rwa [hinv.own i f _ (by rw [hi]; rfl)] at hrec
    exact ⟨_, .publish hi hfl⟩
  · obtain ⟨fl, hfl, hdone, -⟩ : ∃ fl, s.flights f = some fl ∧ fl.done = false ∧ _ := by
      have hrec := hinv.record f
      rwa [hinv.own i f _ (by rw [hi]; rfl)] at hrec
    exact ⟨_, .close hi hfl hdone⟩
  · intro hm
    have hopen := ((hinv.map _ _).1 hm).1
    rw [hlife] at hopen
    cases hopen
  · obtain ⟨fl, hfl, hdone, -⟩ := hinv.closed_record hlife
    exact ⟨_, .wake hj hfl hdone⟩

/-- Caller 1 joins the flight of caller 0. -/
def sampleEvents : List (FlightEvent Nat) :=
  [.led 0 0, .joined 1 0, .ran 0 0 (.returned 5), .published 0 0, .closed 0 0, .woke 1 0]

/-- A follower returns what its leader found. -/
theorem coalescing_sound_followed : ∃ s s' : Group Nat Nat,
    Run (flightSystem 0 fun _ => 7) {} sampleEvents s ∧ FlightStep 0 (fun _ => 7) s (.followed 1 0 5) s' ∧
      ∃ l, life sampleEvents 0 = .closed l (.returned 5) ∧ s.m 7 = none := by
  have hrun : ∃ s : Group Nat Nat, Run (flightSystem 0 fun _ => 7) {}
      ([] ++ [.led 0 0] ++ [.joined 1 0] ++ [.ran 0 0 (.returned 5)] ++ [.published 0 0] ++ [.closed 0 0] ++ [.woke 1 0]) s ∧
      s.pc 1 = .woken 0 ∧ s.m 7 = none ∧ ∃ fl, s.flights 0 = some fl ∧ fl.aborted = false ∧ fl.outcome = 5 :=
    ⟨_, .snoc (.snoc (.snoc (.snoc (.snoc (.snoc .nil (.lead rfl rfl)) (.join rfl rfl rfl)) (.finish (.returned 5) rfl rfl))
      (.publish rfl rfl)) (.close rfl rfl rfl)) (.wake rfl rfl rfl), rfl, rfl, _, rfl, rfl, rfl⟩
  obtain ⟨s, hrun, hpc, hm, fl, hfl, ha, ho⟩ := hrun
  have hstep : FlightStep 0 (fun _ => 7) s (.followed 1 0 fl.outcome) (s.move 1 (.returned fl.outcome true false)) :=
    .follow hpc hfl ha
  rw [ho] at hstep
  obtain ⟨-, hfollow, -⟩ := coalescing_sound 0 (fun _ => 7) hrun
  obtain ⟨-, l, -, -, -, -, -, -, hlife, -⟩ := hfollow 1 0 5 _ hstep
  exact ⟨s, _, hrun, hstep, l, hlife, hm⟩

end MS.Coalesce
