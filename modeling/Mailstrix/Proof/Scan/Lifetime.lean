import Mailstrix.Proof.Scan.Ownership

/-!
# Native rules live as long as they are used

Pools stay where they can be drained, `Close` leaves nothing behind that is not on its way out, and
every task that runs is one of the changes that the counts allow.  Hence no retain or release panics,
rules in use are not destroyed, and after `Close` every rules object is destroyed once.
-/

namespace MS.Native

open Framework

variable {c c' : State} {ks ks' : List Token} {n : Token → Nat}

variable {rs : List Nat} {r : Nat} {w : World} {res : State × List Task} {o : Outcome}
variable {x : ScannerGen} {n' : Token → Nat} {g p sc : Nat} {b : Bundle} {t : Task} {th : Thread (Option Lease) Task}

/-! ## Pools -/

/-- The pool is in a slot, or it will be retired. -/
def Watched (c : State) (n : Token → Nat) (g : Nat) : Prop := (∃ k, c.slots k = some g) ∨ 0 < n (.retire g)

/-- A retired pool is empty, and any other is watched. -/
structure PoolOf (x : ScannerGen) (made watched : Prop) : Prop where
  unmade : ¬ made → x = {}
  drained : x.retired = true → x.free = []
  kept : x.retired = false → watched

def Pools (c : State) (n : Token → Nat) : Prop := ∀ g, PoolOf (c.gens g) (g < c.nextGen) (Watched c n g)

theorem PoolOf.imp {made watched watched' : Prop} (hi : PoolOf x made watched) (h : watched → watched') :
    PoolOf x made watched' := ⟨hi.unmade, hi.drained, fun hr => h (hi.kept hr)⟩

theorem Pools.frame (hi : Pools c n) (hx : c'.nextGen = c.nextGen) (hg : c'.gens = c.gens) (hs : c'.slots = c.slots)
    (hr : ∀ g, n' (.retire g) = n (.retire g)) : Pools c' n' := by
  intro g
  simp only [Watched, hx, hg, hs, hr]
  exact hi g

/-- Only pool `g` is touched. -/
theorem Pools.setGen (hi : Pools c (plus ks n)) (hr : ∀ q, q ≠ g → plus ks' n (.retire q) = plus ks n (.retire q))
    (hx : PoolOf x (g < c.nextGen) (Watched c (plus ks' n) g)) : Pools (c.setGen g x) (plus ks' n) := by
  intro q
  by_cases hq : q = g
  · subst hq
    rw [show (c.setGen q x).gens q = x from Function.update_self ..]
    exact hx
  · rw [show (c.setGen g x).gens q = c.gens q from Function.update_of_ne hq ..]
    refine (hi q).imp (Or.imp_right fun h => ?_)
    rwa [hr q hq]

/-- A new pool, watched unless it is born retired. -/
theorem Pools.newGen (hi : Pools c n) (hf : x.free = []) {c' : State} (hg : c'.gens = (c.newGen x).gens)
    (hx : c'.nextGen = c.nextGen + 1) (hw : ∀ g, g ≠ c.nextGen → Watched c n g → Watched c' n' g)
    (hk : x.retired = false → Watched c' n' c.nextGen) : Pools c' n' := by
  intro q
  rw [hg, hx]
  by_cases hq : q = c.nextGen
  · subst hq
    simp only [State.newGen, State.setGen, Function.update_self]
    exact ⟨fun h => absurd (Nat.lt_succ_self _) h, fun _ => hf, hk⟩
  · have hlt : q < c.nextGen + 1 ↔ q < c.nextGen := by omega
    simp only [State.newGen, State.setGen, Function.update_of_ne hq, hlt]
    exact (hi q).imp (hw q hq)

theorem pools_change (h : Change c ks c' ks') (hi : Pools c (plus ks n)) : Pools c' (plus ks' n) := by
  cases h with
  | idle => exact hi
  | newGen => exact Pools.newGen hi rfl rfl rfl (fun g _ h => h) (by simp)
  | @install k r cur hcur =>
    refine Pools.newGen hi (x := { rules := r, retired := false }) rfl rfl rfl (fun g hg h => ?_)
      (fun _ => .inl ⟨k, Function.update_self ..⟩)
    rcases h with ⟨k', hk'⟩ | h
    · by_cases hk : k' = k
      · subst hk
        refine .inr ?_
        rw [← hcur, hk']
        exact plus_cons_pos ..
      · exact .inl ⟨k', (Function.update_of_ne hk ..).trans hk'⟩
    · refine .inr ?_
      simp only [plus, List.count_nil, List.count_append] at h ⊢
      omega
  | @clear _ k g hg hks =>
    intro q
    refine (hi q).imp ?_
    rintro (⟨k', hk'⟩ | h)
    · by_cases hk : k' = k
      · subst hk
        cases hg.symm.trans hk'
        exact .inr (plus_cons_pos ..)
      · exact .inl ⟨k', (Function.update_of_ne hk ..).trans hk'⟩
    · refine .inr ?_
      have hks0 : ks.count (.retire q) = 0 := by rcases hks with rfl | rfl | rfl <;> simp
      simp only [plus] at h ⊢
      omega
  | @retire g =>
    refine hi.setGen (fun q hq => ?_) ⟨fun hg => ?_, fun _ => rfl, (by simp)⟩
    · simp [Ne.symm hq]
    · rw [(hi g).unmade hg]
  | @take g sc free hf =>
    refine hi.setGen (fun q _ => by simp) ⟨fun hg => ?_, fun h => ?_, fun h => ?_⟩
    · rw [(hi g).unmade hg] at hf
      simp at hf
    · rw [(hi g).drained h] at hf
      simp at hf
    · simpa [Watched] using (hi g).kept h
  | @put g sc hr =>
    refine hi.setGen (fun q _ => by simp) ⟨fun hg => ?_, fun h => ?_, fun h => ?_⟩
    · rw [(hi g).unmade hg] at hr
      cases hr
    · exact absurd (hr.symm.trans h) (by decide)
    · simpa [Watched] using (hi g).kept h
  | _ => exact hi.frame rfl rfl rfl (by simp)

/-! ## Closing -/

/-- `s.mu` has one holder.  Once closed nothing is published, no reload is going on, and a pool still
in a slot will be taken out of it. -/
structure Shut (c : State) (n : Token → Nat) : Prop where
  mu : n .mu = if c.mu then 1 else 0
  body : c.closed = true → n .body = 0
  detached : c.closed = true → c.generation = none ∧ c.published = []
  slots : c.closed = true → ∀ k g, c.slots k = some g → 0 < n (.swap k) ∨ 0 < n (.guard k g)

theorem live_none (h : c.published = []) (k : Slot) : c.live k = none := by
  simp only [State.published, List.append_eq_nil_iff, Option.toList_eq_nil_iff] at h
  cases k with
  | scanners => exact h.1
  | bigScanners => exact h.2.1

theorem Shut.frame (hi : Shut c n) (hmu : c'.mu = c.mu) (hc : c'.closed = c.closed) (hg : c'.generation = c.generation)
    (hp : c'.published = c.published) (hs : c'.slots = c.slots) (h1 : n' .mu = n .mu) (h2 : n' .body = n .body)
    (h3 : ∀ k, n' (.swap k) = n (.swap k)) (h4 : ∀ k g, n' (.guard k g) = n (.guard k g)) : Shut c' n' := by
  obtain ⟨i1, i2, i3, i4⟩ := hi
  constructor <;> simpa only [hmu, hc, hg, hp, hs, h1, h2, h3, h4]

/-- A change that leaves the scanner open or closed as it is, and a closed one without a reload. -/
theorem Shut.step (hi : Shut c n) (hc : c'.closed = c.closed) (hg : c'.generation = c.generation)
    (hp : c'.published = c.published) (hmu : n' .mu = if c'.mu then 1 else 0)
    (hbody : c.closed = true → n .body = 0 → n' .body = 0)
    (hslots : c.closed = true → (∀ k g, c.slots k = some g → 0 < n (.swap k) ∨ 0 < n (.guard k g)) →
      ∀ k g, c'.slots k = some g → 0 < n' (.swap k) ∨ 0 < n' (.guard k g)) : Shut c' n' := by
  refine ⟨hmu, fun h => ?_, fun h => ?_, fun h => ?_⟩
  · rw [hc] at h
    exact hbody h (hi.body h)
  · rw [hg, hp]
    exact hi.detached (hc.symm.trans h)
  · rw [hc] at h
    exact hslots h (hi.slots h)

theorem shut_change (h : Change c ks c' ks') (hbody : n .body ≤ n .mu) (hi : Shut c (plus ks n)) :
    Shut c' (plus ks' n) := by
  have hmu := hi.mu
  cases h with
  | idle => exact hi
  | lock hfree =>
    refine hi.step rfl rfl rfl ?_ (by simp) (by simp)
    rw [hfree] at hmu
    simp at hmu ⊢
    exact hmu
  | unlock =>
    refine hi.step rfl rfl rfl ?_ (by simp) (by simp)
    have hone : plus [.mu] n .mu ≤ 1 := by rw [hmu]; split <;> omega
    simp at hone ⊢
    omega
  | enter hopen => exact hi.step rfl rfl rfl (by rw [← hmu]; simp) (by simp [hopen]) (by simp)
  | abort => exact hi.step rfl rfl rfl (by rw [← hmu]; simp) (by simp) (by simp)
  | publish =>
    have hopen : c.closed = true → False := fun h => by
      have hzero := hi.body h
      simp at hzero
    refine ⟨?_, fun h => (hopen h).elim, fun h => (hopen h).elim, fun h => (hopen h).elim⟩
    show _ = if c.mu then 1 else 0
    rw [← hmu]
    simp
  | detach =>
    have hone : plus [.mu] n .mu ≤ 1 := by rw [hmu]; split <;> omega
    refine ⟨?_, fun _ => ?_, fun _ => ⟨rfl, rfl⟩, fun _ k g _ => .inl ?_⟩
    · show _ = if c.mu then 1 else 0
      rw [← hmu]
      simp
    · simp at hone ⊢
      omega
    · cases k <;> simp
  | @clear _ k g hg hks =>
    refine hi.step rfl rfl rfl (hmu.symm.trans ?_ |>.symm) (fun _ hzero => ?_) (fun _ hold k' g' hk => ?_)
    · rcases hks with rfl | rfl | rfl <;> simp
    · rcases hks with rfl | rfl | rfl <;> simpa using hzero
    · have hne : k' ≠ k := by
        rintro rfl
        simp [State.setSlot] at hk
      have hold := hold k' g' (by simpa [State.setSlot, hne] using hk)
      rcases hks with rfl | rfl | rfl <;> simpa [Ne.symm hne] using hold
  | @swapEmpty k hk =>
    refine hi.step rfl rfl rfl (by rw [← hmu]; simp) (by simp) (fun _ hold k' g' hk' => ?_)
    have hne : k' ≠ k := by
      rintro rfl
      rw [hk] at hk'
      cases hk'
    simpa [Ne.symm hne] using hold k' g' hk'
  | @unguard k g hk =>
    refine hi.step rfl rfl rfl (by rw [← hmu]; simp) (by simp) (fun h hold k' g' hk' => ?_)
    have hne : ¬ (k = k' ∧ g = g') := by
      rintro ⟨rfl, rfl⟩
      exact hk hk' (live_none (hi.detached h).2 k)
    simpa [List.count_cons, hne] using hold k' g' hk'
  | @install k r cur hcur =>
    refine hi.step rfl rfl rfl (hmu.symm.trans ?_ |>.symm) (by simp) (fun _ hold k' g' hk' => ?_)
    · simp
    · by_cases hk : k' = k
      · subst hk
        have hg : c.nextGen = g' := by simpa [State.setSlot] using hk'
        subst hg
        refine .inr ?_
        rw [plus, List.count_append, List.count_singleton_self]
        omega
      · have hold := hold k' g' (by simpa [State.setSlot, State.newGen, State.setGen, hk] using hk')
        simpa [Ne.symm hk] using hold
  | _ => refine hi.frame rfl rfl rfl rfl rfl ?_ ?_ ?_ ?_ <;> simp

/-! ## What a state is -/

/-- `r` is among the owners of the pin. -/
def Pinned (c : State) (p r : Nat) : Prop := ∃ pin, c.pins[p]? = some pin ∧ r ∈ pin.owners

structure Inv (c : State) (n : Token → Nat) : Prop where
  refs : Refs c n
  life : Life c n
  scanners : Scanners c n
  pools : Pools c n
  shut : Shut c n
  published : ∀ r ∈ c.published, ∃ p, c.generation = some p ∧ Pinned c p r
  calm : c.panicked = false

theorem pinned_setPin_owners {pin : GenerationPin} (hp : c.pins[p]? = some pin) (refs : Nat) {q r : Nat}
    (h : Pinned c q r) : Pinned (c.setPin p { pin with refs := refs }) q r := by
  obtain ⟨x, hx, hr⟩ := h
  have hlt : p < c.pins.length := (List.getElem?_eq_some_iff.1 hp).1
  by_cases hq : q = p
  · subst hq
    cases hp.symm.trans hx
    exact ⟨{ pin with refs := refs }, by simp [State.setPin, hlt], hr⟩
  · exact ⟨x, by rw [← hx]; exact List.getElem?_set_ne fun h => hq h.symm, hr⟩

/-- A pin's owners never change. -/
theorem pinned_change (h : Change c ks c' ks') {r : Nat} (hp : Pinned c p r) : Pinned c' p r := by
  cases h with
  | retainPin h => exact pinned_setPin_owners h _ hp
  | releasePin h => exact pinned_setPin_owners h _ hp
  | releaseRoot h => exact pinned_setPin_owners h _ hp
  | publish =>
    obtain ⟨x, hx, hr⟩ := hp
    have hlt : p < c.pins.length := (List.getElem?_eq_some_iff.1 hx).1
    exact ⟨x, (List.getElem?_append_left hlt).trans hx, hr⟩
  | _ => exact hp

theorem mem_published_publish : r ∈ (c.publish b).published ↔ r ∈ b.owners := by
  rw [mem_owners]
  simp [State.published, State.publish, Bundle.candidates]

theorem published_change (h : Change c ks c' ks')
    (hi : ∀ r ∈ c.published, ∃ p, c.generation = some p ∧ Pinned c p r) :
    ∀ r ∈ c'.published, ∃ p, c'.generation = some p ∧ Pinned c' p r := by
  have hstep : ∀ {p r : Nat}, Pinned c p r → Pinned c' p r := pinned_change h
  have hkeep : c'.published = c.published → c'.generation = c.generation →
      ∀ r ∈ c'.published, ∃ p, c'.generation = some p ∧ Pinned c' p r := by
    intro hp hg r hr
    rw [hp] at hr
    obtain ⟨p, h1, h2⟩ := hi r hr
    exact ⟨p, hg.trans h1, hstep h2⟩
  cases h with
  | publish =>
    intro r hr
    exact ⟨_, rfl, _, List.getElem?_concat_length, mem_published_publish.1 hr⟩
  | detach => exact fun r hr => absurd hr List.not_mem_nil
  | _ => exact hkeep rfl rfl

theorem inv_change (h : Change c ks c' ks') (hbody : n .body ≤ n .mu) (hi : Inv c (plus ks n)) :
    Inv c' (plus ks' n) where
  refs := refs_change h hi.life hi.scanners hi.refs
  life := life_change h hi.life
  scanners := scanners_change h (by rw [(hi.pools c.nextGen).unmade (Nat.lt_irrefl _)]) hi.scanners
  pools := pools_change h hi.pools
  shut := shut_change h hbody hi.shut
  published := published_change h hi.published
  calm := by cases h <;> exact hi.calm

/-! ## Every task is a change -/

/-- Tasks that carry one token each. -/
theorem tokens_map {f : Nat → Task} {k : Nat → Token} (h : ∀ a, (f a).tokens = [k a]) (l : List Nat) :
    (l.map f).flatMap Task.tokens = l.map k := by
  induction l with
  | nil => rfl
  | cons a l ih => rw [List.map_cons, List.flatMap_cons, ih, h, List.map_cons, List.singleton_append]

theorem tokens_deferred (p : Option Nat) (rs : List Nat) :
    (deferred p rs).flatMap Task.tokens = .mu :: (p.toList.map .pin ++ rs.map .owner) := by
  cases p with
  | none =>
    rw [deferred, List.flatMap_cons, List.nil_append, tokens_map (k := .owner) fun _ => rfl]
    rfl
  | some p =>
    rw [deferred, List.flatMap_cons, List.flatMap_append, tokens_map (k := .owner) fun _ => rfl]
    rfl

theorem Refs.owner_pos (hi : Refs c n) (h : 0 < n (.owner r)) : 0 < (c.natives r).refs := by
  have := hi.owners r
  omega

/-- A pin in use keeps its owners' rules. -/
theorem Refs.pinned_pos (hi : Refs c n) {r : Nat} (hp : 0 < c.pinRefs p) (h : Pinned c p r) :
    0 < (c.natives r).refs := by
  obtain ⟨pin, hpin, hr⟩ := h
  have hrefs : 0 < pin.refs := by rwa [State.pinRefs, hpin] at hp
  have hholds : 0 < pin.holds r := by
    rw [GenerationPin.holds, if_neg (Nat.ne_of_gt hrefs)]
    exact List.count_pos_iff.2 hr
  have hsum : 0 < c.pinned r :=
    List.sum_pos_iff_exists_pos_nat.2
      ⟨_, List.mem_map_of_mem (List.mem_iff_getElem?.2 ⟨p, hpin⟩), hholds⟩
  have := hi.owners r
  omega

theorem Inv.published_pos (hi : Inv c n) (hr : r ∈ c.published) : 0 < (c.natives r).refs := by
  obtain ⟨p, hg, hp⟩ := hi.published r hr
  refine hi.refs.pinned_pos ?_ hp
  have := hi.refs.pins p
  rw [if_pos hg] at this
  omega

/-- Rules with an owner that nothing has claimed. -/
def Owned (x : Rules) : Prop := 0 < x.refs ∧ x.claimed = false ∧ x.managed = true

theorem Inv.owned (hi : Inv c n) (hr : 0 < (c.natives r).refs) : Owned (c.natives r) :=
  ⟨hr, ((hi.life r).used hr).2⟩

/-- Adopting rules that have an owner retains it. -/
theorem adopt_eq (h : Owned (c.natives r)) : c.adopt r = c.withRefs r ((c.natives r).refs + 1) := by
  obtain ⟨hr, hclaimed, hmanaged⟩ := h
  rw [State.adopt, hclaimed, hmanaged, if_neg (by decide), if_pos rfl, State.retainOwner,
    if_neg (Nat.ne_of_gt hr)]
  rfl

theorem load_eq (hl : Life c n) :
    c.load = { c with nextRules := c.nextRules + 1 }.setRules c.nextRules { refs := 1, managed := true } := by
  have hun : c.natives c.nextRules = {} := (hl _).unborn (Nat.lt_irrefl _)
  simp [State.load, State.adopt, hun]

theorem foldl_adopt (hnodup : rs.Nodup) (hr : ∀ r ∈ rs, Owned (c.natives r)) :
    rs.foldl State.adopt c = c.retainAll rs := by
  induction rs generalizing c with
  | nil => simp [State.retainAll]
  | cons r rs ih =>
    obtain ⟨hnot, hnodup⟩ := List.nodup_cons.1 hnodup
    have hother : ∀ q, q ≠ r → (c.withRefs r ((c.natives r).refs + 1)).natives q = c.natives q := fun q hq =>
      Function.update_of_ne hq ..
    have hself : (c.withRefs r ((c.natives r).refs + 1)).natives r =
        { c.natives r with refs := (c.natives r).refs + 1 } := Function.update_self ..
    rw [List.foldl_cons, adopt_eq (hr r (by simp)), ih hnodup]
    · unfold State.retainAll
      congr 1
      funext q
      by_cases hq : q = r
      · subst hq
        simp [hself, hnot]
      · simp [hother q hq, hq]
    · intro q hq
      rw [hother q (by rintro rfl; exact hnot hq)]
      exact hr q (by simp [hq])

theorem publishReload_eq (hb : ∀ r ∈ b.owners, Owned (c.natives r)) : c.publishReload b = c.publish b := by
  have hfold : b.owners.foldl State.adopt c = c.retainAll b.owners :=
    foldl_adopt (nodup_owners_foldl (List.nodup_singleton _)) hb
  rw [State.publishReload, hfold]
  rfl

/-- A candidate joins those a reload holds. -/
theorem perm_candidate (rs : List Nat) (r : Nat) (qs : List Nat) :
    (Token.mu :: .body :: (rs ++ r :: qs).map .owner).Perm (.owner r :: .mu :: .body :: (rs ++ qs).map .owner) := by
  rw [List.map_append, List.map_append, List.map_cons]
  show ((Token.mu :: .body :: rs.map .owner) ++ Token.owner r :: qs.map .owner).Perm
    (Token.owner r :: ((Token.mu :: .body :: rs.map .owner) ++ qs.map .owner))
  exact List.perm_middle

/-- A task with the tokens `ks`, that needs `rs`, ends in a change, and what it leaves to do carries the
tokens of the change and needs nothing new. -/
structure Allowed (c : State) (ks : List Token) (rs : List Nat) (res : State × List Task) : Prop where
  change : ∃ ks', Change c ks res.1 ks' ∧ (res.2.flatMap Task.tokens).Perm ks'
  needs : ∀ t ∈ res.2, ∀ r ∈ t.needs, r ∈ rs

theorem Allowed.intro {ts : List Task} (h : Change c ks c' ks') (hts : ts.flatMap Task.tokens = ks')
    (hn : ∀ t ∈ ts, ∀ r ∈ t.needs, r ∈ rs) : Allowed c ks rs (c', ts) := ⟨⟨ks', h, .of_eq hts⟩, hn⟩

/-- A task that only looks. -/
theorem Allowed.look {ts : List Task} (hts : ts.flatMap Task.tokens = ks)
    (hn : ∀ t ∈ ts, ∀ r ∈ t.needs, r ∈ rs) : Allowed c ks rs (c, ts) := .intro .idle hts hn

theorem needs_releaseOwners (l : List Nat) (rs : List Nat) :
    ∀ t ∈ l.map Task.releaseOwner, ∀ r ∈ t.needs, r ∈ rs := by simp

theorem needs_deferred (p : Option Nat) (l rs : List Nat) : ∀ t ∈ deferred p l, ∀ r ∈ t.needs, r ∈ rs := by
  cases p with
  | none => simp [deferred]
  | some p => simp [deferred]

theorem releasePin_allowed (hi : Refs c (plus [.pin p] n)) : Allowed c [.pin p] rs (c.releasePin p) := by
  have hrefs := hi.pins p
  have hpos := plus_cons_pos (.pin p) [] n
  cases hp : c.pins[p]? with
  | none =>
    rw [State.pinRefs, hp] at hrefs
    simp only at hrefs
    omega
  | some pin =>
    rw [State.pinRefs, hp] at hrefs
    simp only at hrefs
    simp only [State.releasePin, hp, if_neg (show pin.refs ≠ 0 by omega)]
    by_cases hone : pin.refs = 1
    · rw [if_pos hone]
      exact .intro (.releaseRoot hp hone) (tokens_map (fun _ => rfl) _) (needs_releaseOwners _ _)
    · rw [if_neg hone]
      exact .intro (.releasePin hp (by omega)) rfl (by simp)

theorem releaseOwner_allowed (hi : Refs c (plus [.owner r] n)) :
    Allowed c [.owner r] rs (c.releaseOwner r) := by
  have hpos := hi.owner_pos (plus_cons_pos (.owner r) [] n)
  rw [State.releaseOwner, if_neg (Nat.ne_of_gt hpos)]
  by_cases hone : (c.natives r).refs = 1
  · rw [if_pos hone]
    exact .intro (.releaseLast hone) rfl (by simp)
  · rw [if_neg hone]
    exact .intro (.releaseOwner (by omega)) rfl (by simp)

theorem claimOwner_allowed (hl : Life c (plus [.claim r] n)) :
    Allowed c [.claim r] rs (c.claimOwner r) := by
  have hclaim : (c.natives r).destroyClaimed = false := by
    by_contra hc
    have hzero := (hl r).claimOnce (by simpa using hc)
    exact absurd hzero (Nat.ne_of_gt (plus_cons_pos ..))
  rw [State.claimOwner, if_neg (by simp [hclaim])]
  exact .intro (.claimOwner hclaim) rfl (by simp)

theorem claimRules_allowed (hl : Life c (plus [.seize r] n)) :
    Allowed c [.seize r] rs (c.claimRules r) := by
  have hclaim : (c.natives r).claimed = false := by
    by_contra hc
    have hzero := ((hl r).seizeOnce (by simpa using hc)).2
    exact absurd hzero (Nat.ne_of_gt (plus_cons_pos ..))
  rw [State.claimRules, if_neg (by simp [hclaim])]
  exact .intro (.claimRules hclaim) rfl (by simp)

theorem swap_allowed {k : Slot} : Allowed c [.swap k] rs (c.swap k) := by
  unfold State.swap
  split
  case h_1 hk => exact .intro (.swapEmpty hk) rfl nofun
  case h_2 g hk => exact .intro (.clear hk (.inr (.inl rfl))) rfl (by simp)

theorem destroyScanner_allowed (hs : Scanners c (plus [.held g sc] n)) :
    Allowed c [.held g sc] rs (c.destroyScanner g sc) := by
  unfold State.destroyScanner
  split
  case h_1 hnone => exact .intro (.missing (by simp [hnone])) rfl (by simp)
  case h_2 s hsome =>
    split
    case h_1 hd =>
      refine .intro (.missing fun s' hs' o hd' => ?_) rfl (by simp)
      cases hsome.symm.trans hs'
      cases hd.symm.trans hd'
    case h_2 g' owner hd =>
      split
      case isTrue hg =>
        subst hg
        have howner := (hs.scanner sc s hsome).owned g' owner hd
        subst howner
        exact .intro (.unregister hsome hd) rfl (by simp)
      case isFalse hg =>
        refine .intro (.missing fun s' hs' o hd' => ?_) rfl (by simp)
        cases hsome.symm.trans hs'
        cases hd.symm.trans hd'
        exact hg rfl

theorem destroyNative_allowed {owner : Option Nat} (hs : Scanners c (plus (Task.destroyNative sc owner).tokens n)) :
    Allowed c (Task.destroyNative sc owner).tokens rs (c.destroyNative sc, owner.toList.map .releaseOwner) := by
  unfold State.destroyNative
  split
  case h_1 hnone =>
    cases owner with
    | none => exact .look rfl nofun
    | some r =>
      obtain ⟨-, s, hs', -⟩ := hs.built sc r (plus_cons_pos ..)
      cases hnone.symm.trans hs'
  case h_2 s hsome =>
    cases owner with
    | none => exact .intro (.destroyUnowned hsome) rfl nofun
    | some r => exact .intro (.destroyNative hsome) rfl (needs_releaseOwners [r] _)

theorem installCas_allowed {k : Slot} {cur : Option Nat} : Allowed c [] [r] (c.installCas k r cur) := by
  unfold State.installCas
  split
  case isTrue hk =>
    refine .intro (.install hk) ?_ (by simp [or_imp, forall_and])
    rw [List.flatMap_append, tokens_map (k := .retire) fun _ => rfl]
    rfl
  case isFalse => exact .look rfl (by simp)

theorem take_allowed {r : Nat} : Allowed c [] [r] (c.take r g) := by
  unfold State.take
  split
  case h_1 => exact .look rfl (by simp)
  case h_2 sc hf => exact .intro (.take (List.dropLast_append_getLast? sc hf).symm) rfl (by simp)

theorem put_allowed : Allowed c [.held g sc] rs (c.put g sc) := by
  unfold State.put
  split
  case isTrue => exact .look rfl (by simp)
  case isFalse hput => exact .intro (.put (by simpa using fun h => hput (.inl h))) rfl (by simp)

theorem retainManaged_eq (h : Owned (c.natives r)) :
    c.retainManaged r = (c.withRefs r ((c.natives r).refs + 1), some r) := by
  obtain ⟨hr, hclaimed, hmanaged⟩ := h
  rw [State.retainManaged, hclaimed, hmanaged, if_neg (by decide), if_pos rfl, State.retainOwner,
    if_neg (Nat.ne_of_gt hr)]
  rfl

/-- A scanner under construction has the owner of its rules. -/
theorem owner_of_tokens {owner : Option Nat} {ks : List Token}
    (hu : plus (if owner = some r then ks else [.unowned]) n .unowned = 0) : owner = some r := by
  by_contra hne
  rw [if_neg hne] at hu
  exact absurd hu (Nat.ne_of_gt (plus_cons_pos ..))

theorem loadBig_allowed
    (hi : Inv c (plus (Task.loadBig r).tokens n)) (h : turn c o (.loadBig r) = some res) :
    Allowed c (Task.loadBig r).tokens [] res := by
  cases o with
  | ok =>
    cases h
    rw [load_eq hi.life]
    exact ⟨⟨_, .load, perm_candidate [r] c.nextRules []⟩, by simp⟩
  | absent =>
    rw [turn] at h
    cases hbig : c.bigRules with
    | none =>
      simp only [hbig] at h
      cases h
      exact .look rfl (by simp)
    | some big =>
      have hpos := hi.published_pos (r := big) (by simp [State.published, hbig])
      simp only [hbig, adopt_eq (hi.owned hpos)] at h
      cases h
      exact ⟨⟨_, .retainOwner hpos, perm_candidate [r] big []⟩, by simp⟩
  | failed => cases h; exact .intro .abort (tokens_deferred none _) (needs_deferred _ _ _)

theorem publishReload_allowed (hi : Inv c (plus (Task.publishReload b).tokens n))
    (h : turn c o (.publishReload b) = some res) : Allowed c (Task.publishReload b).tokens [] res := by
  have hpos : ∀ r ∈ b.owners, 0 < (c.natives r).refs := by
    intro r hr
    refine hi.refs.owner_pos ?_
    have hmem := List.count_pos_iff.2 (List.mem_map_of_mem (f := Token.owner) (mem_owners.1 hr))
    simp only [Task.tokens, plus, List.count_cons]
    omega
  have hpub : c.publishReload b = c.publish b := publishReload_eq fun r hr => hi.owned (hpos r hr)
  cases o with
  | failed => cases h; exact .intro .abort (tokens_deferred none _) (needs_deferred _ _ _)
  | ok => cases h; rw [hpub]; exact .intro (.publish hpos) (tokens_deferred ..) (needs_deferred _ _ _)
  | absent => cases h; rw [hpub]; exact .intro (.publish hpos) (tokens_deferred ..) (needs_deferred _ _ _)

/-- No task does anything else, given its tokens and a reference to what it needs. -/
theorem turn_allowed (hi : Inv c (plus t.tokens n)) (hneed : ∀ r ∈ t.needs, 0 < (c.natives r).refs)
    (h : turn c o t = some res) : Allowed c t.tokens t.needs res := by
  cases t with
  | releasePin p => cases h; exact releasePin_allowed hi.refs
  | releaseOwner r => cases h; exact releaseOwner_allowed hi.refs
  | claimOwner r => cases h; exact claimOwner_allowed hi.life
  | claimRules r => cases h; exact claimRules_allowed hi.life
  | destroyRules r => cases h; exact .intro .destroyRules rfl (by simp)
  | forgetOwner r => cases h; exact .intro .forgetOwner rfl (by simp)
  | finishOwner r => cases h; exact .intro .finishOwner rfl (by simp)
  | lockReload =>
    rw [turn] at h
    split at h
    case isTrue => cases h
    case isFalse hmu => cases h; exact .intro (.lock (by simpa using hmu)) rfl (by simp)
  | checkClosed =>
    cases h
    split
    case isTrue => exact .look (tokens_deferred none []) (needs_deferred _ _ _)
    case isFalse hc => exact .intro (.enter (by simpa using hc)) rfl (by simp)
  | loadMain =>
    cases o with
    | ok =>
      cases h
      rw [load_eq hi.life]
      exact ⟨⟨_, .load, perm_candidate [] c.nextRules []⟩, by simp⟩
    | absent => cases h; exact .intro (@Change.abort c []) (tokens_deferred none []) (needs_deferred _ _ _)
    | failed => cases h; exact .intro (@Change.abort c []) (tokens_deferred none []) (needs_deferred _ _ _)
  | loadBig r => exact loadBig_allowed hi h
  | loadMarker r big =>
    cases o with
    | ok =>
      cases h
      rw [load_eq hi.life]
      have hperm := perm_candidate (r :: big.toList) c.nextRules []
      exact ⟨⟨_, .load, by simpa [Bundle.candidates] using hperm⟩, by simp⟩
    | absent => cases h; exact .look (by simp [Bundle.candidates]) (by simp)
    | failed => cases h; exact .intro .abort (tokens_deferred none _) (needs_deferred _ _ _)
  | publishReload b => exact publishReload_allowed hi h
  | unlockMu => cases h; exact .intro .unlock rfl (by simp)
  | lockClose =>
    rw [turn] at h
    split at h
    case isTrue => cases h
    case isFalse hmu => cases h; exact .intro (.lock (by simpa using hmu)) rfl (by simp)
  | detach =>
    cases h
    refine .intro .detach ?_ ?_
    · cases c.generation <;> rfl
    · cases c.generation <;> simp
  | swap k => cases h; exact swap_allowed
  | staleLoad k =>
    cases h
    cases c.slots k with
    | none => exact .look rfl (by simp)
    | some g => exact .look rfl (by simp)
  | staleCheck k g =>
    cases h
    split
    case isTrue => exact .look rfl (by simp)
    case isFalse => exact .look rfl (by simp)
  | staleCas k g =>
    rw [turn, State.clearSlot] at h
    split at h
    case isTrue hk => cases h; exact .intro (.clear hk (.inl rfl)) rfl (by simp)
    case isFalse => cases h; exact .look rfl (by simp)
  | retire g => cases h; exact .intro .retire (tokens_map (fun _ => rfl) _) (by simp)
  | destroyScanner g sc => cases h; exact destroyScanner_allowed hi.scanners
  | destroyNative sc owner => cases h; exact destroyNative_allowed hi.scanners
  | select r =>
    cases h
    split
    case isTrue => exact .look rfl (by simp)
    case isFalse => exact .look rfl (by simp)
  | selectBig r => cases h; exact .look rfl (by simp)
  | install k r =>
    cases k with
    | none => cases h; exact .intro .newGen rfl (by simp)
    | some k =>
      rw [turn] at h
      split at h
      case isTrue => cases h; exact .look rfl (by simp)
      case isFalse => cases h; exact .intro .newGen rfl (by simp)
  | installSlot k r =>
    cases h
    split
    case h_1 => exact .look rfl (by simp)
    case h_2 =>
      split
      case isTrue => exact .look rfl (by simp)
      case isFalse => exact .look rfl (by simp)
  | installLive k r cur =>
    cases h
    split
    case isTrue => exact .look rfl (by simp)
    case isFalse => exact .look rfl (by simp)
  | installCas k r cur => cases h; exact installCas_allowed
  | installCheck k r g =>
    cases h
    split
    case isTrue hlive => exact .intro (.unguard fun _ => by rw [hlive]; simp) rfl (by simp)
    case isFalse => exact .look rfl (by simp)
  | installClear k r g =>
    rw [turn, State.clearSlot] at h
    split at h
    case isTrue hk => cases h; exact .intro (.clear hk (.inr (.inr rfl))) rfl (by simp)
    case isFalse hk => cases h; exact .intro (.unguard fun h => absurd h hk) rfl (by simp)
  | take r g => cases h; exact take_allowed
  | retainManaged r g =>
    have hpos := hneed r (by simp)
    rw [turn, retainManaged_eq (hi.owned hpos)] at h
    cases h
    exact .intro (.retainOwner hpos) (by simp) (by simp)
  | newScanner r g owner =>
    obtain rfl : owner = some r := owner_of_tokens hi.scanners.unowned
    have htok : (Task.newScanner r g (some r)).tokens = [.owner r] := if_pos rfl
    rw [htok]
    cases o with
    | ok => cases h; exact .intro .newScanner (by simp) (by simp)
    | absent => cases h; exact .look rfl (needs_releaseOwners [r] _)
    | failed => cases h; exact .look rfl (needs_releaseOwners [r] _)
  | register r g sc owner =>
    obtain rfl : owner = some r := owner_of_tokens hi.scanners.unowned
    have htok : (Task.register r g sc (some r)).tokens = [.built sc r, .owner r] := if_pos rfl
    rw [htok] at hi ⊢
    obtain ⟨-, s, hs, -⟩ := hi.scanners.built sc r (plus_cons_pos ..)
    simp only [turn, State.register, hs] at h
    cases h
    exact .intro (.register hs) rfl (by simp)
  | put g sc => cases h; exact put_allowed

/-! ## Runs -/

/-- What the threads carry. -/
def World.tokens (w : World) : Token → Nat := tokenCount Lease.tokens Task.tokens w.threads

/-- A lease's rules are those of its pin, and a scan's tasks are about the rules of its lease. -/
structure ThreadOf (c : State) (th : Thread (Option Lease) Task) : Prop where
  lease : ∀ l, th.held = some l → ∀ r ∈ l.rules, ∃ p, l.pin = some p ∧ Pinned c p r
  needs : ∀ t ∈ th.stack, ∀ r ∈ t.needs, ∃ l, th.held = some l ∧ r ∈ l.rules

structure Good (w : World) : Prop where
  inv : Inv w.core w.tokens
  threads : ∀ th ∈ w.threads, ThreadOf w.core th

theorem ThreadOf.change (h : Change c ks c' ks') (hi : ThreadOf c th) : ThreadOf c' th :=
  ⟨fun l hl r hr => (hi.lease l hl r hr).imp fun _ hp => ⟨hp.1, pinned_change h hp.2⟩, hi.needs⟩

/-- Only a reload under `s.mu` is in its body. -/
theorem body_le_mu (ts : List (Thread (Option Lease) Task)) :
    tokenCount Lease.tokens Task.tokens ts .body ≤ tokenCount Lease.tokens Task.tokens ts .mu := by
  refine tokenCount_le (fun l => ?_) (fun t => ?_) ts
  · rcases l with _ | ⟨_ | p, rs⟩ <;> simp [Lease.tokens]
  · cases t with
    | destroyNative sc owner => cases owner <;> simp
    | newScanner r g owner => simp only [Task.tokens]; split <;> simp
    | register r g sc owner => simp only [Task.tokens]; split <;> simp
    | _ => simp

/-- The rules of a lease in hand are referenced. -/
theorem Good.lease_pos (hi : Good w) (hth : th ∈ w.threads) {l : Lease} (hl : th.held = some l) (hr : r ∈ l.rules) :
    0 < (w.core.natives r).refs := by
  obtain ⟨p, hp, hpin⟩ := (hi.threads th hth).lease l hl r hr
  refine hi.inv.refs.pinned_pos ?_ hpin
  have htok : 0 < w.tokens (.pin p) := by
    refine tokenCount_pos.2 ⟨th, hth, List.mem_append_left _ ?_⟩
    obtain ⟨pin, rules⟩ := l
    cases hp
    rw [hl]
    exact List.mem_singleton_self _
  have hrefs := hi.inv.refs.pins p
  omega

theorem good_init : Good {} where
  inv := {
    refs := ⟨fun _ => rfl, fun _ => rfl⟩
    life := fun r => ⟨fun _ => rfl, by simp [World.tokens, tokenCount], nofun, nofun, nofun, nofun⟩
    scanners := ⟨nofun, nofun, rfl⟩
    pools := fun g => ⟨fun _ => rfl, fun _ => rfl, nofun⟩
    shut := ⟨rfl, nofun, nofun, nofun⟩
    published := nofun
    calm := rfl }
  threads := nofun

/-- What one event leads to. -/
structure Next (w w' : World) : Prop where
  good : Good w'
  change : ∃ ks ks', Change w.core ks w'.core ks'

/-- A change by one thread, the rest of the pool carrying `n`. -/
theorem Good.step (hi : Good w) (hw : w.tokens = plus ks n) (hbody : n .body ≤ n .mu)
    (h : Change w.core ks c' ks') {ths : List (Thread (Option Lease) Task)}
    (hths : tokenCount Lease.tokens Task.tokens ths = plus ks' n)
    (hth : ∀ th ∈ ths, th ∈ w.threads ∨ ThreadOf w.core th) : Next w { core := c', threads := ths } := by
  refine ⟨⟨?_, fun th hmem => ((hth th hmem).elim (hi.threads th) id).change h⟩, ks, ks', h⟩
  have hinv := hi.inv
  rw [hw] at hinv
  rw [World.tokens, hths]
  exact inv_change h hbody hinv

theorem plus_nil (n : Token → Nat) : plus [] n = n := by
  funext x
  simp

/-- A new thread, that carries what a change made. -/
theorem Good.spawn (hi : Good w) (h : Change w.core [] c' ks') (hks : th.tokens Lease.tokens Task.tokens = ks')
    (hth : ThreadOf w.core th) : Next w { core := c', threads := w.threads ++ [th] } := by
  refine hi.step (plus_nil _).symm (body_le_mu _) h ?_ (fun t ht => ?_)
  · funext x
    rw [tokenCount_snoc, hks, plus, Nat.add_comm]
    rfl
  · rcases List.mem_append.1 ht with ht | ht
    · exact .inl ht
    · rw [List.mem_singleton.1 ht]
      exact .inr hth

/-- Thread `i` is replaced by one that carries the same. -/
theorem Good.setThread (hi : Good w) {i : Nat} {th' : Thread (Option Lease) Task} (hth : w.threads[i]? = some th)
    (hks : th'.tokens Lease.tokens Task.tokens = th.tokens Lease.tokens Task.tokens) (hnew : ThreadOf w.core th') :
    Next w (w.setThread i th') := by
  refine hi.step (plus_nil _).symm (body_le_mu _) .idle ?_ (fun t ht => ?_)
  · rw [plus_nil]
    funext x
    exact tokenCount_set hth hks x
  · rcases List.mem_or_eq_of_mem_set ht with ht | rfl
    · exact .inl ht
    · exact .inr hnew

/-- Thread `i` runs its first task. -/
theorem Good.run (hi : Good w) {i : Nat} {l : Option Lease} {rest : List Task}
    (hth : w.threads[i]? = some ⟨l, t :: rest⟩) (h : turn w.core o t = some res) :
    Next w { core := res.1, threads := w.threads.set i ⟨l, res.2 ++ rest⟩ } := by
  have hmem : ⟨l, t :: rest⟩ ∈ w.threads := List.mem_iff_getElem?.2 ⟨i, hth⟩
  have hthread := hi.threads _ hmem
  obtain ⟨before, after, hw, hset⟩ := split_at hth
  have htokens : w.tokens = plus t.tokens (tokenCount Lease.tokens Task.tokens (before ++ ⟨l, rest⟩ :: after)) := by
    funext x
    have hturn := @tokenCount_turn _ _ _ _ Lease.tokens Task.tokens before after l [t] rest x
    rw [World.tokens, hw, plus]
    simpa using hturn
  have hinv := hi.inv
  rw [htokens] at hinv
  have hneed : ∀ r ∈ t.needs, 0 < (w.core.natives r).refs := by
    intro r hr
    obtain ⟨l', hl', hr'⟩ := hthread.needs t (by simp) r hr
    exact hi.lease_pos hmem hl' hr'
  obtain ⟨⟨ks', hchange, hperm⟩, hneeds⟩ := turn_allowed hinv hneed h
  refine hi.step htokens (body_le_mu _) hchange ?_ (fun th hmem => ?_)
  · funext x
    rw [hset, tokenCount_turn, plus, hperm.count_eq]
  · rcases List.mem_or_eq_of_mem_set hmem with hmem | rfl
    · exact .inl hmem
    · refine .inr ⟨hthread.lease, fun t' ht' r hr => ?_⟩
      rcases List.mem_append.1 ht' with ht' | ht'
      · exact hthread.needs t (by simp) r (hneeds t' ht' r hr)
      · exact hthread.needs t' (by simp [ht']) r hr

theorem Good.acquire (hi : Good w) : Next w w.acquire := by
  unfold World.acquire
  split
  case isTrue => exact ⟨hi, [], [], .idle⟩
  case isFalse =>
    split
    case h_1 hg =>
      refine hi.spawn .idle rfl ⟨fun l hl r hr => ?_, (by simp)⟩
      cases hl
      obtain ⟨p, hp, -⟩ := hi.inv.published r hr
      exact absurd (hg.symm.trans hp) (by simp)
    case h_2 p hg =>
      have hrefs := hi.inv.refs.pins p
      rw [if_pos hg] at hrefs
      cases hp : w.core.pins[p]? with
      | none =>
        rw [State.pinRefs, hp] at hrefs
        simp only at hrefs
        omega
      | some pin =>
        rw [State.pinRefs, hp] at hrefs
        simp only at hrefs
        have hretain : w.core.retainPin p = w.core.setPin p { pin with refs := pin.refs + 1 } := by
          simp only [State.retainPin, hp]
          rw [if_neg (by omega)]
        rw [hretain]
        refine hi.spawn (.retainPin hp (by omega)) rfl ⟨fun l hl r hr => ?_, (by simp)⟩
        cases hl
        obtain ⟨q, hq, hpin⟩ := hi.inv.published r hr
        cases hg.symm.trans hq
        exact ⟨p, rfl, hpin⟩

theorem next_of_exec {w w' : World} {e : Event} (hi : Good w) (h : w.exec e = some w') : Next w w' := by
  unfold World.exec at h
  rw [if_neg (by simp [hi.inv.calm])] at h
  cases e with
  | acquire =>
    cases h
    exact hi.acquire
  | scan i r =>
    simp only at h
    split at h
    case h_1 l hth =>
      split at h
      case isTrue hr =>
        cases h
        refine hi.setThread hth rfl ⟨(hi.threads _ (List.mem_iff_getElem?.2 ⟨i, hth⟩)).lease, ?_⟩
        intro t ht q hq
        cases List.mem_singleton.1 ht
        cases List.mem_singleton.1 hq
        exact ⟨l, rfl, hr⟩
      case isFalse => cases h
    case h_2 => cases h
  | release i =>
    simp only at h
    split at h
    case h_1 l hth =>
      cases h
      refine hi.setThread hth ?_ ⟨by simp, ?_⟩
      · obtain ⟨_ | p, rs⟩ := l <;> rfl
      · intro t ht q hq
        obtain ⟨p, -, rfl⟩ := List.mem_map.1 ht
        cases hq
    case h_2 => cases h
  | reload =>
    cases h
    exact hi.spawn .idle rfl ⟨by simp, by simp⟩
  | close =>
    cases h
    exact hi.spawn .idle rfl ⟨by simp, by simp⟩
  | run i o =>
    simp only at h
    split at h
    case h_1 l t rest hth =>
      split at h
      case h_1 c ts hturn =>
        cases h
        exact hi.run hth hturn
      case h_2 => cases h
    case h_2 => cases h

theorem good_of_reachable (h : Reachable lifetimeSystem w) : Good w :=
  h.invariant (I := Good) (fun s hs => by rw [show s = {} from hs]; exact good_init)
    fun _ _ _ hi hstep => (next_of_exec hi hstep).good

/-! ## What follows -/

/-- A pool that is retired stays so. -/
theorem retired_change (h : Change c ks c' ks') (hg : g < c.nextGen) (hr : (c.gens g).retired = true) :
    (c'.gens g).retired = true := by
  have hset : ∀ q x, (q = g → x.retired = true) → ((c.setGen q x).gens g).retired = true := by
    intro q x hx
    by_cases hq : g = q
    · subst hq
      rw [show (c.setGen g x).gens g = x from Function.update_self ..]
      exact hx rfl
    · rw [show (c.setGen q x).gens g = c.gens g from Function.update_of_ne hq ..]
      exact hr
  cases h with
  | newGen => exact hset _ _ fun h => absurd hg (by omega)
  | install => exact hset _ _ fun h => absurd hg (by omega)
  | retire => exact hset _ _ fun _ => rfl
  | take => exact hset _ _ fun h => h ▸ hr
  | put => exact hset _ _ fun h => h ▸ hr
  | _ => exact hr

/-- Every lease and every scanner has been returned: no lease is out, and nothing is left to do but
calls that have not begun. -/
def World.Returned (w : World) : Prop :=
  ∀ th ∈ w.threads, th.held = none ∧ ∀ t ∈ th.stack, t = .lockReload ∨ t = .lockClose

theorem tokens_returned (h : w.Returned) (x : Token) : w.tokens x = 0 := by
  refine Nat.eq_zero_of_not_pos fun hpos => ?_
  obtain ⟨th, hth, hx⟩ := tokenCount_pos.1 hpos
  obtain ⟨hheld, hstack⟩ := h th hth
  rw [Thread.tokens, hheld] at hx
  obtain ⟨t, ht, hxt⟩ := List.mem_flatMap.1 (by simpa [Lease.tokens] using hx)
  rcases hstack t ht with rfl | rfl <;> cases hxt

/-- Once closed and returned, nothing refers to any rules. -/
theorem refs_returned (hi : Good w) (hc : w.core.closed = true) (h : w.Returned) (r : Nat) :
    (w.core.natives r).refs = 0 := by
  have hzero := tokens_returned h
  have hdetached := hi.inv.shut.detached hc
  have hpinned : w.core.pinned r = 0 := by
    refine List.sum_eq_zero_iff_forall_eq_nat.2 fun x hx => ?_
    obtain ⟨pin, hpin, rfl⟩ := List.mem_map.1 hx
    obtain ⟨p, hp⟩ := List.mem_iff_getElem?.1 hpin
    have hrefs := hi.inv.refs.pins p
    rw [hzero, hdetached.1, if_neg nofun, State.pinRefs, hp] at hrefs
    exact if_pos hrefs
  have hdepended : w.core.depended r = 0 := by
    refine List.sum_eq_zero_iff_forall_eq_nat.2 fun x hx => ?_
    obtain ⟨s, hs, rfl⟩ := List.mem_map.1 hx
    obtain ⟨sc, hsc⟩ := List.mem_iff_getElem?.1 hs
    -- A registered scanner would be in the free list of a pool, and every pool has been drained.
    cases hd : s.dependency with
    | none => simp [NativeScanner.holds, hd]
    | some d =>
      obtain ⟨g, o⟩ := d
      have hpool := hi.inv.pools g
      have hretired : (w.core.gens g).retired = true := by
        by_contra hr
        rcases hpool.kept (by simpa using hr) with ⟨k, hk⟩ | hw
        · have hguard := hi.inv.shut.slots hc k g hk
          rw [hzero, hzero] at hguard
          omega
        · rw [hzero] at hw
          omega
      have hloc := (hi.inv.scanners.scanner sc s hsc).located g o hd
      rw [hpool.drained hretired, hzero] at hloc
      simp at hloc
  have howners := hi.inv.refs.owners r
  rw [hpinned, hdepended, hzero] at howners
  exact howners

/-- The rules of a native scanner that exists are referenced. -/
theorem scanner_pos (hi : Good w) {s : NativeScanner} (hs : s ∈ w.core.natScanners)
    (ha : s.alive = true) : 0 < (w.core.natives s.rules).refs := by
  obtain ⟨sc, hsc⟩ := List.mem_iff_getElem?.1 hs
  have hscanner := hi.inv.scanners.scanner sc s hsc
  cases hd : s.dependency with
  | none =>
    have hbuilt : w.tokens (.built sc s.rules) ≤ w.tokens (.owner s.rules) := by
      refine tokenCount_le (fun l => ?_) (fun t => ?_) w.threads
      · rcases l with _ | ⟨_ | p, rs⟩ <;> simp [Lease.tokens]
      · cases t with
        | destroyNative sc' owner =>
          cases owner with
          | none => simp
          | some r =>
            simp only [Task.tokens, List.count_cons, List.count_nil]
            by_cases hr : r = s.rules
            · simp [hr]
              split <;> omega
            · simp [hr]
        | newScanner r g owner => simp only [Task.tokens]; split <;> simp
        | register r g sc' owner =>
          simp only [Task.tokens]
          split
          case isTrue =>
            simp only [List.count_cons, List.count_nil]
            by_cases hr : r = s.rules
            · simp [hr]
              split <;> omega
            · simp [hr]
          case isFalse => simp
        | _ => simp
    have halive := hscanner.alive ha hd
    exact hi.inv.refs.owner_pos (by omega)
  | some d =>
    obtain ⟨g, o⟩ := d
    have howned := hscanner.owned g o hd
    have hpos : 0 < w.core.depended s.rules :=
      List.sum_pos_iff_exists_pos_nat.2
        ⟨_, List.mem_map_of_mem hs, by simp [NativeScanner.holds, hd, howned]⟩
    have := hi.inv.refs.owners s.rules
    omega

theorem waits_of_turn (h : turn c o t = none) : (t = .lockReload ∨ t = .lockClose) ∧ c.mu = true := by
  cases t with
  | lockReload => exact ⟨.inl rfl, by simpa [turn] using h⟩
  | lockClose => exact ⟨.inr rfl, by simpa [turn] using h⟩
  | loadMain => cases o <;> cases h
  | loadBig r =>
    cases o with
    | ok => cases h
    | absent => cases hb : c.bigRules <;> simp [turn, hb] at h
    | failed => cases h
  | loadMarker r big => cases o <;> cases h
  | publishReload b => cases o <;> cases h
  | install k r =>
    cases k with
    | none => cases h
    | some k =>
      rw [turn] at h
      split at h <;> cases h
  | newScanner r g owner => cases o <;> cases h
  | _ => cases h

/-- Over every interleaving of leases, scans, reloads and `Close`: nothing panics, and nothing waits
but for `s.mu`; rules are destroyed at most once and not while a lease, the publication or a native
scanner depends on them; a retired pool stays retired and has no scanner to hand out; and once the
scanner is closed and everything has been returned, all rules that were ever adopted are destroyed. -/
theorem rules_lifetime {w : World} (h : Reachable lifetimeSystem w) :
    w.core.panicked = false ∧
    (∀ o t, turn w.core o t = none → (t = .lockReload ∨ t = .lockClose) ∧ w.core.mu = true) ∧
    (∀ r, (w.core.natives r).destroys ≤ 1) ∧
    (∀ th ∈ w.threads, ∀ l, th.held = some l → ∀ r ∈ l.rules, (w.core.natives r).destroys = 0) ∧
    (∀ r ∈ w.core.published, (w.core.natives r).destroys = 0) ∧
    (∀ s ∈ w.core.natScanners, s.alive = true → (w.core.natives s.rules).destroys = 0) ∧
    (∀ g, (w.core.gens g).retired = true → (w.core.gens g).free = []) ∧
    (∀ g < w.core.nextGen, (w.core.gens g).retired = true → ∀ e w', w.exec e = some w' →
      (w'.core.gens g).retired = true) ∧
    (w.core.closed = true → w.Returned → ∀ r < w.core.nextRules, (w.core.natives r).destroys = 1) := by
  have hi := good_of_reachable h
  refine ⟨hi.inv.calm, fun _ _ => waits_of_turn, fun r => ?_, fun th hth l hl r hr => ?_, fun r hr => ?_, fun s hs ha => ?_,
    fun g => (hi.inv.pools g).drained, fun g hg hr e w' hexec => ?_, fun hc hret r hr => ?_⟩
  · have honce := (hi.inv.life r).once
    split at honce <;> omega
  · exact ((hi.inv.life r).intact (hi.lease_pos hth hl hr)).1
  · exact ((hi.inv.life r).intact (hi.inv.published_pos hr)).1
  · exact ((hi.inv.life s.rules).intact (scanner_pos hi hs ha)).1
  · obtain ⟨ks, ks', hchange⟩ := (next_of_exec hi hexec).change
    exact retired_change hchange hg hr
  · have honce := (hi.inv.life r).once
    rw [if_pos ⟨hr, refs_returned hi hc hret r⟩, tokens_returned hret, tokens_returned hret,
      tokens_returned hret] at honce
    exact honce

/-- Thread `i` runs `n` tasks. -/
def runs (i n : Nat) : List Event := List.replicate n (.run i .ok)

/-- A reload; a lease that takes a scanner out of the pool; `Close`; and only then the scanner and the
lease are returned. -/
def sampleEvents : List Event :=
  .reload :: (runs 0 3 ++ (.run 0 .absent :: .run 0 .absent :: (runs 0 3 ++ (.acquire :: .scan 1 0 ::
    (runs 1 12 ++ (.close :: (runs 2 7 ++ (runs 1 4 ++ (.release 1 :: runs 1 7)))))))))

def sampleWorld : World := (sampleEvents.foldlM World.exec {}).getD {}

theorem rules_lifetime_closed : Reachable lifetimeSystem sampleWorld ∧ sampleWorld.core.closed = true ∧
    sampleWorld.Returned ∧ sampleWorld.core.nextRules = 1 ∧ (sampleWorld.core.natives 0).destroys = 1 := by
  have hsome : (sampleEvents.foldlM World.exec {}).isSome = true := by decide +kernel
  have hrun : sampleEvents.foldlM World.exec {} = some sampleWorld := by
    obtain ⟨w, hw⟩ := Option.isSome_iff_exists.1 hsome
    rw [sampleWorld, hw]
    rfl
  have hreach : Reachable lifetimeSystem sampleWorld := ⟨{}, sampleEvents, rfl, Run.of_foldlM (fun _ _ _ h => h) hrun⟩
  have hidle : ∀ th ∈ sampleWorld.threads, th.held.isNone = true ∧ th.stack.isEmpty = true := by decide +kernel
  have hret : sampleWorld.Returned := by
    intro th hth
    obtain ⟨hheld, hstack⟩ := hidle th hth
    refine ⟨Option.isNone_iff_eq_none.1 hheld, ?_⟩
    rw [List.isEmpty_iff.1 hstack]
    exact nofun
  have hclosed : sampleWorld.core.closed = true := by decide +kernel
  have hnext : sampleWorld.core.nextRules = 1 := by decide +kernel
  obtain ⟨-, -, -, -, -, -, -, -, hgone⟩ := rules_lifetime hreach
  exact ⟨hreach, hclosed, hret, hnext, hgone hclosed hret 0 (by rw [hnext]; exact Nat.one_pos)⟩

end MS.Native
