import Mailstrix.Proof.Rules.Section

/-!
# Installing is monotone and all-or-nothing

Over every interleaving of fetchers: a section that returns an error has restored the directory it
found, unless the error says otherwise, and the trusted version does not fall from one section to the
next (`install_monotone`).  The latter needs `trustedLocalManifest` to be able to read: taking an
unreadable record for version 0, a fetcher installs an older bundle over a newer one
(`install_downgrades`).
-/

namespace MS.Rules

open Framework

variable {pf : Platform} {fs : Path → Option (Node pf.Content)} {w w' : World pf.Content}

/-- The directory as the last section left it. -/
def World.base (w : World pf.Content) : Name → Option (Node pf.Content) :=
  match w.holder with
  | some h => h.before
  | none => w.live

/-- The trusted versions at which the lock was taken and released, in order. -/
def versions (pf : Platform) (log : List (Transaction pf.Content)) : List Int :=
  log.flatMap fun t => [trustedVersion pf t.before, trustedVersion pf t.after]

/-- What a section that has ended came to. -/
structure Ended (pf : Platform) (t : Transaction pf.Content) : Prop where
  error : ∀ res err, t.outcome = .returned res (some err) → err.rollbackFailed = false → Same pf t.before t.after
  version : t.failures ≤ 1 → t.misread = false → trustedVersion pf t.before ≤ trustedVersion pf t.after

/-- At most one call of the section failed, and none of those `trustedLocalManifest` makes. -/
def Transaction.Clear {C : Type} (t : Transaction C) : Prop := t.failures ≤ 1 ∧ t.misread = false

structure Good (pf : Platform) (w : World pf.Content) : Prop where
  ready : ∀ i, w.free i = true → (w.fetchers i).phase.Ready pf (w.fetchers i).files
  busy : ∀ h, w.holder = some h → Prog.After (perform pf) h.rest (w.view h) (Settled pf h.before)
  ended : ∀ t ∈ w.log, Ended pf t
  sorted : (∀ t ∈ w.log, t.Clear) → (versions pf w.log).Pairwise (· ≤ ·) ∧
    ∀ v ∈ versions pf w.log, v ≤ trustedVersion pf w.base

theorem Phase.Ready.congr {phase : Phase pf.Content} {fs' : Path → Option (Node pf.Content)} (h : phase.Ready pf fs)
    (hfs : ∀ p, (∀ n, p ≠ .live n) → fs' p = fs p) : phase.Ready pf fs' := by
  have haside : ∀ e, fs' (.aside e) = fs (.aside e) := fun e => hfs _ fun _ => nofun
  have hstaged : ∀ e, fs' (.staged e) = fs (.staged e) := fun e => hfs _ fun _ => nofun
  have hdown : fs' .download = fs .download := hfs _ fun _ => nofun
  cases phase with
  | returned => trivial
  | _ => simpa only [Phase.Ready, haside, hstaged, hdown] using h

/-- The view of a section, after a call. -/
theorem merge_self {C : Type} (fs : Path → Option (Node C)) : merge (fun n => fs (.live n)) fs = fs := by
  funext p
  cases p <;> rfl

/-! ## Outside the lock -/

/-- A fetcher without the lock moves on. -/
theorem Good.setFetcher (hw : Good pf w) {i : Nat} (hfree : w.free i = true) {f : Fetcher pf.Content}
    (hf : f.phase.Ready pf f.files) : Good pf (w.setFetcher i f) := by
  refine ⟨fun j hj => ?_, fun h hh => ?_, hw.ended, hw.sorted⟩
  · by_cases hji : j = i
    · subst hji
      simp [World.setFetcher, hf]
    · simpa [World.setFetcher, hji] using hw.ready j hj
  · have hne : h.fetcher ≠ i := by
      have hh' : w.holder = some h := hh
      simpa [World.free, hh'] using hfree
    have hview : (w.setFetcher i f).view h = w.view h := by
      simp [World.view, World.setFetcher, hne]
    rw [hview]
    exact hw.busy h hh

theorem ready_gotManifest {opts : FetchOptions} {res : FetchResult} {loc : LocalRulesRecord}
    {a : Except FetchError RemoteManifest} (h : ∀ e, fs (.aside e) = none) :
    (gotManifest pf opts res loc a).Ready pf fs := by
  unfold gotManifest
  split
  · trivial
  · simp only
    split_ifs
    all_goals trivial

theorem ready_gotBundle {opts : FetchOptions} {res : FetchResult} {remote : RemoteManifest}
    {a : Except FetchError pf.Content} (h : ∀ e, fs (.aside e) = none) :
    (gotBundle pf opts res remote a).Ready pf (Function.update fs .download (a.toOption.map .file)) := by
  unfold gotBundle
  split
  · trivial
  · rename_i c
    split
    · trivial
    · rename_i hver
      split
      · trivial
      · refine ⟨fun e => ?_, c, ?_, by simpa using hver⟩
        · simp [h e]
        · simp [Except.toOption]

theorem placeTree_staged {C : Type} (fs : Path → Option (Node C)) {tree : Option (Entry → Node C)}
    (h : tree.isSome = true) (e : Entry) : ∃ n, placeTree fs tree (.staged e) = some n := by
  obtain ⟨t, rfl⟩ := Option.isSome_iff_exists.1 h
  exact ⟨t e, rfl⟩

/-! ## Under the lock -/

/-- The lock is taken: what its section will come to is known. -/
theorem good_lock (hw : Good pf w) {i : Nat} (h : w.exec pf (.lock i) = some w') : Good pf w' := by
  simp only [World.exec] at h
  split at h
  case h_2 => cases h
  case h_1 res body hnone hbody =>
  cases h
  have hready : (w.fetchers i).phase.Ready pf (w.fetchers i).files := hw.ready i (by simp [World.free, hnone])
  have hbase : w.base = w.live := by simp only [World.base, hnone]
  refine ⟨fun j hj => hw.ready j (by simp [World.free, hnone]), fun h' hh => ?_, hw.ended, ?_⟩
  · cases hh
    refine after_section hbody (Phase.Ready.congr hready fun p hp => ?_)
    cases p with
    | live n => exact absurd rfl (hp n)
    | _ => rfl
  · intro hclear
    obtain ⟨hsorted, hbelow⟩ := hw.sorted hclear
    exact ⟨hsorted, fun v hv => hbase ▸ hbelow v hv⟩

/-- One call of the section is made. -/
theorem good_step (hw : Good pf w) {k : Input pf.Content} (h : w.exec pf (.step k) = some w') : Good pf w' := by
  simp only [World.exec] at h
  split at h
  case h_2 => cases h
  case h_1 holder hh =>
  split at h
  case h_2 => cases h
  case h_1 op next hrest =>
  cases h
  have hbusy := hw.busy holder hh
  rw [hrest] at hbusy
  refine ⟨fun j hj => ?_, fun h' hh' => ?_, hw.ended, fun hclear => ?_⟩
  · have hne : j ≠ holder.fetcher := fun heq => by simp [World.free, heq] at hj
    have hfree : w.free j = true := by simp [World.free, hh, hne.symm]
    simpa [World.setFetcher, hne] using hw.ready j hfree
  · cases hh'
    have hview := hbusy k
    simp only [World.view, World.setFetcher, Function.update_self, merge_self]
    exact hview
  · obtain ⟨hsorted, hbelow⟩ := hw.sorted hclear
    refine ⟨hsorted, fun v hv => ?_⟩
    have hle := hbelow v hv
    simpa only [World.base, hh] using hle

/-- The lock is released: the section is on record. -/
theorem good_unlock (hw : Good pf w) (h : w.exec pf .unlock = some w') : Good pf w' := by
  simp only [World.exec] at h
  split at h
  case h_2 => cases h
  case h_1 holder hh =>
  split at h
  case h_2 => cases h
  case h_1 next hrest =>
  cases h
  have hsettled : Settled pf holder.before next (w.view holder) := by
    have hbusy := hw.busy holder hh
    rw [hrest] at hbusy
    exact hbusy
  have hbase : w.base = holder.before := by simp only [World.base, hh]
  have hended : Ended pf (holder.transaction w.live next) := by
    refine ⟨fun res err hout hok => ?_, fun hfail hmis => hsettled.version hmis hfail⟩
    rcases hsettled.error res err hout with ⟨hbad, -⟩ | hsame
    · rw [hok] at hbad
      cases hbad
    · exact hsame
  refine ⟨fun j _ => ?_, fun h' hh' => (by cases hh'), fun t ht => ?_, fun hclear => ?_⟩
  · by_cases hj : j = holder.fetcher
    · subst hj
      have hready := @Phase.Ready.congr pf _ next (w.fetchers holder.fetcher).files hsettled.ready fun p hp => by
        cases p with
        | live n => exact absurd rfl (hp n)
        | _ => rfl
      simpa [World.setPhase, World.setFetcher] using hready
    · have hfree : w.free j = true := by simp [World.free, hh, Ne.symm hj]
      simpa [World.setPhase, World.setFetcher, hj] using hw.ready j hfree
  · rcases List.mem_append.1 ht with ht | ht
    · exact hw.ended t ht
    · rw [List.mem_singleton.1 ht]
      exact hended
  · have hold := hw.sorted fun t ht => hclear t (List.mem_append_left _ ht)
    have hlast := hclear _ (List.mem_append_right _ (List.mem_singleton.2 rfl))
    have hle : trustedVersion pf holder.before ≤ trustedVersion pf w.live := hended.version hlast.1 hlast.2
    rw [hbase] at hold
    obtain ⟨hsorted, hbelow⟩ := hold
    have hsplit : versions pf (w.log ++ [holder.transaction w.live next]) =
        versions pf w.log ++ [trustedVersion pf holder.before, trustedVersion pf w.live] := by
      simp [versions, Holder.transaction]
    show List.Pairwise _ (versions pf (w.log ++ [holder.transaction w.live next])) ∧
      ∀ v ∈ versions pf (w.log ++ [holder.transaction w.live next]), v ≤ trustedVersion pf w.live
    rw [hsplit]
    refine ⟨List.pairwise_append.2 ⟨hsorted, ?_, fun v hv u hu => ?_⟩, fun v hv => ?_⟩
    · simpa using hle
    · have hv' := hbelow v hv
      rcases List.mem_cons.1 hu with rfl | hu
      · exact hv'
      · rw [List.mem_singleton.1 hu]
        omega
    · rcases List.mem_append.1 hv with hv | hv
      · have hv' := hbelow v hv
        omega
      · rcases List.mem_cons.1 hv with rfl | hv
        · exact hle
        · exact Int.le_of_eq (List.mem_singleton.1 hv)

theorem good_exec {e : Event pf.Content} (hw : Good pf w) (h : w.exec pf e = some w') : Good pf w' := by
  cases e with
  | lock i => exact good_lock hw h
  | step k => exact good_step hw h
  | unlock => exact good_unlock hw h
  | begin i opts =>
    simp only [World.exec] at h
    split at h
    case h_2 => cases h
    case h_1 =>
    obtain ⟨hfree, h⟩ := Option.ite_none_right_eq_some.1 h
    cases h
    exact hw.setFetcher hfree fun _ => rfl
  | manifest i a =>
    simp only [World.exec] at h
    split at h
    case h_2 => cases h
    case h_1 opts res loc hphase =>
    obtain ⟨hfree, h⟩ := Option.ite_none_right_eq_some.1 h
    cases h
    have hready := hphase ▸ hw.ready i hfree
    exact hw.setFetcher hfree (ready_gotManifest hready)
  | bundle i a =>
    simp only [World.exec] at h
    split at h
    case h_2 => cases h
    case h_1 opts res remote hphase =>
    obtain ⟨hfree, h⟩ := Option.ite_none_right_eq_some.1 h
    cases h
    have hready := hphase ▸ hw.ready i hfree
    exact hw.setFetcher hfree (ready_gotBundle hready)
  | stage i now a =>
    simp only [World.exec] at h
    split at h
    case h_1 opts res remote newCount hphase =>
      obtain ⟨hfree, h⟩ := Option.ite_none_right_eq_some.1 h
      cases h
      have hready := hphase ▸ hw.ready i hfree
      exact hw.setFetcher hfree ⟨hready.1, hready.2, fun hs e => placeTree_staged (w.fetchers i).files hs e⟩
    case h_2 opts res remote claim started hphase =>
      obtain ⟨hfree, h⟩ := Option.ite_none_right_eq_some.1 h
      cases h
      have hready := hphase ▸ hw.ready i hfree
      exact hw.setFetcher hfree ⟨hready, fun hs e => placeTree_staged (w.fetchers i).files hs e⟩
    case h_3 => cases h
  | lockFailed i e =>
    simp only [World.exec] at h
    split at h
    case h_2 => cases h
    case h_1 =>
    obtain ⟨hfree, h⟩ := Option.ite_none_right_eq_some.1 h
    cases h
    exact hw.setFetcher hfree trivial

/-- A directory and fetchers at rest. -/
theorem good_init (h : (installSystem pf).init w) : Good pf w := by
  obtain ⟨hholder, hlog, hidle⟩ := h
  refine ⟨fun i _ => by rw [hidle i]; trivial, fun h' hh => ?_, fun t ht => ?_, fun _ => ?_⟩
  · rw [hholder] at hh
    cases hh
  · rw [hlog] at ht
    cases ht
  · rw [hlog]
    exact ⟨List.Pairwise.nil, nofun⟩

theorem good_of_reachable (h : Reachable (installSystem pf) w) : Good pf w :=
  h.invariant (fun _ => good_init) fun _ _ _ hw hstep => good_exec hw hstep

/-! ## Sample runs -/

/-- Contents that are a record, or a bundle told apart by a number. -/
def samplePlatform : Platform where
  Content := LocalRulesRecord ⊕ Nat
  size := fun _ => 1
  digest := fun c => match c with
    | .inl _ => "record"
    | .inr n => toString n
  ruleCount := fun c => match c with
    | .inl _ => none
    | .inr _ => some 10
  encode := .inl
  decode := fun c => match c with
    | .inl r => some r
    | .inr _ => none
  decode_encode := fun _ => rfl
  markerABIMatches := fun _ => false

/-- The release with version `n`. -/
def sampleRelease (n : Nat) : RemoteManifest :=
  { manifest := { version := n, checksum := "sha256:" ++ toString n, size := 1, libyara := "4.5" } }

def steps (n : Nat) : List (Event samplePlatform.Content) := List.replicate n (.step {})

/-- A fetcher gets as far as waiting for the install lock, with the release `n` in hand; `reads` calls
look for the local record. -/
def sampleFetch (i n reads : Nat) (opts : FetchOptions) : List (Event samplePlatform.Content) :=
  .begin i opts :: .lock i :: steps reads ++
    [.unlock, .manifest i (.ok (sampleRelease n)), .bundle i (.ok (.inr n)), .stage i 0 .noBudget]

def runSample (es : List (Event samplePlatform.Content)) : World samplePlatform.Content :=
  (es.foldlM (World.exec samplePlatform) {}).getD {}

theorem reachable_sample {es : List (Event samplePlatform.Content)}
    (h : (es.foldlM (World.exec samplePlatform) {}).isSome = true) :
    Reachable (installSystem samplePlatform) (runSample es) := by
  obtain ⟨w, hw⟩ := Option.isSome_iff_exists.1 h
  refine ⟨{}, es, ⟨rfl, rfl, fun _ => rfl⟩, Run.of_foldlM (fun _ _ _ h => h) ?_⟩
  rw [runSample, hw]
  rfl

/-! ## Main results -/

/-- Over every interleaving of fetchers and every failure of calls: a section that returns an error
without reporting a failed rollback leaves the bundle, its backup and the marker tree as it found them,
and a record that decodes to the same.  If in no section more than one call fails, and none of those
that read for `trustedLocalManifest`, the trusted version never decreases. -/
theorem install_monotone (pf : Platform) {w : World pf.Content} (h : Reachable (installSystem pf) w) :
    (∀ t ∈ w.log, ∀ res err, t.outcome = .returned res (some err) → err.rollbackFailed = false → Same pf t.before t.after) ∧
    ((∀ t ∈ w.log, t.failures ≤ 1 ∧ t.misread = false) → (versions pf w.log).Pairwise (· ≤ ·)) := by
  have hw := good_of_reachable h
  exact ⟨fun t ht => (hw.ended t ht).error, fun hclear => (hw.sorted hclear).1⟩

/-- Version 1 is installed on an empty directory; then version 2, whose reload fails. -/
def rolledBack : List (Event samplePlatform.Content) :=
  sampleFetch 0 1 1 {} ++ (.lock 0 :: steps 19) ++ (.unlock :: sampleFetch 1 2 3 { reload := true }) ++
    (.lock 1 :: steps 43) ++ (.step { fault := true } :: steps 3) ++ [.unlock]

/-- The transaction ended with an error, and its rollback did not fail. -/
def Phase.undone {C : Type} : Phase C → Bool
  | .returned _ (some err) => !err.rollbackFailed
  | _ => false

theorem install_monotone_rolledBack : ∃ t ∈ (runSample rolledBack).log, t.failures = 1 ∧
    trustedVersion samplePlatform t.before = 1 ∧ Same samplePlatform t.before t.after ∧
    (versions samplePlatform (runSample rolledBack).log).Pairwise (· ≤ ·) := by
  have hreach : Reachable (installSystem samplePlatform) (runSample rolledBack) := reachable_sample (by decide +kernel)
  have hlast : ((runSample rolledBack).log.any fun t => t.failures == 1 && trustedVersion samplePlatform t.before == 1 &&
      t.outcome.undone) = true := by decide +kernel
  have hclear : ∀ t ∈ (runSample rolledBack).log, t.failures ≤ 1 ∧ t.misread = false := by decide +kernel
  obtain ⟨herror, hsorted⟩ := install_monotone samplePlatform hreach
  obtain ⟨t, ht, hcheck⟩ := List.any_eq_true.1 hlast
  rw [Bool.and_eq_true, Bool.and_eq_true, beq_iff_eq, beq_iff_eq] at hcheck
  obtain ⟨⟨hone, hver⟩, hout⟩ := hcheck
  unfold Phase.undone at hout
  split at hout
  case h_2 => cases hout
  case h_1 res err hphase =>
    exact ⟨t, ht, hone, hver, herror t ht res err hphase (by simpa using hout), hsorted hclear⟩

/-- Both fetchers start on an empty directory.  The one with version 2 installs it; then the other's
read of the record fails. -/
def misreadRecord : List (Event samplePlatform.Content) :=
  sampleFetch 0 1 1 {} ++ sampleFetch 1 2 1 {} ++ (.lock 1 :: steps 19) ++
    (.unlock :: .lock 0 :: .step { fault := true } :: steps 40) ++ [.unlock]

/-- A single failed read, and the trusted version falls from 2 to 1. -/
theorem install_downgrades : Reachable (installSystem samplePlatform) (runSample misreadRecord) ∧
    (∀ t ∈ (runSample misreadRecord).log, t.failures ≤ 1) ∧
    versions samplePlatform (runSample misreadRecord).log = [0, 0, 0, 0, 0, 2, 2, 1] ∧
    ¬ (versions samplePlatform (runSample misreadRecord).log).Pairwise (· ≤ ·) := by
  have hversions : versions samplePlatform (runSample misreadRecord).log = [0, 0, 0, 0, 0, 2, 2, 1] := by decide +kernel
  refine ⟨reachable_sample (by decide +kernel), by decide +kernel, hversions, ?_⟩
  rw [hversions]
  decide

end MS.Rules
