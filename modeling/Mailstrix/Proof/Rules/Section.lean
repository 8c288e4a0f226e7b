import Mailstrix.Proof.Rules.Files

/-!
# What a section under the lock leaves

A section either leaves the directory as it was, or completes, or reports that it could not undo what
it had begun; the last takes two failed calls, the one that stopped it and one of the rollback
(`Undone`).  Completing, it does not lower the trusted version, provided `trustedLocalManifest` could
read what it looked at (`after_section`).
-/

namespace MS.Rules

open Framework

variable {pf : Platform} {d d' : Name → Option (Node pf.Content)} {C : Type} {s' : View C} {loc : LocalRulesRecord}
  {s : View pf.Content} {existed : List Name} {staged : Bool} {c : pf.Content} {res : FetchResult}
  {remote : RemoteManifest} {opts : FetchOptions}

/-! ## Rolling back -/

/-- The directory is as it was, up to the bytes of a record that decodes alike. -/
structure Same (pf : Platform) (d d' : Name → Option (Node pf.Content)) : Prop where
  bundle : d' .bundle = d .bundle
  backup : d' .backup = d .backup
  entry : ∀ e, d' (.entry e) = d (.entry e)
  record : decoded pf d' = decoded pf d

theorem Same.of_eq {d : Name → Option (Node pf.Content)} (h : ∀ n, d' n = d n) : Same pf d d' :=
  ⟨h _, h _, fun _ => h _, by simp only [decoded, h]⟩

theorem Same.trusted {d : Name → Option (Node pf.Content)} (h : Same pf d d') : trusted pf d' = trusted pf d := by
  simp only [MS.Rules.trusted, h.record, h.bundle]

/-- An error leaves the directory as it was, unless it says that it does not; that takes two failures. -/
def Undone (pf : Platform) (d : Name → Option (Node pf.Content)) (err : FetchError) (s : View pf.Content) : Prop :=
  err.rollbackFailed = true ∧ 2 ≤ s.failures ∨ Same pf d s.live

/-- The files that a retry's rollback does not put back are as they were, and its record can be written. -/
structure Kept {C : Type} (d : Name → Option (Node C)) (s : View C) : Prop where
  bundle : s.live .bundle = d .bundle
  backup : s.live .backup = d .backup
  record : Regular (s.live .record)

theorem Kept.congr {d : Name → Option (Node C)} {s : View C} (h : Kept d s)
    (hlive : ∀ n ∈ cacheFiles, s'.live n = s.live n) : Kept d s' where
  bundle := (hlive _ (by decide)).trans h.bundle
  backup := (hlive _ (by decide)).trans h.backup
  record := by rw [hlive _ (by decide)]; exact h.record

theorem after_rollbackRetry {w : MarkerTreeSwap} (cause : FetchError) (h : Undo (fun e => d (.entry e)) w s)
    (hkept : Kept d s) (hloc : decoded pf d = some loc) (hfail : 0 < s.failures) :
    Prog.After (perform pf) (rollbackRetry pf w loc cause) s (Undone pf d) := by
  refine Prog.After.bind (after_grown (after_restore h)) ?_
  rintro recs s₁ ⟨⟨hoff, htree, hlt⟩, hgrow₁⟩
  have hle₁ := hgrow₁.failures
  have hkept₁ := hkept.congr fun _ hn => hoff.live hn
  refine Prog.After.bind (after_grown (after_writeLocalManifest loc s₁)) ?_
  rintro a s₂ ⟨⟨hw, hlt₂⟩, hgrow₂⟩
  have hle₂ := hgrow₂.failures
  cases a with
  | error e =>
    have hlast := hlt₂ e rfl hkept₁.record
    rw [if_neg (by simp)]
    exact Prog.after_pure (.inl ⟨rfl, by omega⟩)
  | ok u =>
    by_cases hrecs : recs = []
    · rw [if_pos hrecs]
      refine Prog.after_pure (.inr ⟨?_, ?_, fun e => ?_, ?_⟩)
      · exact (hw.live_of_ne .bundle nofun).trans hkept₁.bundle
      · exact (hw.live_of_ne .backup nofun).trans hkept₁.backup
      · exact (hw.live_of_ne (.entry e) nofun).trans (htree hrecs e)
      · have hrec : s₂.live .record = some (.file (pf.encode loc)) := hw.ok rfl
        simp only [decoded, hrec, pf.decode_encode, ← hloc]
    · rw [if_neg hrecs]
      have hfirst := hlt hrecs
      exact Prog.after_pure (.inl ⟨rfl, by omega⟩)

/-- What a retry that installs its tree starts from. -/
structure RetryReady (pf : Platform) (loc : LocalRulesRecord) (s : View pf.Content) : Prop where
  record : ∃ c, s.live .record = some (.file c) ∧ pf.decode c = some loc
  aside : ∀ e, s.fs (.aside e) = none
  staged : ∀ e, ∃ n, s.fs (.staged e) = some n

theorem RetryReady.congr {s' : View pf.Content} (h : RetryReady pf loc s) (hfs : s'.fs = s.fs) :
    RetryReady pf loc s' := by
  obtain ⟨h1, h2, h3⟩ := h
  refine ⟨?_, by rwa [hfs], by rwa [hfs]⟩
  rwa [View.live, hfs]

/-- How a retry ends: in an error that is undone, or with its claim dropped. -/
def Retried (pf : Platform) (d : Name → Option (Node pf.Content)) (loc : LocalRulesRecord) (err : Option FetchError)
    (s : View pf.Content) : Prop :=
  (∀ e, err = some e → Undone pf d e s) ∧
  (err = none → s.live .bundle = d .bundle ∧
    s.live .record = some (.file (pf.encode { loc with markerRetry := none })))

/-- A retry installs its tree and drops the claim, or leaves things as they were. -/
theorem after_installRetriedMarker (h : RetryReady pf loc s) (opts : FetchOptions) :
    Prog.After (perform pf) (installRetriedMarker pf loc opts) s (Retried pf s.live loc) := by
  have hstop : ∀ (e : FetchError) (s' : View pf.Content), s'.fs = s.fs → Retried pf s.live loc (some e) s' :=
    fun e s' hfs => ⟨fun _ _ => .inr (.of_eq fun n => by rw [live_congr hfs]), (by simp)⟩
  unfold installRetriedMarker
  refine Prog.After.bind (after_idle rfl s) fun a s₁ hfs₁ => ?_
  cases a with
  | error e => exact Prog.after_pure (hstop _ s₁ hfs₁)
  | ok r =>
  refine Prog.After.bind (after_idle rfl s₁) fun a s₂ hfs => ?_
  have hfs₂ := hfs.trans hfs₁
  cases a with
  | error e => exact Prog.after_pure (hstop _ s₂ hfs₂)
  | ok r =>
  have hlive₂ : ∀ n, s₂.live n = s.live n := fun n => by rw [live_congr hfs₂]
  obtain ⟨⟨c, hc, hdec⟩, haside, hstaged⟩ := h.congr hfs₂
  have hloc : decoded pf s.live = some loc := by simp only [decoded, ← hlive₂, hc, hdec]
  -- From here on an error rolls back: the swap can be undone and the three files are as they were.
  have hundo : ∀ (w : MarkerTreeSwap) (cause : FetchError) (t : View pf.Content), Undo (fun e => s.live (.entry e)) w t →
      Kept s.live t → 0 < t.failures →
      Prog.After (perform pf) (do return some (← rollbackRetry pf w loc cause)) t (Retried pf s.live loc) := by
    intro w cause t hw hk hf
    refine Prog.After.bind (after_rollbackRetry cause hw hk hloc hf) fun err s' hdone => ?_
    refine Prog.after_pure ⟨fun e he => ?_, (by simp)⟩
    cases he
    exact hdone
  have hk₂ : Kept s.live s₂ := ⟨hlive₂ _, hlive₂ _, by rw [hc]; exact regular_file c⟩
  refine Prog.After.bind (after_retire (fun e => hlive₂ (.entry e)) haside) ?_
  rintro ⟨w, err⟩ s₃ ⟨hw₃, hoff₃, hst₃, hdone₃, hlt₃⟩
  have hk₃ := hk₂.congr fun _ hn => hoff₃.live hn
  cases err with
  | some e => exact hundo w _ s₃ hw₃ hk₃ (Nat.zero_lt_of_lt (hlt₃ e rfl))
  | none =>
  obtain ⟨hgone₃, hfresh₃⟩ := hdone₃ rfl
  refine Prog.After.bind (after_install hw₃ hfresh₃ hgone₃ fun e => by rw [hst₃]; exact hstaged e) ?_
  rintro ⟨w, err⟩ s₄ ⟨hw₄, hoff₄, hlt₄⟩
  have hk₄ := hk₃.congr fun _ hn => hoff₄.live hn
  cases err with
  | some e => exact hundo w _ s₄ hw₄ hk₄ (Nat.zero_lt_of_lt (hlt₄ e rfl))
  | none =>
  refine Prog.After.bind (after_writeLocalManifest _ s₄) ?_
  rintro a s₅ ⟨hwr, hlt₅⟩
  have hw₅ := hw₄.congr hwr.ofTree
  have hk₅ : Kept s.live s₅ := ⟨(hwr.live_of_ne .bundle (by simp)).trans hk₄.bundle,
    (hwr.live_of_ne .backup (by simp)).trans hk₄.backup, hwr.regular hk₄.record⟩
  cases a with
  | error e => exact hundo w _ s₅ hw₅ hk₅ (Nat.zero_lt_of_lt (hlt₅ e rfl hk₄.record))
  | ok u =>
  have hrec₅ : s₅.live .record = _ := hwr.ok rfl
  simp only
  split
  case isFalse => exact Prog.after_pure ⟨(by simp), fun _ => ⟨hk₅.bundle, hrec₅⟩⟩
  case isTrue =>
  refine Prog.After.bind (after_sure rfl rfl s₅) ?_
  rintro a s₆ ⟨hfs₆, -, hlt₆⟩
  have hlive₆ : ∀ n, s₆.live n = s₅.live n := fun n => by rw [live_congr hfs₆]
  have hk₆ := hk₅.congr fun n _ => hlive₆ n
  cases a with
  | error e => exact hundo w _ s₆ (hw₅.congr fun p _ => by rw [hfs₆]) hk₆ (Nat.zero_lt_of_lt (hlt₆ e rfl))
  | ok r => exact Prog.after_pure ⟨(by simp), fun _ => ⟨hk₆.bundle, (hlive₆ _).trans hrec₅⟩⟩

/-! ## The install transaction -/

theorem after_remove {p : Path} (hreg : Regular (s.fs p)) {Q : Answer pf.Content → View pf.Content → Prop}
    (hok : ∀ s', s'.fs = Function.update s.fs p none → Q (.ok .done) s')
    (hnone : s.fs p = none → Q (.error .notExist) s)
    (hio : ∀ s', s'.fs = s.fs → s.failures < s'.failures → Q (.error .io) s') :
    Prog.After (perform pf) (call (.remove p)) s Q := by
  refine Prog.after_ask fun k => ?_
  unfold perform
  split
  case isTrue =>
    obtain ⟨hf, -, hfs⟩ := s.fail_spec (.remove p) k.left
    show Q (.error .io) (s.fail (.remove p) k.left)
    exact hio _ (funext fun q => hfs q nofun) (by omega)
  case isFalse =>
    simp only
    split
    case h_1 => exact hok _ rfl
    case h_2 => exact hok _ rfl
    case h_3 hd =>
      obtain ⟨c, hc⟩ := hreg _ hd
      cases hc
    case h_4 hn => exact hnone hn

/-- The rollback copies of the files `d` has, in a view in which those files may have changed. -/
structure Saved {C : Type} (d : Name → Option (Node C)) (existed : List Name) (s : View C) : Prop where
  copy : ∀ n ∈ existed, ∃ c, d n = some (.file c) ∧ s.fs (.saved n) = some (.file c)
  absent : ∀ n ∈ cacheFiles, n ∉ existed → d n = none
  regular : ∀ n ∈ cacheFiles, Regular (s.live n)

theorem Saved.congr {d : Name → Option (Node C)} {s : View C} (h : Saved d existed s)
    (hsaved : ∀ n, s'.fs (.saved n) = s.fs (.saved n)) (hlive : ∀ n ∈ cacheFiles, Regular (s'.live n)) :
    Saved d existed s' := by
  refine ⟨fun n hn => ?_, h.absent, hlive⟩
  rw [hsaved]
  exact h.copy n hn

theorem Saved.write {d : Name → Option (Node C)} {s : View C} {a : Except Errno Unit} {c : C} (h : Saved d existed s)
    (hw : Written (.live .record) s a s' c) : Saved d existed s' := by
  refine h.congr (fun n => hw.others _ nofun nofun) fun n hn => ?_
  by_cases hr : n = .record
  · rw [hr]
    exact hw.regular (h.regular .record (by decide))
  · rw [hw.live_of_ne n hr]
    exact h.regular n hn

theorem after_putBack_one {n : Name}
    (hcopy : n ∈ existed → ∃ c, d n = some (.file c) ∧ s.fs (.saved n) = some (.file c))
    (habsent : n ∉ existed → d n = none) (hreg : Regular (s.live n)) :
    Prog.After (perform pf) (call (putBack existed n)) s fun a s' =>
      (∀ m, m ≠ n → s'.live m = s.live m) ∧ (∀ m, m ≠ n → s'.fs (.saved m) = s.fs (.saved m)) ∧
      ((complaint (putBack existed n) a = [] ∧ s'.live n = d n) ∨
        (complaint (putBack existed n) a ≠ [] ∧ s.failures < s'.failures)) := by
  by_cases hx : n ∈ existed
  · obtain ⟨c, hd, hsaved⟩ := hcopy hx
    simp only [putBack, if_pos hx]
    refine after_rename (fun m s' hm hfs _ => ?_) fun e s' hfs _ hlt => ?_
    · rw [hsaved] at hm
      cases hm
      refine ⟨fun m hne => ?_, fun m hne => ?_, .inl ⟨rfl, ?_⟩⟩
      · simp [View.live, hfs, hne]
      · simp [hfs, hne]
      · simp [View.live, hfs, hd]
    · refine ⟨fun m _ => by rw [View.live, hfs]; rfl, fun m _ => by rw [hfs], .inr ⟨?_, ?_⟩⟩
      · rw [complaint_rename]
        exact List.cons_ne_nil _ _
      · exact hlt ⟨_, hsaved, replaces_of_regular hreg⟩
  · simp only [putBack, if_neg hx]
    refine after_remove hreg (fun s' hfs => ?_) (fun hnone => ?_) fun s' hfs hlt => ?_
    · refine ⟨fun m hne => ?_, fun m hne => ?_, .inl ⟨rfl, ?_⟩⟩
      · simp [View.live, hfs, hne]
      · simp [hfs]
      · simp [View.live, hfs, habsent hx]
    · exact ⟨fun _ _ => rfl, fun _ _ => rfl, .inl ⟨rfl, hnone.trans (habsent hx).symm⟩⟩
    · exact ⟨fun m _ => by rw [View.live, hfs]; rfl, fun m _ => by rw [hfs], .inr ⟨List.cons_ne_nil _ _, hlt⟩⟩

/-- The files are put back, or the attempt reports what failed. -/
theorem after_putBack {ns : List Name} (hns : ns.Nodup)
    (hcopy : ∀ n ∈ ns, n ∈ existed → ∃ c, d n = some (.file c) ∧ s.fs (.saved n) = some (.file c))
    (habsent : ∀ n ∈ ns, n ∉ existed → d n = none) (hreg : ∀ n ∈ ns, Regular (s.live n)) :
    Prog.After (perform pf) (joinAll (ns.map (putBack existed))) s fun recs s' =>
      (∀ n ∉ ns, s'.live n = s.live n) ∧ (recs = [] → ∀ n ∈ ns, s'.live n = d n) ∧
      (recs ≠ [] → s.failures < s'.failures) := by
  induction ns generalizing s with
  | nil => exact Prog.after_pure ⟨fun _ _ => rfl, fun _ _ hn => (by cases hn), fun h => absurd rfl h⟩
  | cons n ns ih =>
    obtain ⟨hnot, hns⟩ := List.nodup_cons.1 hns
    have hne : ∀ m ∈ ns, m ≠ n := fun m hm heq => hnot (heq ▸ hm)
    rw [List.map_cons, joinAll]
    refine Prog.After.bind (after_grown (after_putBack_one (hcopy n List.mem_cons_self) (habsent n List.mem_cons_self)
      (hreg n List.mem_cons_self))) ?_
    rintro a s₁ ⟨⟨hlive₁, hsaved₁, hres⟩, hgrow₁⟩
    have hle₁ := hgrow₁.failures
    have hcopy₁ : ∀ m ∈ ns, m ∈ existed → ∃ c, d m = some (.file c) ∧ s₁.fs (.saved m) = some (.file c) := fun m hm hx => by
      rw [hsaved₁ m (hne m hm)]
      exact hcopy m (List.mem_cons_of_mem _ hm) hx
    have hreg₁ : ∀ m ∈ ns, Regular (s₁.live m) := fun m hm => by
      rw [hlive₁ m (hne m hm)]
      exact hreg m (List.mem_cons_of_mem _ hm)
    refine Prog.After.bind (after_grown (ih hns hcopy₁ (fun m hm => habsent m (List.mem_cons_of_mem _ hm)) hreg₁)) ?_
    rintro recs s₂ ⟨⟨hlive₂, hback₂, hlt₂⟩, hgrow₂⟩
    have hle₂ := hgrow₂.failures
    refine Prog.after_pure ⟨fun m hm => ?_, ?_⟩
    · rw [List.mem_cons, not_or] at hm
      exact (hlive₂ m hm.2).trans (hlive₁ m hm.1)
    rcases hres with ⟨hnil, hback⟩ | ⟨hsome, hlt⟩
    · rw [hnil, List.nil_append]
      refine ⟨fun hrecs m hm => ?_, fun hrecs => ?_⟩
      · rcases List.mem_cons.1 hm with rfl | hm
        · exact (hlive₂ m hnot).trans hback
        · exact hback₂ hrecs m hm
      · have hlast := hlt₂ hrecs
        omega
    · exact ⟨fun hrecs => absurd (List.append_eq_nil_iff.1 hrecs).1 hsome, fun _ => by omega⟩

theorem after_rollbackInstall {w : MarkerTreeSwap} (cause : FetchError) (h : Undo (fun e => d (.entry e)) w s)
    (hsaved : Saved d existed s) (hfail : 0 < s.failures) :
    Prog.After (perform pf) (rollbackInstall w existed cause) s (Undone pf d) := by
  refine Prog.After.bind (after_grown (after_restore h)) ?_
  rintro recs s₁ ⟨⟨hoff, htree, hlt⟩, hgrow₁⟩
  have hle₁ := hgrow₁.failures
  have hfile : ∀ n ∈ cacheFiles, s₁.live n = s.live n := fun n hn => hoff.live hn
  have hcopy₁ : ∀ n ∈ cacheFiles, n ∈ existed → ∃ c, d n = some (.file c) ∧ s₁.fs (.saved n) = some (.file c) :=
    fun n _ hx => by rw [hoff _ rfl]; exact hsaved.copy n hx
  have hreg₁ : ∀ n ∈ cacheFiles, Regular (s₁.live n) := fun n hn => by rw [hfile n hn]; exact hsaved.regular n hn
  refine Prog.After.bind (after_grown (after_putBack (by decide) hcopy₁ hsaved.absent hreg₁)) ?_
  rintro recs' s₂ ⟨⟨hkeep, hput, hlt₂⟩, hgrow₂⟩
  have hle₂ := hgrow₂.failures
  by_cases hrecs : recs ++ recs' = []
  · rw [if_pos hrecs]
    obtain ⟨h1, h2⟩ := List.append_eq_nil_iff.1 hrecs
    refine Prog.after_pure (.inr (.of_eq fun n => ?_))
    cases n with
    | entry e => exact (hkeep _ (by simp [cacheFiles])).trans (htree h1 e)
    | bundle => exact hput h2 _ (by decide)
    | record => exact hput h2 _ (by decide)
    | backup => exact hput h2 _ (by decide)
  · rw [if_neg hrecs]
    refine Prog.after_pure (.inl ⟨rfl, ?_⟩)
    by_cases h1 : recs = []
    · have hlast := hlt₂ fun h2 => hrecs (by rw [h1, h2]; rfl)
      omega
    · have hfirst := hlt h1
      omega

theorem after_saveFiles {ns : List Name}
    (hex : ∀ n ∈ existed, n ∉ ns ∧ ∃ c, s.live n = some (.file c) ∧ s.fs (.saved n) = some (.file c)) (hns : ns.Nodup) :
    Prog.After (perform pf) (saveFiles existed ns) s fun r s' =>
      (∀ p, p ≠ .temp → (∀ n, p ≠ .saved n) → s'.fs p = s.fs p) ∧
      ∀ ex, r = .ok ex → (∀ n ∈ ex, ∃ c, s.live n = some (.file c) ∧ s'.fs (.saved n) = some (.file c)) ∧
        (∀ n ∈ ns, n ∉ ex → s.live n = none) ∧ ∀ n ∈ existed, n ∈ ex := by
  induction ns generalizing existed s with
  | nil =>
    refine Prog.after_pure ⟨fun _ _ _ => rfl, fun ex hr => ?_⟩
    cases hr
    exact ⟨fun n hn => (hex n hn).2, fun _ hn => (by cases hn), fun _ hn => hn⟩
  | cons n ns ih =>
    obtain ⟨hnot, hns⟩ := List.nodup_cons.1 hns
    have hex' : ∀ m ∈ existed, m ∉ ns ∧ ∃ c, s.live m = some (.file c) ∧ s.fs (.saved m) = some (.file c) := fun m hm =>
      ⟨fun hmem => (hex m hm).1 (List.mem_cons_of_mem _ hmem), (hex m hm).2⟩
    rw [saveFiles]
    refine Prog.After.seq (after_stat (fun hnone => ?_) (fun s₁ hfs _ => ?_) fun _ _ => ?_)
    · refine (ih hex' hns).imp fun r s₂ hr => ⟨hr.1, fun ex hex => ?_⟩
      obtain ⟨h1, h2, h3⟩ := hr.2 ex hex
      refine ⟨h1, fun m hm hnx => ?_, h3⟩
      rcases List.mem_cons.1 hm with rfl | hm
      · exact hnone
      · exact h2 m hm hnx
    · exact Prog.after_pure ⟨fun p _ _ => by rw [hfs], nofun⟩
    · refine Prog.After.bind (after_copyFileAtomic (.live n) (.saved n) nofun s) ?_
      rintro a s₂ ⟨hkeep, hok, -⟩
      have hkeep₂ : ∀ p, p ≠ .temp → (∀ m, p ≠ .saved m) → s₂.fs p = s.fs p := fun p hp hs => hkeep p hp (hs n)
      have hlive₂ : ∀ m, s₂.live m = s.live m := fun m => hkeep₂ _ nofun fun _ => nofun
      cases a with
      | error e => exact Prog.after_pure ⟨hkeep₂, nofun⟩
      | ok u =>
        obtain ⟨c, hc, hnew⟩ := hok rfl
        have hex₂ : ∀ m ∈ existed ++ [n], m ∉ ns ∧ ∃ c, s₂.live m = some (.file c) ∧ s₂.fs (.saved m) = some (.file c) := by
          intro m hm
          rw [hlive₂]
          rcases List.mem_append.1 hm with hm | hm
          · have hmn : m ≠ n := fun heq => (hex m hm).1 (List.mem_cons.2 (.inl heq))
            rw [hkeep (.saved m) nofun (by simpa using hmn)]
            exact hex' m hm
          · rw [List.mem_singleton.1 hm]
            exact ⟨hnot, c, hc, hnew⟩
        refine (ih hex₂ hns).imp fun r s₃ hr => ⟨fun p hp hs => (hr.1 p hp hs).trans (hkeep₂ p hp hs), fun ex hex => ?_⟩
        obtain ⟨h1, h2, h3⟩ := hr.2 ex hex
        refine ⟨fun m hm => by rw [← hlive₂]; exact h1 m hm, fun m hm hnx => ?_, fun m hm => h3 m (List.mem_append_left _ hm)⟩
        rcases List.mem_cons.1 hm with rfl | hm
        · exact absurd (h3 m (List.mem_append_right _ (List.mem_singleton.2 rfl))) hnx
        · rw [← hlive₂]
          exact h2 m hm hnx

/-- What the section from the retirement of the tree on starts from; `d` is the directory to go back to. -/
structure SwapReady (pf : Platform) (d : Name → Option (Node pf.Content)) (existed : List Name) (staged : Bool)
    (c : pf.Content) (s : View pf.Content) : Prop where
  tree : ∀ e, s.live (.entry e) = d (.entry e)
  saved : Saved d existed s
  aside : ∀ e, s.fs (.aside e) = none
  staged : staged = true → ∀ e, ∃ n, s.fs (.staged e) = some n
  download : s.fs .download = some (.file c)

theorem SwapReady.congr {s' : View pf.Content} (h : SwapReady pf d existed staged c s) (hfs : s'.fs = s.fs) :
    SwapReady pf d existed staged c s' := by
  have hlive : s'.live = s.live := live_congr hfs
  refine ⟨by rw [hlive]; exact h.tree, h.saved.congr (fun n => by rw [hfs]) (by rw [hlive]; exact h.saved.regular),
    by rw [hfs]; exact h.aside, by rw [hfs]; exact h.staged, by rw [hfs]; exact h.download⟩

/-- How a transaction ends: in an error that is undone, or with the bundle and its record in place. -/
def Swapped (pf : Platform) (d : Name → Option (Node pf.Content)) (remote : LocalRulesRecord) (c : pf.Content)
    (err : Option FetchError) (s : View pf.Content) : Prop :=
  (∀ e, err = some e → Undone pf d e s) ∧
  (err = none → s.live .bundle = some (.file c) ∧ s.live .record = some (.file (pf.encode remote)))

theorem after_swapIn (h : SwapReady pf d existed staged c s) (opts : FetchOptions) (remote : LocalRulesRecord) :
    Prog.After (perform pf) (swapIn pf opts remote staged existed) s (Swapped pf d remote c) := by
  have hundo : ∀ (w : MarkerTreeSwap) (cause : FetchError) (t : View pf.Content), Undo (fun e => d (.entry e)) w t →
      Saved d existed t → 0 < t.failures →
      Prog.After (perform pf) (do return some (← rollbackInstall w existed cause)) t (Swapped pf d remote c) := by
    intro w cause t hw hs hf
    refine Prog.After.bind (after_rollbackInstall cause hw hs hf) fun err s' hdone => ?_
    refine Prog.after_pure ⟨fun e he => ?_, (by simp)⟩
    cases he
    exact hdone
  have hsaved : ∀ {t t' : View pf.Content}, OffTree t t' → Saved d existed t → Saved d existed t' := fun hoff hs =>
    hs.congr (fun n => hoff _ rfl) fun n hn => by rw [hoff.live hn]; exact hs.regular n hn
  refine Prog.After.bind (after_retire h.tree h.aside) ?_
  rintro ⟨w, err⟩ s₁ ⟨hw₁, hoff₁, hst₁, hdone₁, hlt₁⟩
  have hs₁ := hsaved hoff₁ h.saved
  cases err with
  | some e => exact hundo w _ s₁ hw₁ hs₁ (Nat.zero_lt_of_lt (hlt₁ e rfl))
  | none =>
  obtain ⟨hgone₁, hfresh₁⟩ := hdone₁ rfl
  refine Prog.After.bind (Q := fun r s' => Undo (fun e => d (.entry e)) r.1 s' ∧ OffTree s₁ s' ∧
    ∀ err, r.2 = some err → s₁.failures < s'.failures) ?_ ?_
  · cases staged with
    | true => exact after_install hw₁ hfresh₁ hgone₁ fun e => by rw [hst₁]; exact h.staged rfl e
    | false => exact Prog.after_pure ⟨hw₁, fun _ _ => rfl, (by simp)⟩
  rintro ⟨w, err⟩ s₂ ⟨hw₂, hoff₂, hlt₂⟩
  have hs₂ := hsaved hoff₂ hs₁
  cases err with
  | some e => exact hundo w _ s₂ hw₂ hs₂ (Nat.zero_lt_of_lt (hlt₂ e rfl))
  | none =>
  have hdown₂ : s₂.fs .download = some (.file c) := by rw [hoff₂ _ rfl, hoff₁ _ rfl, h.download]
  refine Prog.After.seq (after_move hdown₂ (replaces_of_regular (hs₂.regular .bundle (by decide))) (fun s₃ hfs₃ _ => ?_)
    fun e s₃ hfs₃ hlt₃ => ?_)
  swap
  · have hs₃ : Saved d existed s₃ := hs₂.congr (fun n => by rw [hfs₃]) fun n hn => by
      rw [View.live, hfs₃]
      exact hs₂.regular n hn
    exact hundo w _ s₃ (hw₂.congr fun p _ => by rw [hfs₃]) hs₃ (Nat.zero_lt_of_lt hlt₃)
  have hbundle₃ : s₃.live .bundle = some (.file c) := by simp [View.live, hfs₃]
  have hlive₃ : ∀ n, n ≠ .bundle → s₃.live n = s₂.live n := fun n hn => by simp [View.live, hfs₃, hn]
  have hs₃ : Saved d existed s₃ := by
    refine hs₂.congr (fun n => by simp [hfs₃]) fun n hn => ?_
    by_cases hb : n = .bundle
    · rw [hb, hbundle₃]
      exact regular_file c
    · rw [hlive₃ n hb]
      exact hs₂.regular n hn
  have hw₃ : Undo (fun e => d (.entry e)) w s₃ := hw₂.congr fun p hp => by
    have h1 : p ≠ .download := by rintro rfl; cases hp
    have h2 : p ≠ .live .bundle := by rintro rfl; cases hp
    simp [hfs₃, h1, h2]
  refine Prog.After.bind (after_writeLocalManifest remote s₃) ?_
  rintro a s₄ ⟨hwr, hlt₄⟩
  have hw₄ := hw₃.congr hwr.ofTree
  have hs₄ := hs₃.write hwr
  have hbundle₄ := (hwr.live_of_ne .bundle (by simp)).trans hbundle₃
  cases a with
  | error e => exact hundo w _ s₄ hw₄ hs₄ (Nat.zero_lt_of_lt (hlt₄ e rfl (hs₃.regular .record (by decide))))
  | ok u =>
  have hrecord₄ : s₄.live .record = some (.file (pf.encode remote)) := hwr.ok rfl
  simp only
  split
  case isFalse => exact Prog.after_pure ⟨(by simp), fun _ => ⟨hbundle₄, hrecord₄⟩⟩
  case isTrue =>
  refine Prog.After.bind (after_sure rfl rfl s₄) ?_
  rintro a s₅ ⟨hfs₅, -, hlt₅⟩
  have hlive₅ : ∀ n, s₅.live n = s₄.live n := fun n => by rw [View.live, hfs₅]; rfl
  cases a with
  | error e =>
    refine hundo w _ s₅ (hw₄.congr fun p _ => by rw [hfs₅]) ?_ (Nat.zero_lt_of_lt (hlt₅ e rfl))
    exact hs₄.congr (fun n => by rw [hfs₅]) fun n hn => by rw [hlive₅]; exact hs₄.regular n hn
  | ok r => exact Prog.after_pure ⟨(by simp), fun _ => ⟨(hlive₅ _).trans hbundle₄, (hlive₅ _).trans hrecord₄⟩⟩

/-- The whole install transaction. -/
theorem after_transact (haside : ∀ e, s.fs (.aside e) = none)
    (hstaged : staged = true → ∀ e, ∃ n, s.fs (.staged e) = some n) (hdown : s.fs .download = some (.file c))
    (opts : FetchOptions) (remote : LocalRulesRecord) :
    Prog.After (perform pf) (transact pf opts remote staged) s (Swapped pf s.live remote c) := by
  have hstop : ∀ (e : FetchError) (s' : View pf.Content), (∀ n, s'.live n = s.live n) →
      Swapped pf s.live remote c (some e) s' := fun e s' h => ⟨fun _ _ => .inr (.of_eq h), (by simp)⟩
  refine Prog.After.bind (after_sure rfl rfl s) ?_
  rintro a s₁ ⟨hfs₁, -, -⟩
  have hlive₁ : s₁.live = s.live := live_congr hfs₁
  cases a with
  | error e => exact Prog.after_pure (hstop _ s₁ fun n => by rw [hlive₁])
  | ok r =>
  refine Prog.After.bind (@after_saveFiles pf s₁ [] cacheFiles (by simp) (by decide)) ?_
  rintro a s₂ ⟨hkeep₂, hex⟩
  have hlive₂ : ∀ n, s₂.live n = s.live n := fun n =>
    (hkeep₂ (.live n) (by simp) fun _ => by simp).trans (by rw [hfs₁]; rfl)
  cases a with
  | error e => exact Prog.after_pure (hstop _ s₂ hlive₂)
  | ok existed =>
  obtain ⟨hcopy, habsent, -⟩ := hex existed rfl
  rw [hlive₁] at hcopy habsent
  have hready₂ : SwapReady pf s.live existed staged c s₂ := by
    have hkeep : ∀ p, p ≠ .temp → (∀ n, p ≠ .saved n) → s₂.fs p = s.fs p := fun p h1 h2 => by rw [hkeep₂ p h1 h2, hfs₁]
    refine ⟨fun e => hlive₂ _, ⟨hcopy, habsent, fun n hn => ?_⟩, fun e => ?_, fun hs e => ?_, ?_⟩
    · rw [hlive₂]
      by_cases hx : n ∈ existed
      · obtain ⟨b, hb, -⟩ := hcopy n hx
        rw [hb]
        exact regular_file b
      · rw [habsent n hn hx]
        rintro _ ⟨⟩
    · exact (hkeep (.aside e) (by simp) fun _ => by simp).trans (haside e)
    · rw [hkeep (.staged e) (by simp) fun _ => by simp]
      exact hstaged hs e
    · exact (hkeep .download (by simp) fun _ => by simp).trans hdown
  refine Prog.After.bind (after_sure rfl rfl s₂) ?_
  rintro a s₃ ⟨hfs₃, -, -⟩
  have hlive₃ : ∀ n, s₃.live n = s.live n := fun n => by rw [View.live, hfs₃]; exact hlive₂ n
  have hready₃ := hready₂.congr hfs₃
  cases a with
  | error e => exact Prog.after_pure (hstop _ s₃ hlive₃)
  | ok r =>
  refine Prog.After.bind (Q := fun _ s' => s'.fs = s₃.fs) ?_ ?_
  · refine Prog.After.bind (after_idle rfl s₃) fun a s' h => ?_
    split <;> exact Prog.after_pure h
  rintro exists_ s₄ hfs₄
  have hlive₄ : ∀ n, s₄.live n = s.live n := fun n => by rw [View.live, hfs₄]; exact hlive₃ n
  have hready₄ := hready₃.congr hfs₄
  cases exists_ with
  | false => exact after_swapIn hready₄ opts remote
  | true =>
  refine Prog.After.bind (after_copyFileAtomic (.live .bundle) (.live .backup) (by simp) s₄) ?_
  rintro a s₅ ⟨hkeep₅, hok₅, herr₅⟩
  have hlive₅ : ∀ n, n ≠ .backup → s₅.live n = s₄.live n := fun n hn =>
    hkeep₅ (.live n) (by simp) fun heq => hn (Path.live.inj heq)
  cases a with
  | error e =>
    refine Prog.after_pure (hstop _ s₅ fun n => ?_)
    by_cases hn : n = .backup
    · rw [hn, View.live, herr₅ e rfl]
      exact hlive₄ .backup
    · rw [hlive₅ n hn, hlive₄]
  | ok u =>
    obtain ⟨b, -, hb⟩ := hok₅ rfl
    have hbackup : s₅.live .backup = some (.file b) := hb
    refine after_swapIn ⟨fun e => ?_, hready₄.saved.congr (fun n => hkeep₅ (.saved n) (by simp) (by simp)) fun n hn => ?_,
      fun e => ?_, fun hs e => ?_, ?_⟩ opts remote
    · exact (hlive₅ (.entry e) (by simp)).trans (hready₄.tree e)
    · by_cases hn' : n = .backup
      · rw [hn', hbackup]
        exact regular_file b
      · rw [hlive₅ n hn']
        exact hready₄.saved.regular n hn
    · exact (hkeep₅ (.aside e) (by simp) (by simp)).trans (hready₄.aside e)
    · rw [hkeep₅ (.staged e) (by simp) (by simp)]
      exact hready₄.staged hs e
    · exact (hkeep₅ .download (by simp) (by simp)).trans hready₄.download

/-! ## Sections -/

/-- What a fetcher's own files hold in each phase. -/
def Phase.Ready (pf : Platform) (fs : Path → Option (Node pf.Content)) : Phase pf.Content → Prop
  | .returned _ _ => True
  | .stage _ _ remote _ =>
    (∀ e, fs (.aside e) = none) ∧ ∃ c, fs .download = some (.file c) ∧ verifies pf remote.manifest c = true
  | .install _ _ remote _ _ staged _ =>
    (∀ e, fs (.aside e) = none) ∧ (∃ c, fs .download = some (.file c) ∧ verifies pf remote.manifest c = true) ∧
      (staged = true → ∀ e, ∃ n, fs (.staged e) = some n)
  | .retryInstall _ _ _ _ _ prepared =>
    (∀ e, fs (.aside e) = none) ∧ (prepared.stage.isSome = true → ∀ e, ∃ n, fs (.staged e) = some n)
  | _ => ∀ e, fs (.aside e) = none

/-- How a section that started in the directory `d` ends. -/
structure Settled (pf : Platform) (d : Name → Option (Node pf.Content)) (next : Phase pf.Content) (s : View pf.Content) :
    Prop where
  error : ∀ res err, next = .returned res (some err) → Undone pf d err s
  version : s.misread = false → s.failures ≤ 1 → trustedVersion pf d ≤ trustedVersion pf s.live
  ready : next.Ready pf s.fs

/-- Nothing has changed. -/
theorem settled_same {next : Phase pf.Content} (h : Same pf d s.live) (hready : next.Ready pf s.fs) :
    Settled pf d next s :=
  ⟨fun _ _ _ => .inr h, fun _ _ => Int.le_of_eq (by rw [trustedVersion, trustedVersion, h.trusted]), hready⟩

theorem settled_error {err : FetchError} (h : Undone pf d err s) : Settled pf d (.returned res (some err)) s := by
  refine ⟨fun _ _ heq => ?_, fun _ hle => ?_, trivial⟩
  · cases heq
    exact h
  · rcases h with ⟨-, hmany⟩ | hsame
    · omega
    · exact Int.le_of_eq (by rw [trustedVersion, trustedVersion, hsame.trusted])

theorem settled_done (h : s.misread = false → trustedVersion pf d ≤ trustedVersion pf s.live) :
    Settled pf d (.returned res none) s :=
  ⟨nofun, fun hm _ => h hm, trivial⟩

/-- A record with a retry in it is the trusted one. -/
theorem trusted_retry {r : MarkerRetryState} (hloc : loc = {} ∨ loc = trusted pf d) (hr : loc.markerRetry = some r) :
    ∃ c b, d .record = some (.file c) ∧ pf.decode c = some loc ∧ d .bundle = some (.file b) ∧
      verifies pf loc.manifest b = true ∧ 0 < loc.manifest.version ∧ trusted pf d = loc := by
  rcases hloc with rfl | rfl
  · cases hr
  · rcases trusted_cases pf d with h | ⟨c, b, hc, hdec, hb, hv, hpos⟩
    · rw [h] at hr
      cases hr
    · exact ⟨c, b, hc, hdec, hb, hv, hpos, rfl⟩

/-- A rewritten retry leaves the trusted version. -/
theorem trustedVersion_rewrite {d : Name → Option (Node pf.Content)} {r : MarkerRetryState}
    (hloc : loc = {} ∨ loc = trusted pf d) (hr : loc.markerRetry = some r) (hbundle : d' .bundle = d .bundle)
    {r' : Option MarkerRetryState} (hrecord : d' .record = some (.file (pf.encode { loc with markerRetry := r' }))) :
    trustedVersion pf d' = trustedVersion pf d := by
  obtain ⟨c, b, -, -, hb, hv, hpos, heq⟩ := trusted_retry hloc hr
  rw [trustedVersion, trustedVersion, heq, trusted_of hrecord (pf.decode_encode _) (hbundle.trans hb) hv hpos]

theorem retry_of_matches (h : markerRetryMatches pf loc remote opts = true) : ∃ r, loc.markerRetry = some r := by
  unfold markerRetryMatches at h
  split at h
  case h_1 r _ hr _ => exact ⟨r, hr⟩
  case h_2 => cases h

theorem after_currentRuleCount (opts : FetchOptions) (s : View pf.Content) :
    Prog.After (perform pf) (currentRuleCount opts) s fun _ s' => s'.fs = s.fs := by
  refine Prog.After.bind (after_idle rfl s) fun a s₁ h₁ => ?_
  split
  · exact Prog.after_pure h₁
  · exact Prog.after_pure h₁
  · refine Prog.After.bind (after_idle rfl s₁) fun a s₂ h₂ => ?_
    split <;> exact Prog.after_pure (h₂.trans h₁)

/-- An install that finds a newer version leaves the tree of a retry; otherwise it puts its bundle in
the place of an older one. -/
theorem after_installSection {newCount : Int} {retry : Option MarkerRetryState} {status : String}
    (hready : (Phase.install opts res remote newCount retry staged status).Ready pf s.fs) :
    Prog.After (perform pf) (installSection pf opts res remote newCount retry staged status) s (Settled pf s.live) := by
  obtain ⟨haside, ⟨c, hdown, hverified⟩, hstaged⟩ := hready
  refine Prog.After.bind (after_trustedLocalManifest s) ?_
  rintro loc s₁ ⟨hfs₁, hloc, hread⟩
  have hlive₁ := live_congr hfs₁
  have hsame : ∀ {next : Phase pf.Content} {s' : View pf.Content}, s'.fs = s₁.fs → next.Ready pf s'.fs →
      Settled pf s.live next s' := fun hfs hnext =>
    settled_same (.of_eq fun n => by rw [live_congr hfs, hlive₁]) hnext
  simp only
  split
  case isTrue hle =>
    split
    case isFalse => exact Prog.after_pure (hsame rfl trivial)
    case isTrue hretry =>
      obtain ⟨r, hr⟩ := retry_of_matches hretry.2
      obtain ⟨c', b, hc', hdec, -⟩ := trusted_retry hloc hr
      have hready₁ : RetryReady pf loc s₁ :=
        ⟨⟨c', by rw [hlive₁]; exact hc', hdec⟩, by rw [hfs₁]; exact haside, by rw [hfs₁]; exact hstaged hretry.1⟩
      refine Prog.After.bind (after_installRetriedMarker hready₁ opts) ?_
      rintro err s₂ ⟨herr, hok⟩
      rw [hlive₁] at herr hok
      cases err with
      | some e => exact Prog.after_pure (settled_error (herr e rfl))
      | none =>
        obtain ⟨hb, hrec⟩ := hok rfl
        exact Prog.after_pure (settled_done fun _ => Int.le_of_eq (by rw [trustedVersion_rewrite hloc hr hb hrec]))
  case isFalse hnewer =>
    refine Prog.After.bind (after_grown (after_currentRuleCount opts s₁)) ?_
    rintro a s₂ ⟨hfs₂, hgrow₂⟩
    have hfs := hfs₂.trans hfs₁
    cases a with
    | error e => exact Prog.after_pure (hsame hfs₂ trivial)
    | ok cur =>
    simp only
    split
    case h_1 => exact Prog.after_pure (hsame hfs₂ trivial)
    case h_2 =>
    have htrans := @after_transact pf s₂ staged c (by rw [hfs]; exact haside) (by rw [hfs]; exact hstaged)
      (by rw [hfs]; exact hdown) opts { manifest := remote.manifest, markerRetry := retry }
    refine Prog.After.bind (after_grown htrans) ?_
    rintro err s₃ ⟨⟨herr, hok⟩, hgrow₃⟩
    rw [live_congr hfs] at herr
    cases err with
    | some e => exact Prog.after_pure (settled_error (herr e rfl))
    | none =>
      obtain ⟨hb, hrec⟩ := hok rfl
      refine Prog.after_pure (settled_done fun hmis => ?_)
      have hmis₁ : s₁.misread = false := by
        rw [Bool.eq_false_iff] at hmis ⊢
        exact fun h => hmis (hgrow₃.misread (hgrow₂.misread h))
      have hver : trustedVersion pf s.live < remote.manifest.version := by
        rw [trustedVersion, ← hread hmis₁]
        exact Int.not_le.1 hnewer
      have hpos := trustedVersion_nonneg s.live
      have hnew : trusted pf s₃.live = { manifest := remote.manifest, markerRetry := retry } :=
        trusted_of hrec (pf.decode_encode _) hb hverified (by show 0 < remote.manifest.version; omega)
      show _ ≤ (trusted pf s₃.live).manifest.version
      rw [hnew]
      exact Int.le_of_lt hver

theorem after_snapshot (s : View pf.Content) :
    Prog.After (perform pf) snapshotMarkerRetryBundle s fun _ s' =>
      ∀ p, p ≠ .temp → p ≠ .snapshot → s'.fs p = s.fs p := by
  have hcopy : ∀ {t : View pf.Content}, (∀ p, p ≠ .temp → p ≠ .snapshot → t.fs p = s.fs p) →
      Prog.After (perform pf) (copyFileAtomic (.live .bundle) .snapshot) t fun _ s' =>
        ∀ p, p ≠ .temp → p ≠ .snapshot → s'.fs p = s.fs p := fun {t} ht =>
    (after_copyFileAtomic (.live .bundle) .snapshot nofun t).imp fun _ s' h p h1 h2 => (h.1 p h1 h2).trans (ht p h1 h2)
  refine Prog.After.bind (after_idle rfl s) fun a s₁ h₁ => ?_
  have hkeep₁ : ∀ p, p ≠ .temp → p ≠ .snapshot → s₁.fs p = s.fs p := fun p _ _ => by rw [h₁]
  split
  · exact Prog.after_pure hkeep₁
  · refine Prog.After.bind (Q := fun _ s' => ∀ p, p ≠ .temp → p ≠ .snapshot → s'.fs p = s.fs p) ?_ fun a s₂ h₂ => ?_
    · refine Prog.after_ask fun k p h1 h2 => ?_
      unfold perform
      split
      · exact ((s₁.fail_spec (.link (.live .bundle) .snapshot) k.left).2.2 p nofun).trans (hkeep₁ p h1 h2)
      · simp only [View.onFile]
        split
        · exact (s₁.set_of_ne h2 _).trans (hkeep₁ p h1 h2)
        · exact hkeep₁ p h1 h2
        · exact hkeep₁ p h1 h2
    · split
      · exact Prog.after_pure h₂
      · exact hcopy h₂
  · exact hcopy hkeep₁

/-- A claim changes nothing of the record but its retry. -/
theorem after_claimSection (haside : ∀ e, s.fs (.aside e) = none) :
    Prog.After (perform pf) (claimSection pf opts res remote) s (Settled pf s.live) := by
  refine Prog.After.bind (after_trustedLocalManifest s) ?_
  rintro loc s₁ ⟨hfs₁, hloc, -⟩
  refine Prog.After.bind (after_idle rfl s₁) fun a s₂ hfs => ?_
  have hfs₂ := hfs.trans hfs₁
  have hstop : ∀ {res : FetchResult} {err : Option FetchError} {s' : View pf.Content}, (∀ n, s'.live n = s.live n) →
      Settled pf s.live (.returned res err) s' := fun h => settled_same (.of_eq h) trivial
  have hlive₂ : ∀ n, s₂.live n = s.live n := fun n => by rw [live_congr hfs₂]
  split
  case h_2 => exact Prog.after_pure (hstop hlive₂)
  case h_1 now =>
  split
  case h_1 => exact Prog.after_pure (hstop hlive₂)
  case h_2 r hr =>
  split
  case isTrue => exact Prog.after_pure (hstop hlive₂)
  case isFalse =>
  have hprepare : Prog.After (perform pf) (attempt [.mkdir, .flock]) s₂ fun _ s' => s'.fs = s₂.fs :=
    @after_attempt_idle pf s₂ [.mkdir, .flock] [] _ (by simp [Op.idle]) (fun e s' h _ => h)
      fun s' h _ => Prog.after_pure h
  refine Prog.After.bind hprepare fun a s₃ hfs₃ => ?_
  have hlive₃ : ∀ n, s₃.live n = s.live n := fun n => by rw [live_congr hfs₃, hlive₂]
  split
  case h_1 => exact Prog.after_pure (hstop hlive₃)
  case h_2 =>
  refine Prog.After.bind (after_snapshot s₃) fun a s₄ hkeep₄ => ?_
  have hlive₄ : ∀ n, s₄.live n = s.live n := fun n => (hkeep₄ (.live n) (by simp) (by simp)).trans (hlive₃ n)
  have haside₄ : ∀ e, s₄.fs (.aside e) = none := fun e => by
    rw [hkeep₄ (.aside e) (by simp) (by simp), hfs₃, hfs₂]
    exact haside e
  split
  case h_1 => exact Prog.after_pure (hstop hlive₄)
  case h_2 =>
  split
  case h_1 => exact Prog.after_pure (hstop hlive₄)
  case h_2 claim _ =>
  refine Prog.After.bind (after_writeLocalManifest { loc with markerRetry := some claim } s₄) ?_
  rintro a s₅ ⟨hwr, -⟩
  cases a with
  | error e => exact Prog.after_pure (hstop fun n => by rw [hwr.live_error, hlive₄])
  | ok u =>
    have hbundle : s₅.live .bundle = s.live .bundle := (hwr.live_of_ne .bundle (by simp)).trans (hlive₄ .bundle)
    refine Prog.after_pure ⟨(by simp), fun _ _ => ?_, fun e => ?_⟩
    · exact Int.le_of_eq (by rw [trustedVersion_rewrite hloc hr hbundle (hwr.ok rfl)])
    · exact (hwr.others (.aside e) (by simp) (by simp)).trans (haside₄ e)

theorem after_retryInstallSection {claim : MarkerRetryState} {now : Int} {prepared : Prepared pf.Content}
    (hready : (Phase.retryInstall opts res remote claim now prepared).Ready pf s.fs) :
    Prog.After (perform pf) (retryInstallSection pf opts res remote claim now prepared) s (Settled pf s.live) := by
  obtain ⟨haside, hstaged⟩ := hready
  refine Prog.After.bind (after_trustedLocalManifest s) ?_
  rintro loc s₁ ⟨hfs₁, hloc, -⟩
  have hlive₁ := live_congr hfs₁
  have hstop : ∀ {res : FetchResult} {err : Option FetchError} {s' : View pf.Content}, (∀ n, s'.live n = s.live n) →
      Settled pf s.live (.returned res err) s' := fun h => settled_same (.of_eq h) trivial
  simp only
  split
  case isTrue => exact Prog.after_pure (hstop fun n => by rw [hlive₁])
  case isFalse hmatch =>
  have hmatches : markerRetryMatches pf loc remote opts = true := by
    rw [Bool.or_eq_true, not_or] at hmatch
    simpa using hmatch.1
  obtain ⟨r, hr⟩ := retry_of_matches hmatches
  split
  case isTrue =>
    split
    case h_1 => exact Prog.after_pure (hstop fun n => by rw [hlive₁])
    case h_2 =>
    refine Prog.After.bind (after_writeLocalManifest { loc with markerRetry := none } s₁) ?_
    rintro a s₂ ⟨hwr, -⟩
    cases a with
    | error e => exact Prog.after_pure (hstop fun n => by rw [hwr.live_error, hlive₁])
    | ok u =>
      have hbundle : s₂.live .bundle = s.live .bundle := (hwr.live_of_ne .bundle (by simp)).trans (congrFun hlive₁ .bundle)
      refine Prog.after_pure (settled_done fun _ => ?_)
      exact Int.le_of_eq (by rw [trustedVersion_rewrite hloc hr hbundle (hwr.ok rfl)])
  case isFalse hsome =>
  obtain ⟨c, b, hc, hdec, -⟩ := trusted_retry hloc hr
  have hready₁ : RetryReady pf loc s₁ := by
    refine ⟨⟨c, by rw [hlive₁]; exact hc, hdec⟩, by rw [hfs₁]; exact haside, ?_⟩
    rw [hfs₁]
    exact hstaged (by simpa [Option.isNone_iff_eq_none, Option.isSome_iff_ne_none] using hsome)
  refine Prog.After.bind (after_installRetriedMarker hready₁ opts) ?_
  rintro err s₂ ⟨herr, hok⟩
  rw [hlive₁] at herr hok
  cases err with
  | some e => exact Prog.after_pure (settled_error (herr e rfl))
  | none =>
    obtain ⟨hb, hrec⟩ := hok rfl
    exact Prog.after_pure (settled_done fun _ => Int.le_of_eq (by rw [trustedVersion_rewrite hloc hr hb hrec]))

/-- Every section leaves the directory as it was, completes, or reports that it could not. -/
theorem after_section {phase : Phase pf.Content} {body : Locked pf.Content (Phase pf.Content)}
    (hbody : phase.section pf = some (res, body)) (hready : phase.Ready pf s.fs) :
    Prog.After (perform pf) body s (Settled pf s.live) := by
  cases phase with
  | start opts =>
    cases hbody
    refine Prog.After.bind (after_trustedLocalManifest s) ?_
    rintro loc s₁ ⟨hfs₁, -, -⟩
    refine Prog.after_pure (settled_same (.of_eq fun n => by rw [live_congr hfs₁]) ?_)
    rw [hfs₁]
    exact hready
  | install opts res' remote newCount retry staged status =>
    cases hbody
    exact after_installSection hready
  | claim opts res' remote =>
    cases hbody
    exact after_claimSection hready
  | retryInstall opts res' remote taken now prepared =>
    cases hbody
    exact after_retryInstallSection hready
  | _ => cases hbody

end MS.Rules
