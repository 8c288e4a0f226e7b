import Mailstrix.Impl.Rules.Install

/-!
# File-system calls of a section

What one call can do (`called`), what a write through a temporary file leaves (`Written`), what
`trustedLocalManifest` finds (`after_trustedLocalManifest`), and the marker tree as it is moved aside,
replaced and put back (`after_retire`, `after_install`, `after_restore`).
-/

namespace MS.Rules

open Framework

variable {pf : Platform}

variable {s : View pf.Content} {Q : Answer pf.Content → View pf.Content → Prop}
  {tree : Entry → Option (Node pf.Content)} {C : Type} {w : MarkerTreeSwap} {es : List Entry} {op : Op pf.Content}
variable {p src dst : Path} {a : Except Errno Unit} {e : Entry}

/-! ## Single calls -/

theorem View.set_self (s : View C) (p : Path) (n : Option (Node C)) : (s.set p n).fs p = n := by
  simp [View.set]

theorem View.set_of_ne (s : View C) {q : Path} (h : q ≠ p) (n : Option (Node C)) :
    (s.set p n).fs q = s.fs q := by simp [View.set, h]

/-- Calls that leave every file alone, whether or not they fail. -/
def Op.idle {C : Type} : Op C → Bool
  | .copyTemp _ | .writeTemp _ | .link _ _ | .rename _ _ | .remove _ | .removeAll _ => false
  | _ => true

/-- Calls that fail only when they are made to. -/
def Op.sure {C : Type} : Op C → Bool
  | .ctxErr | .reload | .mkdir | .flock | .createTemp | .writeTemp _ | .sync | .close | .chmod | .removeAll _ => true
  | _ => false

/-- Failures are counted up, and a misread is not forgotten. -/
structure Grows {C : Type} (s s' : View C) : Prop where
  failures : s.failures ≤ s'.failures
  misread : s.misread = true → s'.misread = true

theorem Grows.refl (s : View C) : Grows s s := ⟨Nat.le_refl _, id⟩

theorem Grows.trans {s s' s'' : View C} (h : Grows s s') (h' : Grows s' s'') : Grows s s'' :=
  ⟨Nat.le_trans h.failures h'.failures, h'.misread ∘ h.misread⟩

/-- What is known of every call. -/
structure Called {C : Type} (op : Op C) (s : View C) (a : Answer C) (s' : View C) : Prop extends Grows s s' where
  fs : op.idle = true → s'.fs = s.fs
  sure : op.sure = true → ∀ e, a = .error e → s.failures < s'.failures

theorem View.fail_spec (s : View C) (op : Op C) (left : Option (Node C)) :
    (s.fail op left).failures = s.failures + 1 ∧ (s.fail op left).misread = (s.misread || op.trusts) ∧
      ∀ p, op.spoils ≠ some p → (s.fail op left).fs p = s.fs p := by
  unfold View.fail
  cases h : op.spoils with
  | none => exact ⟨rfl, rfl, fun _ _ => rfl⟩
  | some q =>
    refine ⟨rfl, rfl, fun p hp => Function.update_of_ne ?_ ..⟩
    rintro rfl
    exact hp rfl

theorem spoils_of_idle {op : Op C} (h : op.idle = true) : op.spoils = none := by
  cases op <;> first | rfl | cases h

theorem called_fail (s : View pf.Content) (op : Op pf.Content) (left : Option (Node pf.Content)) (a : Answer pf.Content) :
    Called op s a (s.fail op left) := by
  obtain ⟨hf, hm, hfs⟩ := s.fail_spec op left
  refine ⟨⟨by omega, fun h => by simp [hm, h]⟩, fun hi => ?_, fun _ _ _ => by omega⟩
  funext p
  exact hfs p (by simp [spoils_of_idle hi])

theorem called (k : Input pf.Content) (op : Op pf.Content) (s : View pf.Content) :
    Called op s (perform pf k op s).1 (perform pf k op s).2 := by
  unfold perform
  split
  case isTrue => exact called_fail s op k.left _
  case isFalse =>
    cases op <;> simp only [View.onFile, View.rename]
    all_goals repeat' split
    all_goals exact ⟨⟨Nat.le_refl _, id⟩, fun h => (by cases h <;> rfl), fun h => (by cases h <;> exact nofun)⟩

/-- The counters of a section only grow. -/
theorem after_grows {α : Type} (p : Locked pf.Content α) (s : View pf.Content) :
    Prog.After (perform pf) p s fun _ s' => Grows s s' :=
  Prog.after_of_call Grows.refl Grows.trans (fun k op s => (called k op s).toGrows) p s

theorem after_call
    (h : ∀ a s', Called op s a s' → Q a s') : Prog.After (perform pf) (call op) s Q :=
  Prog.after_ask fun k => h _ _ (called k op s)

theorem after_idle (hi : op.idle = true) (s : View pf.Content) :
    Prog.After (perform pf) (call op) s fun _ s' => s'.fs = s.fs := after_call fun _ _ h => h.fs hi

theorem after_sure (hi : op.idle = true) (hs : op.sure = true) (s : View pf.Content) :
    Prog.After (perform pf) (call op) s fun a s' =>
      s'.fs = s.fs ∧ s.failures ≤ s'.failures ∧ ∀ e, a = .error e → s.failures < s'.failures :=
  after_call fun _ _ h => ⟨h.fs hi, h.failures, h.sure hs⟩

/-- A specification, with the growth of the counters added. -/
theorem after_grown {α : Type} {p : Locked pf.Content α}
    {Q : α → View pf.Content → Prop} (h : Prog.After (perform pf) p s Q) :
    Prog.After (perform pf) p s fun a s' => Q a s' ∧ Grows s s' := h.and (after_grows p s)

/-- The rename finds its source and may replace its target. -/
def Ready {C : Type} (s : View C) (src dst : Path) : Prop := ∃ n, s.fs src = some n ∧ n.replaces (s.fs dst) = true

theorem after_rename
    (hok : ∀ n s', s.fs src = some n → s'.fs = Function.update (Function.update s.fs src none) dst (some n) →
      Grows s s' → Q (.ok .done) s')
    (herr : ∀ e s', s'.fs = s.fs → Grows s s' → (Ready s src dst → s.failures < s'.failures) → Q (.error e) s') :
    Prog.After (perform pf) (call (.rename src dst)) s Q := by
  refine Prog.after_ask fun k => ?_
  unfold perform
  split
  case isTrue =>
    obtain ⟨hf, -, hfs⟩ := s.fail_spec (.rename src dst) k.left
    show Q (.error .io) (s.fail (.rename src dst) k.left)
    have hgrows := (called_fail s (.rename src dst) k.left (.error .io)).toGrows
    exact herr .io _ (funext fun p => hfs p nofun) hgrows fun _ => by omega
  case isFalse =>
    simp only [View.rename]
    split
    case h_1 hnone =>
      refine herr _ s rfl (.refl s) ?_
      rintro ⟨n, hn, -⟩
      rw [hnone] at hn
      cases hn
    case h_2 n hn =>
      split
      case isTrue => exact hok n _ hn rfl ⟨Nat.le_refl _, id⟩
      case isFalse hr =>
        refine herr _ s rfl (.refl s) ?_
        rintro ⟨m, hm, hrep⟩
        rw [hn] at hm
        cases hm
        exact absurd hrep hr

/-- A node is moved to where it may go, or the call is made to fail. -/
theorem after_move {n : Node pf.Content} (hn : s.fs src = some n) (hrep : n.replaces (s.fs dst) = true)
    (hok : ∀ s', s'.fs = Function.update (Function.update s.fs src none) dst (some n) → s.failures ≤ s'.failures →
      Q (.ok .done) s') (herr : ∀ e s', s'.fs = s.fs → s.failures < s'.failures → Q (.error e) s') :
    Prog.After (perform pf) (call (.rename src dst)) s Q := by
  refine after_rename (fun m s' hm hfs hgrow => ?_) fun e s' hfs _ hlt => herr e s' hfs (hlt ⟨n, hn, hrep⟩)
  rw [hn] at hm
  cases hm
  exact hok s' hfs hgrow.failures

theorem replaces_none (n : Node C) : n.replaces none = true := by cases n <;> rfl

theorem after_removeAll (hok : ∀ s', s'.fs = Function.update s.fs p none → s.failures ≤ s'.failures → Q (.ok .done) s')
    (herr : ∀ e s', (∀ q, q ≠ p → s'.fs q = s.fs q) → s.failures < s'.failures → Q (.error e) s') :
    Prog.After (perform pf) (call (.removeAll p)) s Q := by
  refine Prog.after_ask fun k => ?_
  unfold perform
  split
  case isTrue =>
    obtain ⟨hf, -, hfs⟩ := s.fail_spec (.removeAll p) k.left
    show Q (.error .io) (s.fail (.removeAll p) k.left)
    exact herr .io _ (fun q hq => hfs q fun h => hq (Option.some.inj h).symm) (by omega)
  case isFalse => exact hok _ rfl (Nat.le_refl _)

/-! ## Writing files through a temporary one -/

theorem after_attempt_cons {ops : List (Op pf.Content)}
    {Q : Except Errno Unit → View pf.Content → Prop}
    (h : Prog.After (perform pf) (call op) s fun a s' => match a with
      | .error e => Q (.error e) s'
      | .ok _ => Prog.After (perform pf) (attempt ops) s' Q) :
    Prog.After (perform pf) (attempt (op :: ops)) s Q := by
  rw [attempt]
  refine Prog.After.bind h fun a s' h' => ?_
  cases a with
  | error e => exact h'
  | ok r => exact h'

/-- Calls that touch no file, before others. -/
theorem after_attempt_idle (ops : List (Op pf.Content)) {rest : List (Op pf.Content)}
    {Q : Except Errno Unit → View pf.Content → Prop} (hops : ∀ op ∈ ops, op.idle = true)
    (herr : ∀ e s', s'.fs = s.fs → ((∀ op ∈ ops, op.sure = true) → s.failures < s'.failures) → Q (.error e) s')
    (hok : ∀ s', s'.fs = s.fs → s.failures ≤ s'.failures → Prog.After (perform pf) (attempt rest) s' Q) :
    Prog.After (perform pf) (attempt (ops ++ rest)) s Q := by
  induction ops generalizing s with
  | nil => exact hok s rfl (Nat.le_refl _)
  | cons op ops ih =>
    refine after_attempt_cons (after_call fun a s' h => ?_)
    have hfs := h.fs (hops op List.mem_cons_self)
    have hle := h.failures
    cases a with
    | error e => exact herr e s' hfs fun hsure => h.sure (hsure op List.mem_cons_self) e rfl
    | ok r =>
      refine ih (fun o ho => hops o (List.mem_cons_of_mem _ ho)) (fun e t ht hlt => ?_) fun t ht hlt => ?_
      · refine herr e t (ht.trans hfs) fun hsure => ?_
        have hlast := hlt fun o ho => hsure o (List.mem_cons_of_mem _ ho)
        omega
      · exact hok t (ht.trans hfs) (by omega)

/-- There is a file, or nothing. -/
def Regular {C : Type} (x : Option (Node C)) : Prop := ∀ n, x = some n → ∃ c, n = .file c

theorem regular_file (c : C) : Regular (some (.file c)) := fun _ hn => ⟨c, (Option.some.inj hn).symm⟩

theorem replaces_of_regular {c : C} {x : Option (Node C)} (h : Regular x) : (Node.file c).replaces x = true := by
  cases x with
  | none => rfl
  | some n =>
    obtain ⟨c', rfl⟩ := h n rfl
    rfl

/-- The rename that ends a write through `temp`. -/
theorem after_attempt_rename {c : pf.Content} (hc : s.fs .temp = some (.file c))
    {Q : Except Errno Unit → View pf.Content → Prop}
    (herr : ∀ e s', s'.fs = s.fs → (Regular (s.fs dst) → s.failures < s'.failures) → Q (.error e) s')
    (hok : ∀ s', s'.fs dst = some (.file c) → (∀ p, p ≠ .temp → p ≠ dst → s'.fs p = s.fs p) → Q (.ok ()) s') :
    Prog.After (perform pf) (attempt [.rename .temp dst]) s Q := by
  refine after_attempt_cons (after_rename (fun n s' hn hfs _ => ?_) fun e s' hfs _ hlt => ?_)
  · rw [hc] at hn
    cases hn
    refine Prog.after_pure (hok s' ?_ fun p hp hd => ?_)
    · rw [hfs, Function.update_self]
    · rw [hfs, Function.update_of_ne hd, Function.update_of_ne hp]
  · exact herr e s' hfs fun hreg => hlt ⟨_, hc, replaces_of_regular hreg⟩

theorem after_writeTemp {c : pf.Content}
    (hok : ∀ s', s'.fs .temp = some (.file c) → (∀ p, p ≠ .temp → s'.fs p = s.fs p) → s.failures ≤ s'.failures →
      Q (.ok .done) s')
    (herr : ∀ e s', (∀ p, p ≠ .temp → s'.fs p = s.fs p) → s.failures < s'.failures → Q (.error e) s') :
    Prog.After (perform pf) (call (.writeTemp c)) s Q := by
  refine Prog.after_ask fun k => ?_
  unfold perform
  split
  case isTrue =>
    obtain ⟨hf, -, hfs⟩ := s.fail_spec (.writeTemp c) k.left
    show Q (.error .io) (s.fail (.writeTemp c) k.left)
    exact herr .io _ (fun q hq => hfs q fun h => hq (Option.some.inj h).symm) (by omega)
  case isFalse =>
    show Q (.ok .done) (s.set .temp (some (.file c)))
    exact hok _ (s.set_self ..) (fun p hp => s.set_of_ne hp _) (Nat.le_refl _)

theorem after_copyTemp
    (hok : ∀ c s', s.fs src = some (.file c) → s'.fs .temp = some (.file c) → (∀ p, p ≠ .temp → s'.fs p = s.fs p) →
      Q (.ok .done) s') (herr : ∀ e s', (∀ p, p ≠ .temp → s'.fs p = s.fs p) → Q (.error e) s') :
    Prog.After (perform pf) (call (.copyTemp src)) s Q := by
  refine Prog.after_ask fun k => ?_
  unfold perform
  split
  case isTrue =>
    obtain ⟨-, -, hfs⟩ := s.fail_spec (.copyTemp src) k.left
    exact herr .io _ fun q hq => hfs q fun h => hq (Option.some.inj h).symm
  case isFalse =>
    simp only [View.onFile]
    split
    case h_1 c hc => exact hok c _ hc (s.set_self ..) fun p hp => s.set_of_ne hp _
    case h_2 => exact herr _ s fun _ _ => rfl
    case h_3 => exact herr _ s fun _ _ => rfl

/-- What a write of `c` to `dst` through the temporary file leaves. -/
structure Written {C : Type} (dst : Path) (s : View C) (a : Except Errno Unit) (s' : View C) (c : C) : Prop where
  others : ∀ p, p ≠ .temp → p ≠ dst → s'.fs p = s.fs p
  ok : a = .ok () → s'.fs dst = some (.file c)
  error : ∀ e, a = .error e → s'.fs dst = s.fs dst

/-- A manifest write replaces the record or changes nothing. -/
theorem after_writeLocalManifest (r : LocalRulesRecord) (s : View pf.Content) :
    Prog.After (perform pf) (writeLocalManifest pf r) s fun a s' =>
      Written (.live .record) s a s' (pf.encode r) ∧
      (∀ e, a = .error e → Regular (s.fs (.live .record)) → s.failures < s'.failures) := by
  have hfail : ∀ (e : Errno) (s' : View pf.Content), (∀ p, p ≠ .temp → s'.fs p = s.fs p) →
      (Regular (s.fs (.live .record)) → s.failures < s'.failures) →
      Written (.live .record) s (.error e) s' (pf.encode r) ∧
      (∀ e', (Except.error e : Except Errno Unit) = .error e' → Regular (s.fs (.live .record)) →
        s.failures < s'.failures) :=
    fun e s' h hlt => ⟨⟨fun p hp _ => h p hp, nofun, fun _ _ => h _ nofun⟩, fun _ _ => hlt⟩
  refine after_attempt_idle [.createTemp] (by simp [Op.idle]) (fun e s₁ h₁ hlt => ?_) fun s₁ h₁ hle₁ => ?_
  · exact hfail e s₁ (fun p _ => by rw [h₁]) fun _ => hlt (by simp [Op.sure])
  refine after_attempt_cons (after_writeTemp (fun s₂ htemp h₂ hle₂ => ?_) fun e s₂ h₂ hlt => ?_)
  swap
  · exact hfail e s₂ (fun p hp => by rw [h₂ p hp, h₁]) fun _ => by omega
  have hkeep₂ : ∀ p, p ≠ .temp → s₂.fs p = s.fs p := fun p hp => by rw [h₂ p hp, h₁]
  refine after_attempt_idle [.close, .chmod] (by simp [Op.idle]) (fun e s₃ h₃ hlt => ?_) fun s₃ h₃ hle₃ => ?_
  · have hlast := hlt (by simp [Op.sure])
    exact hfail e s₃ (fun p hp => by rw [h₃, hkeep₂ p hp]) fun _ => by omega
  refine after_attempt_rename (by rw [h₃, htemp]) (fun e s₄ h₄ hlt => ?_) fun s₄ hdst h₄ => ?_
  · refine hfail e s₄ (fun p hp => by rw [h₄, h₃, hkeep₂ p hp]) fun hreg => ?_
    rw [h₃, hkeep₂ (.live .record) nofun] at hlt
    have hlast := hlt hreg
    omega
  · exact ⟨⟨fun p hp hd => by rw [h₄ p hp hd, h₃, hkeep₂ p hp], fun _ => hdst, nofun⟩, nofun⟩

/-- A copy replaces its target or changes nothing. -/
theorem after_copyFileAtomic (src dst : Path) (hdst : dst ≠ .temp) (s : View pf.Content) :
    Prog.After (perform pf) (copyFileAtomic src dst) s fun a s' =>
      (∀ p, p ≠ .temp → p ≠ dst → s'.fs p = s.fs p) ∧
      (a = .ok () → ∃ c, s.fs src = some (.file c) ∧ s'.fs dst = some (.file c)) ∧
      (∀ e, a = .error e → s'.fs dst = s.fs dst) := by
  have hfail : ∀ (e : Errno) (s' : View pf.Content), (∀ p, p ≠ .temp → s'.fs p = s.fs p) →
      (∀ p, p ≠ .temp → p ≠ dst → s'.fs p = s.fs p) ∧
      ((Except.error e : Except Errno Unit) = .ok () → ∃ c, s.fs src = some (.file c) ∧ s'.fs dst = some (.file c)) ∧
      (∀ e', (Except.error e : Except Errno Unit) = .error e' → s'.fs dst = s.fs dst) :=
    fun e s' h => ⟨fun p hp _ => h p hp, nofun, fun _ _ => h dst hdst⟩
  refine after_attempt_idle [.openFile src, .createTemp] (by simp [Op.idle]) (fun e s₁ h₁ _ => ?_) fun s₁ h₁ _ => ?_
  · exact hfail e s₁ fun p _ => by rw [h₁]
  refine after_attempt_cons (after_copyTemp (fun c s₂ hc htemp h₂ => ?_) fun e s₂ h₂ => ?_)
  swap
  · exact hfail e s₂ fun p hp => by rw [h₂ p hp, h₁]
  have hkeep₂ : ∀ p, p ≠ .temp → s₂.fs p = s.fs p := fun p hp => by rw [h₂ p hp, h₁]
  refine after_attempt_idle [.sync, .close, .chmod] (by simp [Op.idle]) (fun e s₃ h₃ _ => ?_) fun s₃ h₃ _ => ?_
  · exact hfail e s₃ fun p hp => by rw [h₃, hkeep₂ p hp]
  refine after_attempt_rename (by rw [h₃, htemp]) (fun e s₄ h₄ _ => ?_) fun s₄ hnew h₄ => ?_
  · exact hfail e s₄ fun p hp => by rw [h₄, h₃, hkeep₂ p hp]
  · exact ⟨fun p hp hd => by rw [h₄ p hp hd, h₃, hkeep₂ p hp], fun _ => ⟨c, by rw [← hc, h₁], hnew⟩, nofun⟩

/-! ## The trusted record -/

/-- The public names in a view. -/
def View.live {C : Type} (s : View C) (n : Name) : Option (Node C) := s.fs (.live n)

theorem live_congr {s s' : View C} (h : s'.fs = s.fs) : s'.live = s.live := by
  funext n
  rw [View.live, h]
  rfl

/-- What the version record decodes to. -/
def decoded (pf : Platform) (d : Name → Option (Node pf.Content)) : Option LocalRulesRecord :=
  match d .record with
  | some (.file c) => pf.decode c
  | _ => none

/-- The local record, if its size and hash match the bundle on disk. -/
def trusted (pf : Platform) (d : Name → Option (Node pf.Content)) : LocalRulesRecord :=
  match decoded pf d, d .bundle with
  | some m, some (.file b) => if 0 < m.manifest.version ∧ verifies pf m.manifest b = true then m else {}
  | _, _ => {}

/-- The version under which the cache is trusted. -/
def trustedVersion (pf : Platform) (d : Name → Option (Node pf.Content)) : Int := (trusted pf d).manifest.version

theorem trusted_cases (pf : Platform) (d : Name → Option (Node pf.Content)) :
    trusted pf d = {} ∨ ∃ c b, d .record = some (.file c) ∧ pf.decode c = some (trusted pf d) ∧
      d .bundle = some (.file b) ∧ verifies pf (trusted pf d).manifest b = true ∧ 0 < trustedVersion pf d := by
  unfold trustedVersion
  generalize hr : trusted pf d = r
  unfold trusted at hr
  split at hr
  case h_1 m b hm hb =>
    split at hr
    case isTrue h =>
      subst hr
      unfold decoded at hm
      split at hm
      case h_1 c hc => exact .inr ⟨c, b, hc, hm, hb, h.2, h.1⟩
      case h_2 => cases hm
    case isFalse => exact .inl hr.symm
  case h_2 => exact .inl hr.symm

theorem trusted_of {d : Name → Option (Node pf.Content)} {c b : pf.Content} {m : LocalRulesRecord}
    (hc : d .record = some (.file c)) (hm : pf.decode c = some m) (hb : d .bundle = some (.file b))
    (hver : verifies pf m.manifest b = true) (hpos : 0 < m.manifest.version) : trusted pf d = m := by
  have hdec : decoded pf d = some m := by simp only [decoded, hc, hm]
  simp only [trusted, hdec, hb]
  exact if_pos ⟨hpos, hver⟩

theorem trustedVersion_nonneg (d : Name → Option (Node pf.Content)) : 0 ≤ trustedVersion pf d := by
  rcases trusted_cases pf d with h | ⟨-, -, -, -, -, -, h⟩
  · exact Int.le_of_eq (by rw [trustedVersion, h])
  · exact Int.le_of_lt h

/-- A read for `trustedLocalManifest` fails and is counted as a misread, or answers from the files. -/
theorem after_trusting (hop : op.trusts = true) (hi : op.idle = true)

    (hfault : ∀ s', s'.fs = s.fs → s'.misread = true → Q (.error .io) s')
    (hok : ∀ k : Input pf.Content, k.fault = false → Q (perform pf k op s).1 (perform pf k op s).2) :
    Prog.After (perform pf) (call op) s Q := by
  refine Prog.after_ask fun k => ?_
  cases hk : k.fault with
  | false => exact hok k hk
  | true =>
    have hfal : op.fallible = true := by cases op <;> first | rfl | cases hop
    have hperf : perform pf k op s = (.error .io, s.fail op k.left) := by
      unfold perform
      exact if_pos (by rw [hk, hfal]; rfl)
    obtain ⟨-, hmis, hfs⟩ := s.fail_spec op k.left
    rw [hperf]
    refine hfault _ (funext fun p => hfs p ?_) (by rw [hmis, hop, Bool.or_true])
    rw [spoils_of_idle hi]
    exact nofun

theorem after_readLocalManifest (s : View pf.Content) :
    Prog.After (perform pf) (readLocalManifest pf) s fun r s' =>
      s'.fs = s.fs ∧ (r = {} ∨ decoded pf s.live = some r) ∧ (s'.misread = false → r = (decoded pf s.live).getD {}) := by
  refine Prog.After.seq (after_trusting rfl rfl (fun s' hfs hmis => ?_) fun k hk => ?_)
  · exact Prog.after_pure ⟨hfs, .inl rfl, by simp [hmis]⟩
  simp only [perform, hk, View.onFile, Bool.false_and, Bool.false_eq_true, if_false]
  have hlive : s.fs (.live .record) = s.live .record := rfl
  rw [hlive]
  rcases hc : s.live .record with _ | ⟨c | files⟩
  · exact Prog.after_pure ⟨rfl, .inl rfl, fun _ => by simp only [decoded, hc, Option.getD_none]⟩
  · have hdec : decoded pf s.live = pf.decode c := by simp only [decoded, hc]
    refine Prog.after_pure ⟨rfl, ?_, fun _ => by rw [hdec]⟩
    cases hd : pf.decode c with
    | none => exact .inl rfl
    | some r => exact .inr (hdec.trans hd)
  · exact Prog.after_pure ⟨rfl, .inl rfl, fun _ => by simp only [decoded, hc, Option.getD_none]⟩

theorem after_verifyBundle (m : RulesManifest) (s : View pf.Content) :
    Prog.After (perform pf) (verifyBundle pf (.live .bundle) m) s fun r s' =>
      s'.fs = s.fs ∧ (r = true → ∃ b, s.live .bundle = some (.file b) ∧ verifies pf m b = true) ∧
      (s'.misread = false → r = false → ∀ b, s.live .bundle = some (.file b) → verifies pf m b = false) := by
  refine Prog.After.bind (Q := fun a s' => s'.fs = s.fs ∧ ((∃ e, a = .error e ∧
    (s'.misread = false → s.live .bundle = none)) ∨ ∃ n, a = .ok (.size n) ∧
      ∀ b, s.live .bundle = some (.file b) → n = pf.size b)) ?_ ?_
  · refine after_trusting rfl rfl (fun s' hfs hmis => ⟨hfs, .inl ⟨_, rfl, by simp [hmis]⟩⟩) fun k hk => ?_
    simp only [perform, hk, Bool.false_and, Bool.false_eq_true, if_false]
    have hlive : s.fs (.live .bundle) = s.live .bundle := rfl
    rw [hlive]
    split
    case h_1 c hc =>
      refine ⟨rfl, .inr ⟨_, rfl, fun b hb => ?_⟩⟩
      rw [hc] at hb
      cases hb
      rfl
    case h_2 hc =>
      refine ⟨rfl, .inr ⟨_, rfl, fun b hb => ?_⟩⟩
      rw [hc] at hb
      cases hb
    case h_3 hc => exact ⟨rfl, .inl ⟨_, rfl, fun _ => hc⟩⟩
  rintro a s₁ ⟨hfs₁, ⟨e, rfl, hnone⟩ | ⟨n, rfl, hsize⟩⟩
  · refine Prog.after_pure ⟨hfs₁, nofun, fun hm _ b hb => ?_⟩
    rw [hnone hm] at hb
    cases hb
  simp only
  split
  case isTrue hne =>
    refine Prog.after_pure ⟨hfs₁, nofun, fun _ _ b hb => ?_⟩
    have hb := hsize b hb
    subst hb
    simp [verifies, hne.1, hne.2]
  case isFalse hne =>
  split
  case isTrue hempty =>
    exact Prog.after_pure ⟨hfs₁, nofun, fun _ _ b hb => by simp [verifies, hempty]⟩
  case isFalse hempty =>
  have hver : ∀ b, s.live .bundle = some (.file b) → verifies pf m b = equalFold (pf.digest b) m.wanted := by
    intro b hb
    have hn := hsize b hb
    subst hn
    have hsz : (decide (0 < m.size) && pf.size b != m.size) = false := by
      rw [Bool.eq_false_iff]
      intro h
      rw [Bool.and_eq_true, decide_eq_true_iff, bne_iff_ne] at h
      exact hne h
    simp [verifies, hsz, hempty]
  have hlive : s₁.fs (.live .bundle) = s.live .bundle := by rw [hfs₁]; rfl
  refine Prog.After.seq (after_trusting rfl rfl (fun s₂ hfs hmis => ?_) fun k hk => ?_)
  · exact Prog.after_pure ⟨hfs.trans hfs₁, nofun, by simp [hmis]⟩
  simp only [perform, hk, View.onFile, Bool.false_and, Bool.false_eq_true, if_false]
  rw [hlive]
  rcases hc : s.live .bundle with _ | ⟨c | files⟩
  · exact Prog.after_pure ⟨hfs₁, nofun, fun _ _ b hb => (by cases hb)⟩
  · refine Prog.after_pure ⟨hfs₁, fun h => ⟨c, rfl, (hver c hc).trans h⟩, fun _ h b hb => ?_⟩
    cases hb
    exact (hver c hc).trans h
  · exact Prog.after_pure ⟨hfs₁, nofun, fun _ _ b hb => (by cases hb)⟩

/-- `trustedLocalManifest` finds the trusted record, or nothing; it misses it only by a misread. -/
theorem after_trustedLocalManifest (s : View pf.Content) :
    Prog.After (perform pf) (trustedLocalManifest pf) s fun r s' =>
      s'.fs = s.fs ∧ (r = {} ∨ r = trusted pf s.live) ∧ (s'.misread = false → r = trusted pf s.live) := by
  refine Prog.After.bind (after_readLocalManifest s) ?_
  rintro m s₁ ⟨hfs₁, hm, hread⟩
  have hlive₁ : s₁.live = s.live := live_congr hfs₁
  by_cases hver : m.manifest.version ≤ 0
  · rw [if_pos hver]
    refine Prog.after_pure ⟨hfs₁, .inl rfl, fun hmis => ?_⟩
    -- A record that is trusted has a version.
    rcases trusted_cases pf s.live with h | ⟨c, b, hc, hdec, -, -, hpos⟩
    · exact h.symm
    · have hd : decoded pf s.live = some (trusted pf s.live) := by simp only [decoded, hc, hdec]
      have hmt := hread hmis
      rw [hd, Option.getD_some] at hmt
      rw [hmt] at hver
      exact absurd hpos (Int.not_lt.2 hver)
  · rw [if_neg hver]
    have hdec : decoded pf s.live = some m := by
      rcases hm with rfl | hm
      · exact absurd (Int.le_refl 0) hver
      · exact hm
    refine Prog.After.bind (after_verifyBundle m.manifest s₁) ?_
    rintro ok s₂ ⟨hfs₂, htrue, hfalse⟩
    rw [hlive₁] at htrue hfalse
    cases ok with
    | true =>
      obtain ⟨b, hb, hv⟩ := htrue rfl
      have hmt : m = trusted pf s.live := by
        simp only [trusted, hdec, hb]
        exact (if_pos ⟨by omega, hv⟩).symm
      exact Prog.after_pure ⟨hfs₂.trans hfs₁, .inr hmt, fun _ => hmt⟩
    | false =>
      refine Prog.after_pure ⟨hfs₂.trans hfs₁, .inl rfl, fun hmis => ?_⟩
      rcases trusted_cases pf s.live with h | ⟨c, b, hc, hd, hb, hv, -⟩
      · exact h.symm
      · have hd' : decoded pf s.live = some (trusted pf s.live) := by simp only [decoded, hc, hd]
        rw [hdec, Option.some.injEq] at hd'
        have hno := hfalse hmis rfl b hb
        rw [hd', hv] at hno
        cases hno

theorem Written.live_of_ne {s s' : View C} {c : C} (h : Written (.live .record) s a s' c) (n : Name) (hn : n ≠ .record) :
    s'.live n = s.live n :=
  h.others _ nofun fun heq => hn (Path.live.inj heq)

theorem Written.live_error {s s' : View C} {e : Errno} {c : C} (h : Written (.live .record) s (.error e) s' c)
    (n : Name) : s'.live n = s.live n := by
  by_cases hn : n = .record
  · rw [hn]
    exact h.error e rfl
  · exact h.live_of_ne n hn

theorem Written.regular {s s' : View C} {c : C} (h : Written (.live .record) s a s' c) (hr : Regular (s.live .record)) :
    Regular (s'.live .record) := by
  cases a with
  | error e => rwa [h.live_error]
  | ok u =>
    rw [View.live, h.ok rfl]
    exact regular_file c

/-! ## The marker tree -/

def Node.isDir {C : Type} : Node C → Bool
  | .file _ => false
  | .dir _ => true

theorem after_stat (hnone : s.fs p = none → Q (.error .notExist) s)
    (hio : ∀ s', s'.fs = s.fs → s.failures < s'.failures → Q (.error .io) s')
    (hok : ∀ n, s.fs p = some n → Q (.ok (.isDir n.isDir)) s) : Prog.After (perform pf) (call (.stat p)) s Q := by
  refine Prog.after_ask fun k => ?_
  unfold perform
  split
  case isTrue =>
    obtain ⟨hf, -, hfs⟩ := s.fail_spec (.stat p) k.left
    show Q (.error .io) (s.fail (.stat p) k.left)
    exact hio _ (funext fun q => hfs q nofun) (by omega)
  case isFalse =>
    simp only
    split
    case h_1 c hc => exact hok _ hc
    case h_2 fs hc => exact hok _ hc
    case h_3 hc => exact hnone hc

/-- The paths a swap of the marker tree touches. -/
def Path.ofTree : Path → Bool
  | .live (.entry _) | .aside _ | .staged _ => true
  | _ => false

/-- Nothing but the marker tree differs. -/
def OffTree {C : Type} (s s' : View C) : Prop := ∀ p, p.ofTree = false → s'.fs p = s.fs p

theorem OffTree.live {s s' : View C} (h : OffTree s s') {n : Name} (hn : n ∈ cacheFiles) :
    s'.live n = s.live n := by
  refine h _ ?_
  cases n <;> first | rfl | simp [cacheFiles] at hn

theorem Written.ofTree {s s' : View C} {c : C} (h : Written (.live .record) s a s' c) (p : Path) (hp : p.ofTree = true) :
    s'.fs p = s.fs p := h.others p (by rintro rfl; cases hp) (by rintro rfl; cases hp)

/-- A swap under way, and how to get the original `tree` back from it. -/
structure Undo {C : Type} (tree : Entry → Option (Node C)) (w : MarkerTreeSwap) (s : View C) : Prop where
  aside : ∀ e ∈ w.moved, ∃ n, tree e = some n ∧ s.fs (.aside e) = some n
  gone : ∀ e ∈ w.moved, e ∉ w.installed → s.live (.entry e) = none
  kept : ∀ e, e ∉ w.moved → e ∉ w.installed → s.live (.entry e) = tree e
  fresh : ∀ e ∈ w.installed, e ∉ w.moved → tree e = none
  nodup : w.moved.Nodup

theorem Undo.congr {tree : Entry → Option (Node C)} {s s' : View C}
    (h : Undo tree w s) (hfs : ∀ p, p.ofTree = true → s'.fs p = s.fs p) : Undo tree w s' := by
  refine ⟨fun e he => ?_, fun e he hi => (hfs _ rfl).trans (h.gone e he hi),
    fun e hm hi => (hfs _ rfl).trans (h.kept e hm hi), h.fresh, h.nodup⟩
  rw [hfs _ rfl]
  exact h.aside e he

/-- One more entry moved aside. -/
theorem Undo.move {tree : Entry → Option (Node C)} {s s' : View C} {n : Node C} (h : Undo tree w s)
    (hw : w.installed = []) (he : e ∉ w.moved) (hn : s.fs (.live (.entry e)) = some n)
    (hfs : s'.fs = Function.update (Function.update s.fs (.live (.entry e)) none) (.aside e) (some n)) :
    Undo tree { w with moved := w.moved ++ [e] } s' := by
  have hnew : s'.fs (.aside e) = some n := by rw [hfs, Function.update_self]
  have hgone : s'.live (.entry e) = none := by simp [View.live, hfs]
  have haside : ∀ e', e' ≠ e → s'.fs (.aside e') = s.fs (.aside e') := fun e' hne => by
    simp [hfs, hne]
  have hlive : ∀ e', e' ≠ e → s'.live (.entry e') = s.live (.entry e') := fun e' hne => by
    simp [View.live, hfs, hne]
  have htree : tree e = some n := (h.kept e he (by rw [hw]; exact List.not_mem_nil)).symm.trans hn
  refine ⟨fun e' he' => ?_, fun e' he' hi => ?_, fun e' hm hi => ?_, fun e' he' => ?_, ?_⟩
  · by_cases heq : e' = e
    · subst heq
      exact ⟨n, htree, hnew⟩
    · rw [haside e' heq]
      exact h.aside e' ((List.mem_append.1 he').resolve_right fun hm => heq (List.mem_singleton.1 hm))
  · by_cases heq : e' = e
    · subst heq
      exact hgone
    · rw [hlive e' heq]
      exact h.gone e' ((List.mem_append.1 he').resolve_right fun hm => heq (List.mem_singleton.1 hm)) hi
  · have hne : e' ≠ e := fun heq => hm (List.mem_append_right _ (List.mem_singleton.2 heq))
    rw [hlive e' hne]
    exact h.kept e' (fun hmem => hm (List.mem_append_left _ hmem)) hi
  · rw [hw] at he'
    cases he'
  · exact List.nodup_append_comm.1 (List.nodup_cons.2 ⟨he, h.nodup⟩)

/-- What moving the entries `es` aside leaves. -/
structure Retired {C : Type} (tree : Entry → Option (Node C)) (es : List Entry) (s : View C)
    (r : MarkerTreeSwap × Option Errno) (s' : View C) : Prop where
  undo : Undo tree r.1 s'
  installed : r.1.installed = []
  off : OffTree s s'
  staged : ∀ e, s'.fs (.staged e) = s.fs (.staged e)
  others : ∀ e ∉ es, s'.live (.entry e) = s.live (.entry e)
  done : r.2 = none → ∀ e ∈ es, s'.live (.entry e) = none
  failed : ∀ err, r.2 = some err → s.failures < s'.failures

/-- A swap that stops where it is. -/
theorem retired_stop {tree : Entry → Option (Node C)} {s s' : View C}
    {e : Errno} (h : Undo tree w s) (hw : w.installed = []) (hfs : s'.fs = s.fs) (hlt : s.failures < s'.failures) :
    Retired tree es s (w, some e) s' := by
  refine ⟨h.congr fun p _ => by rw [hfs], hw, fun p _ => by rw [hfs], fun e' => by rw [hfs],
    fun e' _ => by rw [View.live, hfs]; rfl, nofun, fun _ _ => hlt⟩

/-- The entry at the head is out of the way, the others are moved. -/
theorem Retired.cons {tree : Entry → Option (Node C)} {s s' s'' : View C} {r : MarkerTreeSwap × Option Errno}
    (h : Retired tree es s' r s'') (he : e ∉ es) (hgone : s'.live (.entry e) = none) (hle : s.failures ≤ s'.failures)
    (hoff : OffTree s s') (hstaged : ∀ e', s'.fs (.staged e') = s.fs (.staged e'))
    (hothers : ∀ e', e' ≠ e → s'.live (.entry e') = s.live (.entry e')) : Retired tree (e :: es) s r s'' := by
  refine ⟨h.undo, h.installed, fun p hp => (h.off p hp).trans (hoff p hp), fun e' => (h.staged e').trans (hstaged e'),
    fun e' he' => ?_, fun hr e' he' => ?_, fun err hr => ?_⟩
  · rw [List.mem_cons, not_or] at he'
    exact (h.others e' he'.2).trans (hothers e' he'.1)
  · rcases List.mem_cons.1 he' with rfl | he'
    · exact (h.others e' he).trans hgone
    · exact h.done hr e' he'
  · have hlt := h.failed err hr
    omega

theorem after_retireFrom
    (h : Undo tree w s) (hw : w.installed = []) (hes : es.Nodup) (hnew : ∀ e ∈ es, e ∉ w.moved)
    (hfree : ∀ e ∈ es, s.fs (.aside e) = none) :
    Prog.After (perform pf) (w.retireFrom es) s (Retired tree es s) := by
  induction es generalizing w s with
  | nil => exact Prog.after_pure ⟨h, hw, fun _ _ => rfl, fun _ => rfl, fun _ _ => rfl, fun _ _ he => (by cases he), nofun⟩
  | cons e es ih =>
    obtain ⟨hnot, hes⟩ := List.nodup_cons.1 hes
    have hnew' : ∀ e' ∈ es, e' ∉ w.moved := fun e' he' => hnew e' (List.mem_cons_of_mem _ he')
    have hfree' : ∀ e' ∈ es, s.fs (.aside e') = none := fun e' he' => hfree e' (List.mem_cons_of_mem _ he')
    have hne : ∀ e' ∈ es, e' ≠ e := fun e' he' heq => hnot (heq ▸ he')
    rw [MarkerTreeSwap.retireFrom]
    refine Prog.After.seq (after_stat (fun hnone => ?_) (fun s₁ hfs hlt => ?_) fun n hn => ?_)
    · exact (ih h hw hes hnew' hfree').imp fun r s₂ hr =>
        hr.cons hnot hnone (Nat.le_refl _) (fun _ _ => rfl) (fun _ => rfl) fun _ _ => rfl
    · exact Prog.after_pure (retired_stop h hw hfs hlt)
    · have hrep : n.replaces (s.fs (.aside e)) = true := by rw [hfree e List.mem_cons_self, replaces_none]
      refine Prog.After.seq (after_move hn hrep (fun s₂ hfs hle => ?_) fun e' s₂ hfs hlt => ?_)
      · have hnext := h.move hw (hnew e List.mem_cons_self) hn hfs
        have hfresh : ∀ e' ∈ es, e' ∉ w.moved ++ [e] := by
          intro e' he' hmem
          rcases List.mem_append.1 hmem with hmem | hmem
          · exact hnew' e' he' hmem
          · exact hne e' he' (List.mem_singleton.1 hmem)
        have hfree₂ : ∀ e' ∈ es, s₂.fs (.aside e') = none := fun e' he' => by
          simp [hfs, hne e' he', hfree' e' he']
        refine (ih hnext hw hes hfresh hfree₂).imp fun r s₃ hr => hr.cons hnot ?_ hle ?_ ?_ ?_
        · simp [View.live, hfs]
        · intro p hp
          have h1 : p ≠ .aside e := by rintro rfl; cases hp
          have h2 : p ≠ .live (.entry e) := by rintro rfl; cases hp
          simp [hfs, h1, h2]
        · intro e'
          simp [hfs]
        · intro e' hne'
          simp [View.live, hfs, hne']
      · exact Prog.after_pure (retired_stop h hw hfs hlt)

/-- One more staged entry put in place. -/
theorem Undo.place {tree : Entry → Option (Node C)} {s s' : View C} {n : Node C} (h : Undo tree w s)
    (hfresh : e ∉ w.moved → tree e = none)
    (hfs : s'.fs = Function.update (Function.update s.fs (.staged e) none) (.live (.entry e)) (some n)) :
    Undo tree { w with installed := w.installed ++ [e] } s' := by
  have haside : ∀ e', s'.fs (.aside e') = s.fs (.aside e') := fun e' => by simp [hfs]
  have hlive : ∀ e', e' ≠ e → s'.live (.entry e') = s.live (.entry e') := fun e' hne => by
    simp [View.live, hfs, hne]
  have hsplit : ∀ e', e' ∉ w.installed ++ [e] → e' ∉ w.installed ∧ e' ≠ e := fun e' he' =>
    ⟨fun hmem => he' (List.mem_append_left _ hmem), fun heq => he' (List.mem_append_right _ (List.mem_singleton.2 heq))⟩
  refine ⟨fun e' he' => ?_, fun e' he' hi => ?_, fun e' hm hi => ?_, fun e' he' hm => ?_, h.nodup⟩
  · rw [haside]
    exact h.aside e' he'
  · rw [hlive e' (hsplit e' hi).2]
    exact h.gone e' he' (hsplit e' hi).1
  · rw [hlive e' (hsplit e' hi).2]
    exact h.kept e' hm (hsplit e' hi).1
  · rcases List.mem_append.1 he' with he' | he'
    · exact h.fresh e' he' hm
    · rw [List.mem_singleton.1 he'] at hm ⊢
      exact hfresh hm

theorem after_installFrom
    (h : Undo tree w s) (hes : es.Nodup) (hfresh : ∀ e ∈ es, e ∉ w.moved → tree e = none)
    (hgone : ∀ e ∈ es, s.live (.entry e) = none) (hstaged : ∀ e ∈ es, ∃ n, s.fs (.staged e) = some n) :
    Prog.After (perform pf) (w.installFrom es) s fun r s' =>
      Undo tree r.1 s' ∧ OffTree s s' ∧ ∀ err, r.2 = some err → s.failures < s'.failures := by
  induction es generalizing w s with
  | nil => exact Prog.after_pure ⟨h, fun _ _ => rfl, nofun⟩
  | cons e es ih =>
    obtain ⟨hnot, hes⟩ := List.nodup_cons.1 hes
    have hne : ∀ e' ∈ es, e' ≠ e := fun e' he' heq => hnot (heq ▸ he')
    obtain ⟨n, hn⟩ := hstaged e List.mem_cons_self
    rw [MarkerTreeSwap.installFrom]
    have hfree : s.fs (.live (.entry e)) = none := hgone e List.mem_cons_self
    have hrep : n.replaces (s.fs (.live (.entry e))) = true := by rw [hfree, replaces_none]
    refine Prog.After.seq (after_move hn hrep (fun s₁ hfs hle => ?_) fun e' s₁ hfs hlt => ?_)
    · have hnext := h.place (hfresh e List.mem_cons_self) hfs
      have hgone₁ : ∀ e' ∈ es, s₁.live (.entry e') = none := fun e' he' => by
        simpa [View.live, hfs, hne e' he'] using hgone e' (List.mem_cons_of_mem _ he')
      have hstaged₁ : ∀ e' ∈ es, ∃ n, s₁.fs (.staged e') = some n := fun e' he' => by
        simpa [hfs, hne e' he'] using hstaged e' (List.mem_cons_of_mem _ he')
      refine (ih hnext hes (fun e' he' => hfresh e' (List.mem_cons_of_mem _ he')) hgone₁ hstaged₁).imp fun r s₂ hr => ?_
      obtain ⟨hundo, hoff, hfail⟩ := hr
      refine ⟨hundo, fun p hp => (hoff p hp).trans ?_, fun err herr => ?_⟩
      · have h1 : p ≠ .staged e := by rintro rfl; cases hp
        have h2 : p ≠ .live (.entry e) := by rintro rfl; cases hp
        simp [hfs, h1, h2]
      · have hlt := hfail err herr
        omega
    · exact Prog.after_pure ⟨h.congr fun p _ => by rw [hfs], fun p _ => by rw [hfs], fun _ _ => hlt⟩

theorem complaint_rename (src dst : Path) (e : Errno) :
    complaint (.rename src dst : Op C) (.error e) = [e] := by cases e <;> rfl

theorem complaint_removeAll (p : Path) (e : Errno) : complaint (.removeAll p : Op C) (.error e) = [e] := by
  cases e <;> rfl

theorem after_removals (es : List Entry) (s : View pf.Content) :
    Prog.After (perform pf) (joinAll (es.map fun e => .removeAll (.live (.entry e)))) s fun recs s' =>
      (∀ p, (∀ e ∈ es, p ≠ .live (.entry e)) → s'.fs p = s.fs p) ∧
      (recs = [] → ∀ e ∈ es, s'.live (.entry e) = none) ∧ (recs ≠ [] → s.failures < s'.failures) := by
  induction es generalizing s with
  | nil => exact Prog.after_pure ⟨fun _ _ => rfl, fun _ _ he => (by cases he), fun h => absurd rfl h⟩
  | cons e es ih =>
    rw [List.map_cons, joinAll]
    refine Prog.After.bind (Q := fun a s' => (∀ p, p ≠ .live (.entry e) → s'.fs p = s.fs p) ∧
      ((a = .ok .done ∧ s'.live (.entry e) = none ∧ s.failures ≤ s'.failures) ∨
        ∃ e', a = .error e' ∧ s.failures < s'.failures)) ?_ ?_
    · refine after_removeAll (fun s' hfs hle => ⟨fun p hp => ?_, .inl ⟨rfl, by simp [View.live, hfs], hle⟩⟩)
        fun e' s' hfs hlt => ⟨hfs, .inr ⟨e', rfl, hlt⟩⟩
      rw [hfs, Function.update_of_ne hp]
    rintro a s₁ ⟨hkeep, hres⟩
    refine Prog.After.bind (after_grown (ih s₁)) ?_
    rintro recs s₂ ⟨⟨hkeep₂, hnone₂, hlt₂⟩, hgrow₂⟩
    have hle₂ := hgrow₂.failures
    have hoff : ∀ p, (∀ e' ∈ e :: es, p ≠ .live (.entry e')) → s₂.fs p = s.fs p := fun p hp =>
      (hkeep₂ p fun e' he' => hp e' (List.mem_cons_of_mem _ he')).trans (hkeep p (hp e List.mem_cons_self))
    refine Prog.after_pure ⟨hoff, ?_⟩
    rcases hres with ⟨rfl, hgone, hle⟩ | ⟨e', rfl, hlt⟩
    · refine ⟨fun hrecs e' he' => ?_, fun hrecs => Nat.lt_of_le_of_lt hle (hlt₂ hrecs)⟩
      by_cases hmem : e' ∈ es
      · exact hnone₂ hrecs e' hmem
      · have heq : e' = e := (List.mem_cons.1 he').resolve_right hmem
        subst heq
        refine (hkeep₂ _ fun e'' he'' => ?_).trans hgone
        rintro ⟨⟩
        exact hmem he''
    · exact ⟨fun hrecs => (by rw [complaint_removeAll] at hrecs; cases hrecs), fun _ => by omega⟩

theorem after_renames (hes : es.Nodup)
    (haside : ∀ e ∈ es, ∃ n, tree e = some n ∧ s.fs (.aside e) = some n) :
    Prog.After (perform pf) (joinAll (es.map fun e => .rename (.aside e) (.live (.entry e)))) s fun recs s' =>
      (∀ p, (∀ e ∈ es, p ≠ .live (.entry e) ∧ p ≠ .aside e) → s'.fs p = s.fs p) ∧
      (recs = [] → ∀ e ∈ es, s'.live (.entry e) = tree e) ∧
      (recs ≠ [] → (∀ e ∈ es, s.live (.entry e) = none) → s.failures < s'.failures) := by
  induction es generalizing s with
  | nil => exact Prog.after_pure ⟨fun _ _ => rfl, fun _ _ he => (by cases he), fun h => absurd rfl h⟩
  | cons e es ih =>
    obtain ⟨hnot, hes⟩ := List.nodup_cons.1 hes
    have hne : ∀ e' ∈ es, e' ≠ e := fun e' he' heq => hnot (heq ▸ he')
    obtain ⟨n, htree, hn⟩ := haside e List.mem_cons_self
    rw [List.map_cons, joinAll]
    refine Prog.After.bind (Q := fun a s' => (∀ p, p ≠ .live (.entry e) → p ≠ .aside e → s'.fs p = s.fs p) ∧
      s.failures ≤ s'.failures ∧ ((a = .ok .done ∧ s'.live (.entry e) = some n) ∨
        ∃ e', a = .error e' ∧ (s.live (.entry e) = none → s.failures < s'.failures))) ?_ ?_
    · refine after_rename (fun m s' hm hfs hgrow => ?_) fun e' s' hfs hgrow hlt => ?_
      · rw [hn] at hm
        cases hm
        refine ⟨fun p h1 h2 => by rw [hfs, Function.update_of_ne h1, Function.update_of_ne h2], hgrow.failures,
          .inl ⟨rfl, by simp [View.live, hfs]⟩⟩
      · refine ⟨fun p _ _ => by rw [hfs], hgrow.failures, .inr ⟨e', rfl, fun hnone => hlt ⟨n, hn, ?_⟩⟩⟩
        have hfree : s.fs (.live (.entry e)) = none := hnone
        rw [hfree, replaces_none]
    rintro a s₁ ⟨hkeep, hle, hres⟩
    have haside₁ : ∀ e' ∈ es, ∃ n, tree e' = some n ∧ s₁.fs (.aside e') = some n := fun e' he' => by
      rw [hkeep (.aside e') nofun (by simpa using hne e' he')]
      exact haside e' (List.mem_cons_of_mem _ he')
    have hlive₁ : ∀ e' ∈ es, s₁.live (.entry e') = s.live (.entry e') := fun e' he' =>
      hkeep _ (by simpa using hne e' he') nofun
    refine Prog.After.bind (after_grown (ih hes haside₁)) ?_
    rintro recs s₂ ⟨⟨hkeep₂, htree₂, hlt₂⟩, hgrow₂⟩
    have hle₂ := hgrow₂.failures
    have hoff : ∀ p, (∀ e' ∈ e :: es, p ≠ .live (.entry e') ∧ p ≠ .aside e') → s₂.fs p = s.fs p := fun p hp =>
      (hkeep₂ p fun e' he' => hp e' (List.mem_cons_of_mem _ he')).trans
        (hkeep p (hp e List.mem_cons_self).1 (hp e List.mem_cons_self).2)
    have hhead : s₂.live (.entry e) = s₁.live (.entry e) := hkeep₂ _ fun e' he' => ⟨by simpa using (hne e' he').symm, nofun⟩
    have hrest : recs ≠ [] → (∀ e' ∈ e :: es, s.live (.entry e') = none) → s.failures < s₂.failures := by
      intro hrecs hall
      have hlt := hlt₂ hrecs fun e' he' => (hlive₁ e' he').trans (hall e' (List.mem_cons_of_mem _ he'))
      omega
    refine Prog.after_pure ⟨hoff, ?_⟩
    rcases hres with ⟨rfl, hback⟩ | ⟨e', rfl, hlt⟩
    · refine ⟨fun hrecs e' he' => ?_, hrest⟩
      rcases List.mem_cons.1 he' with rfl | he'
      · rw [hhead, hback, htree]
      · exact htree₂ hrecs e' he'
    · refine ⟨fun hrecs => (by rw [complaint_rename] at hrecs; cases hrecs), fun _ hall => ?_⟩
      have hfirst := hlt (hall e List.mem_cons_self)
      omega

/-- A swap is undone, or the attempt reports what failed. -/
theorem after_restore
    (h : Undo tree w s) :
    Prog.After (perform pf) w.restore s fun recs s' =>
      OffTree s s' ∧ (recs = [] → ∀ e, s'.live (.entry e) = tree e) ∧ (recs ≠ [] → s.failures < s'.failures) := by
  refine Prog.After.bind (after_grown (after_removals w.installed s)) ?_
  rintro recs s₁ ⟨⟨hkeep, hnone, hlt⟩, hgrow₁⟩
  have hle₁ := hgrow₁.failures
  have haside₁ : ∀ e ∈ w.moved, ∃ n, tree e = some n ∧ s₁.fs (.aside e) = some n := fun e he => by
    rw [hkeep (.aside e) fun _ _ => nofun]
    exact h.aside e he
  refine Prog.After.bind (after_grown (after_renames h.nodup haside₁)) ?_
  rintro recs' s₂ ⟨⟨hkeep₂, htree₂, hlt₂⟩, hgrow₂⟩
  have hle₂ := hgrow₂.failures
  refine Prog.after_pure ⟨fun p hp => ?_, fun hrecs e => ?_, fun hrecs => ?_⟩
  · have hlive : ∀ e, p ≠ .live (.entry e) := by
      rintro e rfl
      cases hp
    have haside : ∀ e, p ≠ .aside e := by
      rintro e rfl
      cases hp
    rw [hkeep₂ p fun e _ => ⟨hlive e, haside e⟩, hkeep p fun e _ => hlive e]
  · obtain ⟨h1, h2⟩ := List.append_eq_nil_iff.1 hrecs
    by_cases hm : e ∈ w.moved
    · exact htree₂ h2 e hm
    · have hsame : s₂.live (.entry e) = s₁.live (.entry e) :=
        hkeep₂ _ fun e' he' => ⟨fun heq => hm (by cases heq; exact he'), nofun⟩
      rw [hsame]
      by_cases hi : e ∈ w.installed
      · rw [hnone h1 e hi, h.fresh e hi hm]
      · refine (hkeep _ fun e' he' heq => hi ?_).trans (h.kept e hm hi)
        cases heq
        exact he'
  · by_cases h1 : recs = []
    · have hgone : ∀ e ∈ w.moved, s₁.live (.entry e) = none := by
        intro e he
        by_cases hi : e ∈ w.installed
        · exact hnone h1 e hi
        · refine (hkeep _ fun e' he' heq => hi ?_).trans (h.gone e he hi)
          cases heq
          exact he'
      have hlast := hlt₂ (fun h2 => hrecs (by rw [h1, h2]; rfl)) hgone
      omega
    · have hfirst := hlt h1
      omega

/-- The whole tree is moved aside. -/
theorem after_retire
    (htree : ∀ e, s.live (.entry e) = tree e) (hfree : ∀ e, s.fs (.aside e) = none) :
    Prog.After (perform pf) (({} : MarkerTreeSwap).retire) s fun r s' =>
      Undo tree r.1 s' ∧ OffTree s s' ∧ (∀ e, s'.fs (.staged e) = s.fs (.staged e)) ∧
      (r.2 = none → (∀ e, s'.live (.entry e) = none) ∧ ∀ e, e ∉ r.1.moved → tree e = none) ∧
      (∀ err, r.2 = some err → s.failures < s'.failures) := by
  have hstart : Undo tree {} s := ⟨nofun, nofun, fun e _ _ => htree e, nofun, List.nodup_nil⟩
  refine Prog.After.bind (after_sure rfl rfl s) ?_
  rintro a s₁ ⟨hfs, hle, hlt⟩
  cases a with
  | error e =>
    exact Prog.after_pure ⟨hstart.congr fun p _ => by rw [hfs], fun p _ => by rw [hfs], fun e => by rw [hfs], nofun,
      fun _ _ => hlt e rfl⟩
  | ok r =>
    have hfree₁ : ∀ e ∈ markerTreeEntries, s₁.fs (.aside e) = none := fun e _ => by rw [hfs, hfree e]
    refine (after_retireFrom (hstart.congr fun p _ => by rw [hfs]) rfl (by decide) (fun _ _ => nofun) hfree₁).imp
      fun r s₂ h => ?_
    have hall : ∀ e, e ∈ markerTreeEntries := by
      intro e
      cases e <;> decide
    refine ⟨h.undo, fun p hp => by rw [h.off p hp, hfs], fun e => by rw [h.staged e, hfs], fun hr => ?_, fun err hr => ?_⟩
    · refine ⟨fun e => h.done hr e (hall e), fun e he => ?_⟩
      rw [← h.undo.kept e he (by rw [h.installed]; exact List.not_mem_nil), h.done hr e (hall e)]
    · have hlast := h.failed err hr
      omega

theorem after_install
    (h : Undo tree w s) (hfresh : ∀ e, e ∉ w.moved → tree e = none) (hgone : ∀ e, s.live (.entry e) = none)
    (hstaged : ∀ e, ∃ n, s.fs (.staged e) = some n) :
    Prog.After (perform pf) w.install s fun r s' =>
      Undo tree r.1 s' ∧ OffTree s s' ∧ ∀ err, r.2 = some err → s.failures < s'.failures :=
  after_installFrom h (by decide) (fun e _ => hfresh e) (fun e _ => hgone e) fun e _ => hstaged e

end MS.Rules
