import Mailstrix.Impl.Cape.Mapper

/-!
# What the signature mapper answers

The loop of `Normalize` sees the names one after another, but its answer is a function of the set of
rules they match.
-/

namespace MS.Cape.SignatureMapper

open Framework

variable (m : SignatureMapper) (raws : List (Option String))

def named (raw : Option String) : Bool := raw.any (identifier · 128)

/-- A rule whose signature is reported. -/
def Matched (rule : SignatureRule) : Prop := rule ∈ m.rules ∧ some rule.name ∈ raws

/-- The rules the loop finds, in the order of the report. -/
def hits : List SignatureRule := raws.filterMap (·.bind m.rule?)

/-- Their signals. -/
def found : Finset String := ((m.hits raws).map SignatureRule.signal).toFinset

def weight (rules : List SignatureRule) : Evidence :=
  if ∃ r ∈ rules, r.evidence = .malicious then .malicious
  else if rules = [] then .noSignal else .suspicious

def answer : NormalizedResult where
  version := 1
  policy := m.policy
  evidence := weight (m.hits raws)
  signals := sorted (m.found raws)

variable {m raws}

theorem rule?_eq_some {name : String} {rule : SignatureRule} :
    m.rule? name = some rule ↔ rule ∈ m.rules ∧ rule.name = name := by
  constructor
  · intro h
    exact ⟨List.mem_of_find?_eq_some h, by simpa using List.find?_some h⟩
  · rintro ⟨hmem, rfl⟩
    obtain ⟨other, hother⟩ := Option.isSome_iff_exists.1
      (List.find?_isSome.2 ⟨rule, hmem, decide_eq_true rfl⟩ : (m.rule? rule.name).isSome = true)
    have hname : other.name = rule.name := by simpa using List.find?_some hother
    rw [rule?, hother, List.inj_on_of_nodup_map m.distinct (List.mem_of_find?_eq_some hother) hmem hname]

theorem mem_hits {rule : SignatureRule} : rule ∈ m.hits raws ↔ m.Matched raws rule := by
  rw [hits, List.mem_filterMap]
  constructor
  · rintro ⟨raw, hraw, h⟩
    obtain ⟨name, rfl, hname⟩ := Option.bind_eq_some_iff.1 h
    obtain ⟨hmem, rfl⟩ := rule?_eq_some.1 hname
    exact ⟨hmem, hraw⟩
  · intro h
    exact ⟨some rule.name, h.2, rule?_eq_some.2 ⟨h.1, rfl⟩⟩

theorem valid_of_mem_hits {rule : SignatureRule} (h : rule ∈ m.hits raws) : rule.valid = true :=
  m.valid rule (mem_hits.1 h).1

theorem foldl_raise_malicious (rules : List SignatureRule) : rules.foldl raise .malicious = .malicious := by
  induction rules with
  | nil => rfl
  | cons r rules ih =>
    have hr : raise .malicious r = .malicious := by
      by_cases hr : r.evidence = .malicious <;> simp [raise, hr]
    rw [List.foldl_cons, hr, ih]

theorem foldl_raise_suspicious (rules : List SignatureRule) :
    rules.foldl raise .suspicious = if ∃ r ∈ rules, r.evidence = .malicious then .malicious else .suspicious := by
  induction rules with
  | nil => rfl
  | cons r rules ih =>
    by_cases hr : r.evidence = .malicious
    · simp [raise, hr, foldl_raise_malicious]
    · simp [raise, hr, ih]

theorem foldl_raise {rules : List SignatureRule} (h : ∀ r ∈ rules, r.valid = true) :
    rules.foldl raise .noSignal = weight rules := by
  cases rules with
  | nil => rfl
  | cons r rules =>
    have hr := h r List.mem_cons_self
    simp only [SignatureRule.valid, Bool.and_eq_true, Bool.or_eq_true, decide_eq_true_eq] at hr
    rcases hr.2 with hr | hr
    · simp [raise, weight, hr, foldl_raise_malicious]
    · simp [raise, weight, hr, foldl_raise_suspicious]

theorem look_eq (st : Finset String × Evidence) (raw : Option String) :
    m.look st raw = if named raw = true then
      .ok ((raw.bind m.rule?).elim st fun rule => (insert rule.signal st.1, raise st.2 rule))
    else .error (.code .protocol) := by
  cases raw with
  | none => rfl
  | some name =>
    show (check (identifier name 128 = true) _ >>= _) = if identifier name 128 = true then _ else _
    rw [check]
    split
    · rw [Option.bind_some]
      cases m.rule? name <;> rfl
    · rfl

/-- The loop collects the signals of the rules found and raises the evidence by each. -/
theorem foldlM_look (raws : List (Option String)) (st : Finset String × Evidence) :
    raws.foldlM m.look st = if ∀ raw ∈ raws, named raw = true then
      .ok (st.1 ∪ m.found raws, (m.hits raws).foldl raise st.2)
    else .error (.code .protocol) := by
  induction raws generalizing st with
  | nil => simp [found, hits, pure, Except.pure]
  | cons raw raws ih =>
    rw [List.foldlM_cons, look_eq]
    by_cases hraw : named raw = true
    · rw [if_pos hraw]
      show raws.foldlM m.look _ = _
      rw [ih]
      cases hrule : raw.bind m.rule? with
      | none => simp [found, hits, hraw, hrule]
      | some rule => simp [found, hits, hraw, hrule]
    · rw [if_neg hraw]
      exact (if_neg fun h => hraw (h raw List.mem_cons_self)).symm

theorem normalize_some {policy : String} :
    m.normalize (some raws) policy = (do
      check (policy = m.policy) (.code .protocol)
      check (raws.length ≤ 4096) (.code .protocol)
      check (∀ raw ∈ raws, named raw = true) (.code .protocol)
      let _ ← normalizedBytes (m.answer raws) m.policy
      pure (m.answer raws)) := by
  by_cases hpolicy : policy = m.policy
  · subst hpolicy
    show (check _ _ >>= fun _ => check _ _ >>= fun _ => raws.foldlM m.look (∅, .noSignal) >>= _) = _
    rw [foldlM_look, Finset.empty_union, foldl_raise fun r hr => valid_of_mem_hits hr]
    by_cases hnamed : ∀ raw ∈ raws, named raw = true
    · rw [if_pos hnamed, check_pos hnamed]
      rfl
    · rw [if_neg hnamed, check_error.2 ⟨hnamed, rfl⟩]
      rfl
  · rw [normalize, check_error.2 ⟨hpolicy, rfl⟩]
    rfl

theorem mem_signals {signal : String} :
    signal ∈ (m.answer raws).signals ↔ ∃ rule, m.Matched raws rule ∧ rule.signal = signal := by
  simp [answer, found, mem_hits]

theorem answer_congr {xs ys : List (Option String)} (h : ∀ x, x ∈ xs ↔ x ∈ ys) : m.answer xs = m.answer ys := by
  have hhits : ∀ rule, rule ∈ m.hits xs ↔ rule ∈ m.hits ys := by
    intro rule
    rw [mem_hits, mem_hits, Matched, Matched, h]
  have hnil : m.hits xs = [] ↔ m.hits ys = [] := by
    simp only [List.eq_nil_iff_forall_not_mem, hhits]
  have hsignals : m.found xs = m.found ys := by
    ext signal
    simp [found, hhits]
  simp only [answer, weight, hhits, hnil, hsignals]

/-- There are no more signals than rules. -/
theorem length_signals_le : (m.answer raws).signals.length ≤ 128 := by
  have hsub : m.found raws ⊆ (m.rules.map SignatureRule.signal).toFinset := by
    intro signal hsignal
    simp only [found, List.mem_toFinset, List.mem_map] at hsignal ⊢
    obtain ⟨rule, hrule, rfl⟩ := hsignal
    exact ⟨rule, (mem_hits.1 hrule).1, rfl⟩
  calc (m.answer raws).signals.length
      = (m.found raws).card := by rw [answer, Finset.length_sort]
    _ ≤ (m.rules.map SignatureRule.signal).toFinset.card := Finset.card_le_card hsub
    _ ≤ (m.rules.map SignatureRule.signal).length := List.toFinset_card_le _
    _ ≤ 128 := by rw [List.length_map]; exact m.bounded.2

theorem evidenceMatches_answer : evidenceMatches (m.answer raws) = true := by
  have hempty : (m.answer raws).signals = [] ↔ m.hits raws = [] := by
    rw [← List.length_eq_zero_iff, answer, Finset.length_sort]
    simp [found]
  have hweight : (m.answer raws).evidence = weight (m.hits raws) := rfl
  rw [evidenceMatches, hweight, weight]
  split_ifs with hmal hnil
  · obtain ⟨r, hr, -⟩ := hmal
    simp [hempty, List.ne_nil_of_mem hr]
  · simp [hempty, hnil]
  · simp [hempty, hnil]

/-- Of the store's checks only that of the size can refuse an answer. -/
theorem normalizedBytes_answer :
    normalizedBytes (m.answer raws) m.policy = if jobResultLimit < (m.answer raws).marshal.length
      then .error (.code .tooLarge) else .ok (m.answer raws).marshal := by
  have hid : (m.answer raws).signals.all (identifier · 128) = true := by
    refine List.all_eq_true.2 fun signal hsignal => ?_
    obtain ⟨rule, hrule, rfl⟩ := mem_signals.1 hsignal
    have hvalid := m.valid rule hrule.1
    simp only [SignatureRule.valid, Bool.and_eq_true] at hvalid
    exact hvalid.1.2
  have hnodup : (m.answer raws).signals.Nodup := by
    simp only [answer]
    exact Finset.sort_nodup (α := String) _ (· ≤ ·)
  have hlen := @length_signals_le m raws
  have hversion : (m.answer raws).version = 1 := rfl
  have hpolicy : (m.answer raws).policy = m.policy := rfl
  rw [normalizedBytes, if_neg, if_neg, if_neg]
  · simp [hid, hnodup]
  · simp [evidenceMatches_answer]
  · simp [hversion, hpolicy, m.identified, hlen]

theorem weight_malicious {rules : List SignatureRule} :
    weight rules = .malicious ↔ ∃ r ∈ rules, r.evidence = .malicious := by
  unfold weight
  split_ifs <;> simp_all

theorem weight_noSignal {rules : List SignatureRule} : weight rules = .noSignal ↔ rules = [] := by
  unfold weight
  split_ifs with hmal hnil
  · obtain ⟨r, hr, -⟩ := hmal
    simp [List.ne_nil_of_mem hr]
  · simp [hnil]
  · simp [hnil]

theorem weight_suspicious {rules : List SignatureRule} :
    weight rules = .suspicious ↔ rules ≠ [] ∧ ∀ r ∈ rules, r.evidence ≠ .malicious := by
  unfold weight
  split_ifs with hmal hnil
  · obtain ⟨r, hr, hev⟩ := hmal
    simpa using fun _ => ⟨r, hr, hev⟩
  · simp [hnil]
  · simpa [hnil] using hmal

/-- Reports of at most 4096 signatures with the same names have the same answer.  An answer weighs the
rules it matched, and the store takes it; a report with valid names has one unless that is too large. -/
theorem normalize_by_names (m : SignatureMapper) (policy : String) :
    (∀ xs ys : List (Option String), xs.length ≤ 4096 → ys.length ≤ 4096 → (∀ x, x ∈ xs ↔ x ∈ ys) →
      m.normalize (some xs) policy = m.normalize (some ys) policy) ∧
    (∀ signatures result, m.normalize signatures policy = .ok result → ∃ xs, signatures = some xs ∧
      (result.evidence = .malicious ↔ ∃ rule, m.Matched xs rule ∧ rule.evidence = .malicious) ∧
      (result.evidence = .suspicious ↔
        (∃ rule, m.Matched xs rule) ∧ ∀ rule, m.Matched xs rule → rule.evidence ≠ .malicious) ∧
      (result.evidence = .noSignal ↔ ∀ rule, ¬ m.Matched xs rule) ∧
      normalizedBytes result policy = .ok result.marshal) ∧
    ∀ xs : List (Option String), xs.length ≤ 4096 → (∀ x ∈ xs, ∃ name, x = some name ∧ identifier name 128 = true) →
      m.normalize (some xs) m.policy = if jobResultLimit < (m.answer xs).marshal.length
        then .error (.code .tooLarge) else .ok (m.answer xs) := by
  refine ⟨fun xs ys hxs hys h => ?_, fun signatures result h => ?_, fun xs hxs hnamed => ?_⟩
  · rw [normalize_some, normalize_some, answer_congr h, check_pos hxs, check_pos hys]
    simp only [h]
  · cases signatures with
    | none =>
      unfold normalize check need at h
      split at h <;> cases h
    | some xs =>
      rw [normalize_some] at h
      obtain ⟨_, hpolicy, hlen⟩ := bind_ok.1 h
      obtain ⟨_, -, hnamed⟩ := bind_ok.1 hlen
      obtain ⟨_, -, hbytes⟩ := bind_ok.1 hnamed
      obtain ⟨b, hb, hres⟩ := bind_ok.1 hbytes
      obtain rfl := check_ok.1 hpolicy
      obtain rfl := pure_ok.1 hres
      have hweight : (m.answer xs).evidence = weight (m.hits xs) := rfl
      have hnil : m.hits xs = [] ↔ ∀ rule, ¬ m.Matched xs rule := by
        simp only [List.eq_nil_iff_forall_not_mem, mem_hits]
      refine ⟨xs, rfl, ?_, ?_, ?_, ?_⟩
      · simp only [hweight, weight_malicious, mem_hits]
      · simp only [hweight, weight_suspicious, ne_eq, hnil, mem_hits, not_forall, not_not]
      · rw [hweight, weight_noSignal, hnil]
      rw [normalizedBytes_answer] at hb ⊢
      split at hb
      case isTrue => cases hb
      case isFalse hsize => exact if_neg hsize
  · have hall : ∀ x ∈ xs, named x = true := by
      intro x hx
      obtain ⟨name, rfl, hname⟩ := hnamed x hx
      exact hname
    rw [normalize_some, check_pos (p := _ = _) rfl, check_pos hxs, check_pos hall]
    show (normalizedBytes (m.answer xs) m.policy >>= fun _ => pure (m.answer xs)) = _
    rw [normalizedBytes_answer]
    split <;> rfl

def sampleMapper : SignatureMapper where
  policy := "p"
  rules := [⟨"n", "s", .malicious⟩]
  identified := by decide
  bounded := by decide
  valid := by decide
  distinct := by decide

/-- A name reported twice, to a mapper from the constructor. -/
theorem normalize_by_names_twice :
    newSignatureMapper "p" [⟨"n", "s", .malicious⟩] = .ok sampleMapper ∧
      sampleMapper.normalize (some [some "n", some "n"]) "p" = sampleMapper.normalize (some [some "n"]) "p" := by
  have hnames := (normalize_by_names sampleMapper "p").1 [some "n", some "n"] [some "n"] (by decide) (by decide)
  exact ⟨dif_pos (by decide), hnames (by simp)⟩

/-- A name reported 4097 times. -/
theorem normalize_repeated :
    (∀ x, x ∈ List.replicate 4097 (some "x") ↔ x ∈ [some "x"]) ∧
    sampleMapper.normalize (some (List.replicate 4097 (some "x"))) "p" = .error (.code .protocol) ∧
    sampleMapper.normalize (some [some "x"]) "p" = .ok { version := 1, policy := "p", evidence := .noSignal } := by
  refine ⟨fun x => ?_, ?_, ?_⟩
  · rw [List.mem_replicate, List.mem_singleton]
    exact and_iff_right (by decide)
  · have hlen : ¬ (List.replicate 4097 (some "x")).length ≤ 4096 := by
      rw [List.length_replicate]
      decide
    rw [normalize_some, check_pos (p := "p" = sampleMapper.policy) rfl, check_error.2 ⟨hlen, rfl⟩]
    rfl
  · have hanswer : sampleMapper.answer [some "x"] = { version := 1, policy := "p", evidence := .noSignal } := by
      simp [answer, found, hits, rule?, weight, sampleMapper]
    have hbytes := @normalizedBytes_answer sampleMapper [some "x"]
    rw [normalize_some, check_pos (p := "p" = sampleMapper.policy) rfl, check_pos (by decide), check_pos (by decide)]
    show (normalizedBytes (sampleMapper.answer [some "x"]) sampleMapper.policy >>=
      fun _ => pure (sampleMapper.answer [some "x"])) = _
    rw [hbytes, hanswer, if_neg (by decide +kernel)]
    rfl

end MS.Cape.SignatureMapper
