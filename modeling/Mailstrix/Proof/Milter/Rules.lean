import Mailstrix.Proof.Milter.Headers

/-!
# The stamped list of rules

A value without blanks at its ends is stamped as it is (`sanitizeHeaderValue_id`), and `joinLoop_cases` says what the
loop makes of the names behind the first one.  The count behind a shortened first name is one too high
(`joinRules_long`).
-/

namespace MS.Milter

open Framework
open Scan (ascii trimSpace isSpace)

variable {name x : Bytes} {n : Nat}

def listed (names : List Bytes) : Bytes := (ascii ", ").intercalate names

def countTail (n : Nat) : Bytes := ascii " (+" ++ numeral 10 n ++ ascii " more)"

/-- The number of names of which the first `n` characters of the list show nothing. -/
def unseen : Nat → List Bytes → Nat
  | _, [] => 0
  | n, name :: rest => (if n = 0 then 1 else 0) + unseen (n - (name.length + 2)) rest

/-- A value that does not misstate the names it leaves out. -/
structure Stated (names : List Bytes) (value : Bytes) : Prop where
  short : value.length ≤ 400
  printable : ∀ c ∈ value, Printable c
  exact : value = listed names ∨
    ∃ shown, shown ≠ [] ∧ shown <+: listed names ∧ value = shown ++ countTail (unseen shown.length names)

variable {rule : Bytes} {rest : List Bytes}

/-! ## Values without blanks at their ends -/

structure Solid (v : Bytes) : Prop where
  printable : ∀ c ∈ v, Printable c
  first : ∀ c ∈ v.head?, c ≠ 0x20
  last : ∀ c ∈ v.getLast?, c ≠ 0x20

theorem isSpace_printable {r : Nat} (h₁ : 0x20 ≤ r) (h₂ : r ≤ 0x7e) : isSpace r = true ↔ r = 0x20 := by
  simp only [isSpace, List.contains_eq_mem, List.mem_cons, List.not_mem_nil, or_false, Bool.or_eq_true,
    Bool.and_eq_true, decide_eq_true_eq]
  omega

theorem Printable.toNat {c : UInt8} (h : Printable c) : 0x20 ≤ c.toNat ∧ c.toNat ≤ 0x7e := h

theorem sanitizeHeaderValue_id {v : Bytes} (h : Solid v) (hlen : v.length ≤ 400) : sanitizeHeaderValue v = v := by
  have hrunes : runes v = v.map UInt8.toNat :=
    runes_ascii fun c hc => UInt8.lt_iff_toNat_lt.2 (Nat.lt_of_le_of_lt (h.printable c hc).toNat.2 (by decide))
  have hmap : (v.map UInt8.toNat).map (fun r => if r < 0x20 ∨ 0x7e < r then 0x3f else r) = v.map UInt8.toNat := by
    rw [List.map_map]
    refine List.map_congr_left fun c hc => if_neg ?_
    have := (h.printable c hc).toNat
    omega
  have hspace : ∀ c ∈ v, c ≠ 0x20 → isSpace c.toNat = false := by
    intro c hc hne
    rw [Bool.eq_false_iff, ne_eq, isSpace_printable (h.printable c hc).toNat.1 (h.printable c hc).toNat.2]
    exact fun heq => hne (UInt8.toNat_inj.1 heq)
  have hfront : (v.map UInt8.toNat).dropWhile isSpace = v.map UInt8.toNat := by
    cases v with
    | nil => rfl
    | cons c v => exact List.dropWhile_cons_of_neg (by simp [hspace c List.mem_cons_self (h.first c rfl)])
  have htrim : trimSpace (v.map UInt8.toNat) = v.map UInt8.toNat := by
    rw [trimSpace, hfront]
    refine List.rdropWhile_eq_self_iff.2 fun hne => ?_
    have hv : v ≠ [] := by simpa using hne
    rw [List.getLast_map, hspace _ (List.getLast_mem hv) (h.last _ (List.getLast?_eq_getLast_of_ne_nil hv))]
    decide
  simp only [sanitizeHeaderValue, hrunes, hmap, htrim, List.map_map, Function.comp_def, UInt8.ofNat_toNat, List.map_id']
  exact if_neg (Nat.not_lt.2 hlen)

theorem length_sanitized (v : Bytes) : (sanitizeHeaderValue v).length ≤ 400 := by
  unfold sanitizeHeaderValue
  dsimp only
  split
  · have hdots : (ascii "...").length = 3 := by decide
    rw [List.length_append, List.length_take, hdots]
    exact Nat.add_le_add_right (Nat.min_le_left _ _) 3
  · exact Nat.not_lt.1 ‹_›

theorem ends_trimSpace (rs : List Nat) :
    (∀ r ∈ (trimSpace rs).head?, isSpace r = false) ∧ ∀ r ∈ (trimSpace rs).getLast?, isSpace r = false := by
  constructor
  · intro r hr
    obtain ⟨t, ht⟩ : trimSpace rs <+: rs.dropWhile isSpace := List.rdropWhile_prefix _ _
    have hhead : (rs.dropWhile isSpace).head? = some r := by
      rw [← ht, List.head?_append, Option.mem_def.1 hr, Option.some_or]
    have hnot := List.head?_dropWhile_not isSpace rs
    rwa [hhead] at hnot
  · intro r hr
    obtain ⟨hne, rfl⟩ := List.mem_getLast?_eq_getLast hr
    exact Bool.eq_false_iff.2 (List.rdropWhile_last_not isSpace (rs.dropWhile isSpace) hne)

def shownRune (r : Nat) : Nat := if r < 0x20 ∨ 0x7e < r then 0x3f else r

theorem shownRune_range (r : Nat) : 0x20 ≤ shownRune r ∧ shownRune r ≤ 0x7e := by
  unfold shownRune
  split <;> omega

/-- A sanitised value before it is cut. -/
def kept (v : Bytes) : Bytes := (trimSpace ((runes v).map shownRune)).map UInt8.ofNat

theorem sanitized_eq (v : Bytes) :
    sanitizeHeaderValue v = if 400 < (kept v).length then (kept v).take 397 ++ ascii "..." else kept v := rfl

theorem kept_ends (v : Bytes) : (∀ c ∈ (kept v).head?, c ≠ 0x20) ∧ ∀ c ∈ (kept v).getLast?, c ≠ 0x20 := by
  obtain ⟨hfirst, hlast⟩ := ends_trimSpace ((runes v).map shownRune)
  have hblank : ∀ r ∈ trimSpace ((runes v).map shownRune), isSpace r = false → UInt8.ofNat r ≠ 0x20 := by
    intro r hr hspace heq
    obtain ⟨r', -, rfl⟩ := List.mem_map.1 (Scan.mem_of_mem_trimSpace hr)
    have hnat := congrArg UInt8.toNat heq
    rw [toNat_ofNat_lt (Nat.lt_of_le_of_lt (shownRune_range r').2 (by decide))] at hnat
    rw [hnat] at hspace
    exact absurd hspace (by decide)
  constructor
  · intro c hc
    rw [kept, List.head?_map] at hc
    obtain ⟨r, hr, rfl⟩ := Option.mem_map.1 hc
    exact hblank r (List.mem_of_mem_head? hr) (hfirst r hr)
  · intro c hc
    rw [kept, List.getLast?_map] at hc
    obtain ⟨r, hr, rfl⟩ := Option.mem_map.1 hc
    exact hblank r (List.mem_of_mem_getLast? hr) (hlast r hr)

theorem solid_sanitized (v : Bytes) : Solid (sanitizeHeaderValue v) := by
  refine ⟨printable_sanitized v, ?_, ?_⟩ <;> rw [sanitized_eq] <;> split
  · intro c hc
    have hpos : 0 < ((kept v).take 397).length := by rw [List.length_take]; omega
    rw [List.head?_append_of_ne_nil _ (List.ne_nil_of_length_pos hpos), List.head?_take, if_neg (by decide)] at hc
    exact (kept_ends v).1 c hc
  · exact (kept_ends v).1
  · intro c hc
    rw [List.getLast?_append_of_ne_nil _ (by decide)] at hc
    cases hc
    decide
  · exact (kept_ends v).2

theorem trimSpace_eq_nil {rs : List Nat} : trimSpace rs = [] ↔ ∀ r ∈ rs, isSpace r = true := by
  constructor
  · intro h r hr
    rw [← List.takeWhile_append_dropWhile (p := isSpace) (l := rs), List.mem_append] at hr
    rcases hr with hr | hr
    · exact List.mem_takeWhile_imp hr
    · exact List.rdropWhile_eq_nil_iff.1 h r hr
  · intro h
    rw [trimSpace, List.dropWhile_eq_nil_iff.2 h]
    rfl

theorem sanitized_ne_nil (h : trimSpace (runes rule) ≠ []) : sanitizeHeaderValue rule ≠ [] := by
  have hkept : kept rule ≠ [] := by
    intro hnil
    rw [kept, List.map_eq_nil_iff, trimSpace_eq_nil, List.forall_mem_map] at hnil
    refine h (trimSpace_eq_nil.2 fun r hr => ?_)
    have hblank := (isSpace_printable (shownRune_range r).1 (shownRune_range r).2).1 (hnil r hr)
    have : r = 0x20 := by
      unfold shownRune at hblank
      split at hblank <;> omega
    rw [this]
    decide
  rw [sanitized_eq]
  split
  · exact List.append_ne_nil_of_right_ne_nil _ (by decide)
  · exact hkept

/-! ## Lists of names -/

theorem listed_cons (name : Bytes) (names : List Bytes) :
    listed (name :: names) = name ++ names.flatMap (ascii ", " ++ ·) := by
  induction names generalizing name with
  | nil => simp [listed]
  | cons next names ih =>
    rw [List.flatMap_cons, List.append_assoc, ← ih next]
    simp [listed, List.intercalate_cons_cons]

theorem listed_append (name : Bytes) (a b : List Bytes) :
    listed (name :: (a ++ b)) = listed (name :: a) ++ b.flatMap (ascii ", " ++ ·) := by
  rw [listed_cons, listed_cons, List.flatMap_append, List.append_assoc]

theorem listed_ne_nil (names : List Bytes) (h : name ≠ []) : listed (name :: names) ≠ [] := by
  rw [listed_cons]
  exact List.append_ne_nil_of_left_ne_nil h _

theorem unseen_zero (names : List Bytes) : unseen 0 names = names.length := by
  induction names with
  | nil => rfl
  | cons name names ih => rw [unseen, Nat.zero_sub, ih, if_pos rfl, List.length_cons, Nat.add_comm]

/-- Up to the end of a name, that name and those before it are seen. -/
theorem unseen_listed {a : List Bytes} (b : List Bytes) (hname : name ≠ []) (ha : ∀ m ∈ a, m ≠ []) :
    unseen (listed (name :: a)).length (name :: (a ++ b)) = b.length := by
  have hpos := List.length_pos_iff.2 hname
  induction a generalizing name with
  | nil =>
    rw [listed_cons, List.flatMap_nil, List.append_nil, unseen, if_neg (by omega), Nat.zero_add,
      Nat.sub_eq_zero_of_le (by omega), List.nil_append, unseen_zero]
  | cons next a ih =>
    obtain ⟨hnext, ha⟩ := List.forall_mem_cons.1 ha
    have hlen : (listed (name :: next :: a)).length = name.length + 2 + (listed (next :: a)).length := by
      rw [listed_cons, List.flatMap_cons, List.append_assoc, ← listed_cons, List.length_append, List.length_append,
        ← Nat.add_assoc]
      rfl
    rw [hlen, unseen, if_neg (by omega), Nat.zero_add, Nat.add_sub_cancel_left]
    exact ih hnext ha (List.length_pos_iff.2 hnext)

theorem countTail_inj {y : Bytes} {m : Nat} (h : x ++ countTail m = y ++ countTail n) : x = y ∧ m = n := by
  have hplus : ∀ k, (0x2b : UInt8) ∉ numeral 10 k ++ ascii " more)" := by
    intro k hk
    rcases List.mem_append.1 hk with hk | hk
    · exact absurd (numeral_chars (by decide) (by decide) hk).1 (by decide)
    · exact absurd hk (by decide)
  have hsplit : ∀ k, countTail k = ascii " (" ++ 0x2b :: (numeral 10 k ++ ascii " more)") := fun k => rfl
  rw [hsplit, hsplit, ← List.append_assoc, ← List.append_assoc] at h
  obtain ⟨hx, hn⟩ := append_sep_inj_last (hplus m) (hplus n) h
  exact ⟨List.append_cancel_right hx, numeral_inj (by decide) (by decide) (List.append_cancel_right hn)⟩

theorem numeral_decimal (hn : n < 2 ^ 63) :
    (∀ c ∈ numeral 10 n, Printable c ∧ c ≠ 0x2c) ∧ (numeral 10 n).length ≤ 23 := by
  have hdigit : ∀ d < 10, Printable (digit d) ∧ digit d ≠ 0x2c := by
    unfold Printable
    decide
  unfold numeral
  split
  · exact ⟨List.forall_mem_singleton.2 (hdigit 0 (by decide)), by decide⟩
  · constructor
    · intro c hc
      obtain ⟨d, hd, rfl⟩ := List.mem_map.1 (List.mem_reverse.1 hc)
      exact hdigit d (Nat.digits_lt_base (by decide) hd)
    · rw [List.length_reverse, List.length_map, Nat.digits_length_le_iff (by decide)]
      omega

theorem countTail_spec (hn : n < 2 ^ 63) :
    (∀ c ∈ countTail n, Printable c ∧ c ≠ 0x2c) ∧ (countTail n).length ≤ 32 ∧ (countTail n).getLast? = some 0x29 := by
  obtain ⟨hchars, hlen⟩ := numeral_decimal hn
  have htext : (ascii " (+" ++ ascii " more)").Forall fun c => Printable c ∧ c ≠ 0x2c := by
    unfold Printable
    decide
  have htext := List.forall_iff_forall_mem.1 htext
  refine ⟨?_, ?_, ?_⟩
  · intro c hc
    simp only [countTail, List.mem_append] at hc htext
    rcases hc with (hc | hc) | hc
    · exact htext c (.inl hc)
    · exact hchars c hc
    · exact htext c (.inr hc)
  · have hthree : (ascii " (+").length = 3 := by decide
    have hsix : (ascii " more)").length = 6 := by decide
    rw [countTail, List.length_append, List.length_append]
    omega
  · rw [countTail, List.getLast?_append_of_ne_nil _ (by decide)]
    decide

theorem solid_append {y : Bytes} (hx : ∀ c ∈ x, Printable c) (hfirst : ∀ c ∈ x.head?, c ≠ 0x20) (hx' : x ≠ [])
    (hy : ∀ c ∈ y, Printable c) (hlast : ∀ c ∈ y.getLast?, c ≠ 0x20) (hy' : y ≠ []) : Solid (x ++ y) where
  printable := fun c hc => (List.mem_append.1 hc).elim (hx c) (hy c)
  first := by rwa [List.head?_append_of_ne_nil _ hx']
  last := by rwa [List.getLast?_append_of_ne_nil _ hy']

/-- A count is stamped as it is. -/
theorem sanitized_countTail (hx : ∀ c ∈ x, Printable c) (hfirst : ∀ c ∈ x.head?, c ≠ 0x20) (hx' : x ≠ [])
    (hlen : x.length ≤ maxRuleHeaderLen) (hn : n < 2 ^ 63) :
    sanitizeHeaderValue (x ++ countTail n) = x ++ countTail n := by
  obtain ⟨hchars, htail, hlast⟩ := countTail_spec hn
  refine sanitizeHeaderValue_id (solid_append hx hfirst hx' (fun c hc => (hchars c hc).1) ?_ ?_) ?_
  · intro c hc
    rw [hlast] at hc
    cases hc
    decide
  · exact List.append_ne_nil_of_right_ne_nil _ (by decide)
  · rw [List.length_append]
    exact Nat.add_le_add hlen htail

/-! ## The loop -/

/-- Behind at least one name the loop writes some more, and the number of the others if there are any. -/
theorem joinLoop_cases (names : List Bytes) (hname : name ≠ []) (hrest : ∀ r ∈ rest, sanitizeHeaderValue r ≠ [])
    (hlen : (listed (name :: names)).length ≤ maxRuleHeaderLen) (hsolid : Solid (listed (name :: names))) :
    ∃ a b, rest.map sanitizeHeaderValue = a ++ b ∧ (listed (name :: (names ++ a))).length ≤ maxRuleHeaderLen ∧
      Solid (listed (name :: (names ++ a))) ∧ joinLoop (listed (name :: names)) rest =
        listed (name :: (names ++ a)) ++ if b = [] then [] else countTail b.length := by
  induction rest generalizing names with
  | nil => exact ⟨[], [], rfl, by simpa using hlen, by simpa using hsolid, by simp [joinLoop]⟩
  | cons rule rest ih =>
    obtain ⟨hrule, hrest⟩ := List.forall_mem_cons.1 hrest
    have hwritten := listed_ne_nil names hname
    rw [joinLoop]
    simp only [hrule, hwritten, if_false]
    split
    · refine ⟨[], (rule :: rest).map sanitizeHeaderValue, rfl, by simpa using hlen, by simpa using hsolid, ?_⟩
      simp [countTail]
    · have hnext : listed (name :: names) ++ ascii ", " ++ sanitizeHeaderValue rule =
          listed (name :: (names ++ [sanitizeHeaderValue rule])) := by
        rw [listed_append]
        simp
      have hfits : (listed (name :: (names ++ [sanitizeHeaderValue rule]))).length ≤ maxRuleHeaderLen := by
        have htwo : (ascii ", ").length = 2 := by decide
        rw [← hnext, List.length_append, List.length_append]
        omega
      have hsolid' : Solid (listed (name :: (names ++ [sanitizeHeaderValue rule]))) := by
        have hcomma : (ascii ", ").Forall Printable := by
          unfold Printable
          decide
        have hr := solid_sanitized rule
        rw [← hnext, List.append_assoc]
        refine solid_append hsolid.printable hsolid.first hwritten ?_ ?_ (List.append_ne_nil_of_right_ne_nil _ hrule)
        · exact fun c hc => (List.mem_append.1 hc).elim (List.forall_iff_forall_mem.1 hcomma c) (hr.printable c)
        · rw [List.getLast?_append_of_ne_nil _ hrule]
          exact hr.last
      obtain ⟨a, b, hab, h⟩ := ih _ hrest hfits hsolid'
      rw [List.append_assoc, ← hnext] at h
      exact ⟨sanitizeHeaderValue rule :: a, b, by rw [List.map_cons, hab, List.cons_append], h⟩

theorem joinRules_short (hrule : sanitizeHeaderValue rule ≠ []) (hrest : ∀ r ∈ rest, sanitizeHeaderValue r ≠ [])
    (hlen : rest.length < 2 ^ 63) (hfits : (sanitizeHeaderValue rule).length ≤ maxRuleHeaderLen) :
    Stated ((rule :: rest).map sanitizeHeaderValue) (sanitizeHeaderValue (joinRules (rule :: rest))) := by
  have hone : listed [sanitizeHeaderValue rule] = sanitizeHeaderValue rule := by simp [listed]
  obtain ⟨a, b, hab, hshort, hsolid, hloop⟩ := joinLoop_cases [] hrule hrest (by rwa [hone])
    (by rw [hone]; exact solid_sanitized rule)
  rw [List.nil_append] at hshort hsolid hloop
  have hjoin : joinRules (rule :: rest) =
      listed (sanitizeHeaderValue rule :: a) ++ if b = [] then [] else countTail b.length := by
    rw [joinRules, joinLoop, if_neg hrule, if_neg (by simpa using hfits)]
    simpa [hone] using hloop
  refine ⟨length_sanitized _, printable_sanitized _, ?_⟩
  rw [List.map_cons, hab, hjoin]
  by_cases hb : b = []
  · left
    rw [if_pos hb, hb, List.append_nil, List.append_nil]
    exact sanitizeHeaderValue_id hsolid (Nat.le_trans hshort (by decide))
  · right
    have hcount : b.length < 2 ^ 63 := by
      have := congrArg List.length hab
      rw [List.length_map, List.length_append] at this
      omega
    have ha : ∀ m ∈ a, m ≠ [] := by
      intro m hm
      obtain ⟨r, hr, rfl⟩ := List.mem_map.1 (hab ▸ List.mem_append_left b hm)
      exact hrest r hr
    have hne := listed_ne_nil a hrule
    refine ⟨listed (sanitizeHeaderValue rule :: a), hne, ⟨_, (listed_append _ a b).symm⟩, ?_⟩
    rw [if_neg hb, unseen_listed b hrule ha]
    exact sanitized_countTail hsolid.printable hsolid.first hne hshort hcount

theorem joinRules_cut (hlong : maxRuleHeaderLen < (sanitizeHeaderValue rule).length) :
    joinRules (rule :: rest) = (sanitizeHeaderValue rule).take maxRuleHeaderLen ++ countTail (rest.length + 1) := by
  have hrule : sanitizeHeaderValue rule ≠ [] := List.ne_nil_of_length_pos (Nat.lt_of_le_of_lt (Nat.zero_le _) hlong)
  rw [joinRules, joinLoop, if_neg hrule, if_pos (by simpa using hlong)]
  simp [countTail]

/-- Behind a first name that is cut, the count includes that name. -/
theorem joinRules_long (hlen : rest.length + 1 < 2 ^ 63) (hlong : maxRuleHeaderLen < (sanitizeHeaderValue rule).length)
    (h : Stated ((rule :: rest).map sanitizeHeaderValue) (sanitizeHeaderValue (joinRules (rule :: rest)))) :
    rest = [] ∧ sanitizeHeaderValue rule = (sanitizeHeaderValue rule).take maxRuleHeaderLen ++ countTail 1 := by
  have hjoin := @joinRules_cut rule rest hlong
  have hsolid := solid_sanitized rule
  generalize hr : sanitizeHeaderValue rule = r at *
  have hcut : (r.take maxRuleHeaderLen).length = maxRuleHeaderLen := by
    rw [List.length_take]
    omega
  have hcut' : r.take maxRuleHeaderLen ≠ [] := List.ne_nil_of_length_pos (by rw [hcut]; decide)
  have hfirst : ∀ c ∈ (r.take maxRuleHeaderLen).head?, c ≠ 0x20 := by
    rw [List.head?_take, if_neg (by decide)]
    exact hsolid.first
  have hstamped := sanitized_countTail (fun c hc => hsolid.printable c (List.mem_of_mem_take hc)) hfirst hcut'
    (Nat.le_of_eq hcut) hlen
  rw [hjoin, hstamped, List.map_cons, hr] at h
  rcases h.exact with hall | ⟨shown, -, -, hshown⟩
  · -- the list itself ends with a count, and has no comma
    have hdrop : countTail (rest.length + 1) = r.drop maxRuleHeaderLen ++
        (rest.map sanitizeHeaderValue).flatMap (ascii ", " ++ ·) := by
      rw [listed_cons] at hall
      nth_rewrite 2 [← List.take_append_drop maxRuleHeaderLen r] at hall
      rw [List.append_assoc] at hall
      exact List.append_cancel_left hall
    have hrest : rest = [] := by
      cases rest with
      | nil => rfl
      | cons next rest =>
        refine absurd rfl ((countTail_spec hlen).1 0x2c ?_).2
        rw [hdrop, List.map_cons, List.flatMap_cons]
        simp only [List.mem_append]
        exact .inr (.inl (.inl (by decide)))
    subst hrest
    refine ⟨rfl, ?_⟩
    rw [List.map_nil, List.flatMap_nil, List.append_nil] at hdrop
    exact ((congrArg _ hdrop).trans (List.take_append_drop maxRuleHeaderLen r)).symm
  · obtain ⟨rfl, hcount⟩ := countTail_inj hshown
    rw [hcut, unseen, if_neg (by decide), Nat.zero_add, Nat.sub_eq_zero_of_le (by omega), unseen_zero,
      List.length_map] at hcount
    omega

/-- The value stamped for a non-empty list of names that are not blank does not misstate what it leaves out, unless
the first name is cut: its count is then the number of all names.  (A single name may end just as the count does.) -/
theorem rules_stated_iff (rule : Bytes) (rest : List Bytes) (hnames : ∀ r ∈ rule :: rest, trimSpace (runes r) ≠ [])
    (hlen : (rule :: rest).length < 2 ^ 63) :
    Stated ((rule :: rest).map sanitizeHeaderValue) (sanitizeHeaderValue (joinRules (rule :: rest))) ↔
      (sanitizeHeaderValue rule).length ≤ maxRuleHeaderLen ∨
        rest = [] ∧ sanitizeHeaderValue rule = (sanitizeHeaderValue rule).take maxRuleHeaderLen ++ countTail 1 := by
  rw [List.length_cons] at hlen
  obtain ⟨hrule, hrest⟩ := List.forall_mem_cons.1 hnames
  rcases Nat.lt_or_ge maxRuleHeaderLen (sanitizeHeaderValue rule).length with hlong | hfits
  · refine ⟨fun h => .inr (joinRules_long hlen hlong h), fun h => ?_⟩
    obtain ⟨rfl, hsame⟩ := h.resolve_left (Nat.not_le.2 hlong)
    refine ⟨length_sanitized _, printable_sanitized _, .inl ?_⟩
    rw [joinRules_cut hlong, List.length_nil, ← hsame, sanitizeHeaderValue_id (solid_sanitized _) (length_sanitized _)]
    simp [listed]
  · exact ⟨fun _ => .inl hfits, fun _ =>
      joinRules_short (sanitized_ne_nil hrule) (fun r hr => sanitized_ne_nil (hrest r hr)) (by omega) hfits⟩

/-- Two names of 300 letters: the first, and a count of one more. -/
theorem rules_stated_counted :
    sanitizeHeaderValue (joinRules [List.replicate 300 0x41, List.replicate 300 0x42]) =
        List.replicate 300 0x41 ++ countTail 1 ∧
      Stated ([List.replicate 300 0x41, List.replicate 300 0x42].map sanitizeHeaderValue)
        (sanitizeHeaderValue (joinRules [List.replicate 300 0x41, List.replicate 300 0x42])) :=
  ⟨by decide +kernel, (rules_stated_iff _ [_] (by decide +kernel) (by decide)).2 (.inl (by decide +kernel))⟩

/-- One name of 369 letters: 368 of them and a count of one more name. -/
theorem rules_misstated :
    ¬ Stated ([List.replicate 369 0x41].map sanitizeHeaderValue)
      (sanitizeHeaderValue (joinRules [List.replicate 369 0x41])) := by
  intro h
  have hlong : maxRuleHeaderLen < (sanitizeHeaderValue (List.replicate 369 0x41)).length := by decide +kernel
  exact absurd (joinRules_long (by decide) hlong h).2 (by decide +kernel)

end MS.Milter
