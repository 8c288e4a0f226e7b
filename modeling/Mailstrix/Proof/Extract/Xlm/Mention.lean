import Mailstrix.Proof.Extract.Xlm.Eval

/-!
# Texts that are taken for references

Quotes do not keep a text from being rewritten.  What follows is the converse of `evalExpr_items`: a literal is evaluated to
its text in every grid only if its text is free in every grid (`free_of_evalExpr`).

The grid for it has the value `"` wherever a given grid has a value.  With it a pass keeps the form of the formula, a
concatenation of two literals, since what it writes is letters, digits or pairs of quotes.  Each time it writes something new
the second text loses bytes other than quotes, and no later pass brings them back.
-/

namespace MS.Xlm

open Framework
open Scan (ascii atoi)
open Extract (isAlpha isUpper isLower isDecimal isWord trimSpaceBytes index index_isPrefixOf)

variable {c : UInt8} {before : Option UInt8} {s col row u v coord w t out : Bytes} {U : Unicode}

/-! ## References within references -/

theorem isWord_of_alpha (h : isAlpha c = true) : isWord c = true := by
  simp [isWord, Extract.isAlnum, h]

theorem isWord_of_decimal (h : isDecimal c = true) : isWord c = true := by
  simp [isWord, Extract.isAlnum, h]

/-- The coordinate depends on what is behind the dollar only. -/
theorem a1RefAt_congr {before' : Option UInt8} {s' : Bytes} {r r' : Bytes × Bytes} (hs : stripDollar s = stripDollar s')
    (h : a1RefAt before s = some r) (h' : a1RefAt before' s' = some r') : r = r' := by
  unfold a1RefAt at h h'
  split at h
  · exact absurd h nofun
  · split at h'
    · exact absurd h' nofun
    · rw [hs] at h
      exact Option.some.inj (h.symm.trans h')

theorem Shape.dollar_notMem {d₁ d₂ : Bytes} (h : Shape d₁ col d₂ row) : 0x24 ∉ col ∧ 0x24 ∉ row :=
  ⟨fun hc => absurd (h.col_alpha _ hc) (by decide), fun hc => absurd (h.row_decimal _ hc) (by decide)⟩

/-- A dollar in a reference is its first byte, or the digits are behind it. -/
theorem Shape.dollar {d₁ d₂ : Bytes} (h : Shape d₁ col d₂ row) (huv : d₁ ++ (col ++ (d₂ ++ row)) = u ++ 0x24 :: v) :
    u = [] ∨ v = row := by
  obtain ⟨hcol, hrow⟩ := h.dollar_notMem
  -- behind the first byte there is one dollar at most
  have hrest : ∀ u, col ++ (d₂ ++ row) = u ++ 0x24 :: v → v = row := by
    intro u hu
    rcases h.dollar₂ with rfl | rfl
    · have hmem : (0x24 : UInt8) ∈ col ++ ([] ++ row) := hu ▸ by simp
      simp only [List.nil_append, List.mem_append] at hmem
      exact absurd hmem (not_or.2 ⟨hcol, hrow⟩)
    · rcases List.append_eq_append_iff.1 hu with ⟨w, rfl, hw⟩ | ⟨w, rfl, hw⟩
      · cases w with
        | nil => exact (List.cons.inj hw).2.symm
        | cons c w =>
          have hrow' : row = w ++ 0x24 :: v := (List.cons.inj hw).2
          exact absurd (hrow' ▸ by simp) hrow
      · cases w with
        | nil => exact (List.cons.inj hw).2
        | cons c w =>
          obtain ⟨rfl, -⟩ := List.cons.inj hw
          exact absurd (by simp) hcol
  rcases h.dollar₁ with rfl | rfl
  · exact .inr (hrest u huv)
  · cases u with
    | nil => exact .inl rfl
    | cons c u => exact .inr (hrest u (List.cons.inj huv).2)

/-- A reference found within another one is the same one, without its dollar. -/
theorem a1RefAt_inside {found behind : Bytes} (h : a1RefAt before (found ++ behind) = some (behind, coord))
    (huv : found = u ++ v) (hu : u ≠ []) {r : Bytes × Bytes} (h' : a1RefAt u.getLast? (v ++ behind) = some r) :
    r.2 = coord := by
  obtain ⟨d₁, col, d₂, row, hshape, hparts⟩ := a1RefAt_shape h
  have hfound : d₁ ++ (col ++ (d₂ ++ row)) = found := by
    refine (List.append_left_inj behind).1 ?_
    rw [hparts]
    simp only [List.append_assoc]
  obtain ⟨u, c, rfl⟩ := (List.eq_nil_or_concat u).resolve_left hu
  rw [List.concat_eq_append] at huv h'
  rw [List.getLast?_concat] at h'
  -- nothing is found behind a letter or a digit
  have hc : c = 0x24 := by
    obtain ⟨found', heq, -, hchars⟩ := a1RefAt_some h
    obtain rfl := List.append_cancel_right heq
    have hnot : ¬ isWord c = true := by
      intro hword
      unfold a1RefAt at h'
      rw [if_pos (by simp [hword])] at h'
      exact absurd h' nofun
    rcases hchars c (by rw [huv]; simp) with hc | hc | hc
    · exact hc
    · exact absurd (isWord_of_alpha hc) hnot
    · exact absurd (isWord_of_decimal hc) hnot
  subst hc
  rw [List.append_assoc, List.singleton_append] at huv
  have hsplit := hfound.trans huv
  rcases hshape.dollar hsplit with rfl | rfl
  · have hstrip : stripDollar (v ++ behind) = v ++ behind := by
      refine stripDollar_of_ne ?_
      rcases hshape.dollar₁ with rfl | rfl
      · obtain ⟨c, col, rfl⟩ := List.exists_cons_of_ne_nil hshape.col_ne
        obtain ⟨rfl, -⟩ := List.cons.inj hsplit
        exact absurd List.mem_cons_self hshape.dollar_notMem.1
      · obtain rfl : col ++ (d₂ ++ row) = v := (List.cons.inj hsplit).2
        rw [List.append_assoc]
        exact head_ne_dollar (by decide) hshape.col_alpha hshape.col_ne _
    have hstrip' : stripDollar (found ++ behind) = v ++ behind := by
      rw [huv]
      rfl
    rw [a1RefAt_congr (hstrip.trans hstrip'.symm) h' h]
  · obtain ⟨c, row, rfl⟩ := List.exists_cons_of_ne_nil hshape.row_ne
    have hdigit := hshape.row_decimal c List.mem_cons_self
    have hne : c ≠ 0x24 := fun hc => hshape.dollar_notMem.2 (hc ▸ List.mem_cons_self)
    have hcol : ((stripDollar (c :: row ++ behind)).take 3).takeWhile isAlpha = [] := by
      rw [stripDollar_of_ne (by simpa using hne)]
      simp [not_alpha_of_decimal hdigit]
    unfold a1RefAt at h'
    dsimp only at h'
    rw [hcol] at h'
    split_ifs at h' with h₁ h₂
    exact absurd (.inl rfl) h₂

/-! ## The loop over A1 references as a pass -/

section Loop

variable (value : Bytes → Option Bytes)

/-- The loop is a pass that may stop, and it says whether it wrote something new. -/
theorem resolveA1From_rewrites (before : Option UInt8) (b : Bytes) (changed : Bool) (s : Bytes) :
    ∃ out, (resolveA1From value 0 before b changed s).text = b ++ out ∧ Rewrites (a1Match value) before s out ∧
      (out = s → (resolveA1From value 0 before b changed s).changed = changed) := by
  induction hn : s.length using Nat.strong_induction_on generalizing before b changed s with
  | _ n ih =>
    cases s with
    | nil => exact ⟨[], by simp [resolveA1From], .stop _ _, fun _ => rfl⟩
    | cons c s =>
      cases hat : a1RefAt before (c :: s) with
      | none =>
        have hround : resolveA1From value 0 before b changed (c :: s) =
            resolveA1From value 0 (some c) (b ++ [c]) changed s := by rw [resolveA1From, hat]
        obtain ⟨out, htext, hr, hsame⟩ := ih s.length (by simp at hn; omega) (some c) (b ++ [c]) changed s rfl
        refine ⟨c :: out, by rw [hround, htext]; simp, .symbol (by simp [a1Match, hat]) hr, fun heq => ?_⟩
        rw [hround, hsame (List.cons.inj heq).2]
      | some ref =>
        obtain ⟨behind, coord⟩ := ref
        obtain ⟨found, hs, hlen, hchars⟩ := a1RefAt_some hat
        rw [hs] at hat hn ⊢
        have hne : found ≠ [] := List.ne_nil_of_length_pos (by omega)
        have hbehind : behind.length < n := by
          rw [List.length_append] at hn
          omega
        have hfound := a1Match_some value hat
        rw [resolveA1From_ref value hne hat]
        cases hv : value coord with
        | none =>
          simp only [hv, Option.map_none, Option.getD_none] at hfound ⊢
          obtain ⟨out, htext, hr, hsame⟩ := ih _ hbehind found.getLast? (b ++ found) changed behind rfl
          refine ⟨found ++ out, by rw [htext, List.append_assoc], .found hne hfound hr, fun heq => ?_⟩
          exact hsame (List.append_cancel_left heq)
        | some val =>
          simp only [hv, Option.map_some, Option.getD_some] at hfound ⊢
          split
          · exact ⟨_, rfl, .stop _ _, fun _ => rfl⟩
          · obtain ⟨out, htext, hr, -⟩ := ih _ hbehind found.getLast? (b ++ quoteXLMStringLiteral val) true behind rfl
            refine ⟨quoteXLMStringLiteral val ++ out, by rw [htext, List.append_assoc], .found hne hfound hr, fun heq => ?_⟩
            -- a reference does not begin with a quote
            obtain ⟨d, found, rfl⟩ := List.exists_cons_of_ne_nil hne
            have hd : 0x22 = d := (List.cons.inj heq).1
            subst hd
            exact absurd (hchars 0x22 List.mem_cons_self) (by decide)

theorem resolveA1From_changed (skip : Nat) (before : Option UInt8) (b s : Bytes) :
    (resolveA1From value skip before b true s).changed = true := by
  induction s generalizing skip before b with
  | nil => cases skip <;> rfl
  | cons c s ih =>
    cases skip with
    | succ skip => exact ih _ _ _
    | zero =>
      rw [resolveA1From]
      split
      · exact ih _ _ _
      · dsimp only
        split
        · exact ih _ _ _
        · split
          · rfl
          · exact ih _ _ _

variable {value}

/-- With values of one byte, and room for one of them, the loop finds nothing new in quiet texts only. -/
theorem quiet_of_unchanged (hval : ∀ coord val, value coord = some val → val = [0x22]) {b : Bytes}
    (hroom : (b ++ s).length + 2 ≤ maxResolvedExprLen) (h : (resolveA1From value 0 before b false s).changed = false) :
    (a1Match value).Quiet before s := by
  induction hn : s.length using Nat.strong_induction_on generalizing before b s with
  | _ n ih =>
    cases s with
    | nil => exact Matcher.Within.quiet_nil (within_a1 value) before
    | cons c s =>
      cases hat : a1RefAt before (c :: s) with
      | none =>
        have hround : resolveA1From value 0 before b false (c :: s) =
            resolveA1From value 0 (some c) (b ++ [c]) false s := by rw [resolveA1From, hat]
        have hrest := ih s.length (by simp at hn; omega) (by simpa using hroom) (hround ▸ h) rfl
        exact .symbol (by simp [a1Match, hat]) hrest
      | some ref =>
        obtain ⟨behind, coord⟩ := ref
        obtain ⟨found, hs, hlen, hchars⟩ := a1RefAt_some hat
        rw [hs] at hat hn h hroom ⊢
        have hne : found ≠ [] := List.ne_nil_of_length_pos (by omega)
        have hbehind : behind.length < n := by
          rw [List.length_append] at hn
          omega
        rw [resolveA1From_ref value hne hat] at h
        cases hv : value coord with
        | none =>
          simp only [hv] at h
          have hrest := ih _ hbehind (by simpa using hroom) h rfl
          refine Matcher.Quiet.found hne ?_ hrest
          intro u v m written huv hvne hf
          obtain ⟨⟨behind', coord'⟩, hat', hm⟩ := Option.map_eq_some_iff.1 hf
          have hcoord : coord' = coord := by
            cases u with
            | nil =>
              obtain rfl := huv
              exact (Prod.mk.inj (Option.some.inj (hat'.symm.trans hat))).2
            | cons d u =>
              rw [List.getLast?_eq_some_getLast (List.cons_ne_nil d u), Option.some_or,
                ← List.getLast?_eq_some_getLast] at hat'
              exact a1RefAt_inside hat huv (List.cons_ne_nil d u) hat'
          obtain ⟨rfl, rfl⟩ := Prod.mk.inj hm
          rw [hcoord, hv]
          rfl
        | some val =>
          obtain rfl := hval _ _ hv
          have hquote : (quoteXLMStringLiteral [0x22]).length = 4 := rfl
          simp only [hv, hquote] at h
          rw [if_neg (by simp only [List.length_append] at hroom; omega), resolveA1From_changed] at h
          exact absurd h (by simp)

end Loop

/-! ## Two literals -/

/-- Other than a quote. -/
def plain (c : UInt8) : Bool := c != 0x22

/-- What quotes within a literal are written as is paired. -/
def Paired (w : Bytes) : Prop := ∃ u, w = double u

theorem Paired.append {w' : Bytes} (h : Paired w) (h' : Paired w') : Paired (w ++ w') := by
  obtain ⟨u, rfl⟩ := h
  obtain ⟨u', rfl⟩ := h'
  exact ⟨u ++ u', (double_append u u').symm⟩

theorem paired_of_notMem (h : 0x22 ∉ w) : Paired w := ⟨w, (double_of_notMem h).symm⟩

theorem countP_double (t : Bytes) : (double t).countP plain = t.countP plain := by
  induction t using text_induction with
  | hplain x hx => rw [double_of_notMem hx]
  | hquote x y hx ih =>
    rw [double_quote x y hx]
    simp [List.countP_append, plain] at ih ⊢
    exact ih

/-- What the argument needs of a pass. -/
structure Tame (find : Matcher UInt8) : Prop where
  within : find.Within
  breaks {b : UInt8} : Break b → find.Break b
  paired {before s n written} : find before s = some (n, written) → 0x22 ∉ s → Paired written
  fewer : find.Fewer plain
  mark (before : Option UInt8) : find before [0x78] = none

/-- The literal `x` and another one. -/
def marked (t : Bytes) : Bytes := [0x22, 0x78] ++ 0x22 :: ([] ++ 0x26 :: ([] ++ 0x22 :: (double t ++ [0x22])))

theorem marked_inj (h : marked t = marked u) : t = u := by
  have hdouble : double t = double u := by simpa [marked] using h
  rw [← undouble_double t, hdouble, undouble_double]

/-- The text `u` is what is left of the text `t`. -/
def Left (u t : Bytes) : Prop := u = t ∨ u.countP plain < t.countP plain

theorem Left.trans (h : Left u v) (h' : Left v t) : Left u t := by
  rcases h with rfl | h
  · exact h'
  · rcases h' with rfl | h'
    · exact .inr h
    · exact .inr (h.trans h')

theorem Left.antisymm (h : Left u v) (h' : Left v u) : u = v := by
  rcases h with h | h
  · exact h
  · rcases h' with h' | h'
    · exact h'.symm
    · omega

namespace Tame

variable {find : Matcher UInt8} (h : Tame find)
include h

theorem paired_plain (hr : Rewrites find before s out) (hs : 0x22 ∉ s) : Paired out := by
  induction hr with
  | stop before s => exact paired_of_notMem hs
  | @symbol before c s out _ _ ih =>
    simp only [List.mem_cons, not_or] at hs
    rw [← List.singleton_append]
    exact (paired_of_notMem (by simpa using hs.1)).append (ih hs.2)
  | found _ hf _ ih => exact (h.paired hf hs).append (ih fun hy => hs (List.mem_append_right _ hy))

theorem paired_double (hr : Rewrites find none (double t) out) : Paired out := by
  induction t using text_induction generalizing out with
  | hplain x hx => exact h.paired_plain (double_of_notMem hx ▸ hr) hx
  | hquote x y hx ih =>
    rw [double_quote x y hx] at hr
    obtain ⟨x', z, rfl, hx', hz⟩ := hr.split h.within (h.breaks break_quote)
    rw [← List.nil_append (0x22 :: double y)] at hz
    obtain ⟨e, y', rfl, he, hy'⟩ := hz.split h.within (h.breaks break_quote)
    obtain rfl := he.nil
    rw [show x' ++ 0x22 :: ([] ++ 0x22 :: y') = x' ++ ([0x22, 0x22] ++ y') from rfl]
    exact (h.paired_plain hx' hx).append (.append ⟨[0x22], rfl⟩ (ih hy'))

/-- A pass keeps the form of two literals, and leaves of the second text all of it or less. -/
theorem rewrites (hr : Rewrites find none (marked t) out) : ∃ u, out = marked u ∧ Left u t := by
  rw [marked, show ([0x22, 0x78] : Bytes) ++ 0x22 :: ([] ++ 0x26 :: ([] ++ 0x22 :: (double t ++ [0x22]))) =
    [] ++ 0x22 :: ([0x78] ++ 0x22 :: ([] ++ 0x26 :: ([] ++ 0x22 :: (double t ++ 0x22 :: [])))) from rfl] at hr
  obtain ⟨x₁, y₁, rfl, hx₁, hr₁⟩ := hr.split h.within (h.breaks break_quote)
  obtain ⟨x₂, y₂, rfl, hx₂, hr₂⟩ := hr₁.split h.within (h.breaks break_quote)
  obtain ⟨x₃, y₃, rfl, hx₃, hr₃⟩ := hr₂.split h.within (h.breaks break_amp)
  obtain ⟨x₄, y₄, rfl, hx₄, hr₄⟩ := hr₃.split h.within (h.breaks break_quote)
  obtain ⟨x₅, y₅, rfl, hx₅, hr₅⟩ := hr₄.split h.within (h.breaks break_quote)
  obtain rfl := hx₁.nil
  obtain rfl := hx₂.alone (h.mark none)
  obtain rfl := hx₃.nil
  obtain rfl := hx₄.nil
  obtain rfl := hr₅.nil
  have hcount := hx₅.count h.fewer
  obtain ⟨u, rfl⟩ := h.paired_double hx₅
  refine ⟨u, rfl, ?_⟩
  rw [countP_double, countP_double] at hcount
  refine hcount.imp_left fun heq => ?_
  rw [← undouble_double u, heq, undouble_double]

end Tame

/-- A text is quiet if it is within literals that are. -/
theorem Tame.quiet_of_marked {find : Matcher UInt8} (h : Tame find) (hq : find.Quiet none (marked t)) :
    find.Quiet none t := by
  have hquote := h.breaks break_quote
  have hsplit : marked t = [0x22, 0x78, 0x22, 0x26] ++ 0x22 :: (double t ++ 0x22 :: []) := rfl
  rw [hsplit] at hq
  exact quiet_of_double h.within hquote ((hq.of_append h.within hquote).2.of_append h.within hquote).1

/-! ## The three passes -/

theorem digit_of_decimal (h : isDecimal c = true) : Digit c := by
  simpa [isDecimal, Digit, UInt8.le_iff_toNat_le] using h

theorem foldl_lt {ds : Bytes} (hds : ∀ c ∈ ds, Digit c) {m : Int} (hm : 0 ≤ m) :
    0 ≤ ds.foldl (fun (m : Int) c => m * 10 + ((c.toNat : Int) - 0x30)) m ∧
      ds.foldl (fun (m : Int) c => m * 10 + ((c.toNat : Int) - 0x30)) m < (m + 1) * 10 ^ ds.length := by
  induction ds generalizing m with
  | nil => simpa using hm
  | cons c ds ih =>
    obtain ⟨hc, hds⟩ := List.forall_mem_cons.1 hds
    unfold Digit at hc
    obtain ⟨h₁, h₂⟩ := @ih hds (m * 10 + ((c.toNat : Int) - 0x30)) (by omega)
    refine ⟨h₁, lt_of_lt_of_le h₂ ?_⟩
    calc (m * 10 + ((c.toNat : Int) - 0x30) + 1) * 10 ^ ds.length ≤ ((m + 1) * 10) * 10 ^ ds.length :=
          mul_le_mul_of_nonneg_right (by omega) (by positivity)
      _ = (m + 1) * 10 ^ (c :: ds).length := by rw [List.length_cons, pow_succ]; ring

theorem atoi_lt {ds : Bytes} (hds : ∀ c ∈ ds, isDecimal c = true) {n : Int} (h : atoi ds = some n) :
    0 ≤ n ∧ n < 10 ^ ds.length := by
  have hdigits : ∀ c ∈ ds, Digit c := fun c hc => digit_of_decimal (hds c hc)
  have hne : ds ≠ [] := by
    rintro rfl
    exact absurd h nofun
  have hbound := foldl_lt hdigits le_rfl
  rw [zero_add, one_mul] at hbound
  rw [atoi_digits hdigits hne] at h
  split_ifs at h
  exact Option.some.inj h ▸ hbound

/-- A coordinate is shorter than the reference in R1C1 notation. -/
theorem r1c1ToA1_some (hrow : ∀ c ∈ row, isDecimal c = true) (hcol : ∀ c ∈ col, isDecimal c = true)
    (hne : row ≠ [] ∧ col ≠ []) (h : r1c1ToA1 row col = some coord) :
    coord.length < row.length + col.length + 2 ∧ 0x22 ∉ coord := by
  have hrow₁ := List.length_pos_iff.2 hne.1
  have hcol₁ := List.length_pos_iff.2 hne.2
  simp only [r1c1ToA1, Option.bind_eq_bind, Option.bind_eq_some_iff] at h
  obtain ⟨r, hr, c, hc, letters, hl, h⟩ := h
  split_ifs at h with hpos
  obtain rfl := Option.some.inj h
  obtain ⟨hr₀, hr₁⟩ := atoi_lt hrow hr
  obtain ⟨hc₀, hc₁⟩ := atoi_lt hcol hc
  obtain ⟨r, rfl⟩ := Int.eq_ofNat_of_zero_le hr₀
  obtain ⟨c, rfl⟩ := Int.eq_ofNat_of_zero_le hc₀
  have hitoa : Scan.itoa r = numeral 10 r := by rw [Scan.itoa, if_neg (by omega), Int.natAbs_natCast]
  rw [hitoa]
  have hlen := length_numeral (n := r) (k := row.length) (by exact_mod_cast hr₁) hrow₁
  unfold colNumToLetters at hl
  split_ifs at hl with hrange
  obtain rfl := Option.some.inj hl
  rw [Int.toNat_natCast]
  obtain ⟨l, hl, hl₁, -, hupper⟩ := columnLetters_append 3 c []
  rw [List.append_nil] at hl
  have hshort : (columnLetters 3 c []).length < col.length + 2 := by
    rw [hl]
    by_cases hone : col.length = 1
    · -- one digit is one letter
      rw [hone] at hc₁
      have hc₂ : c < 10 := by exact_mod_cast hc₁
      have hletter : ∀ c < 10, (columnLetters 3 c []).length < 1 + 2 := by decide
      rw [← hl, hone]
      exact hletter c hc₂
    · omega
  constructor
  · rw [List.length_append]
    omega
  · rw [List.mem_append, hl]
    rintro (hmem | hmem)
    · exact absurd (hupper _ hmem) (by decide)
    · exact absurd (isDecimal_numeral r _ hmem) (by decide)

theorem countP_plain (h : 0x22 ∉ w) : w.countP plain = w.length := by
  rw [List.countP_eq_length]
  intro c hc
  have hne : c ≠ 0x22 := fun heq => h (heq ▸ hc)
  simpa [plain] using hne

theorem tame_r1c1 : Tame r1c1Match where
  within := within_r1c1
  breaks hb := break_r1c1 hb
  paired {before s n written} hf hs := by
    obtain ⟨⟨row, col⟩, hat, hm⟩ := Option.map_eq_some_iff.1 hf
    obtain ⟨rest, rfl, hr, hc, hrow, hcol⟩ := r1c1At_some hat
    obtain ⟨-, rfl⟩ := Prod.mk.inj hm
    have htake : Paired ((0x52 :: (row ++ 0x43 :: (col ++ rest))).take (row.length + col.length + 2)) :=
      paired_of_notMem fun hmem => hs (List.mem_of_mem_take hmem)
    split
    · exact htake
    · cases ha : r1c1ToA1 row col with
      | none => exact htake
      | some coord => exact paired_of_notMem (r1c1ToA1_some hrow hcol ⟨hr, hc⟩ ha).2
  fewer := by
    intro before s n written hf
    obtain ⟨⟨row, col⟩, hat, hm⟩ := Option.map_eq_some_iff.1 hf
    obtain ⟨rest, rfl, hr, hc, hrow, hcol⟩ := r1c1At_some hat
    obtain ⟨rfl, rfl⟩ := Prod.mk.inj hm
    split
    · exact .inl rfl
    · cases ha : r1c1ToA1 row col with
      | none => exact .inl rfl
      | some coord =>
        right
        obtain ⟨hlen, hcoord⟩ := r1c1ToA1_some hrow hcol ⟨hr, hc⟩ ha
        have htake : (0x52 :: (row ++ 0x43 :: (col ++ rest))).take (row.length + col.length + 2) =
            0x52 :: (row ++ 0x43 :: col) := by
          have hn : row.length + col.length + 2 = (0x52 :: (row ++ 0x43 :: col)).length := by simp; omega
          rw [hn, show 0x52 :: (row ++ 0x43 :: (col ++ rest)) = (0x52 :: (row ++ 0x43 :: col)) ++ rest by simp, List.take_left]
        have hno : 0x22 ∉ 0x52 :: (row ++ 0x43 :: col) := by
          simp only [List.mem_cons, List.mem_append, not_or]
          refine ⟨by decide, fun h => absurd (hrow _ h) (by decide), by decide, fun h => absurd (hcol _ h) (by decide)⟩
        rw [htake, countP_plain hno, Option.getD_some, countP_plain hcoord]
        simp only [List.length_cons, List.length_append]
        omega
  mark before := rfl

theorem apart_r1c1 : Matcher.Apart r1c1Match := by
  intro before x y written hf u v huv hu hv before'
  obtain ⟨⟨row, col⟩, hat, hm⟩ := Option.map_eq_some_iff.1 hf
  obtain ⟨rest, hs, hr, hc, hrow, hcol⟩ := r1c1At_some hat
  have hn : row.length + col.length + 2 = x.length := (Prod.mk.inj hm).1
  have hx : x = 0x52 :: (row ++ 0x43 :: col) := by
    have hlen : x.length = (0x52 :: (row ++ 0x43 :: col)).length := by simp; omega
    exact (List.append_inj (hs.trans (by simp : _ = (0x52 :: (row ++ 0x43 :: col)) ++ rest)) hlen).1
  -- behind the first letter there is no other one of its kind
  obtain ⟨c, v, rfl⟩ := List.exists_cons_of_ne_nil hv
  have hne : c ≠ 0x52 := by
    obtain ⟨d, u, rfl⟩ := List.exists_cons_of_ne_nil hu
    have hmem : c ∈ row ++ 0x43 :: col := by
      rw [(List.cons.inj (hx.symm.trans huv)).2]
      simp
    rintro rfl
    rw [List.mem_append, List.mem_cons] at hmem
    rcases hmem with hmem | hmem | hmem
    · exact absurd (hrow _ hmem) (by decide)
    · exact absurd hmem (by decide)
    · exact absurd (hcol _ hmem) (by decide)
  rw [List.cons_append, r1c1Match, r1c1At_of_ne hne]
  rfl

section Value

variable {value : Bytes → Option Bytes}

theorem placeholderMatch_some {written : Bytes} {n : Nat} (h : placeholderMatch value before s = some (n, written)) :
    ∃ coord rest, s = (ascii "[[REF:" ++ coord ++ ascii "]]") ++ rest ∧ n = (ascii "[[REF:" ++ coord ++ ascii "]]").length ∧
      (∀ c ∈ coord, isUpper c = true ∨ isDecimal c = true) ∧
      written = ((value coord).map quoteXLMStringLiteral).getD (ascii "[[REF:" ++ coord ++ ascii "]]") := by
  obtain ⟨coord, hat, hm⟩ := Option.map_eq_some_iff.1 h
  obtain ⟨rest, rfl, hchars⟩ := placeholderAt_some hat
  have hlen : coord.length + 8 = (ascii "[[REF:" ++ coord ++ ascii "]]").length := by
    rw [List.length_append, List.length_append, show (ascii "[[REF:").length = 6 by decide,
      show (ascii "]]").length = 2 by decide]
    omega
  have hs : ascii "[[REF:" ++ (coord ++ (ascii "]]" ++ rest)) = (ascii "[[REF:" ++ coord ++ ascii "]]") ++ rest := by
    simp only [List.append_assoc]
  obtain ⟨rfl, rfl⟩ := Prod.mk.inj hm
  refine ⟨coord, rest, hs, hlen, hchars, ?_⟩
  rw [hs, hlen, List.take_left]

theorem placeholder_chars (h : ∀ c ∈ coord, isUpper c = true ∨ isDecimal c = true) :
    0x22 ∉ ascii "[[REF:" ++ coord ++ ascii "]]" := by
  simp only [List.mem_append, not_or]
  refine ⟨⟨by decide, fun hc => ?_⟩, by decide⟩
  exact absurd (h _ hc) (by decide)

theorem apart_placeholder : Matcher.Apart (placeholderMatch value) := by
  intro before x y written hf u v huv hu hv before'
  obtain ⟨coord, rest, hs, hn, hchars, -⟩ := placeholderMatch_some hf
  obtain ⟨rfl, rfl⟩ := List.append_inj hs hn
  have hnone : (ascii "[[REF:").isPrefixOf (v ++ y) = false := by
    by_contra hpre
    obtain ⟨z, hz⟩ := List.isPrefixOf_iff_prefix.1 (Bool.of_not_eq_false hpre)
    obtain ⟨c, v, rfl⟩ := List.exists_cons_of_ne_nil hv
    obtain ⟨rfl, hv'⟩ : 0x5b = c ∧ 0x5b :: (ascii "REF:" ++ z) = v ++ y := List.cons.inj hz
    obtain ⟨d, u, rfl⟩ := List.exists_cons_of_ne_nil hu
    have htail : 0x5b :: (ascii "REF:" ++ coord ++ ascii "]]") = u ++ 0x5b :: v := (List.cons.inj huv).2
    cases u with
    | nil =>
      have hv'' : ascii "REF:" ++ coord ++ ascii "]]" = v := (List.cons.inj htail).2
      rw [← hv''] at hv'
      exact absurd (List.cons.inj hv').1 (by decide)
    | cons e u =>
      have hin : ascii "REF:" ++ coord ++ ascii "]]" = u ++ 0x5b :: v := (List.cons.inj htail).2
      have hmem : (0x5b : UInt8) ∈ ascii "REF:" ++ coord ++ ascii "]]" := hin ▸ by simp
      simp only [List.mem_append] at hmem
      rcases hmem with (hmem | hmem) | hmem
      · exact absurd hmem (by decide)
      · exact absurd (hchars _ hmem) (by decide)
      · exact absurd hmem (by decide)
  simp [placeholderMatch, placeholderAt, hnone]

variable (hval : ∀ coord val, value coord = some val → val = [0x22])
include hval

/-- The text written for a cell has no byte but quotes, and they are in pairs. -/
theorem written_cell (coord found : Bytes) (h : 0x22 ∉ found) :
    Paired (((value coord).map quoteXLMStringLiteral).getD found) ∧
      (((value coord).map quoteXLMStringLiteral).getD found = found ∨
        (((value coord).map quoteXLMStringLiteral).getD found).countP plain = 0) := by
  cases hv : value coord with
  | none => exact ⟨paired_of_notMem h, .inl rfl⟩
  | some val =>
    obtain rfl := hval _ _ hv
    exact ⟨⟨[0x22, 0x22], rfl⟩, .inr rfl⟩

theorem tame_placeholder : Tame (placeholderMatch value) where
  within := within_placeholder value
  breaks hb := break_placeholder value hb
  paired {before s n written} hf _ := by
    obtain ⟨coord, rest, -, -, hchars, rfl⟩ := placeholderMatch_some hf
    exact (written_cell hval coord _ (placeholder_chars hchars)).1
  fewer := by
    intro before s n written hf
    obtain ⟨coord, rest, rfl, rfl, hchars, rfl⟩ := placeholderMatch_some hf
    rw [List.take_left]
    refine (written_cell hval coord _ (placeholder_chars hchars)).2.imp_right fun hzero => ?_
    rw [hzero, countP_plain (placeholder_chars hchars)]
    exact Nat.succ_pos _
  mark before := rfl

omit hval in
theorem a1Match_singleton (before : Option UInt8) (c : UInt8) : a1Match value before [c] = none := by
  cases hat : a1RefAt before [c] with
  | none => simp [a1Match, hat]
  | some ref =>
    obtain ⟨found, hs, hlen, -⟩ := a1RefAt_some hat
    have := congrArg List.length hs
    rw [List.length_append, List.length_singleton] at this
    omega

theorem tame_a1 : Tame (a1Match value) where
  within := within_a1 value
  breaks hb := break_a1 value hb
  paired {before s n written} hf hs := by
    obtain ⟨⟨behind, coord⟩, hat, hm⟩ := Option.map_eq_some_iff.1 hf
    obtain ⟨-, rfl⟩ := Prod.mk.inj hm
    exact (written_cell hval coord _ fun hmem => hs (List.mem_of_mem_take hmem)).1
  fewer := by
    intro before s n written hf
    obtain ⟨⟨behind, coord⟩, hat, -⟩ := Option.map_eq_some_iff.1 hf
    obtain ⟨found, rfl, hlen, hchars⟩ := a1RefAt_some hat
    rw [a1Match_some value hat] at hf
    obtain ⟨rfl, rfl⟩ := Prod.mk.inj (Option.some.inj hf)
    have hno : 0x22 ∉ found := fun hmem => absurd (hchars _ hmem) (by decide)
    rw [List.take_left]
    refine (written_cell hval coord found hno).2.imp_right fun hzero => ?_
    rw [hzero, countP_plain hno]
    omega
  mark before := a1Match_singleton before 0x78

/-! ## Evaluation -/

/-- A pass leaves of the second text all of it or less, and all of it only if the text is free. -/
theorem resolvePass_marked (t : Bytes) :
    ∃ u, (resolvePass value (marked t)).text = marked u ∧ Left u t ∧
      (u = t → (marked t).length + 2 ≤ maxResolvedExprLen →
        Matcher.Quiet r1c1Match none t ∧ (placeholderMatch value).Quiet none t ∧ (a1Match value).Quiet none t) := by
  have h₁ := tame_r1c1
  have h₂ := tame_placeholder hval
  have h₃ := tame_a1 hval
  obtain ⟨u₁, hu₁, hl₁⟩ := h₁.rewrites (rewrites_rewriteFrom h₁.within none (marked t))
  obtain ⟨u₂, hu₂, hl₂⟩ := h₂.rewrites (rewrites_rewriteFrom h₂.within none (marked u₁))
  obtain ⟨out, htext, hr, hsame⟩ := resolveA1From_rewrites value none [] false (marked u₂)
  obtain ⟨u₃, rfl, hl₃⟩ := h₃.rewrites hr
  have hpass : resolvePass value (marked t) = resolveA1From value 0 none [] false (marked u₂) := by
    rw [resolvePass, replaceR1C1, rewrite, hu₁, resolveRefPlaceholdersQuoted, rewrite, hu₂]
  rw [List.nil_append] at htext
  refine ⟨u₃, by rw [hpass, htext], hl₃.trans (hl₂.trans hl₁), ?_⟩
  intro heq hroom
  subst heq
  obtain rfl : u₁ = u₃ := hl₁.antisymm (hl₃.trans hl₂)
  obtain rfl : u₂ = u₁ := hl₂.antisymm hl₃
  refine ⟨h₁.quiet_of_marked ?_, h₂.quiet_of_marked ?_, h₃.quiet_of_marked ?_⟩
  · exact quiet_of_rewriteFrom h₁.fewer h₁.within apart_r1c1 hu₁
  · exact quiet_of_rewriteFrom h₂.fewer h₂.within apart_placeholder hu₂
  · exact quiet_of_unchanged hval hroom (hsame rfl)

theorem resolveRefs_marked (n : Nat) (t : Bytes) : ∃ u, resolveRefs value n (marked t) = marked u ∧ Left u t := by
  induction n generalizing t with
  | zero => exact ⟨t, rfl, .inl rfl⟩
  | succ n ih =>
    obtain ⟨u, hu, hl, -⟩ := resolvePass_marked hval t
    rw [resolveRefs]
    split
    · exact ⟨u, hu, hl⟩
    · obtain ⟨v, hv, hl'⟩ := ih u
      exact ⟨v, by rw [hu, hv], hl'.trans hl⟩

/-- If the passes leave the second text as it is, the first one does. -/
theorem free_of_resolveRefs {n : Nat} (h : resolveRefs value (n + 1) (marked t) = marked t)
    (hroom : (marked t).length + 2 ≤ maxResolvedExprLen) :
    Matcher.Quiet r1c1Match none t ∧ (placeholderMatch value).Quiet none t ∧ (a1Match value).Quiet none t := by
  obtain ⟨u, hu, hl, hquiet⟩ := resolvePass_marked hval t
  refine hquiet ?_ hroom
  rw [resolveRefs] at h
  split at h
  · exact marked_inj (hu.symm.trans h)
  · rw [hu] at h
    obtain ⟨v, hv, hl'⟩ := resolveRefs_marked hval n u
    obtain rfl := marked_inj (hv.symm.trans h)
    exact hl.antisymm hl'

end Value

/-- The calls in a text that begins with a quote leave the quote. -/
theorem foldEmbeddedMIDCalls_quote (h : foldEmbeddedMIDCalls U (0x22 :: s) = .ok (out, true)) :
    ∃ z, out = 0x22 :: z := by
  obtain ⟨start, head, hindex, hstart, ⟨z, rfl⟩, htake⟩ := foldEmbeddedMIDCalls_head h
  cases start with
  | zero =>
    have hmid := index_isPrefixOf hindex
    rw [List.drop_zero, toUpper_cons U break_quote.firm] at hmid
    obtain ⟨y, hy⟩ := hmid
    exact absurd (List.cons.inj hy).1 (by decide)
  | succ start =>
    rw [List.take_succ_cons] at htake
    cases head with
    | nil =>
      rcases htake with htake | htake
      · exact absurd htake nofun
      · exact absurd (List.cons.inj htake).1 (by decide)
    | cons c head =>
      obtain rfl : 0x22 = c := by
        rcases htake with htake | htake
        · exact (List.cons.inj htake).1
        · exact (List.cons.inj htake).1
      exact ⟨head ++ z, rfl⟩

/-- Two literals that are evaluated to their texts have been left as they are. -/
theorem resolveRefs_of_evalExpr {value : Bytes → Option Bytes}
    (hu : resolveRefs value maxRefResolvePasses (marked t) = marked u)
    (h : evalExpr value U (marked t) = .ok (0x78 :: t)) : u = t := by
  have hfold : foldXLMFormula U (marked u) = .ok (0x78 :: u) := by
    have := fold_literals U 15 [[0x78], u]
    rw [show [[0x78], u].flatten = 0x78 :: u by simp] at this
    exact this
  have heval : evalExpr value U (marked t) =
      if 0x78 :: u ≠ [] ∧ !contains (U.toUpper (0x78 :: u)) (ascii "MID(") then .ok (0x78 :: u)
      else foldEmbeddedMIDCalls U (marked u) >>= fun r =>
        .ok (if r.2 then stripEquals r.1 else 0x78 :: u) := by
    simp only [evalExpr, hu, hfold]
    rfl
  rw [heval] at h
  split at h
  · exact (List.cons.inj (Except.ok.inj h)).2
  · cases hemb : foldEmbeddedMIDCalls U (marked u) with
    | error e =>
      rw [hemb] at h
      exact absurd h (by rintro ⟨⟩)
    | ok r =>
      obtain ⟨out, changed⟩ := r
      rw [hemb] at h
      cases changed with
      | false => exact (List.cons.inj (Except.ok.inj h)).2
      | true =>
        obtain ⟨z, rfl⟩ := foldEmbeddedMIDCalls_quote hemb
        exact absurd (List.cons.inj (Except.ok.inj h)).1 (by decide)

/-- The grid with the value `"` where `g` has one. -/
def quoteGrid (g : Grid) : Grid := g.map fun (coord, val) => (coord, if val = [] then [] else [0x22])

theorem quoteGrid_value (g : Grid) (coord : Bytes) :
    (quoteGrid g).value U coord = (g.value U coord).map fun _ => [0x22] := by
  have hlookup : ∀ nc, (quoteGrid g).lookup nc = (g.lookup nc).map fun val => if val = [] then [] else [0x22] := by
    intro nc
    induction g with
    | nil => rfl
    | cons cell g ih =>
      obtain ⟨c, val⟩ := cell
      simp only [quoteGrid, List.map_cons, List.lookup_cons] at ih ⊢
      split
      · rfl
      · exact ih
  rw [Grid.value, Grid.value, Option.map_bind]
  congr 1
  funext nc
  rw [hlookup, Function.comp_apply]
  cases g.lookup nc with
  | none => rfl
  | some val =>
    by_cases hval : val = []
    · simp [Option.filter, hval]
    · simp [Option.filter, hval]

/-- A text is free in a grid if it is free in the other one: the cells with a value are the same. -/
theorem free_of_quoteGrid {g : Grid} (h : Free U (quoteGrid g) t) : Free U g t where
  r1c1 := h.r1c1
  placeholder := by
    intro x y n written hxy hf
    obtain ⟨coord, hat, hm⟩ := Option.map_eq_some_iff.1 hf
    obtain ⟨rfl, rfl⟩ := Prod.mk.inj hm
    have hq := h.placeholder x y (coord.length + 8) _ hxy (by rw [placeholderMatch, hat]; rfl)
    cases hv : g.value U coord with
    | none => rfl
    | some val =>
      obtain ⟨rest, rfl, -⟩ := placeholderAt_some hat
      rw [quoteGrid_value, hv] at hq
      exact absurd (List.cons.inj hq).1 (by decide)
  a1 := by
    intro x y n written hxy hf
    obtain ⟨⟨behind, coord⟩, hat, hm⟩ := Option.map_eq_some_iff.1 hf
    obtain ⟨rfl, rfl⟩ := Prod.mk.inj hm
    have hq := h.a1 x y (y.length - behind.length) _ hxy (by rw [a1Match, hat]; rfl)
    cases hv : g.value U coord with
    | none => rfl
    | some val =>
      obtain ⟨found, rfl, -, hchars⟩ := a1RefAt_some hat
      rw [quoteGrid_value, hv, List.length_append, Nat.add_sub_cancel, List.take_left] at hq
      have hmem : (0x22 : UInt8) ∈ found := hq ▸ List.mem_cons_self
      exact absurd (hchars _ hmem) (by decide)

theorem free_of_evalExpr (hroom : (marked t).length + 2 ≤ maxResolvedExprLen)
    (h : ∀ g : Grid, evalExpr (g.value U) U (marked t) = .ok (0x78 :: t)) (g : Grid) : Free U g t := by
  refine free_of_quoteGrid ?_
  have hval : ∀ coord val, (quoteGrid g).value U coord = some val → val = [0x22] := by
    intro coord val hv
    rw [quoteGrid_value] at hv
    obtain ⟨-, -, rfl⟩ := Option.map_eq_some_iff.1 hv
    rfl
  obtain ⟨u, hu, -⟩ := resolveRefs_marked hval maxRefResolvePasses t
  obtain rfl := resolveRefs_of_evalExpr hu (h (quoteGrid g))
  obtain ⟨h₁, h₂, h₃⟩ := free_of_resolveRefs hval hu hroom
  exact ⟨h₁, h₂, h₃⟩

/-- Nothing that is replaced has one byte. -/
theorem free_singleton (g : Grid) (c : UInt8) : Free U g [c] := by
  have hquiet : ∀ find : Matcher UInt8, find.Within → (∀ before, find before [c] = none) → find.Quiet none [c] := by
    intro find h hc
    exact .symbol (hc none) (h.quiet_nil _)
  refine ⟨hquiet _ within_r1c1 fun before => ?_, hquiet _ (within_placeholder _) fun before => ?_,
    hquiet _ (within_a1 _) fun before => ?_⟩
  · cases hat : r1c1At [c] with
    | none => simp [r1c1Match, hat]
    | some ref =>
      obtain ⟨rest, hs, -⟩ := r1c1At_some hat
      simp at hs
  · cases hat : placeholderAt [c] with
    | none => simp [placeholderMatch, hat]
    | some coord =>
      obtain ⟨rest, hs, -⟩ := placeholderAt_some hat
      exact absurd (List.cons.inj hs).2 (by simp)
  · exact a1Match_singleton before c

/-- Resolving references keeps string text that is free, and no other text in every grid. -/
theorem evalExpr_printItems (U : Unicode) :
    (∀ (g : Grid) (items : List Item), (∀ i ∈ items, (i.value U g).isSome) → Roomy U g items →
      (∀ t ∈ texts U g items, Free U g t) →
      (evalExpr (g.value U) U (printItems items) = .ok (texts U g items).flatten ↔ MidSafe U (texts U g items))) ∧
    ∀ t, (printItems [.text [0x78], .text t]).length + 2 ≤ maxResolvedExprLen →
      ((∀ g : Grid, evalExpr (g.value U) U (printItems [.text [0x78], .text t]) = .ok ([0x78] ++ t)) ↔
        (∀ g, Free U g t) ∧ MidSafe U [[0x78], t]) := by
  have hfirst : ∀ (g : Grid) (items : List Item), (∀ i ∈ items, (i.value U g).isSome) → Roomy U g items →
      (∀ t ∈ texts U g items, Free U g t) →
      (evalExpr (g.value U) U (printItems items) = .ok (texts U g items).flatten ↔ MidSafe U (texts U g items)) := by
    intro g items hsome hroom hfree
    refine evalExpr_items U (fun i hi => ?_) hroom
    obtain ⟨t, ht⟩ := Option.isSome_iff_exists.1 (hsome i hi)
    exact ⟨t, ht, hfree t (List.mem_filterMap.2 ⟨i, hi, ht⟩)⟩
  refine ⟨hfirst, fun t hlen => ?_⟩
  have hroom : ∀ g : Grid, Roomy U g [.text [0x78], .text t] := by
    intro g l r hlr
    have hprint : l.map (Item.literal U g) ++ r.map (fun i => i.toA1.print) = [Item.text [0x78], .text t].map Item.print := by
      have hmem : ∀ i ∈ l ++ r, Item.literal U g i = i.print ∧ i.toA1.print = i.print := by
        intro i hi
        rw [← hlr] at hi
        rcases List.mem_pair.1 hi with rfl | rfl
        · exact ⟨rfl, rfl⟩
        · exact ⟨rfl, rfl⟩
      rw [hlr, List.map_append]
      congr 1
      · exact List.map_congr_left fun i hi => (hmem i (List.mem_append_left _ hi)).1
      · exact List.map_congr_left fun i hi => (hmem i (List.mem_append_right _ hi)).2
    rw [hprint, ← printItems]
    omega
  have heval : ∀ g : Grid, Free U g t →
      (evalExpr (g.value U) U (printItems [.text [0x78], .text t]) = .ok ([0x78] ++ t) ↔ MidSafe U [[0x78], t]) := by
    intro g hfree
    have hitems := hfirst g [.text [0x78], .text t] (by simp [Item.value]) (hroom g)
    have htexts : texts U g [.text [0x78], .text t] = [[0x78], t] := rfl
    rw [htexts, show [[0x78], t].flatten = [0x78] ++ t by simp] at hitems
    refine hitems fun u hu => ?_
    rcases List.mem_pair.1 hu with rfl | rfl
    · exact free_singleton g 0x78
    · exact hfree
  constructor
  · intro h
    have hfree := free_of_evalExpr hlen h
    exact ⟨hfree, (heval [] (hfree [])).1 (h [])⟩
  · rintro ⟨hfree, hmid⟩ g
    exact (heval g (hfree g)).2 hmid

/-- The cell `A1`. -/
def cellA1 : A1Ref where
  colDollar := false
  col := [0x41]
  rowDollar := false
  row := [0x31]
  col_alpha := List.forall_iff_forall_mem.1 (by decide)
  col_length := by decide
  row_decimal := List.forall_iff_forall_mem.1 (by decide)
  row_length := by decide

/-- A sheet where it is `y`. -/
def gridY : Grid := [(ascii "A1", ascii "y")]

theorem evalExpr_printItems_a1 :
    evalExpr (gridY.value asciiCase) asciiCase (printItems [.text (ascii "x"), .a1 cellA1]) = .ok (ascii "xy") := by
  have htexts : texts asciiCase gridY [.text (ascii "x"), .a1 cellA1] = [[0x78], [0x79]] := by decide +kernel
  have hitems := (evalExpr_printItems asciiCase).1 gridY [.text (ascii "x"), .a1 cellA1]
  rw [htexts] at hitems
  refine (hitems ?_ ?_ ?_).2 ?_
  · decide +kernel
  · intro l r hlr
    have hall : ∀ k ≤ 2, (joinConcat (([Item.text (ascii "x"), .a1 cellA1].take k).map
        (Item.literal asciiCase gridY) ++ ([Item.text (ascii "x"), .a1 cellA1].drop k).map
          fun i => i.toA1.print)).length ≤ 2 ^ 16 := by decide +kernel
    have hlen := congrArg List.length hlr
    rw [List.length_append] at hlen
    have := hall l.length (by simp at hlen; omega)
    rwa [hlr, List.take_left, List.drop_left] at this
  · intro t ht
    rcases List.mem_pair.1 ht with rfl | rfl
    · exact free_singleton _ _
    · exact free_singleton _ _
  · exact .inl (by decide +kernel)

/-- A quoted text that looks like a reference is replaced. -/
theorem evalExpr_mention :
    evalExpr (gridY.value asciiCase) asciiCase (printItems [.text (ascii "A1")]) = .ok (ascii "\"y\"") ∧
      evalExpr (gridY.value asciiCase) asciiCase (printItems [.text (ascii "A1")]) ≠
        .ok (texts asciiCase gridY [.text (ascii "A1")]).flatten := by
  decide +kernel

end MS.Xlm
