import Mailstrix.Proof.Extract.Search
import Mailstrix.Proof.Extract.Xlm.Refs

/-!
# Evaluating a formula with references

A concatenation of quoted texts and references, whose texts hold nothing that a pass would replace (`Free`), becomes the
concatenation of its texts in quotes after one pass (`resolveRefs_items`), and is folded to the texts (`fold_literals`).  Then
it is the value of the formula, unless the texts mention a `MID` call that can be folded (`evalExpr_items`).
-/

namespace MS.Xlm

open Framework
open Scan (ascii)
open Extract (isAlpha isUpper isLower isDecimal isWord trimSpaceBytes index index_isPrefixOf)

variable {before : Option UInt8} {items : List Item} {find : Matcher UInt8} {t : Bytes}
variable {i : Item} {b out : Bytes} {ts : List Bytes} {U : Unicode}

/-! ## Texts within quotes -/

theorem break_quote : Break 0x22 := .inl rfl

theorem break_amp : Break 0x26 := .inr rfl

/-- A text from its pieces between quotes. -/
theorem text_induction {P : Bytes → Prop} (hplain : ∀ x, 0x22 ∉ x → P x)
    (hquote : ∀ x y, 0x22 ∉ x → P y → P (x ++ 0x22 :: y)) (t : Bytes) : P t := by
  induction hn : t.length using Nat.strong_induction_on generalizing t with
  | _ n ih =>
    by_cases hmem : 0x22 ∈ t
    · obtain ⟨x, y, rfl, hx⟩ := List.eq_append_cons_of_mem hmem
      exact hquote x y hx (ih y.length (by simp at hn; omega) y rfl)
    · exact hplain t hmem

theorem double_quote (x y : Bytes) (hx : 0x22 ∉ x) : double (x ++ 0x22 :: y) = x ++ 0x22 :: 0x22 :: double y := by
  rw [double_append, double_of_notMem hx]
  rfl

/-- The quotes between which a text stands, and those in it, are breaks. -/
theorem quiet_double (h : find.Within) (hb : find.Break 0x22)
    (hq : find.Quiet none t) : find.Quiet none (double t) := by
  induction t using text_induction with
  | hplain x hx => rwa [double_of_notMem hx]
  | hquote x y hx ih =>
    obtain ⟨hqx, hqy⟩ := hq.of_append h hb
    rw [double_quote x y hx]
    exact hqx.append h hb ((h.quiet_nil none).append h hb (ih hqy))

theorem quiet_of_double (h : find.Within) (hb : find.Break 0x22)
    (hq : find.Quiet none (double t)) : find.Quiet none t := by
  induction t using text_induction with
  | hplain x hx => rwa [double_of_notMem hx] at hq
  | hquote x y hx ih =>
    rw [double_quote x y hx] at hq
    obtain ⟨hqx, hqy⟩ := hq.of_append h hb
    rw [← List.nil_append (0x22 :: double y)] at hqy
    exact hqx.append h hb (ih (hqy.of_append h hb).2)

theorem rewrite_literal (h : find.Within) (hb : find.Break 0x22)
    (hq : find.Quiet none t) : rewrite find (quoteXLMStringLiteral t) = quoteXLMStringLiteral t := by
  rw [quoteXLMStringLiteral, List.cons_append, rewrite_cons h hb, rewrite_append h hb,
    rewrite_id h (quiet_double h hb hq)]
  rfl

theorem rewrite_joinConcat (h : find.Within) (hb : find.Break 0x26) (ps : List Bytes) :
    rewrite find (joinConcat ps) = joinConcat (ps.map (rewrite find)) := by
  fun_induction joinConcat ps with
  | case1 => rfl
  | case2 p => rfl
  | case3 p q ps ih =>
    rw [rewrite_append h hb, ih]
    rfl

/-! ## Folding literals -/

theorem splitTopLevel_literals (t : Bytes) (ts : List Bytes) :
    splitTopLevel 0x26 false 0 [] (joinConcat ((t :: ts).map quoteXLMStringLiteral)) =
      (t :: ts).map quoteXLMStringLiteral := by
  induction ts generalizing t with
  | nil =>
    have hpass := passes_literal 0x26 0 t [] [] (by simp)
    rw [List.append_nil] at hpass
    exact hpass
  | cons u ts ih =>
    rw [List.map_cons, List.map_cons, joinConcat, quoteXLMStringLiteral, passes_literal 0x26 0 t [] _ (by simp),
      splitTopLevel_cons (by decide), if_neg (by decide), if_neg (by decide), if_pos ⟨rfl, rfl⟩]
    rw [← List.map_cons, ih u]
    rfl

theorem splitOnConcat_literals (ts : List Bytes) :
    splitOnConcat (joinConcat (ts.map quoteXLMStringLiteral)) = ts.map quoteXLMStringLiteral := by
  cases ts with
  | nil => rfl
  | cons t ts =>
    have hlast : ((t :: ts).map quoteXLMStringLiteral).getLast? ≠ some [] := by
      rw [List.getLast?_map]
      cases (t :: ts).getLast? <;> simp [quoteXLMStringLiteral]
    rw [splitOnConcat, splitTopLevel_literals, if_neg hlast]

/-- A concatenation of literals begins with a quote. -/
theorem literals_head (t : Bytes) (ts : List Bytes) :
    ∃ y, joinConcat ((t :: ts).map quoteXLMStringLiteral) = 0x22 :: y := by
  cases ts with
  | nil => exact ⟨_, rfl⟩
  | cons u ts => exact ⟨_, rfl⟩

theorem fold_literals (U : Unicode) (n : Nat) (ts : List Bytes) :
    foldXLMFormulaDepth U (n + 1) (joinConcat (ts.map quoteXLMStringLiteral)) = .ok ts.flatten := by
  have hstrip : stripEquals (joinConcat (ts.map quoteXLMStringLiteral)) = joinConcat (ts.map quoteXLMStringLiteral) := by
    cases ts with
    | nil => rfl
    | cons t ts =>
      obtain ⟨y, hy⟩ := literals_head t ts
      rw [hy]
      rfl
  have hparts : ∀ ts : List Bytes,
      foldParts U (foldXLMFormulaDepth U n) (ts.map quoteXLMStringLiteral) = .ok ts.flatten := by
    intro ts
    induction ts with
    | nil => rfl
    | cons t ts ih =>
      have hsolid : Solid (quoteXLMStringLiteral t) := solid_literal t
      rw [List.map_cons, ← List.singleton_append, foldParts_append, ih, foldParts_singleton U _ hsolid,
        quoteXLMStringLiteral, foldPart_literal]
      rfl
  rw [foldXLMFormulaDepth, hstrip, splitOnConcat_literals, hparts]

/-! ## The loop over A1 references -/

section Loop

variable (value : Bytes → Option Bytes)

theorem resolveA1From_skip (x y : Bytes) (before : Option UInt8) (b : Bytes) (changed : Bool) :
    resolveA1From value x.length before b changed (x ++ y) =
      resolveA1From value 0 (x.getLast?.or before) b changed y := by
  induction x generalizing before with
  | nil => rfl
  | cons c x ih =>
    rw [List.length_cons, List.cons_append, resolveA1From, ih]
    cases x <;> rfl

/-- One round of the loop at a reference. -/
theorem resolveA1From_ref {found behind coord : Bytes} (hfound : found ≠ [])
    (h : a1RefAt before (found ++ behind) = some (behind, coord)) (b : Bytes) (changed : Bool) :
    resolveA1From value 0 before b changed (found ++ behind) =
      match value coord with
      | none => resolveA1From value 0 found.getLast? (b ++ found) changed behind
      | some val =>
        if maxResolvedExprLen < b.length + (quoteXLMStringLiteral val).length + behind.length then
          ⟨b ++ (found ++ behind), changed, true⟩
        else resolveA1From value 0 found.getLast? (b ++ quoteXLMStringLiteral val) true behind := by
  obtain ⟨c, found, rfl⟩ := List.exists_cons_of_ne_nil hfound
  have htake : (c :: (found ++ behind)).take ((c :: (found ++ behind)).length - behind.length) = c :: found := by
    rw [← List.cons_append, List.length_append, Nat.add_sub_cancel, List.take_left]
  have hskip : ∀ b changed, resolveA1From value ((c :: found).length - 1) (some c) b changed (found ++ behind) =
      resolveA1From value 0 (c :: found).getLast? b changed behind := by
    intro b changed
    rw [List.length_cons, Nat.add_sub_cancel, resolveA1From_skip]
    cases found <;> rfl
  rw [List.cons_append] at h ⊢
  rw [resolveA1From, h]
  cases hv : value coord <;> simp only [htake, hskip, hv]

omit value in
theorem getLast?_or {x : Bytes} (hx : x ≠ []) (before : Option UInt8) : x.getLast?.or before = x.getLast? := by
  cases h : x.getLast? with
  | none => exact absurd (List.getLast?_eq_none_iff.1 h) hx
  | some c => rfl

/-- The loop leaves a text without references to cells as it is. -/
theorem resolveA1From_quiet {w : Bytes} (hq : (a1Match value).Quiet before w) (y b : Bytes)
    (changed : Bool) :
    resolveA1From value 0 before b changed (w ++ 0x22 :: y) =
      resolveA1From value 0 (some 0x22) (b ++ w ++ [0x22]) changed y := by
  induction hn : w.length using Nat.strong_induction_on generalizing w before b with
  | _ n ih =>
    cases w with
    | nil =>
      have hnone : a1RefAt before (0x22 :: y) = none := by
        rw [← List.nil_append (0x22 :: y), a1RefAt_append break_quote, a1RefAt_nil]
        rfl
      rw [List.nil_append, resolveA1From, hnone, List.append_nil]
    | cons c w =>
      cases hat : a1RefAt before (c :: w) with
      | none =>
        have hnone : a1RefAt before (c :: w ++ 0x22 :: y) = none := by
          rw [a1RefAt_append break_quote, hat]
          rfl
        rw [List.cons_append] at hnone ⊢
        rw [resolveA1From, hnone]
        simp only
        rw [ih w.length (by simp at hn; omega) hq.tail _ rfl]
        simp
      | some ref =>
        obtain ⟨behind, coord⟩ := ref
        obtain ⟨found, hw, hlen, hchars⟩ := a1RefAt_some hat
        rw [hw] at hq hat hn ⊢
        have hne : found ≠ [] := List.ne_nil_of_length_pos (by omega)
        have hnone : value coord = none := by
          cases hv : value coord with
          | none => rfl
          | some val =>
            have hw := hq [] (found ++ behind) _ _ rfl (a1Match_some value hat)
            rw [hv, List.take_left] at hw
            have hquote : (0x22 : UInt8) ∈ found := hw ▸ List.mem_cons_self
            exact absurd (hchars _ hquote) (by decide)
        have hat' : a1RefAt before (found ++ (behind ++ 0x22 :: y)) = some (behind ++ 0x22 :: y, coord) := by
          rw [← List.append_assoc, a1RefAt_append break_quote, hat]
          rfl
        have hquiet := hq.suffix
        rw [getLast?_or hne] at hquiet
        rw [List.append_assoc, resolveA1From_ref value hne hat', hnone]
        simp only
        rw [ih behind.length (by rw [List.length_append] at hn; omega) hquiet _ rfl, List.append_assoc b]

end Loop

/-! ## Items -/

/-- The text holds nothing that a pass over the formula would replace: no A1 reference and no placeholder for a cell with a
value, no R1C1 reference to a cell that exists. -/
structure Free (U : Unicode) (g : Grid) (t : Bytes) : Prop where
  r1c1 : Matcher.Quiet r1c1Match none t
  placeholder : Matcher.Quiet (placeholderMatch (g.value U)) none t
  a1 : Matcher.Quiet (a1Match (g.value U)) none t

namespace Item

/-- An item behind the first step of a pass, where every reference is in A1 notation. -/
def toA1 : Item → Item
  | r1c1 r => a1 r.toA1
  | i => i

/-- The literal that an item becomes. -/
def literal (U : Unicode) (g : Grid) (i : Item) : Bytes := quoteXLMStringLiteral ((i.value U g).getD [])

def isRef : Item → Bool
  | text _ => false
  | _ => true

variable {g : Grid}

theorem rewrite_r1c1 (h : ∀ t, i.value U g = some t → Free U g t) : rewrite r1c1Match i.print = i.toA1.print := by
  cases i with
  | text t => exact rewrite_literal within_r1c1 (break_r1c1 break_quote) (h t rfl).r1c1
  | a1 r => exact rewrite_id within_r1c1 r.quiet_r1c1
  | r1c1 r => exact r.rewrite_print.trans r.print_toA1.symm

theorem rewrite_placeholder (h : ∀ t, i.value U g = some t → Free U g t) :
    rewrite (placeholderMatch (g.value U)) i.toA1.print = i.toA1.print := by
  cases i with
  | text t => exact rewrite_literal (within_placeholder _) (break_placeholder _ break_quote) (h t rfl).placeholder
  | a1 r => exact rewrite_id (within_placeholder _) (r.quiet_placeholder _)
  | r1c1 r => exact rewrite_id (within_placeholder _) (r.toA1.quiet_placeholder _)

end Item

/-- At every moment of the pass over the references the formula, resolved up to there, is within its limit. -/
def Roomy (U : Unicode) (g : Grid) (items : List Item) : Prop :=
  ∀ l r, items = l ++ r →
    (joinConcat (l.map (Item.literal U g) ++ r.map fun i => i.toA1.print)).length ≤ maxResolvedExprLen

section Pass

variable {g : Grid}

/-- A break or nothing stands before a part. -/
def Start (before : Option UInt8) : Prop := before = none ∨ ∃ b, Break b ∧ before = some b

theorem Start.a1RefAt (h : Start before) (s : Bytes) : a1RefAt before s = a1RefAt none s := by
  rcases h with rfl | ⟨b, hb, rfl⟩
  · rfl
  · exact a1RefAt_break hb s

/-- The loop at a literal that is free. -/
theorem resolveA1From_literal (h : Free U g t) (y b : Bytes) (changed : Bool) :
    resolveA1From (g.value U) 0 before b changed (quoteXLMStringLiteral t ++ y) =
      resolveA1From (g.value U) 0 (some 0x22) (b ++ quoteXLMStringLiteral t) changed y := by
  have hnone : ∀ z, a1RefAt before (0x22 :: z) = none := by
    intro z
    rw [← List.nil_append (0x22 :: z), a1RefAt_append break_quote, a1RefAt_nil]
    rfl
  have hquiet : (a1Match (g.value U)).Quiet (some 0x22) (double t) := by
    intro x z n written hxz hf
    refine quiet_double (within_a1 _) (break_a1 _ break_quote) h.a1 x z n written hxz ?_
    rw [← hf]
    cases x with
    | nil => exact ((break_a1 _ break_quote).behind z).symm
    | cons c x => simp [List.getLast?_cons]
  simp only [quoteXLMStringLiteral, List.cons_append, List.append_assoc, List.nil_append]
  rw [resolveA1From, hnone]
  simp only
  rw [resolveA1From_quiet _ hquiet]
  simp

/-- The loop at a reference to a cell with a value, before a break or the end. -/
theorem resolveA1From_a1 {r : A1Ref} (hv : g.value U r.coord = some t) (hstart : Start before) {y : Bytes}
    (hy : y = [] ∨ ∃ z, y = 0x26 :: z) (hroom : (b ++ quoteXLMStringLiteral t ++ y).length ≤ maxResolvedExprLen)
    (changed : Bool) :
    resolveA1From (g.value U) 0 before b changed (r.print ++ y) =
      resolveA1From (g.value U) 0 r.print.getLast? (b ++ quoteXLMStringLiteral t) true y := by
  have hat : a1RefAt before (r.print ++ y) = some (y, r.coord) := by
    rw [hstart.a1RefAt]
    rcases hy with rfl | ⟨z, rfl⟩
    · rw [List.append_nil, r.found]
    · rw [a1RefAt_append break_amp, r.found]
      rfl
  have hne : r.print ≠ [] := by
    intro h
    have := r.found
    rw [h, a1RefAt_nil] at this
    exact absurd this nofun
  rw [resolveA1From_ref _ hne hat, hv]
  simp only
  rw [if_neg]
  simp only [List.length_append] at hroom
  omega

/-- The loop at an item. -/
theorem resolveA1From_item (hv : i.value U g = some t) (hfree : Free U g t) (hstart : Start before) {y : Bytes}
    (hy : y = [] ∨ ∃ z, y = 0x26 :: z) (hroom : (b ++ i.literal U g ++ y).length ≤ maxResolvedExprLen) (changed : Bool) :
    ∃ last, resolveA1From (g.value U) 0 before b changed (i.toA1.print ++ y) =
      resolveA1From (g.value U) 0 last (b ++ i.literal U g) (changed || i.isRef) y := by
  have hlit : i.literal U g = quoteXLMStringLiteral t := by rw [Item.literal, hv, Option.getD_some]
  rw [hlit] at hroom ⊢
  have href : ∀ r : A1Ref, g.value U r.coord = some t →
      ∃ last, resolveA1From (g.value U) 0 before b changed (r.print ++ y) =
        resolveA1From (g.value U) 0 last (b ++ quoteXLMStringLiteral t) (changed || true) y := by
    intro r hr
    rw [Bool.or_true]
    exact ⟨_, resolveA1From_a1 hr hstart hy hroom changed⟩
  cases i with
  | text u =>
    obtain rfl := Option.some.inj hv
    simp only [Item.isRef, Bool.or_false]
    exact ⟨_, resolveA1From_literal hfree y b changed⟩
  | a1 r => exact href r hv
  | r1c1 r => exact href r.toA1 (r.coord_toA1.symm ▸ hv)

theorem joinConcat_cons {p : Bytes} {ps : List Bytes} (h : ps ≠ []) : joinConcat (p :: ps) = p ++ 0x26 :: joinConcat ps := by
  obtain ⟨q, ps, rfl⟩ := List.exists_cons_of_ne_nil h
  rfl

theorem resolveA1From_items (hv : ∀ i ∈ items, ∃ t, i.value U g = some t ∧ Free U g t) (hstart : Start before)
    (hroom : ∀ l r, items = l ++ r →
      (b ++ joinConcat (l.map (Item.literal U g) ++ r.map fun i => i.toA1.print)).length ≤ maxResolvedExprLen)
    (changed : Bool) :
    resolveA1From (g.value U) 0 before b changed (joinConcat (items.map fun i => i.toA1.print)) =
      ⟨b ++ joinConcat (items.map (Item.literal U g)), changed || items.any Item.isRef, false⟩ := by
  induction items generalizing before b changed with
  | nil => simp [joinConcat, resolveA1From]
  | cons i items ih =>
    obtain ⟨t, hit, hfree⟩ := hv i List.mem_cons_self
    by_cases hnil : items = []
    · subst hnil
      have hroom' : (b ++ i.literal U g ++ []).length ≤ maxResolvedExprLen := by
        simpa [joinConcat] using hroom [i] [] rfl
      obtain ⟨last, hstep⟩ := resolveA1From_item hit hfree hstart (.inl rfl) hroom' changed
      rw [List.append_nil] at hstep
      show resolveA1From (g.value U) 0 before b changed i.toA1.print = _
      rw [hstep]
      simp [joinConcat, resolveA1From]
    · have hrest : ∀ f : Item → Bytes, items.map f ≠ [] := fun f h => hnil (List.map_eq_nil_iff.1 h)
      have hroom' := hroom [i] items rfl
      simp only [List.map_cons, List.map_nil, List.singleton_append] at hroom'
      rw [joinConcat_cons (hrest _), ← List.append_assoc] at hroom'
      obtain ⟨last, hstep⟩ := resolveA1From_item hit hfree hstart (.inr ⟨_, rfl⟩) hroom' changed
      have hamp : ∀ z, a1RefAt last (0x26 :: z) = none := by
        intro z
        rw [← List.nil_append (0x26 :: z), a1RefAt_append break_amp, a1RefAt_nil]
        rfl
      rw [List.map_cons, joinConcat_cons (hrest _), hstep, resolveA1From, hamp]
      simp only
      rw [ih (fun j hj => hv j (List.mem_cons_of_mem _ hj)) (.inr ⟨_, break_amp, rfl⟩), List.map_cons,
        joinConcat_cons (hrest _)]
      · simp [Bool.or_assoc]
      · intro l r hlr
        have hne : l.map (Item.literal U g) ++ r.map (fun i => i.toA1.print) ≠ [] := by
          intro h
          obtain ⟨hl, hr⟩ := List.append_eq_nil_iff.1 h
          rw [List.map_eq_nil_iff.1 hl, List.map_eq_nil_iff.1 hr] at hlr
          exact hnil hlr
        have hlen := hroom (i :: l) r (by rw [hlr, List.cons_append])
        rw [List.map_cons, List.cons_append, joinConcat_cons hne] at hlen
        simpa using hlen

/-- A pass over items whose texts are free writes for each reference its value, and nothing else. -/
theorem resolvePass_items (hv : ∀ i ∈ items, ∃ t, i.value U g = some t ∧ Free U g t)
    (hroom : Roomy U g items) :
    resolvePass (g.value U) (printItems items) =
      ⟨joinConcat (items.map (Item.literal U g)), items.any Item.isRef, false⟩ := by
  have hfree : ∀ i ∈ items, ∀ t, i.value U g = some t → Free U g t := by
    intro i hi t ht
    obtain ⟨u, hu, hfree⟩ := hv i hi
    rwa [← Option.some.inj (hu.symm.trans ht)]
  have hr1c1 : replaceR1C1 (printItems items) = joinConcat (items.map fun i => i.toA1.print) := by
    rw [replaceR1C1, printItems, rewrite_joinConcat within_r1c1 (break_r1c1 break_amp), List.map_map]
    exact congrArg _ (List.map_congr_left fun i hi => Item.rewrite_r1c1 (hfree i hi))
  have hplace : resolveRefPlaceholdersQuoted (g.value U) (joinConcat (items.map fun i => i.toA1.print)) =
      joinConcat (items.map fun i => i.toA1.print) := by
    rw [resolveRefPlaceholdersQuoted, rewrite_joinConcat (within_placeholder _) (break_placeholder _ break_amp),
      List.map_map]
    exact congrArg _ (List.map_congr_left fun i hi => Item.rewrite_placeholder (hfree i hi))
  rw [resolvePass, hr1c1, hplace, resolveA1From_items hv (.inl rfl) fun l r hlr => hroom l r hlr]
  simp

/-- The values of the items. -/
def texts (U : Unicode) (g : Grid) (items : List Item) : List Bytes := items.filterMap (Item.value U g)

theorem map_literal (hv : ∀ i ∈ items, ∃ t, i.value U g = some t ∧ Free U g t) :
    items.map (Item.literal U g) = (texts U g items).map quoteXLMStringLiteral := by
  induction items with
  | nil => rfl
  | cons i items ih =>
    obtain ⟨t, hit, -⟩ := hv i List.mem_cons_self
    have hrest := ih fun j hj => hv j (List.mem_cons_of_mem _ hj)
    simp only [texts] at hrest
    simp [texts, Item.literal, hit, hrest]

theorem resolveRefs_items (hv : ∀ i ∈ items, ∃ t, i.value U g = some t ∧ Free U g t)
    (hroom : Roomy U g items) (n : Nat) :
    resolveRefs (g.value U) (n + 2) (printItems items) = joinConcat ((texts U g items).map quoteXLMStringLiteral) := by
  have hpass := resolvePass_items hv hroom
  rw [map_literal hv] at hpass
  by_cases href : items.any Item.isRef = true
  · -- the second pass finds literals only
    have hprint : joinConcat ((texts U g items).map quoteXLMStringLiteral) = printItems ((texts U g items).map Item.text) := by
      rw [printItems, List.map_map]
      rfl
    have hv' : ∀ i ∈ (texts U g items).map Item.text, ∃ t, i.value U g = some t ∧ Free U g t := by
      intro i hi
      obtain ⟨t, ht, rfl⟩ := List.mem_map.1 hi
      obtain ⟨j, hj, hjt⟩ := List.mem_filterMap.1 ht
      obtain ⟨u, hu, hfree⟩ := hv j hj
      exact ⟨t, rfl, Option.some.inj (hu.symm.trans hjt) ▸ hfree⟩
    have hroom' : Roomy U g ((texts U g items).map Item.text) := by
      intro l r hlr
      have hlits : l.map (Item.literal U g) ++ r.map (fun i => i.toA1.print) = items.map (Item.literal U g) := by
        have hprint : r.map (fun i => i.toA1.print) = r.map (Item.literal U g) := by
          refine List.map_congr_left fun i hi => ?_
          obtain ⟨t, -, rfl⟩ := List.mem_map.1 (hlr ▸ List.mem_append_right l hi)
          rfl
        rw [hprint, ← List.map_append, ← hlr, map_literal hv, List.map_map]
        rfl
      have := hroom items [] (by simp)
      rw [List.map_nil, List.append_nil] at this
      rwa [hlits]
    have hpass' := resolvePass_items hv' hroom'
    have hany : ((texts U g items).map Item.text).any Item.isRef = false := by simp [Item.isRef]
    have hself : texts U g ((texts U g items).map Item.text) = texts U g items := by
      simp [texts, List.filterMap_map, Item.value, Function.comp_def]
    rw [map_literal hv', hany, hself] at hpass'
    rw [resolveRefs, hpass, href]
    simp only [Bool.not_true, Bool.or_false, Bool.false_eq_true, if_false]
    rw [resolveRefs, hprint, hpass', ← hprint]
    rfl
  · rw [resolveRefs, hpass]
    simp [href]

end Pass

/-! ## Calls in the resolved text

A folded text that mentions `MID(` is given up for the resolved formula, with the calls in it folded, even if the calls
are within literals.  The resolved formula begins with a quote, and each of its bytes is a break or a byte of the folded text
that stands further left there: the two texts agree on breaks only, not up to a call. -/

/-- The second text is the first one with breaks put in. -/
inductive Spread : Bytes → Bytes → Prop
  | nil : Spread [] []
  | keep (c : UInt8) {w s : Bytes} : Spread w s → Spread (c :: w) (c :: s)
  | put {b : UInt8} {w s : Bytes} : Break b → Spread w s → Spread w (b :: s)

namespace Spread

theorem append {w s w' s' : Bytes} (h : Spread w s) (h' : Spread w' s') : Spread (w ++ w') (s ++ s') := by
  induction h with
  | nil => exact h'
  | keep c _ ih => exact .keep c ih
  | put hb _ ih => exact .put hb ih

theorem double (t : Bytes) : Spread t (double t) := by
  induction t with
  | nil => exact .nil
  | cons c t ih =>
    by_cases hc : c = 0x22
    · subst hc
      exact .put break_quote (.keep _ ih)
    · have : Xlm.double (c :: t) = c :: Xlm.double t := by
        rw [← List.singleton_append, double_append, double_of_notMem (by simpa using fun h => hc h.symm)]
        rfl
      rw [this]
      exact .keep c ih

theorem literal (t : Bytes) : Spread t (Xlm.double t ++ [0x22]) := by
  have := (double t).append (.put break_quote .nil)
  rwa [List.append_nil] at this

theorem joined (t : Bytes) (ts : List Bytes) :
    ∃ s, joinConcat ((t :: ts).map quoteXLMStringLiteral) = 0x22 :: s ∧ Spread (t :: ts).flatten s := by
  induction ts generalizing t with
  | nil =>
    refine ⟨_, rfl, ?_⟩
    rw [List.flatten_cons, List.flatten_nil, List.append_nil]
    exact literal t
  | cons u ts ih =>
    obtain ⟨s, hs, hspread⟩ := ih u
    refine ⟨Xlm.double t ++ [0x22] ++ 0x26 :: 0x22 :: s, ?_, ?_⟩
    · rw [List.map_cons, List.map_cons, joinConcat, ← List.map_cons, hs]
      rfl
    · rw [List.flatten_cons]
      exact (literal t).append (.put break_amp (.put break_quote hspread))

/-- Where a byte of the spread text comes from. -/
theorem source {w s : Bytes} (h : Spread w s) {j : Nat} {c : UInt8} (hc : s[j]? = some c) :
    Break c ∨ ∃ p ≤ j, w[p]? = some c := by
  induction h generalizing j with
  | nil => simp at hc
  | keep d _ ih =>
    cases j with
    | zero => exact .inr ⟨0, le_rfl, hc⟩
    | succ j =>
      rcases ih hc with h | ⟨p, hp, h⟩
      · exact .inl h
      · exact .inr ⟨p + 1, by omega, h⟩
  | put hb _ ih =>
    cases j with
    | zero => exact .inl (Option.some.inj hc ▸ hb)
    | succ j =>
      rcases ih hc with h | ⟨p, hp, h⟩
      · exact .inl h
      · exact .inr ⟨p, by omega, h⟩

variable {w s z : Bytes}

/-- Behind a part on which the two texts agree stands a break. -/
theorem next_break (h : Spread w s) (hz : z <+: w) (hbreak : ∀ c ∈ z, Break c) {c : UInt8}
    (hc : (0x22 :: s)[z.length]? = some c) : Break c := by
  cases z with
  | nil => exact Option.some.inj hc ▸ break_quote
  | cons d z =>
    rcases h.source hc with h | ⟨p, hp, hpc⟩
    · exact h
    · refine hbreak c (List.mem_of_getElem? (i := p) ?_)
      rw [← hpc]
      obtain ⟨v, rfl⟩ := hz
      rw [List.getElem?_append_left (by simp; omega)]

theorem common_break (h : Spread w s) (hz : z <+: w) (hz' : z <+: 0x22 :: s) : ∀ c ∈ z, Break c := by
  induction z using List.reverseRecOn with
  | nil => exact fun c hc => absurd hc List.not_mem_nil
  | append_singleton z d ih =>
    have hbreak := ih ((List.prefix_append z [d]).trans hz) ((List.prefix_append z [d]).trans hz')
    have hd : (0x22 :: s)[z.length]? = some d := by
      obtain ⟨v, hv⟩ := hz'
      rw [← hv]
      simp
    intro c hc
    rcases List.mem_append.1 hc with hc | hc
    · exact hbreak c hc
    · rw [List.mem_singleton.1 hc]
      exact h.next_break ((List.prefix_append z [d]).trans hz) hbreak hd

end Spread

theorem Break.firm {b : UInt8} (h : Break b) : Firm b := by
  rcases h with rfl | rfl
  · exact ⟨by decide, by decide, by decide⟩
  · exact ⟨by decide, by decide, by decide⟩

section Embedded

variable {deeper : Bytes → Go Bytes} {s upper : Bytes}

/-- What a round of the loop does: it is the last one, and no call is folded in it, or it finds a call and writes what stands
before it, without the sign that may be there. -/
theorem embeddedMIDFrom_round {fuel i : Nat} {changed changed' : Bool}
    (h : embeddedMIDFrom U deeper s upper (fuel + 1) i b changed = .ok (out, changed')) :
    (b <+: out ∧ changed' = changed) ∨
      ∃ rel head written i' now, index (ascii "MID(") (upper.drop i) = some rel ∧ i + rel ≤ s.length ∧
        ((s.take (i + rel)).drop i = head ∨ (s.take (i + rel)).drop i = head ++ [0x3d]) ∧
        embeddedMIDFrom U deeper s upper fuel i' (b ++ head ++ written) now = .ok (out, changed') := by
  have hbind : ∀ {α β : Type} {x : Go α} {f : α → Go β} {r : β}, (x >>= f) = .ok r → ∃ a, x = .ok a ∧ f a = .ok r := by
    intro α β x f r hx
    cases x with
    | error e => exact absurd hx (by rintro ⟨⟩)
    | ok a => exact ⟨a, rfl, hx⟩
  have hslice : ∀ {t : Bytes} {i j : Nat} {r : Bytes}, slice t i j = .ok r → j ≤ t.length ∧ r = (t.take j).drop i := by
    intro t i j r hr
    rw [slice] at hr
    split at hr
    · obtain rfl := Except.ok.inj hr
      exact ⟨by omega, rfl⟩
    · exact absurd hr (by simp)
  rw [embeddedMIDFrom] at h
  split at h
  · obtain ⟨rfl, rfl⟩ := Prod.mk.inj (Except.ok.inj h)
    exact .inl ⟨List.prefix_rfl, rfl⟩
  · obtain ⟨rest, hrest, h⟩ := hbind h
    obtain ⟨-, rfl⟩ := hslice hrest
    rw [List.take_length] at h
    split at h
    · obtain ⟨rfl, rfl⟩ := Prod.mk.inj (Except.ok.inj h)
      exact .inl ⟨List.prefix_append _ _, rfl⟩
    · next rel hrel =>
      dsimp only at h
      split at h
      · obtain ⟨rfl, rfl⟩ := Prod.mk.inj (Except.ok.inj h)
        exact .inl ⟨List.prefix_append _ _, rfl⟩
      · next close hclose =>
        obtain ⟨head, hhead, h⟩ := hbind h
        obtain ⟨hlen, rfl⟩ := hslice hhead
        obtain ⟨call, -, h⟩ := hbind h
        obtain ⟨folded, -, h⟩ := hbind h
        have hsign : ∀ x : Bytes, x = (if (ascii "=").isSuffixOf x then x.dropLast else x) ∨
            x = (if (ascii "=").isSuffixOf x then x.dropLast else x) ++ [0x3d] := by
          intro x
          split
          · next hx =>
            obtain ⟨y, rfl⟩ := List.isSuffixOf_iff_suffix.1 hx
            right
            rw [show ascii "=" = [0x3d] by decide, List.dropLast_concat]
          · exact .inl rfl
        refine .inr ?_
        cases folded with
        | some folded => exact ⟨rel, _, folded, _, _, hrel, hlen, hsign _, h⟩
        | none =>
          obtain ⟨kept, -, h⟩ := hbind h
          exact ⟨rel, _, kept, _, _, hrel, hlen, hsign _, h⟩

theorem embeddedMIDFrom_prefix {fuel i : Nat} {changed changed' : Bool}
    (h : embeddedMIDFrom U deeper s upper fuel i b changed = .ok (out, changed')) : b <+: out := by
  induction fuel generalizing i b changed with
  | zero =>
    obtain ⟨rfl, -⟩ := Prod.mk.inj (Except.ok.inj h)
    exact List.prefix_rfl
  | succ fuel ih =>
    rcases embeddedMIDFrom_round h with ⟨hp, -⟩ | ⟨rel, head, written, i', now, -, -, -, hrun⟩
    · exact hp
    · rw [List.append_assoc] at hrun
      exact (List.prefix_append b _).trans (ih hrun)

/-- If a call is folded, what stands before the first call is kept. -/
theorem foldEmbeddedMIDCalls_head (h : foldEmbeddedMIDCalls U s = .ok (out, true)) :
    ∃ start head, index (ascii "MID(") (U.toUpper s) = some start ∧ start ≤ s.length ∧ head <+: out ∧
      (s.take start = head ∨ s.take start = head ++ [0x3d]) := by
  rcases embeddedMIDFrom_round h with ⟨-, hch⟩ | ⟨rel, head, written, i', now, hrel, hlen, hhead, hrun⟩
  · exact absurd hch nofun
  · rw [List.drop_zero] at hrel hhead
    rw [Nat.zero_add] at hlen hhead
    refine ⟨rel, head, hrel, hlen, ?_, hhead⟩
    have hp := embeddedMIDFrom_prefix hrun
    rw [List.nil_append] at hp
    exact (List.prefix_append head written).trans hp

/-- Where `MID(` is found behind breaks stands no break. -/
theorem toUpper_mid_at {x y : Bytes} (hx : ∀ c ∈ x, Firm c) {c : UInt8} (hc : Firm c)
    (h : ascii "MID(" <+: (U.toUpper (x ++ c :: y)).drop x.length) : c = 0x4d := by
  rw [toUpper_firm U hx, List.drop_left, toUpper_cons U hc] at h
  obtain ⟨z, hz⟩ := h
  exact (List.cons.inj hz).1.symm

end Embedded

/-- The calls in a concatenation of literals, if one is folded, do not leave the texts of the literals. -/
theorem foldEmbeddedMIDCalls_literals {U : Unicode}
    (h : foldEmbeddedMIDCalls U (joinConcat (ts.map quoteXLMStringLiteral)) = .ok (out, true)) :
    stripEquals out ≠ ts.flatten := by
  obtain ⟨start, head, hindex, hstart, hhead, htake⟩ := foldEmbeddedMIDCalls_head h
  have hmid := index_isPrefixOf hindex
  cases ts with
  | nil => exact absurd hindex nofun
  | cons t ts =>
    obtain ⟨s, hs, hspread⟩ := Spread.joined t ts
    rw [hs] at htake hindex hstart hmid
    have hpre : head <+: 0x22 :: s := by
      have htaken : (0x22 :: s).take start <+: 0x22 :: s := List.take_prefix _ _
      rcases htake with htake | htake
      · rwa [htake] at htaken
      · rw [htake] at htaken
        exact (List.prefix_append head _).trans htaken
    intro heq
    have hflat : head <+: (t :: ts).flatten := by
      cases head with
      | nil => exact List.nil_prefix
      | cons c head =>
        obtain ⟨z, hz⟩ := hpre
        obtain rfl : c = 0x22 := (List.cons.inj hz).1
        obtain ⟨v, rfl⟩ := hhead
        exact heq ▸ List.prefix_append (0x22 :: head) v
    have hbreak := hspread.common_break hflat hpre
    rcases htake with htake | htake
    · obtain ⟨rest, hrest⟩ := hpre
      have hlen : head.length = start := by rw [← htake, List.length_take, Nat.min_eq_left hstart]
      rw [← hrest, ← hlen] at hmid
      have hfirm : ∀ c ∈ head, Firm c := fun c hc => (hbreak c hc).firm
      cases rest with
      | nil =>
        rw [toUpper_firm U hfirm, List.drop_left] at hmid
        exact absurd (List.prefix_nil.1 hmid) nofun
      | cons c rest =>
        have hc : Break c := hspread.next_break hflat hbreak (by rw [← hrest]; simp)
        obtain rfl := toUpper_mid_at hfirm hc.firm hmid
        exact absurd hc (by unfold Break; decide)
    · have hsign : (0x22 :: s)[head.length]? = some 0x3d := by
        have hget : ((0x22 :: s).take start)[head.length]? = some 0x3d := by rw [htake]; simp
        rw [List.getElem?_take] at hget
        split at hget
        · exact hget
        · exact absurd hget nofun
      exact absurd (hspread.next_break hflat hbreak hsign) (by unfold Break; decide)

/-! ## Literals and references -/

/-- The texts do not mention a call, or no call in the literals of the texts is folded. -/
def MidSafe (U : Unicode) (ts : List Bytes) : Prop :=
  contains (U.toUpper ts.flatten) (ascii "MID(") = false ∨
    ∃ out, foldEmbeddedMIDCalls U (joinConcat (ts.map quoteXLMStringLiteral)) = .ok (out, false)

/-- Literals without a text are quotes and signs only. -/
theorem foldEmbeddedMIDCalls_empty (U : Unicode) (h : ts.flatten = []) :
    foldEmbeddedMIDCalls U (joinConcat (ts.map quoteXLMStringLiteral)) =
      .ok (joinConcat (ts.map quoteXLMStringLiteral), false) := by
  have hbreaks : ∀ c ∈ joinConcat (ts.map quoteXLMStringLiteral), Break c := by
    cases ts with
    | nil => exact fun c hc => absurd hc List.not_mem_nil
    | cons t ts =>
      obtain ⟨s, hs, hspread⟩ := Spread.joined t ts
      rw [h] at hspread
      rw [hs]
      intro c hc
      rcases List.mem_cons.1 hc with rfl | hc
      · exact break_quote
      · obtain ⟨j, hj⟩ := List.mem_iff_getElem?.1 hc
        rcases hspread.source hj with hb | ⟨p, -, hp⟩
        · exact hb
        · exact absurd hp nofun
  generalize joinConcat (ts.map quoteXLMStringLiteral) = s at hbreaks
  have hupper : U.toUpper s = s := by
    have := toUpper_firm U (fun c hc => (hbreaks c hc).firm) []
    rwa [List.append_nil, show U.toUpper [] = [] from rfl, List.append_nil] at this
  have hindex : index (ascii "MID(") s = none := by
    cases hi : index (ascii "MID(") s with
    | none => rfl
    | some k =>
      obtain ⟨z, hz⟩ := index_isPrefixOf hi
      have hmem : (0x4d : UInt8) ∈ s.drop k := hz ▸ List.mem_cons_self
      exact absurd (hbreaks _ (List.mem_of_mem_drop hmem)) (by unfold Break; decide)
  rw [foldEmbeddedMIDCalls, embeddedMIDFrom, hupper]
  have hslice : slice s (0 : Nat) s.length = .ok s := by
    rw [slice, if_pos (by omega)]
    simp
  split
  · next hlen =>
    obtain rfl := List.length_eq_zero_iff.1 (Nat.le_zero.1 hlen)
    rfl
  · rw [hslice]
    simp only [Bind.bind, Except.bind, hindex, List.nil_append, List.drop_zero]
    rfl

/-- A formula that is resolved to literals is evaluated to their texts, unless a call in them is folded. -/
theorem evalExpr_literals {value : Bytes → Option Bytes} (U : Unicode) {formula : Bytes}
    (h : resolveRefs value maxRefResolvePasses formula = joinConcat (ts.map quoteXLMStringLiteral)) :
    evalExpr value U formula = .ok ts.flatten ↔ MidSafe U ts := by
  have hfold : foldXLMFormula U (joinConcat (ts.map quoteXLMStringLiteral)) = .ok ts.flatten := fold_literals U 15 ts
  have heval : evalExpr value U formula =
      if ts.flatten ≠ [] ∧ !contains (U.toUpper ts.flatten) (ascii "MID(") then .ok ts.flatten
      else foldEmbeddedMIDCalls U (joinConcat (ts.map quoteXLMStringLiteral)) >>= fun r =>
        .ok (if r.2 then stripEquals r.1 else ts.flatten) := by
    simp only [evalExpr, h, hfold]
    rfl
  rw [heval]
  by_cases hempty : ts.flatten = []
  · rw [if_neg (by simp [hempty]), foldEmbeddedMIDCalls_empty U hempty]
    refine iff_of_true rfl (.inl ?_)
    rw [hempty]
    rfl
  cases hmid : contains (U.toUpper ts.flatten) (ascii "MID(") with
  | false =>
    rw [if_pos ⟨hempty, rfl⟩]
    exact iff_of_true rfl (.inl hmid)
  | true =>
    rw [if_neg (by simp)]
    cases hemb : foldEmbeddedMIDCalls U (joinConcat (ts.map quoteXLMStringLiteral)) with
    | error e =>
      refine iff_of_false (by rintro ⟨⟩) ?_
      rintro (hsafe | ⟨out, hout⟩)
      · exact absurd (hmid.symm.trans hsafe) (by simp)
      · exact absurd (hemb.symm.trans hout) (by simp)
    | ok r =>
      obtain ⟨out, changed⟩ := r
      cases changed with
      | false => exact iff_of_true rfl (.inr ⟨out, hemb⟩)
      | true =>
        refine iff_of_false ?_ ?_
        · exact fun heq => foldEmbeddedMIDCalls_literals hemb (Except.ok.inj heq)
        · rintro (hsafe | ⟨out', hout⟩)
          · exact absurd (hmid.symm.trans hsafe) (by simp)
          · exact absurd (Prod.mk.inj (Except.ok.inj (hemb.symm.trans hout))).2 (by simp)

/-- An expression whose texts are free is evaluated to their concatenation, unless a call in them is folded. -/
theorem evalExpr_items {g : Grid} (U : Unicode)
    (hv : ∀ i ∈ items, ∃ t, i.value U g = some t ∧ Free U g t) (hroom : Roomy U g items) :
    evalExpr (g.value U) U (printItems items) = .ok (texts U g items).flatten ↔ MidSafe U (texts U g items) :=
  evalExpr_literals U (resolveRefs_items hv hroom 30)

end MS.Xlm
