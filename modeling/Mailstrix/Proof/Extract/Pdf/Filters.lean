import Mailstrix.Proof.Extract.Rtf
import Mailstrix.Proof.Extract.Search
import Mailstrix.Spec.Extract.PdfFilters

/-!
# The text filters of PDF streams are inverted

* `decodeASCIIHexPDF_text`: hexadecimal text is decoded up to the cap;
* `decodeASCII85PDF_text`: Ascii85 text is decoded as far as the destination goes, whose size is taken from the length of the
  text: four bytes for five characters, and eight more.  A zero group has one character only.

A chain is inverted if each of its texts fits (`applyPDFPrefilters_chain`).
-/

namespace MS.Extract

open Framework
open Scan (ascii)

/-! ## Hexadecimal text -/

theorem nibbleOf_ws {c : UInt8} (h : isPDFWS c = true) : nibbleOf c = none ∧ c ≠ 0x3e := by
  simp only [isPDFWS, Bool.or_eq_true, beq_iff_eq] at h
  rcases h with ((((rfl | rfl) | rfl) | rfl) | rfl) | rfl <;> decide

/-- The loop passes over whitespace, and stops at the mark behind the digits. -/
theorem decodeASCIIHexFrom_digitsOf {body : Bytes} (h : ∀ c ∈ digitsOf body, nibbleOf c ≠ none) (hi : Option UInt8)
    (out behind : Bytes) :
    decodeASCIIHexFrom hi out (body ++ 0x3e :: behind) = decodeASCIIHexFrom hi out (digitsOf body) := by
  induction body generalizing hi out with
  | nil => rfl
  | cons c body ih =>
    by_cases hc : isPDFWS c = true
    · obtain ⟨hnone, hne⟩ := nibbleOf_ws hc
      have hdigits : digitsOf (c :: body) = digitsOf body := List.filter_cons_of_neg (by simpa using hc)
      rw [hdigits] at h ⊢
      rw [List.cons_append, decodeASCIIHexFrom, if_neg hne, hnone, Option.elim_none, ih h]
    · have hdigits : digitsOf (c :: body) = c :: digitsOf body := List.filter_cons_of_pos (by simpa using hc)
      rw [hdigits] at h ⊢
      obtain ⟨v, hv⟩ := Option.ne_none_iff_exists'.1 (h c List.mem_cons_self)
      have hne : c ≠ 0x3e := by
        rintro rfl
        exact absurd hv nofun
      have hrest := ih fun d hd => h d (List.mem_cons_of_mem _ hd)
      rw [List.cons_append, decodeASCIIHexFrom, decodeASCIIHexFrom, if_neg hne, if_neg hne, hv]
      simp only [hrest]

/-- The digits are decoded until the cap is reached. -/
theorem decodeASCIIHexFrom_digits {x digits : Bytes} (h : digits.map nibbleOf = (nibbles x).map some) {out : Bytes}
    (hout : out.length < maxBytesPerPDFStream) :
    decodeASCIIHexFrom none out digits = (out ++ x).take maxBytesPerPDFStream := by
  induction x generalizing out digits with
  | nil =>
    obtain rfl : digits = [] := List.map_eq_nil_iff.1 h
    rw [decodeASCIIHexFrom, List.append_nil, List.take_of_length_le (by omega)]
    exact List.append_nil _
  | cons c x ih =>
    rw [nibbles, List.flatMap_cons, ← nibbles, List.map_append] at h
    obtain ⟨d₁, digits, rfl, hd₁, h⟩ := List.map_eq_cons_iff.1 h
    obtain ⟨d₂, digits, rfl, hd₂, h⟩ := List.map_eq_cons_iff.1 h
    have hne : ∀ {d v : UInt8}, nibbleOf d = some v → d ≠ 0x3e := by
      rintro d v hv rfl
      exact absurd hv (by rintro ⟨⟩)
    rw [decodeASCIIHexFrom, if_neg (hne hd₁), hd₁, Option.elim_some, Option.elim_none]
    rw [decodeASCIIHexFrom, if_neg (hne hd₂), hd₂, Option.elim_some, Option.elim_some, join_halves]
    dsimp only
    rw [List.length_append, List.length_singleton, show out ++ c :: x = out ++ [c] ++ x by simp]
    split
    · rw [List.take_append_of_le_length (by simp; omega), List.take_of_length_le (by simp; omega)]
    · exact ih h (by simp; omega)

theorem decodeASCIIHexPDF_text {x : Bytes} (t : HexText x) :
    decodeASCIIHexPDF t.text = x.take maxBytesPerPDFStream := by
  have hdigits : ∀ c ∈ digitsOf t.body, nibbleOf c ≠ none := by
    intro c hc
    have hmem : nibbleOf c ∈ (nibbles x).map some := t.spells ▸ List.mem_map_of_mem hc
    obtain ⟨v, -, hv⟩ := List.mem_map.1 hmem
    exact hv ▸ Option.some_ne_none v
  rw [decodeASCIIHexPDF, HexText.text, decodeASCIIHexFrom_digitsOf hdigits,
    decodeASCIIHexFrom_digits t.spells (by decide), List.nil_append]

/-! ## Ascii85 text -/

theorem blank_of_ws {c : UInt8} (h : isPDFWS c = true) : Ascii85.blank c = true ∧ c ≠ 0x3c ∧ c ≠ 0x7e := by
  simp only [isPDFWS, Bool.or_eq_true, beq_iff_eq] at h
  rcases h with ((((rfl | rfl) | rfl) | rfl) | rfl) | rfl <;> decide

section

variable {x : Bytes} (t : A85Text x)

/-- The characters of the text are whitespace or digits. -/
theorem A85Text.chars {c : UInt8} (hc : c ∈ t.body) :
    isPDFWS c = true ∨ (isPDFWS c = false ∧ Ascii85.blank c = false) ∧ c ≠ 0x7e := by
  by_cases hws : isPDFWS c = true
  · exact .inl hws
  · have hmem : c ∈ Ascii85.encode x := t.spells ▸ List.mem_filter.2 ⟨hc, by simpa using hws⟩
    rw [Bool.not_eq_true] at hws
    right
    rcases Ascii85.encode_range x c hmem with ⟨h₁, h₂⟩ | rfl
    · rw [UInt8.le_iff_toNat_le] at h₁ h₂
      refine ⟨⟨hws, ?_⟩, ?_⟩
      · simp only [Ascii85.blank, decide_eq_false_iff_not, UInt8.le_iff_toNat_le]
        simp only [UInt8.reduceToNat] at h₁ ⊢
        omega
      · rintro rfl
        exact absurd h₂ (by decide)
    · decide

theorem A85Text.digitsOf_dropWhile : digitsOf (t.body.dropWhile isPDFWS) = Ascii85.encode x := by
  have hsplit : digitsOf t.body = digitsOf (t.body.takeWhile isPDFWS) ++ digitsOf (t.body.dropWhile isPDFWS) := by
    rw [digitsOf, digitsOf, digitsOf, ← List.filter_append, List.takeWhile_append_dropWhile]
  have hnil : digitsOf (t.body.takeWhile isPDFWS) = [] := by
    rw [digitsOf, List.filter_eq_nil_iff]
    intro c hc
    have := List.all_eq_true.1 List.all_takeWhile c hc
    simpa using this
  rw [← t.spells, hsplit, hnil, List.nil_append]

/-- The marks are taken off. -/
theorem ascii85Body_text : ascii85Body t.text = if t.opened then t.body else t.body.dropWhile isPDFWS := by
  have htilde : ∀ {s : Bytes}, s <:+ t.body → 0x7e ∉ s := by
    intro s hs hmem
    rcases t.chars (hs.subset hmem) with h | h
    · exact (blank_of_ws h).2.2 rfl
    · exact h.2 rfl
  -- what is cut off at the mark at the end
  have hcut : ∀ {s tail : Bytes}, s <:+ t.body → tail = (t.closed.map (ascii "~>" ++ ·)).getD [] →
      index (ascii "~>") (s ++ tail) = none ∧ tail = [] ∨ index (ascii "~>") (s ++ tail) = some s.length := by
    rintro s _ hs rfl
    rw [show ascii "~>" = 0x7e :: [0x3e] by decide, index_skip (htilde hs)]
    cases t.closed with
    | none => simp [index]
    | some behind => simp [index]
  have hskip : ∀ s, (t.before ++ s).dropWhile isPDFWS = s.dropWhile isPDFWS :=
    fun s => List.dropWhile_append_of_pos t.blank
  unfold ascii85Body A85Text.text
  cases ho : t.opened with
  | true =>
    have hopen : ∀ s : Bytes, (ascii "<~" ++ s).dropWhile isPDFWS = ascii "<~" ++ s := by
      intro s
      rw [show ascii "<~" = [0x3c, 0x7e] by decide]
      rfl
    simp only [hskip, if_true, hopen]
    rw [if_pos (List.isPrefixOf_iff_prefix.2 (List.prefix_append _ _)),
      show ∀ s : Bytes, (ascii "<~" ++ s).drop 2 = s from fun s => rfl]
    rcases hcut List.suffix_rfl rfl with ⟨hnone, hnil⟩ | hsome
    · simp only [hnone]
      rw [hnil, List.append_nil]
    · simp only [hsome, List.take_left]
  | false =>
    have hdrop : (t.body ++ (t.closed.map (ascii "~>" ++ ·)).getD []).dropWhile isPDFWS =
        t.body.dropWhile isPDFWS ++ (t.closed.map (ascii "~>" ++ ·)).getD [] := by
      rw [List.dropWhile_append]
      split
      · next hempty =>
        rw [List.isEmpty_iff.1 hempty]
        cases t.closed with
        | none => rfl
        | some behind =>
          rw [show ascii "~>" = [0x7e, 0x3e] by decide]
          rfl
      · rfl
    have hsuffix : t.body.dropWhile isPDFWS <:+ t.body := List.dropWhile_suffix _
    simp only [hskip, Bool.false_eq_true, if_false, List.nil_append, hdrop]
    rw [if_neg]
    · rcases hcut hsuffix rfl with ⟨hnone, hnil⟩ | hsome
      · simp only [hnone]
        rw [hnil, List.append_nil]
      · simp only [hsome, List.take_left]
    · -- the digits do not begin like the mark
      intro hpre
      obtain ⟨z, hz⟩ := List.isPrefixOf_iff_prefix.1 hpre
      rw [show ascii "<~" = [0x3c, 0x7e] by decide] at hz
      have hdigits := t.digitsOf_dropWhile
      generalize t.body.dropWhile isPDFWS = s at *
      rcases s with - | ⟨c, - | ⟨d, s⟩⟩
      · cases hc : t.closed with
        | none =>
          rw [hc] at hz
          exact absurd hz (by simp)
        | some behind =>
          rw [hc] at hz
          exact absurd (List.cons.inj hz).1 (by decide)
      · obtain rfl : 0x3c = c := (List.cons.inj hz).1
        exact absurd (Ascii85.encode_singleton hdigits.symm) (by decide)
      · obtain rfl : 0x7e = d := (List.cons.inj (List.cons.inj hz).2).1
        exact htilde hsuffix (by simp)

/-- Of the text as much is decoded as the destination is long. -/
theorem decodeASCII85PDF_text (hx : x ≠ []) :
    decodeASCII85PDF t.text = x.take (min (t.span / 5 * 4 + 8) maxBytesPerPDFStream) := by
  have hbody : ∃ s, ascii85Body t.text = s ∧ s <:+ t.body ∧ digitsOf s = Ascii85.encode x ∧ s.length = t.span := by
    rw [ascii85Body_text, A85Text.span]
    split
    · exact ⟨_, rfl, List.suffix_rfl, t.spells, rfl⟩
    · exact ⟨_, rfl, List.dropWhile_suffix _, t.digitsOf_dropWhile, rfl⟩
  obtain ⟨s, hs, hsuffix, hdigits, hlen⟩ := hbody
  have hne : s ≠ [] := by
    rintro rfl
    exact Ascii85.encode_ne_nil hx hdigits.symm
  have hfilter : s.filter (fun c => !Ascii85.blank c) = Ascii85.encode x := by
    rw [← hdigits]
    refine List.filter_congr fun c hc => ?_
    rcases t.chars (hsuffix.subset hc) with h | h
    · rw [h, (blank_of_ws h).1]
    · rw [h.1.1, h.1.2]
  have hcap : 4 * (min (t.span / 5 * 4 + 8) maxBytesPerPDFStream / 4) = min (t.span / 5 * 4 + 8) maxBytesPerPDFStream := by
    have : maxBytesPerPDFStream % 4 = 0 := by decide
    omega
  have hmin : (if maxBytesPerPDFStream < s.length / 5 * 4 + 8 then maxBytesPerPDFStream else s.length / 5 * 4 + 8) =
      min (t.span / 5 * 4 + 8) maxBytesPerPDFStream := by
    rw [hlen]
    split <;> omega
  simp only [decodeASCII85PDF, hs, if_neg hne, hmin]
  rw [Ascii85.decode, Ascii85.decodeFrom_filter (.inl rfl), hfilter, Ascii85.decodeFrom_encode]
  simp [hcap]

end

/-! ## Chains -/

section

variable {x : Bytes}

theorem pdfPrefilter_armour (hx : x ≠ []) (a : Armour x) :
    ∃ decode, pdfPrefilter a.name = some decode ∧ decode a.text = x.take a.room := by
  have hhex : pdfPrefilter (ascii "ASCIIHexDecode") = some decodeASCIIHexPDF ∧
      pdfPrefilter (ascii "AHx") = some decodeASCIIHexPDF := ⟨rfl, rfl⟩
  have ha85 : pdfPrefilter (ascii "ASCII85Decode") = some decodeASCII85PDF ∧
      pdfPrefilter (ascii "A85") = some decodeASCII85PDF := ⟨rfl, rfl⟩
  cases a with
  | hex name t h =>
    refine ⟨decodeASCIIHexPDF, ?_, decodeASCIIHexPDF_text t⟩
    rcases h with rfl | rfl
    · exact hhex.1
    · exact hhex.2
  | a85 name t h =>
    refine ⟨decodeASCII85PDF, ?_, decodeASCII85PDF_text t hx⟩
    rcases h with rfl | rfl
    · exact ha85.1
    · exact ha85.2

theorem take_eq_self {n : Nat} : x.take n = x ↔ x.length ≤ n := by
  constructor
  · intro h
    have := congrArg List.length h
    rw [List.length_take] at this
    omega
  · exact List.take_of_length_le

theorem armour_ne_nil (hx : x ≠ []) (a : Armour x) : a.text ≠ [] := by
  cases a with
  | hex name t h => simp [Armour.text, HexText.text]
  | a85 name t h =>
    have hbody : t.body ≠ [] := by
      intro hnil
      have := t.spells
      rw [hnil] at this
      exact Ascii85.encode_ne_nil hx this.symm
    simp [Armour.text, A85Text.text, hbody]

theorem chain_ne_nil (hx : x ≠ []) {filters : List Bytes} {text : Bytes} (c : Chain x filters text) : text ≠ [] := by
  induction c with
  | nil => exact hx
  | cons a c ih => exact armour_ne_nil ih a

/-- The walk takes off one armour that fits. -/
theorem applyPDFPrefiltersFrom_cons (hx : x ≠ []) {a : Armour x} (ha : a.Fits) (applied : Bool) (filters : List Bytes) :
    applyPDFPrefiltersFrom a.text applied (a.name :: filters) = applyPDFPrefiltersFrom x true filters := by
  obtain ⟨decode, hname, htext⟩ := pdfPrefilter_armour hx a
  rw [take_eq_self.2 ha] at htext
  rw [applyPDFPrefiltersFrom, hname]
  simp only [htext, if_neg hx]

theorem applyPDFPrefilters_chain (hx : x ≠ []) {filters : List Bytes} {text : Bytes} (c : Chain x filters text) (hc : c.Fits)
    (applied : Bool) :
    applyPDFPrefiltersFrom text applied filters = (x, applied || !filters.isEmpty, applied || !filters.isEmpty) := by
  induction c generalizing applied with
  | nil => simp [applyPDFPrefiltersFrom]
  | cons a c ih =>
    rw [applyPDFPrefiltersFrom_cons (chain_ne_nil hx c) hc.1, ih hc.2]
    simp

/-- One armour is taken off exactly if it fits. -/
theorem applyPDFPrefilters_armour (hx : x ≠ []) (a : Armour x) :
    applyPDFPrefilters a.text [a.name] = (x, true, true) ↔ a.Fits := by
  constructor
  · intro h
    obtain ⟨decode, hname, htext⟩ := pdfPrefilter_armour hx a
    rw [applyPDFPrefilters, applyPDFPrefiltersFrom, hname] at h
    simp only at h
    split at h
    · exact absurd (Prod.mk.inj (Prod.mk.inj h).2).1 nofun
    · exact take_eq_self.1 (htext.symm.trans (Prod.mk.inj h).1)
  · intro ha
    rw [applyPDFPrefilters, applyPDFPrefiltersFrom_cons hx ha]
    rfl

end

/-- The text filters are inverted where the texts fit. -/
theorem applyPDFPrefilters_inverts {x : Bytes} (hx : x ≠ []) :
    (∀ t : HexText x, decodeASCIIHexPDF t.text = x ↔ x.length ≤ maxBytesPerPDFStream) ∧
      (∀ t : A85Text x, decodeASCII85PDF t.text = x ↔ x.length ≤ min (t.span / 5 * 4 + 8) maxBytesPerPDFStream) ∧
      (∀ a : Armour x, applyPDFPrefilters a.text [a.name] = (x, true, true) ↔ a.Fits) ∧
      ∀ (filters : List Bytes) (text : Bytes) (c : Chain x filters text), filters ≠ [] → c.Fits →
        applyPDFPrefilters text filters = (x, true, true) := by
  refine ⟨fun t => ?_, fun t => ?_, applyPDFPrefilters_armour hx, fun filters text c hne hc => ?_⟩
  · rw [decodeASCIIHexPDF_text, take_eq_self]
  · rw [decodeASCII85PDF_text t hx, take_eq_self]
  · rw [applyPDFPrefilters, applyPDFPrefilters_chain hx c hc, List.isEmpty_eq_false_iff.2 hne]
    rfl

/-- The text `ab` as `<~@:B~>`. -/
def armouredAb : A85Text (ascii "ab") := ⟨[], true, ascii "@:B", some [], by simp, by decide⟩

theorem applyPDFPrefilters_inverts_ab :
    applyPDFPrefilters (ascii "<~@:B~>") [ascii "A85"] = (ascii "ab", true, true) :=
  ((applyPDFPrefilters_inverts (x := ascii "ab") (by decide)).2.2.1 (.a85 (ascii "A85") armouredAb (.inr rfl))).2
    (show (ascii "ab").length ≤ min (3 / 5 * 4 + 8) (8 * 2 ^ 20) by decide)

/-- Twelve zero bytes are three characters, for which there is space for eight bytes. -/
theorem decodeASCII85PDF_zeros :
    Ascii85.encode (List.replicate 12 0) = ascii "zzz" ∧
      decodeASCII85PDF (ascii "zzz") = List.replicate 8 0 ∧ decodeASCII85PDF (ascii "zzz") ≠ List.replicate 12 0 := by
  decide

end MS.Extract
