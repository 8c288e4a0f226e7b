import Mailstrix.Spec.Icap.Chunk

/-!
# Chunk extensions and their grammar

The extension parser accepts the extension lists of the grammar and says whether they hold a valueless `ieof`
(`parseICAPChunkExtensions_of_exts`), and accepts nothing else (`parseICAPChunkExtensions_sound`).
-/

namespace MS.Icap

open Framework

variable {c : UInt8} {rest text : Bytes}

/-! ## Bytes -/

theorem blank_not_token (h : isBlank c) : isHTTPTokenByte c = false := by
  simp only [isBlank, Bool.or_eq_true, beq_iff_eq] at h
  rcases h with rfl | rfl <;> decide

/-! ## Blanks -/

theorem skipWhitespace_blanks (b : Blanks) (hrest : ∀ c ∈ rest.head?, isBlank c = false) :
    skipWhitespace (b.1 ++ rest) = rest := dropWhile_append_stop b.2 hrest

theorem skipWhitespace_split (text : Bytes) : ∃ b : Blanks, text = b.1 ++ skipWhitespace text :=
  ⟨⟨text.takeWhile isBlank, fun _ h => List.all_eq_true.1 List.all_takeWhile _ h⟩, List.takeWhile_append_dropWhile.symm⟩

/-! ## Values -/

theorem skipQuoted_quote (rest : Bytes) : skipQuoted (0x22 :: rest) = some rest := by
  cases rest <;> simp [skipQuoted]

theorem skipQuoted_plain (h : c ≠ 0x22 ∧ c ≠ 0x5c ∧ quotedText c) (hrest : rest ≠ []) :
    skipQuoted (c :: rest) = skipQuoted rest := by
  cases rest with
  | nil => exact absurd rfl hrest
  | cons d rest => simp [skipQuoted, h.1, h.2.1, h.2.2]

theorem skipQuoted_items (items : List QuotedItem) (rest : Bytes) :
    skipQuoted (items.flatMap QuotedItem.text ++ 0x22 :: rest) = some rest := by
  induction items with
  | nil => exact skipQuoted_quote rest
  | cons item items ih =>
    cases item with
    | plain c h =>
      rw [List.flatMap_cons, List.append_assoc]
      exact (skipQuoted_plain h (by simp)).trans ih
    | pair c h => simpa [QuotedItem.text, skipQuoted, h] using ih

theorem skipQuoted_sound (h : skipQuoted text = some rest) :
    ∃ items : List QuotedItem, text = items.flatMap QuotedItem.text ++ 0x22 :: rest := by
  fun_induction skipQuoted text with
  | case1 => cases h
  | case2 =>
    cases h
    exact ⟨[], by simp⟩
  | case3 => cases h
  | case4 d tail =>
    cases h
    exact ⟨[], by simp⟩
  | case5 d tail hd _ ih =>
    obtain ⟨items, rfl⟩ := ih h
    exact ⟨.pair d hd :: items, by simp [QuotedItem.text]⟩
  | case6 => cases h
  | case7 c d tail hq hb hc ih =>
    obtain ⟨items, heq⟩ := ih h
    exact ⟨.plain c ⟨hq, hb, hc⟩ :: items, by simp [QuotedItem.text, heq]⟩
  | case8 => cases h

/-- What may follow an extension: nothing or the next one. -/
def Stops (rest : Bytes) : Prop := ∀ c ∈ rest.head?, c = 0x3b

theorem Stops.not_blank (h : Stops rest) : ∀ c ∈ rest.head?, isBlank c = false := by
  intro c hc
  rw [h c hc]
  decide

theorem token_head {t : Token} (rest : Bytes) :
    ∃ c text, t.1 ++ rest = c :: text ∧ isHTTPTokenByte c := by
  obtain ⟨text, hne, hall⟩ := t
  cases text with
  | nil => exact absurd rfl hne
  | cons c text => exact ⟨c, text ++ rest, rfl, hall c List.mem_cons_self⟩

/-- A token ends before blanks and before anything that is no token byte. -/
theorem span_token (t : Token) (b : Blanks) (hrest : ∀ c ∈ rest.head?, isHTTPTokenByte c = false) :
    (t.1 ++ (b.1 ++ rest)).takeWhile isHTTPTokenByte = t.1 ∧
      (t.1 ++ (b.1 ++ rest)).dropWhile isHTTPTokenByte = b.1 ++ rest := by
  have hstop : ∀ c ∈ (b.1 ++ rest).head?, isHTTPTokenByte c = false := by
    intro c hc
    obtain ⟨_ | ⟨d, text⟩, hall⟩ := b
    · exact hrest c hc
    · obtain rfl : d = c := Option.some.inj hc
      exact blank_not_token (hall d List.mem_cons_self)
  exact ⟨takeWhile_append_stop t.2.2 hstop, dropWhile_append_stop t.2.2 hstop⟩

theorem token_not_blank (h : isHTTPTokenByte c) : isBlank c = false := by
  cases hb : isBlank c with
  | false => rfl
  | true =>
    rw [blank_not_token hb] at h
    cases h

theorem skipValue_value (before behind : Blanks) (v : Value) (hrest : Stops rest) :
    skipValue (before.1 ++ v.text ++ behind.1 ++ rest) = some rest := by
  have hblank : skipWhitespace (behind.1 ++ rest) = rest := skipWhitespace_blanks behind hrest.not_blank
  unfold skipValue
  cases v with
  | quoted items =>
    have hskip : skipWhitespace (before.1 ++ (Value.quoted items).text ++ behind.1 ++ rest) =
        0x22 :: (items.flatMap QuotedItem.text ++ 0x22 :: (behind.1 ++ rest)) := by
      rw [List.append_assoc, List.append_assoc, skipWhitespace_blanks before]
      · simp [Value.text]
      · simp only [Value.text, List.cons_append, List.head?_cons, Option.mem_some_iff]
        rintro c rfl
        decide
    rw [hskip]
    simp [skipQuoted_items, hblank]
  | token t =>
    have hstop : ∀ c ∈ rest.head?, isHTTPTokenByte c = false := by
      intro c hc
      rw [hrest c hc]
      decide
    obtain ⟨c, text, heq, hc⟩ := @token_head t (behind.1 ++ rest)
    have hquote : c ≠ 0x22 := by
      rintro rfl
      cases hc
    have hskip : skipWhitespace (before.1 ++ (Value.token t).text ++ behind.1 ++ rest) = c :: text := by
      rw [List.append_assoc, List.append_assoc, skipWhitespace_blanks before]
      · exact heq
      · intro d hd
        rw [Value.text, heq] at hd
        cases hd
        exact token_not_blank hc
    obtain ⟨htake, hdrop⟩ := span_token t behind hstop
    rw [hskip]
    simp only [hquote, if_false, ← heq, htake, hdrop, if_neg t.2.1, hblank]

theorem skipValue_sound (h : skipValue text = some rest) :
    ∃ (before behind : Blanks) (v : Value), text = before.1 ++ v.text ++ behind.1 ++ rest := by
  obtain ⟨before, hbefore⟩ := skipWhitespace_split text
  unfold skipValue at h
  split at h
  · cases h
  · rename_i c tail htail
    split at h
    · rename_i hc
      obtain ⟨rest', hquoted, rfl⟩ := Option.map_eq_some_iff.1 h
      obtain ⟨items, rfl⟩ := skipQuoted_sound hquoted
      obtain ⟨behind, hbehind⟩ := skipWhitespace_split rest'
      refine ⟨before, behind, .quoted items, ?_⟩
      rw [hbefore, htail, hc]
      nth_rewrite 1 [hbehind]
      simp [Value.text]
    · split at h
      · cases h
      · rename_i hne
        obtain ⟨behind, hbehind⟩ := skipWhitespace_split ((c :: tail).dropWhile isHTTPTokenByte)
        have htoken : ∀ d ∈ (c :: tail).takeWhile isHTTPTokenByte, isHTTPTokenByte d :=
          fun d hd => List.all_eq_true.1 List.all_takeWhile d hd
        refine ⟨before, behind, .token ⟨_, hne, htoken⟩, ?_⟩
        rw [hbefore, htail, ← Option.some.inj h, List.append_assoc, List.append_assoc, ← hbehind, Value.text,
          List.takeWhile_append_dropWhile]

/-! ## Extensions -/

theorem extension_head (e : Extension) (hrest : Stops rest) :
    ∀ c ∈ (e.valueText ++ rest).head?, isHTTPTokenByte c = false ∧ isBlank c = false := by
  intro c hc
  unfold Extension.valueText at hc
  split at hc
  · rw [hrest c hc]
    decide
  · cases hc
    decide

theorem parseExtension_body (e : Extension) (hrest : Stops rest) :
    parseExtension (e.body ++ rest) = some (e.isIEOF, rest) := by
  have hhead := extension_head e hrest
  have hlead : skipWhitespace (e.body ++ rest) = e.name.1 ++ (e.gap.1 ++ (e.valueText ++ rest)) := by
    rw [Extension.body, List.append_assoc, List.append_assoc, List.append_assoc, skipWhitespace_blanks e.lead]
    intro c hc
    obtain ⟨d, text, heq, hd⟩ := @token_head e.name (e.gap.1 ++ (e.valueText ++ rest))
    rw [heq] at hc
    cases hc
    exact token_not_blank hd
  obtain ⟨hname, hbehind⟩ := span_token e.name e.gap (fun c hc => (hhead c hc).1)
  have hgap : skipWhitespace (e.gap.1 ++ (e.valueText ++ rest)) = e.valueText ++ rest :=
    skipWhitespace_blanks e.gap (fun c hc => (hhead c hc).2)
  unfold parseExtension
  simp only [hlead, hname, hbehind, if_neg e.name.2.1, hgap]
  cases hv : e.value with
  | none =>
    have hnone : e.valueText = [] := by simp [Extension.valueText, hv]
    have hieof : e.isIEOF = equalFold e.name.1 ieofName := by simp [Extension.isIEOF, hv]
    rw [hnone, List.nil_append, hieof]
    cases rest with
    | nil => rfl
    | cons c rest =>
      obtain rfl : c = 0x3b := hrest c rfl
      simp
  | some value =>
    obtain ⟨before, v, behind⟩ := value
    have hsome : e.valueText = 0x3d :: (before.1 ++ v.text ++ behind.1) := by simp [Extension.valueText, hv]
    have hieof : e.isIEOF = false := by simp [Extension.isIEOF, hv]
    rw [hsome, List.cons_append, hieof]
    simp only [if_true, skipValue_value before behind v hrest, Option.map_some]

theorem parseExtension_sound {ieof : Bool} (h : parseExtension text = some (ieof, rest)) :
    ∃ e : Extension, text = e.body ++ rest ∧ ieof = e.isIEOF := by
  obtain ⟨lead, hlead⟩ := skipWhitespace_split text
  unfold parseExtension at h
  dsimp only at h
  split at h
  · cases h
  · rename_i hne
    generalize hmid : skipWhitespace text = mid at h hlead hne
    obtain ⟨gap, hgap⟩ := skipWhitespace_split (mid.dropWhile isHTTPTokenByte)
    have htoken : ∀ d ∈ mid.takeWhile isHTTPTokenByte, isHTTPTokenByte d :=
      fun d hd => List.all_eq_true.1 List.all_takeWhile d hd
    have hsplit : text = lead.1 ++ mid.takeWhile isHTTPTokenByte ++ gap.1 ++
        skipWhitespace (mid.dropWhile isHTTPTokenByte) := by
      rw [hlead, List.append_assoc, List.append_assoc, ← hgap, List.takeWhile_append_dropWhile]
    split at h
    · rename_i hnil
      simp only [Option.some.injEq, Prod.mk.injEq] at h
      obtain ⟨rfl, rfl⟩ := h
      refine ⟨⟨lead, ⟨_, hne, htoken⟩, gap, none⟩, ?_, by simp [Extension.isIEOF]⟩
      rw [hsplit, hnil]
      simp [Extension.body, Extension.valueText]
    · rename_i c tail hcons
      split at h
      · rename_i hc
        obtain ⟨rest', hvalue, heq⟩ := Option.map_eq_some_iff.1 h
        simp only [Prod.mk.injEq] at heq
        obtain ⟨rfl, rfl⟩ := heq
        obtain ⟨before, behind, v, rfl⟩ := skipValue_sound hvalue
        refine ⟨⟨lead, ⟨_, hne, htoken⟩, gap, some (before, v, behind)⟩, ?_, by simp [Extension.isIEOF]⟩
        rw [hsplit, hcons, hc]
        simp [Extension.body, Extension.valueText]
      · simp only [Option.some.injEq, Prod.mk.injEq] at h
        obtain ⟨rfl, rfl⟩ := h
        refine ⟨⟨lead, ⟨_, hne, htoken⟩, gap, none⟩, ?_, by simp [Extension.isIEOF]⟩
        rw [hsplit, hcons]
        simp [Extension.body, Extension.valueText]

theorem stops_exts (exts : List Extension) : Stops (exts.flatMap Extension.text) := by
  intro c hc
  cases exts with
  | nil => cases hc
  | cons e exts =>
    cases hc
    rfl

theorem extensionLoop_exts (exts : List Extension) {fuel : Nat} (hasIEOF : Bool) (hfuel : exts.length ≤ fuel) :
    extensionLoop fuel hasIEOF (exts.flatMap Extension.text) = some (hasIEOF || exts.any Extension.isIEOF) := by
  induction exts generalizing fuel hasIEOF with
  | nil => cases fuel <;> simp [extensionLoop]
  | cons e exts ih =>
    obtain _ | fuel := fuel
    · cases hfuel
    · have hnext := ih (hasIEOF || e.isIEOF) (Nat.le_of_succ_le_succ hfuel)
      simp only [List.flatMap_cons, Extension.text, List.cons_append, extensionLoop, if_true,
        parseExtension_body e (stops_exts exts), List.any_cons]
      rw [hnext, Bool.or_assoc]

theorem extensionLoop_sound {fuel : Nat} {hasIEOF b : Bool} (h : extensionLoop fuel hasIEOF text = some b) :
    ∃ exts : List Extension, text = exts.flatMap Extension.text ∧ b = (hasIEOF || exts.any Extension.isIEOF) := by
  induction fuel generalizing hasIEOF text with
  | zero =>
    rw [extensionLoop] at h
    split at h
    · rename_i htext
      cases h
      exact ⟨[], by simpa using htext, by simp⟩
    · cases h
  | succ fuel ih =>
    cases text with
    | nil =>
      cases h
      exact ⟨[], rfl, by simp⟩
    | cons c rest =>
      simp only [extensionLoop] at h
      split at h
      · rename_i hc
        split at h
        · cases h
        · rename_i ieof rest' hparse
          obtain ⟨e, rfl, rfl⟩ := parseExtension_sound hparse
          obtain ⟨exts, rfl, rfl⟩ := ih h
          exact ⟨e :: exts, by simp [Extension.text, hc], by simp [Bool.or_assoc]⟩
      · cases h

theorem length_exts (exts : List Extension) : exts.length ≤ (exts.flatMap Extension.text).length := by
  induction exts with
  | nil => exact Nat.le_refl _
  | cons e exts ih =>
    simp only [List.flatMap_cons, List.length_append, List.length_cons, Extension.text]
    omega

theorem parseICAPChunkExtensions_of_exts (exts : List Extension) :
    parseICAPChunkExtensions (exts.flatMap Extension.text) = some (exts.any Extension.isIEOF) := by
  have hskip : skipWhitespace (exts.flatMap Extension.text) = exts.flatMap Extension.text :=
    skipWhitespace_blanks ⟨[], by simp⟩ (stops_exts exts).not_blank
  rw [parseICAPChunkExtensions, hskip, extensionLoop_exts exts false (length_exts exts), Bool.false_or]

theorem parseICAPChunkExtensions_sound {b : Bool} (hhead : Stops text) (h : parseICAPChunkExtensions text = some b) :
    ∃ exts : List Extension, text = exts.flatMap Extension.text ∧ b = exts.any Extension.isIEOF := by
  have hskip : skipWhitespace text = text := skipWhitespace_blanks ⟨[], by simp⟩ hhead.not_blank
  rw [parseICAPChunkExtensions, hskip] at h
  simpa using extensionLoop_sound h

/-- The parser accepts blanks and a list of extensions, and says whether a valueless `ieof` is among them: what is
within a quoted value is part of that value. -/
theorem parseICAPChunkExtensions_exact (text : Bytes) (b : Bool) :
    parseICAPChunkExtensions text = some b ↔ ∃ (lead : Blanks) (exts : List Extension),
      text = lead.1 ++ exts.flatMap Extension.text ∧ b = exts.any Extension.isIEOF := by
  constructor
  · intro h
    obtain ⟨lead, hlead⟩ := skipWhitespace_split text
    obtain ⟨exts, hexts, rfl⟩ := extensionLoop_sound h
    exact ⟨lead, exts, by rw [← hexts, ← hlead], Bool.false_or _⟩
  · rintro ⟨lead, exts, rfl, rfl⟩
    have hfuel : exts.length ≤ (lead.1 ++ exts.flatMap Extension.text).length := by
      rw [List.length_append]
      exact Nat.le_add_left_of_le (length_exts exts)
    rw [parseICAPChunkExtensions, skipWhitespace_blanks lead (stops_exts exts).not_blank,
      extensionLoop_exts exts false hfuel, Bool.false_or]

end MS.Icap
