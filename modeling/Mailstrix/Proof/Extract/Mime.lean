import Mailstrix.Spec.Extract.Mime

/-!
# Classifying message headers

A header block within the limit is complete.  One that the limit cuts is seen up to the cut: `Flags` of the fields whose
colon lies before it, and a `Content-Type` that the cut goes through.  `classifyLines_cut` says, by induction on the
fields, that this is taken for an incomplete header exactly if a field of the context, or both a `Content-Type` and
another field, or a media type, was seen.
-/

namespace MS.Extract

open Framework

variable {l : Bytes} {ls : List Bytes} {fs : List Field} {n : Nat} {crlf truncated terminated : Bool} {f : Field}
  {fl : Flags}

/-! ## Lines -/

theorem linesFrom_line (hl : 0x0a ∉ l) (line rest : Bytes) :
    linesFrom line (l ++ 0x0a :: rest) = (line ++ l, true) :: linesFrom [] rest := by
  induction l generalizing line with
  | nil => simp [linesFrom]
  | cons c l ih =>
    have hc : c ≠ 0x0a := fun h => hl (by simp [h])
    rw [List.cons_append, linesFrom, if_neg hc, ih (fun h => hl (List.mem_cons_of_mem _ h))]
    simp

theorem linesFrom_end (hl : 0x0a ∉ l) (line : Bytes) :
    linesFrom line l = if line ++ l = [] then [] else [(line ++ l, false)] := by
  induction l generalizing line with
  | nil => simp [linesFrom]
  | cons c l ih =>
    have hc : c ≠ 0x0a := fun h => hl (by simp [h])
    rw [linesFrom, if_neg hc, ih (fun h => hl (List.mem_cons_of_mem _ h))]
    simp

theorem linesFrom_lines (hls : ∀ l ∈ ls, 0x0a ∉ l) (rest : Bytes) :
    linesFrom [] (linesText ls ++ rest) = ls.map (·, true) ++ linesFrom [] rest := by
  induction ls with
  | nil => rfl
  | cons l ls ih =>
    have htext : linesText (l :: ls) ++ rest = l ++ 0x0a :: (linesText ls ++ rest) := by simp [linesText]
    rw [htext, linesFrom_line (hls l List.mem_cons_self), ih fun x hx => hls x (List.mem_cons_of_mem _ hx)]
    rfl

/-! ## The end of the header -/

/-- A line feed and a blank line behind it. -/
def startsBlank (text : Bytes) : Bool := [0x0a, 0x0d, 0x0a].isPrefixOf text || [0x0a, 0x0a].isPrefixOf text

theorem headerEnd_cons (c : UInt8) (rest : Bytes) :
    headerEnd (c :: rest) = if startsBlank (c :: rest) then some 1 else (headerEnd rest).map (· + 1) := by
  have hboth : ¬ ([0x0a, 0x0d, 0x0a].isPrefixOf (c :: rest) = true ∧ [0x0a, 0x0a].isPrefixOf (c :: rest) = true) := by
    rintro ⟨h₁, h₂⟩
    rw [List.isPrefixOf_iff_prefix] at h₁ h₂
    obtain ⟨t₁, h₁⟩ := h₁
    obtain ⟨t₂, h₂⟩ := h₂
    rw [← h₂] at h₁
    simp at h₁
  unfold headerEnd startsBlank
  rw [index, index]
  by_cases h₁ : [0x0a, 0x0d, 0x0a].isPrefixOf (c :: rest) = true
  · have h₂ : ¬ [0x0a, 0x0a].isPrefixOf (c :: rest) = true := fun h => hboth ⟨h₁, h⟩
    rw [if_pos h₁, if_neg h₂]
    cases index [0x0a, 0x0a] rest <;> simp [h₁]
  · by_cases h₂ : [0x0a, 0x0a].isPrefixOf (c :: rest) = true
    · rw [if_neg h₁, if_pos h₂]
      cases index [0x0a, 0x0d, 0x0a] rest <;> simp [h₁, h₂]
    · rw [if_neg h₁, if_neg h₂]
      cases index [0x0a, 0x0d, 0x0a] rest <;> cases index [0x0a, 0x0a] rest <;> simp [h₁, h₂]
      split <;> rfl

theorem headerEnd_line (hl : 0x0a ∉ l) (rest : Bytes) :
    headerEnd (l ++ rest) = (headerEnd rest).map (l.length + ·) := by
  induction l with
  | nil => cases h : headerEnd rest <;> simp [h]
  | cons c l ih =>
    have hc : ¬ c = 0x0a := fun h => hl (by simp [h])
    have hstart : startsBlank (c :: (l ++ rest)) = false := by
      simp [startsBlank, List.isPrefixOf, Ne.symm hc]
    rw [List.cons_append, headerEnd_cons, hstart, if_neg (by decide), ih fun h => hl (List.mem_cons_of_mem _ h),
      Option.map_map]
    cases headerEnd rest with
    | none => rfl
    | some n =>
      simp only [Option.map_some, Function.comp, List.length_cons]
      congr 1
      omega

theorem headerEnd_none (hl : 0x0a ∉ l) : headerEnd l = none := by
  have := headerEnd_line hl []
  rwa [List.append_nil] at this

/-- A line of a header: not empty, and not to be taken for a blank one. -/
def HeaderLine (l : Bytes) : Prop := 0x0a ∉ l ∧ ∃ c rest, l = c :: rest ∧ c ≠ 0x0a ∧ c ≠ 0x0d

theorem headerLine_lines (f : Field) : ∀ l ∈ f.lines, HeaderLine l := by
  intro l hl
  rcases List.mem_cons.1 hl with rfl | hl
  · constructor
    · simp only [Field.firstLine, List.mem_append, List.mem_cons, not_or]
      exact ⟨fun h => (f.name_plain _ h).2.2.2.2 rfl, by decide, f.value_line⟩
    · cases hname : f.name with
      | nil => exact absurd hname f.name_ne
      | cons c rest =>
        have hc := f.name_plain c (by rw [hname]; exact List.mem_cons_self)
        exact ⟨c, rest ++ 0x3a :: f.value, by simp [Field.firstLine, hname], hc.2.2.2.2, hc.2.2.2.1⟩
  · obtain ⟨hlf, c, rest, rfl, hc⟩ := f.folds_line l hl
    refine ⟨hlf, c, rest, rfl, ?_, ?_⟩ <;> rcases hc with rfl | rfl <;> decide

theorem headerLine_fields : ∀ l ∈ fs.flatMap Field.lines, HeaderLine l := by
  intro l hl
  obtain ⟨f, -, hf⟩ := List.mem_flatMap.1 hl
  exact headerLine_lines f l hf

theorem fieldsText_lines (fs : List Field) : fieldsText fs = linesText (fs.flatMap Field.lines) := by
  rw [fieldsText, linesText, List.flatMap_assoc]
  rfl

theorem linesText_cons (l : Bytes) (ls : List Bytes) (rest : Bytes) :
    linesText (l :: ls) ++ rest = l ++ 0x0a :: (linesText ls ++ rest) := by
  simp [linesText]

theorem startsBlank_lf_line (hl : HeaderLine l) (rest : Bytes) : startsBlank (0x0a :: (l ++ rest)) = false := by
  obtain ⟨-, c, tail, rfl, hlf, hcr⟩ := hl
  simp [startsBlank, List.isPrefixOf, Ne.symm hlf, Ne.symm hcr]

theorem startsBlank_blankLine (crlf : Bool) (rest : Bytes) : startsBlank (0x0a :: (blankLine crlf ++ rest)) = true := by
  cases crlf <;> simp [startsBlank, blankLine, List.isPrefixOf]

/-- The blank line behind some lines is found. -/
theorem headerEnd_found (hls : ∀ l ∈ ls, HeaderLine l) (hne : ls ≠ []) (crlf : Bool) (rest : Bytes) :
    headerEnd (linesText ls ++ (blankLine crlf ++ rest)) = some (linesText ls).length := by
  induction ls with
  | nil => exact absurd rfl hne
  | cons l ls ih =>
    rw [linesText_cons, headerEnd_line (hls l List.mem_cons_self).1, headerEnd_cons]
    cases ls with
    | nil =>
      rw [show linesText [] ++ (blankLine crlf ++ rest) = blankLine crlf ++ rest from rfl, startsBlank_blankLine]
      simp [linesText]
    | cons l' ls =>
      have hnext := startsBlank_lf_line (hls l' (by simp)) (0x0a :: (linesText ls ++ (blankLine crlf ++ rest)))
      rw [← linesText_cons] at hnext
      rw [hnext, if_neg (by decide), ih (fun x hx => hls x (List.mem_cons_of_mem _ hx)) (by simp)]
      simp only [Option.map_some, linesText, List.flatMap_cons, List.length_append, List.length_singleton]
      congr 1
      omega

theorem take_line (l rest : Bytes) (hn : l.length < n) :
    (l ++ 0x0a :: rest).take n = l ++ 0x0a :: rest.take (n - (l.length + 1)) := by
  rw [List.take_append, List.take_of_length_le (by omega)]
  obtain ⟨k, hk⟩ : ∃ k, n - l.length = k + 1 := ⟨n - l.length - 1, by omega⟩
  rw [hk, List.take_succ_cons]
  congr 3
  omega

theorem take_within (l rest : Bytes) (hn : n ≤ l.length) : (l ++ rest).take n = l.take n := by
  rw [List.take_append_of_le_length hn]

theorem lf_notMem_take (h : 0x0a ∉ l) (n : Nat) : 0x0a ∉ l.take n :=
  fun hmem => h (List.mem_of_mem_take hmem)

/-- What a cut leaves of the blank line. -/
theorem take_blankLine (hn : n < (blankLine crlf).length) (rest : Bytes) :
    (blankLine crlf ++ rest).take n = [] ∨ (blankLine crlf ++ rest).take n = [0x0d] := by
  cases crlf with
  | false =>
    obtain rfl : n = 0 := by
      simp [blankLine] at hn
      exact hn
    exact .inl rfl
  | true =>
    match n, hn with
    | 0, _ => exact .inl rfl
    | 1, _ => exact .inr rfl

/-- No blank line is found before the cut. -/
theorem headerEnd_cut (hls : ∀ l ∈ ls, HeaderLine l) (hn : n < (linesText ls).length + (blankLine crlf).length)
    (rest : Bytes) : headerEnd ((linesText ls ++ (blankLine crlf ++ rest)).take n) = none := by
  induction ls generalizing n with
  | nil =>
    obtain h | h := take_blankLine (show n < (blankLine crlf).length by simpa [linesText] using hn) rest
    · rw [show linesText [] ++ (blankLine crlf ++ rest) = blankLine crlf ++ rest from rfl, h]
      rfl
    · rw [show linesText [] ++ (blankLine crlf ++ rest) = blankLine crlf ++ rest from rfl, h]
      exact headerEnd_none (by decide)
  | cons l ls ih =>
    have hl := hls l List.mem_cons_self
    rw [linesText_cons]
    by_cases hcut : n ≤ l.length
    · rw [take_within l _ hcut]
      exact headerEnd_none (lf_notMem_take hl.1 n)
    · rw [take_line l _ (Nat.lt_of_not_le hcut), headerEnd_line hl.1, headerEnd_cons]
      have hlen : (linesText (l :: ls)).length = l.length + 1 + (linesText ls).length := by
        simp only [linesText, List.flatMap_cons, List.length_append, List.length_singleton]
      have hrest := ih (fun x hx => hls x (List.mem_cons_of_mem _ hx)) (n := n - (l.length + 1)) (by omega)
      have hblank : startsBlank (0x0a :: (linesText ls ++ (blankLine crlf ++ rest)).take (n - (l.length + 1))) = false := by
        cases ls with
        | nil =>
          have hm : n - (l.length + 1) < (blankLine crlf).length := by
            simp [linesText] at hlen hn
            omega
          obtain h | h := take_blankLine hm rest <;>
            rw [show linesText [] ++ (blankLine crlf ++ rest) = blankLine crlf ++ rest from rfl, h] <;> decide
        | cons l' ls =>
          obtain ⟨-, c, tail, rfl, hlf, hcr⟩ := hls l' (by simp)
          rw [linesText_cons]
          cases n - (l.length + 1) with
          | zero =>
            rw [List.take_zero]
            decide
          | succ k => simp [startsBlank, List.isPrefixOf, Ne.symm hlf, Ne.symm hcr]
      rw [hblank, if_neg (by decide), hrest]
      rfl

/-! ## The loop -/

section Lines

variable {env : MimeEnv}

/-- A line with a colon behind a plain name. -/
theorem classifyLines_colon {ended : Bool} (f : Field) (value : Bytes) (rest : List (Bytes × Bool)) (fl : Flags) :
    classifyLines env truncated terminated ((f.name ++ 0x3a :: value, ended) :: rest) fl =
      if f.isType env ∧ (ended || !truncated) = false then
        if startsMediaType env (trimRight 0x0d value) || fl.hasOther then .incomplete else .ordinary
      else if ended || !truncated then classifyLines env truncated terminated rest (fl.note (env.toLower f.name))
      else classifyFlags truncated terminated (fl.note (env.toLower f.name)) := by
  have htrim : trimRight 0x0d (f.name ++ 0x3a :: value) = f.name ++ 0x3a :: trimRight 0x0d value :=
    trimRight_append (by decide) _ _
  have htake : (f.name ++ 0x3a :: trimRight 0x0d value).takeWhile (· != 0x3a) = f.name := by
    refine takeWhile_append_stop ?_ ?_
    · intro c hc
      simpa using (f.name_plain c hc).1
    · rintro c ⟨⟩
      decide
  have hdrop : (f.name ++ 0x3a :: trimRight 0x0d value).drop (f.name.length + 1) = trimRight 0x0d value := by
    rw [List.drop_append, List.drop_of_length_le (by omega)]
    simp
  have hblank : f.name.any (fun d => d == 0x20 || d == 0x09) = false := by
    rw [List.any_eq_false]
    intro c hc
    have := f.name_plain c hc
    simp [this.2.1, this.2.2.1]
  obtain ⟨c, tail, hname⟩ : ∃ c tail, f.name = c :: tail := by
    cases hname : f.name with
    | nil => exact absurd hname f.name_ne
    | cons c tail => exact ⟨c, tail, rfl⟩
  have hc := f.name_plain c (by rw [hname]; exact List.mem_cons_self)
  have hcons : f.name ++ 0x3a :: trimRight 0x0d value = c :: (tail ++ 0x3a :: trimRight 0x0d value) := by
    rw [hname, List.cons_append]
  rw [classifyLines, htrim, hcons]
  dsimp only
  rw [← hcons, htake, hdrop, if_neg (by simp [hc.2.1, hc.2.2.1]), if_neg (by simp [f.name_ne, hblank])]
  simp only [Field.isType, decide_eq_true_eq]

theorem classifyLines_fold {ended : Bool} {c : UInt8} (hc : c = 0x20 ∨ c = 0x09) (l : Bytes)
    (rest : List (Bytes × Bool)) (fl : Flags) :
    classifyLines env truncated terminated ((c :: l, ended) :: rest) fl = classifyLines env truncated terminated rest fl := by
  have hcr : c ≠ 0x0d := by
    rcases hc with rfl | rfl <;> decide
  have htrim : trimRight 0x0d (c :: l) = c :: trimRight 0x0d l := trimRight_append hcr [] l
  rw [classifyLines, htrim]
  exact if_pos hc

theorem classifyLines_folds {folds : List Bytes}
    (h : ∀ l ∈ folds, 0x0a ∉ l ∧ ∃ c rest, l = c :: rest ∧ (c = 0x20 ∨ c = 0x09)) (rest : List (Bytes × Bool))
    (fl : Flags) :
    classifyLines env truncated terminated (folds.map (·, true) ++ rest) fl =
      classifyLines env truncated terminated rest fl := by
  induction folds with
  | nil => rfl
  | cons l folds ih =>
    obtain ⟨-, c, tail, rfl, hc⟩ := h l List.mem_cons_self
    rw [List.map_cons, List.cons_append, classifyLines_fold hc]
    exact ih fun x hx => h x (List.mem_cons_of_mem _ hx)

theorem classifyLines_field (f : Field) (rest : List (Bytes × Bool)) (fl : Flags) :
    classifyLines env truncated terminated (f.lines.map (·, true) ++ rest) fl =
      classifyLines env truncated terminated rest (fl.note (env.toLower f.name)) := by
  rw [Field.lines, List.map_cons, List.cons_append, Field.firstLine, classifyLines_colon, if_neg (by simp),
    if_pos (Bool.true_or _)]
  exact classifyLines_folds f.folds_line rest _

/-- The flags behind some fields. -/
def Flags.noteAll (env : MimeEnv) (fl : Flags) (fs : List Field) : Flags :=
  fs.foldl (fun fl f => fl.note (env.toLower f.name)) fl

theorem classifyLines_fields (fs : List Field) (rest : List (Bytes × Bool)) (fl : Flags) :
    classifyLines env truncated terminated ((fs.flatMap Field.lines).map (·, true) ++ rest) fl =
      classifyLines env truncated terminated rest (fl.noteAll env fs) := by
  induction fs generalizing fl with
  | nil => rfl
  | cons f fs ih =>
    rw [List.flatMap_cons, List.map_append, List.append_assoc, classifyLines_field, ih]
    rfl

theorem note_type (h : f.isType env = true) (fl : Flags) :
    fl.note (env.toLower f.name) = { fl with hasType := true } := by
  rw [Flags.note, if_pos (by simpa [Field.isType] using h)]

theorem note_other (h : f.isType env = false) (fl : Flags) :
    fl.note (env.toLower f.name) =
      { fl with hasOther := true, hasContext := fl.hasContext || f.isContext env } := by
  rw [Flags.note, if_neg (by simpa [Field.isType] using h), Field.isContext, h]
  rfl

theorem noteAll_seen (fs : List Field) (fl : Flags) :
    ((fl.noteAll env fs).hasType = true ↔ fl.hasType = true ∨ ∃ f ∈ fs, f.isType env = true) ∧
      ((fl.noteAll env fs).hasOther = true ↔ fl.hasOther = true ∨ ∃ f ∈ fs, f.isType env = false) := by
  induction fs generalizing fl with
  | nil => simp [Flags.noteAll]
  | cons f fs ih =>
    have := ih (fl.note (env.toLower f.name))
    rw [Flags.noteAll] at this ⊢
    rw [List.foldl_cons, this.1, this.2]
    cases hf : f.isType env with
    | true => simp [note_type hf, hf]
    | false => simp [note_other hf, hf]

/-! ## The cut -/

theorem colonWithin_cons (f : Field) (fs : List Field) (p : Field → Bool) (n : Nat) :
    ColonWithin (f :: fs) p n ↔ (p f ∧ f.name.length < n) ∨ ColonWithin fs p (n - f.text.length) := by
  constructor
  · rintro ⟨before, g, behind, heq, hp, hn⟩
    cases before with
    | nil =>
      cases heq
      exact .inl ⟨hp, by simpa [fieldsText] using hn⟩
    | cons x before =>
      cases heq
      refine .inr ⟨before, g, behind, rfl, hp, ?_⟩
      simp only [fieldsText, List.flatMap_cons, List.length_append] at hn ⊢
      omega
  · rintro (⟨hp, hn⟩ | ⟨before, g, behind, rfl, hp, hn⟩)
    · exact ⟨[], f, fs, rfl, hp, by simpa [fieldsText] using hn⟩
    · refine ⟨f :: before, g, behind, rfl, hp, ?_⟩
      simp only [fieldsText, List.flatMap_cons, List.length_append] at hn ⊢
      omega

theorem not_colonWithin_zero (fs : List Field) (p : Field → Bool) : ¬ ColonWithin fs p 0 := by
  rintro ⟨_, _, _, _, _, hn⟩
  exact Nat.not_lt_zero _ hn

theorem typeWithin_cons (f : Field) (fs : List Field) (n : Nat) :
    TypeWithin env (f :: fs) n ↔
      (f.isType env ∧ f.name.length < n ∧ n ≤ f.firstLine.length ∧
        startsMediaType env (trimRight 0x0d (f.value.take (n - (f.name.length + 1))))) ∨
      TypeWithin env fs (n - f.text.length) := by
  constructor
  · rintro ⟨before, g, behind, heq, htype, hcolon, hline, hmedia⟩
    cases before with
    | nil =>
      cases heq
      simp only [fieldsText, List.flatMap_nil, List.length_nil, Nat.zero_add] at hcolon hline hmedia
      exact .inl ⟨htype, hcolon, hline, hmedia⟩
    | cons x before =>
      cases heq
      simp only [fieldsText, List.flatMap_cons, List.length_append] at hcolon hline hmedia
      refine .inr ⟨before, g, behind, rfl, htype, ?_, ?_, ?_⟩ <;> simp only [fieldsText]
      · omega
      · omega
      · rw [Nat.sub_sub]
        simpa only [Nat.add_assoc] using hmedia
  · rintro (⟨htype, hcolon, hline, hmedia⟩ | ⟨before, g, behind, rfl, htype, hcolon, hline, hmedia⟩)
    · exact ⟨[], f, fs, rfl, htype, by simpa [fieldsText] using hcolon, by simpa [fieldsText] using hline,
        by simpa [fieldsText] using hmedia⟩
    · simp only [fieldsText] at hcolon hline hmedia
      refine ⟨f :: before, g, behind, rfl, htype, ?_, ?_, ?_⟩ <;>
        simp only [fieldsText, List.flatMap_cons, List.length_append]
      · omega
      · omega
      · rw [Nat.sub_sub] at hmedia
        simpa only [Nat.add_assoc] using hmedia

theorem not_typeWithin_zero (fs : List Field) : ¬ TypeWithin env fs 0 := by
  rintro ⟨_, _, _, _, _, hn, _⟩
  exact Nat.not_lt_zero _ hn

/-- What is seen of a header before a cut behind its first `n` bytes, with `fl` seen before, tells it from plain text. -/
def CaughtFrom (env : MimeEnv) (fl : Flags) (fs : List Field) (n : Nat) : Prop :=
  (fl.hasContext = true ∨ ColonWithin fs (Field.isContext env) n) ∨
    ((fl.hasType = true ∨ ColonWithin fs (Field.isType env) n) ∧
      (fl.hasOther = true ∨ ColonWithin fs (fun f => !f.isType env) n)) ∨
    TypeWithin env fs n

/-- The flags behind the last line before the cut. -/
theorem classifyFlags_cut (fl : Flags) :
    classifyFlags true false fl = .incomplete ↔ fl.hasContext = true ∨ (fl.hasType = true ∧ fl.hasOther = true) := by
  cases fl with
  | mk t o c => cases t <;> cases o <;> cases c <;> decide

/-- Nothing more is seen behind the flags. -/
theorem caughtFrom_zero (fl : Flags) (fs : List Field) :
    CaughtFrom env fl fs 0 ↔ fl.hasContext = true ∨ (fl.hasType = true ∧ fl.hasOther = true) := by
  simp [CaughtFrom, not_colonWithin_zero, not_typeWithin_zero]

/-- A field whose first line is before the cut is noted. -/
theorem caughtFrom_note (hn : f.firstLine.length < n) :
    CaughtFrom env fl (f :: fs) n ↔ CaughtFrom env (fl.note (env.toLower f.name)) fs (n - f.text.length) := by
  have hcolon : f.name.length < n := by
    simp only [Field.firstLine, List.length_append, List.length_cons] at hn
    omega
  have hline : ¬ n ≤ f.firstLine.length := by omega
  simp only [CaughtFrom, colonWithin_cons, typeWithin_cons, hcolon, hline, false_and, and_false, and_true, false_or]
  cases hf : f.isType env with
  | true => simp [note_type hf, hf, Field.isContext]
  | false =>
    simp only [note_other hf, Bool.false_eq_true, false_or, Bool.not_false, true_or, or_true, Bool.or_eq_true]
    simp only [or_assoc]

theorem note_context (h : fl.hasContext = true → fl.hasOther = true) (f : Field) :
    (fl.note (env.toLower f.name)).hasContext = true → (fl.note (env.toLower f.name)).hasOther = true := by
  cases hf : f.isType env with
  | true =>
    rw [note_type hf]
    exact h
  | false =>
    rw [note_other hf]
    exact fun _ => rfl

/-- The continuation lines before the cut add nothing. -/
theorem classifyLines_folds_cut {folds : List Bytes}
    (h : ∀ l ∈ folds, 0x0a ∉ l ∧ ∃ c rest, l = c :: rest ∧ (c = 0x20 ∨ c = 0x09)) (n : Nat) (fl : Flags) :
    classifyLines env true false (linesFrom [] ((linesText folds).take n)) fl = classifyFlags true false fl := by
  induction folds generalizing n with
  | nil => simp [linesText, linesFrom, classifyLines]
  | cons l folds ih =>
    obtain ⟨hlf, c, tail, rfl, hc⟩ := h l List.mem_cons_self
    have htext := linesText_cons (c :: tail) folds []
    rw [List.append_nil, List.append_nil] at htext
    rw [htext]
    by_cases hcut : n ≤ (c :: tail).length
    · rw [take_within _ _ hcut, linesFrom_end (lf_notMem_take hlf n)]
      cases n with
      | zero => rfl
      | succ n =>
        rw [List.take_succ_cons, List.nil_append, if_neg (by simp), classifyLines_fold hc]
        rfl
    · rw [take_line _ _ (Nat.lt_of_not_le hcut), linesFrom_line hlf, List.nil_append, classifyLines_fold hc]
      exact ih (fun x hx => h x (List.mem_cons_of_mem _ hx)) _

/-- A cut within a field name. -/
theorem classifyLines_name_cut (f : Field) (n : Nat) (fl : Flags) :
    classifyLines env true false (linesFrom [] (f.name.take n)) fl = classifyFlags true false fl := by
  have hplain : ∀ c ∈ f.name.take n, c ≠ 0x3a ∧ c ≠ 0x20 ∧ c ≠ 0x09 ∧ c ≠ 0x0d ∧ c ≠ 0x0a :=
    fun c hc => f.name_plain c (List.mem_of_mem_take hc)
  generalize f.name.take n = l at hplain
  rw [linesFrom_end (fun h => (hplain _ h).2.2.2.2 rfl), List.nil_append]
  cases l with
  | nil => rfl
  | cons c l =>
    have hc := hplain c List.mem_cons_self
    have htrim : trimRight 0x0d (c :: l) = c :: l := trimRight_of_notMem fun h => (hplain _ h).2.2.2.1 rfl
    have htake : (c :: l).takeWhile (· != 0x3a) = c :: l := by
      have := @takeWhile_append_stop _ (c :: l) [] (· != 0x3a) (fun d hd => by simpa using (hplain d hd).1) (by simp)
      rwa [List.append_nil] at this
    rw [if_neg (by simp), classifyLines, htrim]
    dsimp only
    rw [if_neg (by simp [hc.2.1, hc.2.2.1]), htake, if_pos (.inl rfl)]
    rfl

theorem field_text (f : Field) : f.text = f.firstLine ++ 0x0a :: linesText f.folds := by
  have := linesText_cons f.firstLine f.folds []
  rwa [List.append_nil, List.append_nil] at this

/-- A cut within the first line of a field, behind its colon. -/
theorem classifyLines_value_cut (f : Field) (hcolon : f.name.length < n) (fl : Flags) :
    classifyLines env true false (linesFrom [] (f.firstLine.take n)) fl =
      if f.isType env then
        if startsMediaType env (trimRight 0x0d (f.value.take (n - (f.name.length + 1)))) || fl.hasOther
        then .incomplete else .ordinary
      else classifyFlags true false (fl.note (env.toLower f.name)) := by
  have htake : f.firstLine.take n = f.name ++ 0x3a :: f.value.take (n - (f.name.length + 1)) := by
    rw [Field.firstLine, List.take_append, List.take_of_length_le (by omega)]
    obtain ⟨k, hk⟩ : ∃ k, n - f.name.length = k + 1 := ⟨n - f.name.length - 1, by omega⟩
    rw [hk, List.take_succ_cons]
    congr 3
    omega
  have hlf : 0x0a ∉ f.firstLine.take n := lf_notMem_take (headerLine_lines f _ List.mem_cons_self).1 n
  rw [linesFrom_end hlf, List.nil_append, htake, if_neg (by simp), classifyLines_colon]
  by_cases hf : f.isType env = true
  · rw [if_pos ⟨hf, rfl⟩, if_pos hf]
  · rw [if_neg (fun h => hf h.1), if_neg (by decide), if_neg hf]

theorem classifyLines_cut (fs : List Field) (hn : n < (fieldsText fs).length + (blankLine crlf).length) (rest : Bytes)
    (hfl : fl.hasContext = true → fl.hasOther = true) :
    classifyLines env true false (linesFrom [] ((fieldsText fs ++ (blankLine crlf ++ rest)).take n)) fl = .incomplete ↔
      CaughtFrom env fl fs n := by
  induction fs generalizing n fl with
  | nil =>
    have hcaught : CaughtFrom env fl [] n ↔ CaughtFrom env fl [] 0 := by
      simp [CaughtFrom, ColonWithin, TypeWithin]
    rw [hcaught, caughtFrom_zero, ← classifyFlags_cut]
    obtain h | h := take_blankLine (show n < (blankLine crlf).length by simpa [fieldsText] using hn) rest <;>
      rw [show fieldsText [] ++ (blankLine crlf ++ rest) = blankLine crlf ++ rest from rfl, h]
    · rfl
    · simp [linesFrom, classifyLines, trimRight]
  | cons f fs ih =>
    have htext : fieldsText (f :: fs) ++ (blankLine crlf ++ rest) =
        f.text ++ (fieldsText fs ++ (blankLine crlf ++ rest)) := by
      simp [fieldsText]
    have hlen : (fieldsText (f :: fs)).length = f.text.length + (fieldsText fs).length := by
      simp [fieldsText]
    have hfirst : f.text.length = f.firstLine.length + 1 + (linesText f.folds).length := by
      rw [field_text, List.length_append, List.length_cons]
      omega
    rw [htext]
    by_cases hall : f.text.length ≤ n
    · -- the whole field is before the cut
      rw [List.take_append, List.take_of_length_le hall, Field.text,
        linesFrom_lines (fun l hl => (headerLine_lines f l hl).1), classifyLines_field, caughtFrom_note (by omega)]
      have hlines : (linesText f.lines).length = f.text.length := rfl
      exact ih (by omega) (note_context hfl f)
    · have hzero : n - f.text.length = 0 := by omega
      rw [take_within _ _ (by omega), field_text]
      by_cases hline : f.firstLine.length < n
      · -- the cut is behind the first line
        have hlf := (headerLine_lines f _ List.mem_cons_self).1
        rw [take_line _ _ hline, linesFrom_line hlf, List.nil_append, Field.firstLine, classifyLines_colon,
          if_neg (by simp), if_pos (Bool.true_or _), classifyLines_folds_cut f.folds_line, classifyFlags_cut,
          caughtFrom_note hline, hzero, caughtFrom_zero]
      · rw [take_within _ _ (by omega)]
        by_cases hcolon : f.name.length < n
        · rw [classifyLines_value_cut f hcolon]
          have hn' : n ≤ f.firstLine.length := by omega
          simp only [CaughtFrom, colonWithin_cons, typeWithin_cons, hzero, not_colonWithin_zero, not_typeWithin_zero,
            hcolon, hn', or_false, and_true, true_and]
          cases hf : f.isType env with
          | true =>
            simp only [Field.isContext, hf]
            cases hm : startsMediaType env (trimRight 0x0d (f.value.take (n - (f.name.length + 1)))) <;>
              cases ho : fl.hasOther <;> cases hc : fl.hasContext <;> simp_all
          | false =>
            rw [if_neg (by decide), classifyFlags_cut, note_other hf]
            simp
        · have hname : f.firstLine.take n = f.name.take n := take_within _ _ (by omega)
          rw [hname, classifyLines_name_cut f n, classifyFlags_cut]
          simp [CaughtFrom, colonWithin_cons, typeWithin_cons, hzero, not_colonWithin_zero, not_typeWithin_zero, hcolon]

end Lines

/-! ## Messages -/

/-- A header within the limit. -/
theorem classify_complete {env : MimeEnv} (h : MimeHeader env) (body : Bytes)
    (hlen : h.text.length ≤ maxMIMEHeaderBytes) : classifyMIMEMessage env (h.text ++ body) = .complete := by
  obtain ⟨g, hg, hgtype⟩ := h.has_type
  have hne : h.fields.flatMap Field.lines ≠ [] := by
    intro hnil
    rw [List.flatMap_eq_nil_iff] at hnil
    cases hnil g hg
  have hhead : (h.text ++ body).take maxMIMEHeaderBytes =
      linesText (h.fields.flatMap Field.lines) ++
        (blankLine h.crlf ++ body.take (maxMIMEHeaderBytes - h.text.length)) := by
    rw [List.take_append, List.take_of_length_le hlen, MimeHeader.text, fieldsText_lines, List.append_assoc]
  rw [classifyMIMEMessage, hhead, headerEnd_found headerLine_fields hne]
  dsimp only
  rw [List.take_left, ← List.append_nil (linesText _),
    linesFrom_lines (fun l hl => (headerLine_fields l hl).1), classifyLines_fields]
  have hseen := @noteAll_seen env h.fields {}
  have htype := hseen.1.2 (.inr h.has_type)
  have hother := hseen.2.2 (.inr h.has_other)
  simp [linesFrom, classifyLines, classifyFlags, htype, hother]

/-- A header that the limit cuts. -/
theorem classify_cut {env : MimeEnv} (h : MimeHeader env) (body : Bytes)
    (hlen : maxMIMEHeaderBytes < h.text.length) :
    classifyMIMEMessage env (h.text ++ body) = .incomplete ↔ CaughtFrom env {} h.fields maxMIMEHeaderBytes := by
  have htext : h.text ++ body = fieldsText h.fields ++ (blankLine h.crlf ++ body) := by
    rw [MimeHeader.text, List.append_assoc]
  have hlong : maxMIMEHeaderBytes < (h.text ++ body).length := by
    rw [List.length_append]
    omega
  have hcut : maxMIMEHeaderBytes < (fieldsText h.fields).length + (blankLine h.crlf).length := by
    rwa [MimeHeader.text, List.length_append] at hlen
  have hend := headerEnd_cut (@headerLine_fields h.fields) (by rwa [fieldsText_lines] at hcut) body
  rw [← fieldsText_lines] at hend
  rw [classifyMIMEMessage, decide_eq_true hlong, htext, hend]
  exact classifyLines_cut h.fields hcut body (by decide)

/-- What is seen of a header in its first `n` bytes tells it from plain text. -/
def Caught (env : MimeEnv) (fs : List Field) (n : Nat) : Prop :=
  ColonWithin fs (Field.isContext env) n ∨
    (ColonWithin fs (Field.isType env) n ∧ ColonWithin fs (fun f => !f.isType env) n) ∨ TypeWithin env fs n

theorem caughtFrom_empty {env : MimeEnv} : CaughtFrom env {} fs n ↔ Caught env fs n := by
  simp [CaughtFrom, Caught]

/-- The header of a MIME message is classified as one, whole or cut, exactly if it is within the limit or enough of it
is seen before the cut. -/
theorem classifyMIMEMessage_header_iff (env : MimeEnv) (h : MimeHeader env) (body : Bytes) :
    classifyMIMEMessage env (h.text ++ body) =
        (if h.text.length ≤ maxMIMEHeaderBytes then .complete else .incomplete) ↔
      h.text.length ≤ maxMIMEHeaderBytes ∨ Caught env h.fields maxMIMEHeaderBytes := by
  by_cases hlen : h.text.length ≤ maxMIMEHeaderBytes
  · rw [if_pos hlen]
    exact ⟨fun _ => .inl hlen, fun _ => classify_complete h body hlen⟩
  · rw [if_neg hlen, classify_cut h body (Nat.lt_of_not_le hlen), caughtFrom_empty]
    exact ⟨.inr, fun h => h.resolve_left hlen⟩

/-- Lower case for ASCII, and any media type. -/
def asciiEnv : MimeEnv := { lower := fun r => if 0x41 ≤ r ∧ r ≤ 0x5a then r + 0x20 else r, parsesMediaType := fun _ => true }

/-- A field of one line. -/
def oneLine (name : String) (value : Bytes) (hne : Scan.ascii name ≠ [])
    (hname : ∀ c ∈ Scan.ascii name, c ≠ 0x3a ∧ c ≠ 0x20 ∧ c ≠ 0x09 ∧ c ≠ 0x0d ∧ c ≠ 0x0a) (hvalue : 0x0a ∉ value) : Field :=
  ⟨Scan.ascii name, value, [], hne, hname, hvalue, nofun⟩

/-- A list header as long as the limit. -/
def longList : Field :=
  oneLine "List-Id" (List.replicate maxMIMEHeaderBytes 0x61) (by decide) (by decide +kernel) (by simp)

def plainType : Field := oneLine "Content-Type" (Scan.ascii " text/plain") (by decide) (by decide +kernel) (by decide +kernel)

def longHeader : MimeHeader asciiEnv where
  fields := [longList, plainType]
  crlf := true
  has_type := ⟨plainType, by simp, by decide +kernel⟩
  has_other := ⟨longList, by simp, by decide +kernel⟩

theorem length_oneLine {name : String} {value : Bytes} {hne hname hvalue} :
    (oneLine name value hne hname hvalue).text.length = (Scan.ascii name).length + value.length + 2 := by
  simp [oneLine, field_text, Field.firstLine, linesText]
  omega

theorem length_longList : longList.text.length = maxMIMEHeaderBytes + 9 := by
  have hname : (Scan.ascii "List-Id").length = 7 := by decide
  rw [longList, length_oneLine, List.length_replicate, hname]
  omega

/-- A list header is no context: cut within it, the message is taken for plain text. -/
theorem classifyMIMEMessage_longHeader :
    ∃ (env : MimeEnv) (h : MimeHeader env) (body : Bytes), classifyMIMEMessage env (h.text ++ body) ≠
      if h.text.length ≤ maxMIMEHeaderBytes then .complete else .incomplete := by
  refine ⟨asciiEnv, longHeader, [], ?_⟩
  have hlen : maxMIMEHeaderBytes < longHeader.text.length := by
    have := length_longList
    simp only [MimeHeader.text, longHeader, fieldsText, List.flatMap_cons, List.length_append]
    omega
  have hzero : maxMIMEHeaderBytes - longList.text.length = 0 := by
    rw [length_longList]
    omega
  have hcontext : longList.isContext asciiEnv = false := by decide +kernel
  have htype : longList.isType asciiEnv = false := by decide +kernel
  rw [if_neg (Nat.not_le_of_lt hlen), ne_eq, classify_cut longHeader [] hlen, caughtFrom_empty]
  simp [Caught, longHeader, colonWithin_cons, typeWithin_cons, hzero, not_colonWithin_zero, not_typeWithin_zero,
    hcontext, htype]

end MS.Extract
