import Mailstrix.Proof.Icap.Extensions

/-!
# Chunk header lines

`chunkHeader_of_header`: a line of the grammar is read as the size and the `ieof` that it carries, if the size is one
of 63 bits.  `chunkHeader_sound`: a line that is read, and whose size has nothing around its digits but blanks, is one
of the grammar.
-/

namespace MS.Icap

open Framework
open Scan (trimSpace isSpace)

/-! ## The bytes of a line -/

/-- Neither half of a line end. -/
def inLine (c : UInt8) : Bool := c != 0x0a && c != 0x0d

theorem inLine_of {p : UInt8 → Bool} (hlf : p 0x0a = false) (hcr : p 0x0d = false) {c : UInt8} (h : p c) : inLine c := by
  simp only [inLine, Bool.and_eq_true, bne_iff_ne]
  constructor
  · rintro rfl
    simp [hlf] at h
  · rintro rfl
    simp [hcr] at h

theorem inLine_blanks (b : Blanks) : ∀ c ∈ b.1, inLine c :=
  fun c hc => inLine_of (by decide) (by decide) (b.2 c hc)

theorem inLine_token (t : Token) : ∀ c ∈ t.1, inLine c :=
  fun c hc => inLine_of (by decide) (by decide) (t.2.2 c hc)

theorem inLine_digits (d : HexDigits) : ∀ c ∈ d.1, inLine c :=
  fun c hc => @inLine_of (fun c => (hexDigit c.toNat).isSome) (by decide) (by decide) c (d.2.2 c hc)

theorem inLine_value (v : Value) : ∀ c ∈ v.text, inLine c := by
  cases v with
  | token t => exact inLine_token t
  | quoted items =>
    intro c hc
    simp only [Value.text, List.mem_cons, List.mem_append, List.mem_flatMap, List.not_mem_nil, or_false,
      List.cons_append] at hc
    obtain rfl | ⟨item, -, hc⟩ | rfl := hc
    · decide
    · cases item with
      | plain d h =>
        obtain rfl := List.mem_singleton.1 hc
        exact inLine_of (by decide) (by decide) h.2.2
      | pair d h =>
        simp only [QuotedItem.text, List.mem_cons, List.not_mem_nil, or_false] at hc
        obtain rfl | rfl := hc
        · decide
        · exact inLine_of (by decide) (by decide) h
    · decide

theorem inLine_extension (e : Extension) : ∀ c ∈ e.text, inLine c := by
  intro c hc
  simp only [Extension.text, Extension.body, List.mem_cons, List.mem_append] at hc
  obtain rfl | ((hc | hc) | hc) | hc := hc
  · decide
  · exact inLine_blanks _ c hc
  · exact inLine_token _ c hc
  · exact inLine_blanks _ c hc
  · unfold Extension.valueText at hc
    split at hc
    · cases hc
    · simp only [List.mem_cons, List.mem_append] at hc
      obtain rfl | (hc | hc) | hc := hc
      · decide
      · exact inLine_blanks _ c hc
      · exact inLine_value _ c hc
      · exact inLine_blanks _ c hc

theorem inLine_content (h : Header) : ∀ c ∈ h.content, inLine c := by
  intro c hc
  simp only [Header.content, Header.sizeText, List.mem_append, List.mem_flatMap] at hc
  obtain ((hc | hc) | hc) | ⟨e, -, hc⟩ := hc
  · exact inLine_blanks _ c hc
  · exact inLine_digits _ c hc
  · exact inLine_blanks _ c hc
  · exact inLine_extension e c hc

theorem lf_notMem_line (h : Header) : 0x0a ∉ h.line := by
  intro hmem
  rcases List.mem_append.1 hmem with hmem | hmem
  · cases inLine_content h _ hmem
  · cases he : h.ending <;> simp [he, LineEnd.cr] at hmem

theorem trimCR_append {text : Bytes} (htext : ∀ c ∈ text, inLine c) (e : LineEnd) : trimCR (text ++ e.cr) = text := by
  have hcr : 0x0d ∉ text := by
    intro hmem
    cases htext _ hmem
  cases e with
  | lf =>
    rw [LineEnd.cr, List.append_nil]
    exact trimRight_of_notMem hcr
  | crlf =>
    have hone : trimCR (text ++ [0x0d]) = trimCR text := by
      simp [trimCR, trimRight]
    rw [LineEnd.cr, hone]
    exact trimRight_of_notMem hcr

theorem trimCR_line (h : Header) : trimCR h.line = h.content := trimCR_append (inLine_content h) h.ending

/-! ## Sizes -/

theorem trimSpace_padded {a d b : List Nat} (ha : ∀ c ∈ a, isSpace c) (hd : d ≠ []) (hd' : ∀ c ∈ d, isSpace c = false)
    (hb : ∀ c ∈ b, isSpace c) : trimSpace (a ++ d ++ b) = d := by
  have hfront : (a ++ (d ++ b)).dropWhile isSpace = d ++ b := by
    refine dropWhile_append_stop ha ?_
    intro c hc
    cases d with
    | nil => exact absurd rfl hd
    | cons x d =>
      cases hc
      exact hd' _ List.mem_cons_self
  have hback : (b.reverse ++ d.reverse).dropWhile isSpace = d.reverse := by
    refine dropWhile_append_stop (fun c hc => hb c (List.mem_reverse.1 hc)) ?_
    intro c hc
    exact hd' c (List.mem_reverse.1 (List.mem_of_mem_head? hc))
  rw [trimSpace, List.append_assoc, hfront, List.reverse_append, hback, List.reverse_reverse]

theorem isSpace_blank {c : UInt8} (h : isBlank c) : isSpace c.toNat ∧ c < 0x80 := by
  simp only [isBlank, Bool.or_eq_true, beq_iff_eq] at h
  rcases h with rfl | rfl <;> decide

theorem hexDigit_cases {c : Nat} (h : (hexDigit c).isSome) :
    (0x30 ≤ c ∧ c ≤ 0x39) ∨ (0x61 ≤ c ∧ c ≤ 0x66) ∨ (0x41 ≤ c ∧ c ≤ 0x46) := by
  unfold hexDigit at h
  split_ifs at h with h₁ h₂ h₃
  · exact .inl h₁
  · exact .inr (.inl h₂)
  · exact .inr (.inr h₃)
  · cases h

theorem not_isSpace_hexDigit {c : Nat} (h : (hexDigit c).isSome) : isSpace c = false := by
  have hc := hexDigit_cases h
  simp only [isSpace, List.contains_eq_mem, List.mem_cons, List.not_mem_nil, or_false, Bool.or_eq_false_iff,
    Bool.and_eq_false_iff, decide_eq_false_iff_not]
  omega

theorem trimSpace_sizeText (h : Header) : trimSpace (runes h.sizeText) = h.digits.1.map UInt8.toNat := by
  have hlow : ∀ c ∈ h.sizeText, c < 0x80 := by
    intro c hc
    simp only [Header.sizeText, List.mem_append] at hc
    obtain (hc | hc) | hc := hc
    · exact (isSpace_blank (h.before.2 c hc)).2
    · rw [UInt8.lt_iff_toNat_lt]
      have := hexDigit_cases (h.digits.2.2 c hc)
      simp only [UInt8.reduceToNat]
      omega
    · exact (isSpace_blank (h.behind.2 c hc)).2
  have hblanks : ∀ b : Blanks, ∀ c ∈ b.1.map UInt8.toNat, isSpace c := by
    intro b c hc
    obtain ⟨d, hd, rfl⟩ := List.mem_map.1 hc
    exact (isSpace_blank (b.2 d hd)).1
  rw [runes_ascii hlow, Header.sizeText, List.map_append, List.map_append]
  refine trimSpace_padded (hblanks h.before) (by simpa using h.digits.2.1) ?_ (hblanks h.behind)
  intro c hc
  obtain ⟨d, hd, rfl⟩ := List.mem_map.1 hc
  exact not_isSpace_hexDigit (h.digits.2.2 d hd)

theorem parseUint_digits {s : List Nat} (hne : s ≠ []) (h : ∀ c ∈ s, (hexDigit c).isSome) :
    parseUint s = some (hexValue s) := by
  have hmap : s.mapM hexDigit = some (s.filterMap hexDigit) := by
    clear hne
    induction s with
    | nil => rfl
    | cons c s ih =>
      obtain ⟨d, hd⟩ := Option.isSome_iff_exists.1 (h c List.mem_cons_self)
      have := ih fun x hx => h x (List.mem_cons_of_mem _ hx)
      simp [List.mapM_cons, hd, this]
  rw [parseUint, if_neg hne, hmap]
  rfl

theorem parseInt_digits {s : List Nat} (hne : s ≠ []) (h : ∀ c ∈ s, (hexDigit c).isSome) :
    parseInt s = if 2 ^ 63 ≤ hexValue s then none else some (Int64.ofNat (hexValue s)) := by
  cases s with
  | nil => exact absurd rfl hne
  | cons c s =>
    have hc := hexDigit_cases (h c List.mem_cons_self)
    have hplus : ¬ (c = 0x2b ∨ c = 0x2d) := by omega
    have hminus : ¬ c = 0x2d := by omega
    rw [parseInt, if_neg hplus, parseUint_digits hne h]
    dsimp only
    rw [if_neg hminus]

theorem ofNat_not_neg {n : Nat} (h : n < 2 ^ 63) : ¬ Int64.ofNat n < 0 := by
  rw [Int64.lt_iff_toInt_lt, Int64.toInt_ofNat_of_lt h, Int64.toInt_zero]
  omega

/-! ## Lines of the grammar -/

theorem sizeText_stop (h : Header) :
    (∀ c ∈ h.sizeText, (c != 0x3b) = true) ∧ ∀ c ∈ (h.exts.flatMap Extension.text).head?, (c != 0x3b) = false := by
  constructor
  · intro c hc
    simp only [bne_iff_ne]
    rintro rfl
    simp only [Header.sizeText, List.mem_append] at hc
    obtain (hc | hc) | hc := hc
    · cases h.before.2 _ hc
    · cases h.digits.2.2 _ hc
    · cases h.behind.2 _ hc
  · intro c hc
    rw [stops_exts h.exts c hc]
    decide

theorem takeWhile_content (h : Header) : h.content.takeWhile (· != 0x3b) = h.sizeText :=
  takeWhile_append_stop (sizeText_stop h).1 (sizeText_stop h).2

theorem dropWhile_content (h : Header) : h.content.dropWhile (· != 0x3b) = h.exts.flatMap Extension.text :=
  dropWhile_append_stop (sizeText_stop h).1 (sizeText_stop h).2

theorem digits_isSome (d : HexDigits) : ∀ c ∈ d.1.map UInt8.toNat, (hexDigit c).isSome := by
  intro c hc
  obtain ⟨x, hx, rfl⟩ := List.mem_map.1 hc
  exact d.2.2 x hx

theorem chunkHeader_of_header (h : Header) :
    chunkHeader h.content =
      if 2 ^ 63 ≤ h.size then .error (.badSize h.content) else .ok (Int64.ofNat h.size, h.ieof) := by
  rw [chunkHeader, dropWhile_content, takeWhile_content, parseICAPChunkExtensions_of_exts, trimSpace_sizeText,
    parseInt_digits (by simpa using h.digits.2.1) (digits_isSome h.digits)]
  rw [show hexValue (h.digits.1.map UInt8.toNat) = h.size from rfl]
  by_cases hsize : 2 ^ 63 ≤ h.size
  · rw [if_pos hsize, if_pos hsize]
  · rw [if_neg hsize, if_neg hsize]
    exact if_neg (ofNat_not_neg (Nat.lt_of_not_le hsize))

/-! ## Lines that are read -/

/-- A text without the blanks around it. -/
def stripBlanks (text : Bytes) : Bytes := ((text.dropWhile isBlank).reverse.dropWhile isBlank).reverse

theorem stripBlanks_split (text : Bytes) : ∃ before behind : Blanks, text = before.1 ++ stripBlanks text ++ behind.1 := by
  obtain ⟨before, hbefore⟩ := skipWhitespace_split text
  obtain ⟨behind, hbehind⟩ := skipWhitespace_split (skipWhitespace text).reverse
  refine ⟨before, ⟨behind.1.reverse, fun c hc => behind.2 c (List.mem_reverse.1 hc)⟩, ?_⟩
  have hsplit : skipWhitespace text = stripBlanks text ++ behind.1.reverse := by
    have := congrArg List.reverse hbehind
    rwa [List.reverse_reverse, List.reverse_append] at this
  rw [List.append_assoc, ← hsplit]
  exact hbefore

theorem stripBlanks_sizeText (h : Header) : stripBlanks h.sizeText = h.digits.1 := by
  have hdigit : ∀ c ∈ h.digits.1, isBlank c = false := by
    intro c hc
    cases hb : isBlank c with
    | false => rfl
    | true =>
      have := not_isSpace_hexDigit (h.digits.2.2 c hc)
      rw [(isSpace_blank hb).1] at this
      cases this
  have hfront : h.sizeText.dropWhile isBlank = h.digits.1 ++ h.behind.1 := by
    rw [Header.sizeText, List.append_assoc]
    refine dropWhile_append_stop h.before.2 ?_
    intro c hc
    obtain ⟨digits, hne, -⟩ := h.digits
    cases hd : h.digits.1 with
    | nil => exact absurd hd h.digits.2.1
    | cons x rest =>
      rw [hd] at hc
      cases hc
      exact hdigit _ (by rw [hd]; exact List.mem_cons_self)
  have hback : (h.behind.1.reverse ++ h.digits.1.reverse).dropWhile isBlank = h.digits.1.reverse := by
    refine dropWhile_append_stop (fun c hc => h.behind.2 c (List.mem_reverse.1 hc)) ?_
    intro c hc
    exact hdigit c (List.mem_reverse.1 (List.mem_of_mem_head? hc))
  rw [stripBlanks, hfront, List.reverse_append, hback, List.reverse_reverse]

/-- The size of a line is written with digits alone, up to blanks around them, and the line has at most one CR at its
end. -/
def PlainHead (head : Bytes) : Prop :=
  head.length ≤ (trimCR head).length + 1 ∧
    ∀ c ∈ stripBlanks ((trimCR head).takeWhile (· != 0x3b)), (hexDigit c.toNat).isSome

theorem plainHead_line (h : Header) : PlainHead h.line := by
  refine ⟨?_, ?_⟩
  · rw [trimCR_line, Header.line, List.length_append]
    cases h.ending <;> simp [LineEnd.cr]
  · rw [trimCR_line, takeWhile_content, stripBlanks_sizeText]
    exact h.digits.2.2

theorem trimCR_lineEnd {text : Bytes} (h : text.length ≤ (trimCR text).length + 1) :
    ∃ e : LineEnd, text = trimCR text ++ e.cr := by
  obtain ⟨n, hn⟩ : ∃ n, text = trimCR text ++ List.replicate n 0x0d := trimRight_split 0x0d text
  have hlen := congrArg List.length hn
  rw [List.length_append, List.length_replicate] at hlen
  match n, hn, (show n ≤ 1 by omega) with
  | 0, hn, _ => exact ⟨.lf, hn⟩
  | 1, hn, _ => exact ⟨.crlf, hn⟩

/-- A line that is read as a size and has a plain head is one of the grammar. -/
theorem chunkHeader_sound {head : Bytes} {size : Int64} {ieof : Bool} (h : chunkHeader (trimCR head) = .ok (size, ieof))
    (hplain : PlainHead head) :
    ∃ hd : Header, hd.line = head ∧ hd.ieof = ieof ∧ size = Int64.ofNat hd.size ∧ hd.size < 2 ^ 63 := by
  obtain ⟨e, he⟩ := trimCR_lineEnd hplain.1
  have hdigits := hplain.2
  generalize trimCR head = raw at h he hdigits
  obtain ⟨before, behind, hsize⟩ := stripBlanks_split (raw.takeWhile (· != 0x3b))
  have hexts : ∃ exts : List Extension, raw.dropWhile (· != 0x3b) = exts.flatMap Extension.text ∧
      parseICAPChunkExtensions (raw.dropWhile (· != 0x3b)) = some (exts.any Extension.isIEOF) := by
    rw [chunkHeader] at h
    split at h
    · cases h
    · rename_i b hparse
      obtain ⟨exts, heq, hb⟩ := parseICAPChunkExtensions_sound (fun c hc => by simpa using head_dropWhile raw c hc) hparse
      exact ⟨exts, heq, by rw [hparse, hb]⟩
  obtain ⟨exts, hexts, hparse⟩ := hexts
  -- were there no digits, the trimmed text would be empty
  have hne : stripBlanks (raw.takeWhile (· != 0x3b)) ≠ [] := by
    intro hnil
    rw [hnil, List.append_nil] at hsize
    have hblank : ∀ c ∈ raw.takeWhile (· != 0x3b), isBlank c := by
      intro c hc
      rw [hsize] at hc
      exact (List.mem_append.1 hc).elim (before.2 c) (behind.2 c)
    have hnone : ((raw.takeWhile (· != 0x3b)).map UInt8.toNat).dropWhile isSpace = [] := by
      rw [List.dropWhile_eq_nil_iff]
      intro c hc
      obtain ⟨d, hd, rfl⟩ := List.mem_map.1 hc
      exact (isSpace_blank (hblank d hd)).1
    have hspace : trimSpace (runes (raw.takeWhile (· != 0x3b))) = [] := by
      rw [runes_ascii fun c hc => (isSpace_blank (hblank c hc)).2, trimSpace, hnone, List.reverse_nil,
        List.dropWhile_nil, List.reverse_nil]
    rw [chunkHeader, hparse, hspace] at h
    cases h
  let hd : Header := ⟨before, ⟨_, hne, hdigits⟩, behind, exts, e⟩
  have hcontent : hd.content = raw := by
    show before.1 ++ stripBlanks (raw.takeWhile (· != 0x3b)) ++ behind.1 ++ exts.flatMap Extension.text = raw
    rw [← hsize, ← hexts, List.takeWhile_append_dropWhile]
  have hread := chunkHeader_of_header hd
  rw [hcontent, h] at hread
  split at hread
  · cases hread
  · rename_i hlt
    simp only [Except.ok.injEq, Prod.mk.injEq] at hread
    exact ⟨hd, by rw [Header.line, hcontent]; exact he.symm, hread.2.symm, hread.1, Nat.lt_of_not_le hlt⟩

end MS.Icap
