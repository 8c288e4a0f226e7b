import Mailstrix.Spec.Extract.Script

/-!
# Decoding against the reference

The loop of `decodeScript` and the reference's walk go over the same bytes with two counters.  A byte that starts no
escape moves both; an escape moves only the reference's.  So the two texts agree exactly if every substituted byte
has the same entry in the columns that the two counters select (`InPhase`).
-/

namespace MS.Extract

open Framework Reference

variable {e : UInt8 × UInt8} {c : UInt8}

/-- Induction over the escapes and the other bytes of a text. -/
@[elab_as_elim]
theorem Escaped.induction {P : Bytes → Prop} (nil : P [])
    (escape : ∀ e rest, e ∈ escapes → Escaped rest → P rest → P (0x40 :: e.1 :: rest))
    (byte : ∀ c rest, c ≠ 0x40 → Escaped rest → P rest → P (c :: rest)) {enc : Bytes} (h : Escaped enc) : P enc := by
  induction hn : enc.length using Nat.strong_induction_on generalizing enc with
  | _ n ih =>
    subst hn
    cases enc with
    | nil => exact nil
    | cons c rest =>
      have htail : Escaped rest := by
        intro before behind heq
        exact h (c :: before) behind (by rw [heq, List.cons_append])
      by_cases hc : c = 0x40
      · subst hc
        obtain ⟨e, he, hhead⟩ := h [] rest rfl
        cases rest with
        | nil => cases hhead
        | cons d rest =>
          cases hhead
          have hrest : Escaped rest := by
            intro before behind heq
            exact htail (e.1 :: before) behind (by rw [heq, List.cons_append])
          exact escape e rest he hrest (ih _ (by simp) hrest rfl)
      · exact byte c rest hc htail (ih _ (by simp) htail rfl)

/-! ## The two decodings without their buffers -/

theorem escapeOf_eq (he : e ∈ escapes) : escapeOf e.1 = [e.2] := by
  have h : escapes.Forall fun e => escapeOf e.1 = [e.2] := by decide
  exact List.forall_iff_forall_mem.1 h e he

theorem lookup_escape (he : e ∈ escapes) : escapes.lookup e.1 = some e.2 := by
  have h : escapes.Forall fun e => escapes.lookup e.1 = some e.2 := by decide
  exact List.forall_iff_forall_mem.1 h e he

theorem escape_ne_at (he : e ∈ escapes) : e.1 ≠ 0x40 := by
  have h : escapes.Forall fun e => e.1 ≠ 0x40 := by decide
  exact List.forall_iff_forall_mem.1 h e he

theorem escape_low (he : e ∈ escapes) : e.1 < 128 := by
  have h : escapes.Forall fun e => e.1 < 128 := by decide
  exact List.forall_iff_forall_mem.1 h e he

theorem not_substituted_of_escape (he : e ∈ escapes) : substituted e.2 = false ∧ e.2 < 128 := by
  have h : escapes.Forall fun e => substituted e.2 = false ∧ e.2 < 128 := by decide
  exact List.forall_iff_forall_mem.1 h e he

theorem replaceEscapes_escape (he : e ∈ escapes) (rest : Bytes) :
    replaceEscapes (0x40 :: e.1 :: rest) = e.2 :: replaceEscapes rest := by
  simp [replaceEscapes, lookup_escape he]

theorem replaceEscapes_byte (hc : c ≠ 0x40) (rest : Bytes) : replaceEscapes (c :: rest) = c :: replaceEscapes rest := by
  cases rest with
  | nil => rfl
  | cons e rest =>
    rw [replaceEscapes]
    split <;> simp [hc]

theorem length_walk (index : Nat) (text : Bytes) : (walk index text).length = text.length := by
  induction text generalizing index with
  | nil => rfl
  | cons c rest ih => simp [walk, ih]

theorem low_of_substituted (h : substituted c) : c < 128 := by
  simp only [substituted, Bool.and_eq_true, Bool.or_eq_true, beq_iff_eq, decide_eq_true_eq] at h
  obtain ⟨⟨⟨rfl | ⟨-, h⟩, -⟩, -⟩, -⟩ := h
  · decide
  · rw [UInt8.le_iff_toNat_le] at h
    rw [UInt8.lt_iff_toNat_lt]
    simp only [UInt8.reduceToNat] at h ⊢
    omega

theorem decodeByte_eq (index : Nat) (c : UInt8) :
    decodeByte index c = if substituted c then decChar c (pickAt index) else c := by
  unfold decodeByte
  by_cases h : substituted c
  · rw [if_pos (low_of_substituted h)]
  · simp [h]

/-- One turn of the loop over a byte that starts no escape, while the output is below the cap. -/
theorem decodeLoop_byte (hc : c ≠ 0x40) (rest : Bytes) (index : Nat) {out : Bytes}
    (hcap : out.length + 1 < maxDecodedScript) :
    decodeLoop (c :: rest) index out = decodeLoop rest (advance index c) (out ++ [decodeByte index c]) := by
  cases rest with
  | nil => rfl
  | cons e rest =>
    rw [decodeLoop, if_neg hc]
    simp [hcap]

/-! ## The two counters -/

def lowBytes (text : Bytes) : Nat := text.countP (· < 128)

def ats (text : Bytes) : Nat := text.count 0x40

/-- From the counters `n` and `m`, every substituted byte has one entry in the columns that they have come to select
where it stands.  A byte behind an `@` belongs to the escape; each `@` before the byte is one of two bytes that
did not move the loop's counter, and that moved the reference's by one. -/
def InPhaseFrom (n m : Nat) (enc : Bytes) : Prop :=
  ∀ before c behind, enc = before ++ c :: behind → before.getLast? ≠ some 0x40 → substituted c →
    decChar c (pickAt (n + lowBytes before - 2 * ats before)) = decChar c (pickAt (m + lowBytes before - ats before))

def InPhase (enc : Bytes) : Prop := InPhaseFrom 0 0 enc

theorem inPhaseFrom_escape (he : e ∈ escapes) (n m : Nat) (rest : Bytes) :
    InPhaseFrom n m (0x40 :: e.1 :: rest) ↔ InPhaseFrom n (m + 1) rest := by
  have hlow : ∀ before, lowBytes (0x40 :: e.1 :: before) = lowBytes before + 2 := by
    intro before
    simp [lowBytes, escape_low he]
  have hats : ∀ before, ats (0x40 :: e.1 :: before) = ats before + 1 := by
    intro before
    simp [ats, escape_ne_at he]
  have hn : ∀ before, n + lowBytes (0x40 :: e.1 :: before) - 2 * ats (0x40 :: e.1 :: before) =
      n + lowBytes before - 2 * ats before := by
    intro before
    rw [hlow, hats]
    omega
  have hm : ∀ before, m + lowBytes (0x40 :: e.1 :: before) - ats (0x40 :: e.1 :: before) =
      m + 1 + lowBytes before - ats before := by
    intro before
    rw [hlow, hats]
    omega
  constructor
  · intro h before c behind heq hlast hc
    have hlast' : (0x40 :: e.1 :: before).getLast? ≠ some 0x40 := by
      cases before with
      | nil => simpa using escape_ne_at he
      | cons => simpa using hlast
    have := h (0x40 :: e.1 :: before) c behind (by rw [heq]; rfl) hlast' hc
    rwa [hn, hm] at this
  · intro h before c behind heq hlast hc
    -- the byte is neither the `@` nor the one behind it
    match before, heq with
    | [], heq =>
      cases heq
      cases hc
    | [a], heq =>
      cases heq
      exact absurd rfl hlast
    | a :: b :: before, heq =>
      simp only [List.cons_append, List.cons.injEq] at heq
      obtain ⟨rfl, rfl, rfl⟩ := heq
      have hlast' : before.getLast? ≠ some 0x40 := by
        cases before with
        | nil => simp
        | cons => simpa using hlast
      rw [hn, hm]
      exact h before c behind rfl hlast' hc

theorem inPhaseFrom_byte (hc : c ≠ 0x40) (n m : Nat) (rest : Bytes) :
    InPhaseFrom n m (c :: rest) ↔ decodeByte n c = (if substituted c then decChar c (pickAt m) else c) ∧
      InPhaseFrom (advance n c) (advance m c) rest := by
  have hcount : ∀ k j before, k + lowBytes (c :: before) - j * ats (c :: before) =
      advance k c + lowBytes before - j * ats before := by
    intro k j before
    simp only [lowBytes, ats, List.countP_cons, List.count_cons_of_ne hc, advance, decide_eq_true_eq]
    split <;> omega
  have hone : ∀ k before, k + lowBytes (c :: before) - ats (c :: before) =
      advance k c + lowBytes before - ats before := by
    intro k before
    simpa using hcount k 1 before
  have hlast : ∀ before : Bytes, (c :: before).getLast? ≠ some 0x40 ↔ before.getLast? ≠ some 0x40 := by
    intro before
    cases before with
    | nil => simpa using hc
    | cons => simp
  rw [decodeByte_eq]
  constructor
  · intro h
    constructor
    · by_cases hs : substituted c
      · have := h [] c rest rfl (by simp) hs
        simpa [lowBytes, ats, hs] using this
      · simp [hs]
    · intro before d behind heq hd hs
      have := h (c :: before) d behind (by rw [heq]; rfl) ((hlast before).2 hd) hs
      rwa [hcount, hone] at this
  · rintro ⟨hfirst, h⟩ before d behind heq hd hs
    cases before with
    | nil =>
      cases heq
      simpa [lowBytes, ats, hs] using hfirst
    | cons a before =>
      simp only [List.cons_append, List.cons.injEq] at heq
      obtain ⟨rfl, rfl⟩ := heq
      rw [hcount, hone]
      exact h before d behind rfl ((hlast before).1 hd) hs

/-- The loop behind what it has written, with its counter at `n`, against the walk with the counter at `m`. -/
theorem decodeLoop_eq_iff {enc : Bytes} (h : Escaped enc) :
    ∀ n m out out', out.length + (replaceEscapes enc).length < maxDecodedScript →
      (decodeLoop enc n out = out' ++ walk m (replaceEscapes enc) ↔ out = out' ∧ InPhaseFrom n m enc) := by
  refine Escaped.induction ?nil ?escape ?byte h
  case nil =>
    intro n m out out' _
    have : InPhaseFrom n m [] := by
      intro before c behind heq
      simp at heq
    simp [decodeLoop, replaceEscapes, walk, this]
  case escape =>
    intro e rest he _ ih n m out out' hcap
    obtain ⟨hs, hlow⟩ := not_substituted_of_escape he
    rw [replaceEscapes_escape he, List.length_cons] at hcap
    rw [replaceEscapes_escape he, inPhaseFrom_escape he, decodeLoop, if_pos rfl, escapeOf_eq he, walk, hs,
      if_neg (by decide), if_pos hlow, List.append_cons out', ih n (m + 1) _ _ (by simp; omega)]
    simp
  case byte =>
    intro c rest hc _ ih n m out out' hcap
    rw [replaceEscapes_byte hc, List.length_cons] at hcap
    rw [replaceEscapes_byte hc, inPhaseFrom_byte hc, decodeLoop_byte hc rest n (by omega), walk, List.append_cons out',
      ih (advance n c) _ _ _ (by simp; omega)]
    have hlast : ∀ x y : UInt8, out ++ [x] = out' ++ [y] ↔ out = out' ∧ x = y := by
      intro x y
      simp [← List.concat_eq_append, List.concat_inj]
    rw [hlast, and_assoc]
    rfl

/-- Where the escapes are well formed and the text fits, decoding is the reference's exactly if the text is in
phase. -/
theorem decodeScript_reference_iff (enc : Bytes) (hesc : Escaped enc)
    (hcap : (Reference.decode enc).length < maxDecodedScript) :
    decodeScript enc = Reference.decode enc ↔ InPhase enc := by
  rw [Reference.decode, length_walk] at hcap
  have := decodeLoop_eq_iff hesc 0 0 [] [] (by simpa using hcap)
  simpa [decodeScript, Reference.decode, InPhase] using this

theorem escaped_newline (hc : c ≠ 0x40) : Escaped [0x40, 0x26, c] := by
  intro before behind heq
  match before, heq with
  | [], heq =>
    cases heq
    exact ⟨(0x26, 0x0a), by decide, rfl⟩
  | [_], heq => simp at heq
  | [_, _], heq => simp [hc] at heq
  | _ :: _ :: _ :: _, heq => simp at heq

/-- `4` has one entry in the first two columns. -/
theorem decodeScript_reference_four : InPhase [0x40, 0x26, 0x34] :=
  (decodeScript_reference_iff [0x40, 0x26, 0x34] (escaped_newline (by decide)) (by decide)).1 (by decide)

/-- Behind an escape the loop's counter is late: `@&A` is a newline and the first entry of `A`, where the reference
has the second. -/
theorem decodeScript_late :
    ∃ enc, Escaped enc ∧ (Reference.decode enc).length < maxDecodedScript ∧ decodeScript enc ≠ Reference.decode enc :=
  ⟨[0x40, 0x26, 0x41], escaped_newline (by decide), by decide, by decide⟩

end MS.Extract
