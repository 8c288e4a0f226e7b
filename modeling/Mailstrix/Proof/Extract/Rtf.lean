import Mailstrix.Spec.Extract.Rtf

/-!
# Obfuscation of an object does not reach its bytes

What `decodeRTFHex` makes of an object with noise among its digits:

* `peek_content`: a group is skipped exactly if it is ignorable;
* `skip_content`: nothing within a group reaches the output as long as every group nested in it is ignorable too;
* `leak`: a nested group that is not ignorable has a text that does, since only the innermost group is looked at;
* `decode_digits`: the digits, paired, with such noise among them.
-/

namespace MS.Extract

open Framework
open Scan (ascii)

variable {st : HexState} {c : UInt8} {b raw letters parameter : Bytes} {s : Shape}

/-! ## Rounds of the loop -/

theorem decode_next {st' : HexState} {rest : Bytes} {n : Nat} (h : hexTurn st c rest = .next st' n) :
    decodeHexFrom st (c :: rest) = decodeHexFrom st' (rest.drop n) := by
  rw [decodeHexFrom, h]

theorem decode_done {rest out : Bytes} (h : hexTurn st c rest = .done out) : decodeHexFrom st (c :: rest) = out := by
  rw [decodeHexFrom, h]

/-- What was written when a round ends. -/
def HexTurn.output : HexTurn → Bytes
  | done out => out
  | next st _ => st.out

theorem appended_output (st : HexState) (out : Bytes) (n : Nat) : (st.appended out n).output = out := by
  unfold HexState.appended
  split <;> rfl

theorem control_output (st : HexState) (b : Bytes) : st.out <+: (control st b).output := by
  unfold control
  split
  · exact List.prefix_rfl
  · split
    · exact List.prefix_rfl
    · split
      · unfold escapedByte
        split
        · exact List.prefix_rfl
        · dsimp only
          split <;> rw [appended_output, List.append_assoc] <;> exact List.prefix_append _ _
      · exact List.prefix_rfl

/-- A round only appends to the output. -/
theorem hexTurn_output (st : HexState) (c : UInt8) (rest : Bytes) : st.out <+: (hexTurn st c rest).output := by
  unfold hexTurn
  split
  · split <;> exact List.prefix_rfl
  · split
    · split
      · exact List.prefix_rfl
      · split <;> exact List.prefix_rfl
    · split
      · exact List.prefix_rfl
      · split
        · exact control_output st rest
        · split
          · exact List.prefix_rfl
          · split
            · exact List.prefix_rfl
            · split
              · exact List.prefix_rfl
              · rw [appended_output]
                exact List.prefix_append _ _

theorem decode_prefix (st : HexState) (b : Bytes) : st.out <+: decodeHexFrom st b := by
  fun_induction decodeHexFrom st b with
  | case1 st => exact List.prefix_rfl
  | case2 st c rest out hturn =>
    have hout := hexTurn_output st c rest
    rwa [hturn] at hout
  | case3 st c rest st' n hturn ih =>
    have hout := hexTurn_output st c rest
    rw [hturn] at hout
    exact hout.trans ih

/-! ## The opening of a group -/

theorem isLower_of_dest {dest : Bytes} (h : dest ∈ rtfJunkDests) : ∀ c ∈ dest, isLower c := by
  have hall : ∀ dest ∈ rtfJunkDests, ∀ c ∈ dest, isLower c := by decide +kernel
  exact hall dest h

theorem nil_notMem_junk : [] ∉ rtfJunkDests := by decide +kernel

def IsBrace (c : UInt8) : Prop := c = 0x7b ∨ c = 0x7d

theorem IsBrace.plain (h : IsBrace c) : isBlank c = false ∧ isLower c = false ∧ c ≠ 0x5c ∧ c ≠ 0x2a := by
  rcases h with rfl | rfl <;> decide

theorem takeWhile_before {α : Type} {p : α → Bool} (a : List α) {b : List α} (hb : ∀ c ∈ b.head?, p c = false) :
    (a ++ b).takeWhile p = a.takeWhile p := by
  induction a with
  | nil => exact takeWhile_append_stop (a := []) nofun hb
  | cons c a ih =>
    rw [List.cons_append, List.takeWhile_cons, List.takeWhile_cons, ih]

theorem peek_blanks {blanks : Bytes} (hblanks : ∀ c ∈ blanks, isBlank c) (hb : ∀ c ∈ b.head?, isBlank c = false) :
    rtfPeekSkipGroup (blanks ++ b) = rtfPeekSkipGroup b := by
  have hdrop : b.dropWhile isBlank = b := dropWhile_append_stop (a := []) nofun hb
  rw [rtfPeekSkipGroup, rtfPeekSkipGroup, dropWhile_append_stop hblanks hb, hdrop]

theorem peek_word (b : Bytes) (hc : c ≠ 0x2a) :
    rtfPeekSkipGroup (0x5c :: c :: b) = rtfJunkDests.contains ((c :: b).takeWhile isLower) := by
  unfold rtfPeekSkipGroup
  rw [show (0x5c :: c :: b).dropWhile isBlank = 0x5c :: c :: b from rfl]
  split
  · rename_i heq
    exact absurd (List.cons.inj (List.cons.inj heq).2).1 hc
  · rename_i heq
    rw [(List.cons.inj heq).2]
  · rename_i hne
    exact absurd rfl (hne _)

theorem peek_other (b : Bytes) (hblank : isBlank c = false) (hc : c ≠ 0x5c) : rtfPeekSkipGroup (c :: b) = false := by
  unfold rtfPeekSkipGroup
  rw [show (c :: b).dropWhile isBlank = c :: b by simp [hblank]]
  split
  · rename_i heq
    exact absurd (List.cons.inj heq).1 hc
  · rename_i heq
    exact absurd (List.cons.inj heq).1 hc
  · rfl

/-- What a group is opened by stands before the first brace within it. -/
theorem peek_iff {brace : UInt8} (hbrace : IsBrace brace) :
    rtfPeekSkipGroup (raw ++ brace :: b) = true ↔ Ignorable raw := by
  obtain ⟨hblank, hlower, hslash, hstar⟩ := hbrace.plain
  constructor
  · intro hpeek
    have hsplit : raw = raw.takeWhile isBlank ++ raw.dropWhile isBlank := List.takeWhile_append_dropWhile.symm
    have hblanks : ∀ c ∈ raw.takeWhile isBlank, isBlank c := fun c hc => List.all_eq_true.1 List.all_takeWhile c hc
    have hhead := head_dropWhile (p := isBlank) raw
    generalize raw.takeWhile isBlank = blanks at hsplit hblanks
    generalize raw.dropWhile isBlank = opening at hsplit hhead
    subst hsplit
    have hstop : ∀ c ∈ (opening ++ brace :: b).head?, isBlank c = false := by
      cases opening with
      | nil => simpa using hblank
      | cons c opening => simpa using hhead c rfl
    rw [List.append_assoc, peek_blanks hblanks hstop] at hpeek
    rcases opening with - | ⟨c, opening⟩
    · rw [List.nil_append, peek_other b hblank hslash] at hpeek
      cases hpeek
    · rw [List.cons_append] at hpeek hstop
      by_cases hc : c = 0x5c
      · subst hc
        rcases opening with - | ⟨d, opening⟩
        · rw [List.nil_append, peek_word b hstar, List.takeWhile_cons_of_neg (by simp [hlower]),
            List.contains_iff_mem] at hpeek
          exact absurd hpeek nil_notMem_junk
        · by_cases hd : d = 0x2a
          · subst hd
            exact ⟨blanks, opening, hblanks, .inl rfl⟩
          · rw [List.cons_append, peek_word _ hd, List.contains_iff_mem, ← List.cons_append] at hpeek
            generalize d :: opening = word at hpeek ⊢
            refine ⟨blanks, word.dropWhile isLower, hblanks, .inr ⟨word.takeWhile isLower, ?_, ?_, head_dropWhile _⟩⟩
            · rwa [takeWhile_before word (by simpa using hlower)] at hpeek
            · rw [List.takeWhile_append_dropWhile]
      · rw [peek_other _ (hstop c rfl) hc] at hpeek
        cases hpeek
  · rintro ⟨blanks, rest, hblanks, rfl | ⟨dest, hdest, rfl, hrest⟩⟩
    · rw [List.append_assoc, peek_blanks hblanks (by simp [isBlank])]
      rfl
    · rw [List.append_assoc, peek_blanks hblanks (by simp [isBlank])]
      have hword : (dest ++ (rest ++ brace :: b)).takeWhile isLower = dest := by
        refine takeWhile_append_stop (isLower_of_dest hdest) ?_
        cases rest with
        | nil => simpa using hlower
        | cons c rest => simpa using hrest c rfl
      rcases dest with - | ⟨c, dest⟩
      · exact absurd hdest nil_notMem_junk
      · have hc : c ≠ 0x2a := by
          rintro rfl
          exact absurd (isLower_of_dest hdest 0x2a List.mem_cons_self) (by decide)
        rw [List.cons_append, List.append_assoc, List.cons_append, peek_word _ hc, ← List.cons_append, hword]
        exact List.contains_iff_mem.2 hdest

theorem bytes_opening (content : Content) (b : Bytes) :
    ∃ brace tail, IsBrace brace ∧ content.bytes ++ 0x7d :: b = content.opening ++ brace :: tail := by
  cases content with
  | text raw => exact ⟨0x7d, b, .inr rfl, rfl⟩
  | group raw inner rest =>
    exact ⟨0x7b, inner.bytes ++ 0x7d :: rest.bytes ++ 0x7d :: b, .inl rfl, by simp [Content.bytes, Content.opening]⟩

/-- A group is skipped exactly if it is ignorable. -/
theorem peek_content (content : Content) (b : Bytes) :
    rtfPeekSkipGroup (content.bytes ++ 0x7d :: b) = true ↔ Ignorable content.opening := by
  obtain ⟨brace, tail, hbrace, heq⟩ := bytes_opening content b
  rw [heq]
  exact peek_iff hbrace

/-! ## Groups -/

/-- Within one more group. -/
def HexState.enter (st : HexState) (skip : Bool) : HexState := { st with skipStack := skip :: st.skipStack }

/-- A group is opened, with the stack not full. -/
theorem decode_open (hroom : st.skipStack.length < maxSkipStack) (b : Bytes) :
    decodeHexFrom st (0x7b :: b) = decodeHexFrom (st.enter (rtfPeekSkipGroup b)) b := by
  have hturn : hexTurn st 0x7b b = .next (st.enter (rtfPeekSkipGroup b)) 0 := by
    rw [hexTurn, if_pos rfl, if_neg (Nat.not_le_of_lt hroom), HexState.enter]
  rw [decode_next hturn, List.drop_zero]

/-- The innermost group is closed. -/
theorem decode_close (hover : st.overflow = 0) (skip : Bool) (b : Bytes) :
    decodeHexFrom (st.enter skip) (0x7d :: b) = decodeHexFrom st b := by
  have hturn : hexTurn (st.enter skip) 0x7d b = .next st 0 := by
    rw [hexTurn, if_neg (by decide), if_pos rfl, if_neg (by simp [HexState.enter, hover])]
    rfl
  rw [decode_next hturn, List.drop_zero]

/-- The group of the object is closed. -/
theorem decode_end (hover : st.overflow = 0) (hstack : st.skipStack = []) (b : Bytes) :
    decodeHexFrom st (0x7d :: b) = st.out := by
  have hturn : hexTurn st 0x7d b = .done st.out := by
    simp [hexTurn, hover, hstack]
  exact decode_done hturn

/-- Text directly within a group that is skipped. -/
theorem skip_text (st : HexState) (hraw : ∀ c ∈ raw, c ≠ 0x7b ∧ c ≠ 0x7d) (b : Bytes) :
    decodeHexFrom (st.enter true) (raw ++ b) = decodeHexFrom (st.enter true) b := by
  induction raw with
  | nil => rfl
  | cons c raw ih =>
    obtain ⟨hopen, hclose⟩ := hraw c List.mem_cons_self
    have hskip : (st.enter true).inSkipGroup = true := by simp [HexState.inSkipGroup, HexState.enter]
    have hturn : hexTurn (st.enter true) c (raw ++ b) = .next (st.enter true) 0 := by
      rw [hexTurn, if_neg hopen, if_neg hclose, if_pos hskip]
    rw [List.cons_append, decode_next hturn, List.drop_zero, ih fun d hd => hraw d (List.mem_cons_of_mem c hd)]

theorem covered_group {inner rest : Content} :
    (Content.group raw inner rest).shape.Covered ↔
      Ignorable inner.opening ∧ inner.shape.Covered ∧ rest.shape.Covered := by
  simp [Content.shape, Shape.Covered]

/-- Nothing within a skipped group reaches the output if all groups in it are skipped as well. -/
theorem skip_content (content : Content) (hover : st.overflow = 0)
    (hroom : st.skipStack.length + content.shape.depth < maxSkipStack) (hplain : content.Unbraced)
    (hcovered : content.shape.Covered) (b : Bytes) :
    decodeHexFrom (st.enter true) (content.bytes ++ 0x7d :: b) = decodeHexFrom st b := by
  induction content generalizing st b with
  | text raw =>
    have hraw : Unbraced raw := hplain
    rw [Content.bytes, skip_text st hraw.brace, decode_close hover]
  | group raw inner rest ihinner ihrest =>
    obtain ⟨hraw, hinner, hrest⟩ := hplain
    obtain ⟨hignorable, hcinner, hcrest⟩ := covered_group.1 hcovered
    have hdepth : (Content.group raw inner rest).shape.depth = max (inner.shape.depth + 1) rest.shape.depth := rfl
    have hlen : (st.enter true).skipStack.length = st.skipStack.length + 1 := rfl
    have hpeek := (peek_content inner (rest.bytes ++ 0x7d :: b)).2 hignorable
    -- the inner group is entered from within the outer one, the rest is read there again
    have hgroup := @ihinner (st.enter true) hover (by omega) hinner hcinner (rest.bytes ++ 0x7d :: b)
    rw [Content.bytes, List.append_assoc, skip_text st hraw.brace, List.cons_append, List.append_assoc, List.cons_append,
      decode_open (by omega), hpeek, hgroup]
    exact ihrest hover (by omega) hrest hcrest b

/-! ## Noise between the digits -/

/-- Between the digits: in no group. -/
structure Outside (st : HexState) : Prop where
  overflow : st.overflow = 0
  skipStack : st.skipStack = []

theorem Outside.not_skip (h : Outside st) : st.inSkipGroup = false := by
  simp [HexState.inSkipGroup, h.overflow, h.skipStack]

theorem skip_blank (h : Outside st) (hc : isBlank c) (b : Bytes) : decodeHexFrom st (c :: b) = decodeHexFrom st b := by
  have hne : c ≠ 0x7b ∧ c ≠ 0x7d ∧ c ≠ 0x5c := by
    refine ⟨?_, ?_, ?_⟩ <;> rintro rfl <;> exact absurd hc (by decide)
  have hturn : hexTurn st c b = .next st 0 := by
    rw [hexTurn, if_neg hne.1, if_neg hne.2.1, h.not_skip, if_neg (by decide), if_neg hne.2.2, if_pos hc]
  rw [decode_next hturn, List.drop_zero]

theorem skip_control (h : Outside st) {n : Nat} (hcontrol : control st b = .next st n) :
    decodeHexFrom st (0x5c :: b) = decodeHexFrom st (b.drop n) := by
  refine decode_next ?_
  rw [hexTurn, if_neg (by decide), if_neg (by decide), h.not_skip, if_neg (by decide), if_pos rfl, hcontrol]

theorem not_lower_of_decimal (h : isDecimal c) : isLower c = false := by
  simp only [isDecimal, Bool.and_eq_true, decide_eq_true_eq, UInt8.le_iff_toNat_le] at h
  simp only [isLower, Bool.and_eq_false_iff, decide_eq_false_iff_not, UInt8.le_iff_toNat_le]
  have h₁ : (0x39 : UInt8).toNat = 0x39 := rfl
  have h₂ : (0x61 : UInt8).toNat = 0x61 := rfl
  omega

theorem Parameter.head {p : Bytes} (h : Parameter p) (b : Bytes) : ∀ c ∈ (p ++ 0x20 :: b).head?, isLower c = false := by
  rcases h with rfl | ⟨c, digits, rfl, rfl | hc, -⟩
  · simp [isLower]
  · simp [isLower]
  · simpa using not_lower_of_decimal hc

theorem takeWhile_word (hletters : ∀ c ∈ letters, isLower c) (hparam : Parameter parameter) (b : Bytes) :
    (letters ++ (parameter ++ 0x20 :: b)).takeWhile isLower = letters :=
  takeWhile_append_stop hletters (hparam.head b)

/-- Only the word `bin` itself can have a count. -/
theorem binLength_none (h : b.takeWhile isLower ≠ ascii "bin") : binLength b = none := by
  unfold binLength
  split
  · rename_i hbin
    obtain ⟨t, rfl⟩ := List.isPrefixOf_iff_prefix.1 hbin
    have hdigits : ((ascii "bin" ++ t).drop 3).takeWhile isDecimal = [] := by
      rw [show (ascii "bin" ++ t).drop 3 = t from rfl]
      rcases t with - | ⟨c, t⟩
      · rfl
      · refine List.takeWhile_cons_of_neg ?_
        intro hc
        refine h ?_
        exact takeWhile_append_stop (List.forall_iff_forall_mem.1 (by decide)) (by simpa using not_lower_of_decimal hc)
    rw [hdigits]
    rfl
  · rfl

theorem controlLength_word (hne : letters ≠ []) (hletters : ∀ c ∈ letters, isLower c) (hparam : Parameter parameter)
    (b : Bytes) : controlLength (letters ++ (parameter ++ 0x20 :: b)) = letters.length + parameter.length + 1 := by
  have hpos : letters.length ≠ 0 := by simpa using hne
  unfold controlLength
  rw [takeWhile_word hletters hparam]
  dsimp only
  rw [if_neg hpos, List.drop_left]
  rcases hparam with rfl | ⟨c, digits, rfl, hc, hdigits⟩
  · simp [isDecimal]
  · have htake : (digits ++ 0x20 :: b).takeWhile isDecimal = digits := takeWhile_append_stop hdigits (by simp [isDecimal])
    have hdrop : (letters ++ (c :: digits ++ 0x20 :: b)).drop (letters.length + (1 + digits.length)) = 0x20 :: b := by
      simp [List.drop_append, Nat.add_comm 1]
    simp only [List.cons_append, if_pos hc, htake] at hdrop ⊢
    simp only [hdrop, List.head?_cons, if_true, List.length_cons]
    rw [Nat.add_comm 1]

theorem skip_word (h : Outside st) (hne : letters ≠ []) (hletters : ∀ c ∈ letters, isLower c)
    (hbin : letters ≠ ascii "bin") (hparam : Parameter parameter) (b : Bytes) :
    decodeHexFrom st (0x5c :: (letters ++ (parameter ++ 0x20 :: b))) = decodeHexFrom st b := by
  have hnone : binLength (letters ++ (parameter ++ 0x20 :: b)) = none :=
    binLength_none (by rwa [takeWhile_word hletters hparam])
  have hlength := controlLength_word hne hletters hparam b
  have hcontrol : control st (letters ++ (parameter ++ 0x20 :: b)) = .next st (letters.length + parameter.length + 1) := by
    rcases letters with - | ⟨c, letters⟩
    · exact absurd rfl hne
    · have hc : c ≠ 0x27 := by
        rintro rfl
        exact absurd (hletters _ List.mem_cons_self) (by decide)
      rw [List.cons_append] at hnone hlength ⊢
      simp only [control, hnone, if_neg hc, hlength]
  have hdrop : (letters ++ (parameter ++ 0x20 :: b)).drop (letters.length + parameter.length + 1) = b := by
    rw [show letters ++ (parameter ++ 0x20 :: b) = (letters ++ parameter ++ [0x20]) ++ b by simp]
    exact List.drop_left' (by simp [Nat.add_assoc])
  rw [skip_control h hcontrol, hdrop]

/-- Noise whose groups are covered leaves no trace. -/
theorem skip_noise (h : Outside st) {n : Noise} (hn : n.Within Shape.Covered) (b : Bytes) :
    decodeHexFrom st (n.bytes ++ b) = decodeHexFrom st b := by
  cases n with
  | blank c => exact skip_blank h hn b
  | word letters parameter =>
    obtain ⟨hne, hletters, hbin, hparam⟩ := hn
    have htext : (Noise.word letters parameter).bytes ++ b = 0x5c :: (letters ++ (parameter ++ 0x20 :: b)) := by
      simp [Noise.bytes]
    rw [htext, skip_word h hne hletters hbin hparam]
  | group content =>
    obtain ⟨hignorable, hplain, hdepth, hcovered⟩ := hn
    have htext : (Noise.group content).bytes ++ b = 0x7b :: (content.bytes ++ 0x7d :: b) := by
      simp [Noise.bytes]
    have hlen : st.skipStack.length = 0 := by rw [h.skipStack]; rfl
    rw [htext, decode_open (by rw [hlen]; decide), (peek_content content b).2 hignorable,
      skip_content content h.overflow (by omega) hplain hcovered]

theorem skip_noiseText (h : Outside st) {noise : List Noise} (hnoise : ∀ n ∈ noise, n.Within Shape.Covered) (b : Bytes) :
    decodeHexFrom st (noiseText noise ++ b) = decodeHexFrom st b := by
  induction noise with
  | nil => rfl
  | cons n noise ih =>
    have htext : noiseText (n :: noise) ++ b = n.bytes ++ (noiseText noise ++ b) := by
      simp [noiseText]
    rw [htext, skip_noise h (hnoise n List.mem_cons_self), ih fun m hm => hnoise m (List.mem_cons_of_mem n hm)]

/-! ## Digits -/

theorem nibbleOf_none (h : c = 0x7b ∨ c = 0x7d ∨ c = 0x5c ∨ isBlank c) : nibbleOf c = none := by
  simp only [isBlank, Bool.or_eq_true, beq_iff_eq] at h
  rcases h with rfl | rfl | rfl | ((rfl | rfl) | rfl) | rfl <;> rfl

theorem hexTurn_digit (h : Outside st) {nibble : UInt8} (hc : nibbleOf c = some nibble) (b : Bytes) :
    hexTurn st c b = match st.hi with
      | none => .next { st with hi := some nibble } 0
      | some hi => st.appended (st.out ++ [hi <<< 4 ||| nibble]) 0 := by
  have hplain : ¬ (c = 0x7b ∨ c = 0x7d ∨ c = 0x5c ∨ isBlank c) := by
    intro hother
    rw [nibbleOf_none hother] at hc
    cases hc
  simp only [not_or] at hplain
  rw [hexTurn, if_neg hplain.1, if_neg hplain.2.1, h.not_skip, if_neg (by decide), if_neg hplain.2.2.1,
    if_neg hplain.2.2.2]
  cases hhi : st.hi <;> simp only [hc]

theorem join_halves (x : UInt8) : (x >>> 4) <<< 4 ||| (x &&& 0x0f) = x := by
  have hall : ∀ x : BitVec 8, (x >>> 4) <<< 4 ||| (x &&& 0x0f) = x := by decide +kernel
  exact UInt8.eq_of_toBitVec_eq (hall x.toBitVec)

/-- A byte from its two digits. -/
theorem decode_pair (h : Outside st) (hhi : st.hi = none) {x d : UInt8} (hc : nibbleOf c = some (x >>> 4))
    (hd : nibbleOf d = some (x &&& 0x0f)) (hlen : st.out.length + 1 < maxBytesPerRTFObject) {between : List Noise}
    (hbetween : ∀ n ∈ between, n.Within Shape.Covered) (b : Bytes) :
    decodeHexFrom st (c :: (noiseText between ++ d :: b)) = decodeHexFrom { st with out := st.out ++ [x] } b := by
  have hturn := hexTurn_digit h hc (noiseText between ++ d :: b)
  rw [hhi] at hturn
  have hhalf : Outside { st with hi := some (x >>> 4) } := ⟨h.overflow, h.skipStack⟩
  have hturn' : hexTurn { st with hi := some (x >>> 4) } d b = .next { st with out := st.out ++ [x] } 0 := by
    rw [hexTurn_digit hhalf hd]
    dsimp only
    rw [join_halves, HexState.appended, if_neg (by simpa using hlen)]
    simp [hhi]
  rw [decode_next hturn, List.drop_zero, skip_noiseText hhalf hbetween, decode_next hturn', List.drop_zero]

/-- The digits of an object, up to the brace behind them. -/
theorem decode_digits {object : Bytes} {digits : List (UInt8 × List Noise)}
    (hspell : digits.map (fun d => nibbleOf d.1) = (nibbles object).map some)
    (hwithin : ∀ d ∈ digits, ∀ n ∈ d.2, n.Within Shape.Covered) (h : Outside st) (hhi : st.hi = none)
    (hlen : st.out.length + object.length < maxBytesPerRTFObject) (b : Bytes) :
    decodeHexFrom st (Obfuscated.digitsText digits ++ 0x7d :: b) = st.out ++ object := by
  induction object generalizing st digits with
  | nil =>
    obtain rfl : digits = [] := by simpa [nibbles] using hspell
    rw [Obfuscated.digitsText, List.flatMap_nil, List.nil_append, decode_end h.overflow h.skipStack, List.append_nil]
  | cons x object ih =>
    have hnibbles : nibbles (x :: object) = x >>> 4 :: (x &&& 0x0f) :: nibbles object := rfl
    rw [hnibbles] at hspell
    rcases digits with - | ⟨c, - | ⟨d, digits⟩⟩
    · simp at hspell
    · simp at hspell
    · simp only [List.map_cons, List.cons.injEq] at hspell
      obtain ⟨hc, hd, hspell⟩ := hspell
      simp only [List.mem_cons, forall_eq_or_imp] at hwithin
      obtain ⟨hbetween, hbehind, hwithin⟩ := hwithin
      have htext : Obfuscated.digitsText (c :: d :: digits) ++ 0x7d :: b =
          c.1 :: (noiseText c.2 ++ d.1 :: (noiseText d.2 ++ (Obfuscated.digitsText digits ++ 0x7d :: b))) := by
        simp [Obfuscated.digitsText]
      rw [List.length_cons] at hlen
      have hnext : Outside { st with out := st.out ++ [x] } := ⟨h.overflow, h.skipStack⟩
      rw [htext, decode_pair h hhi hc hd (by omega) hbetween, skip_noiseText hnext hbehind,
        ih hspell hwithin hnext hhi (by rw [List.length_append, List.length_singleton]; omega)]
      simp

theorem decode_covered {object : Bytes} {o : Obfuscated} (hspell : o.Spells object) (hwithin : o.Within Shape.Covered)
    (hlen : object.length < maxBytesPerRTFObject) (b : Bytes) : decodeRTFHex (o.text ++ 0x7d :: b) = object := by
  have hout : Outside {} := ⟨rfl, rfl⟩
  rw [decodeRTFHex, Obfuscated.text, List.append_assoc, skip_noiseText hout hwithin.1,
    decode_digits hspell hwithin.2 hout rfl (by simpa using hlen)]
  rfl

/-! ## Groups that are not ignorable -/

def starText : Bytes := [0x5c, 0x2a]

/-- Two digits, that open no ignorable group. -/
def digitText : Bytes := [0x34, 0x31]

/-- A text of the given shape, whose groups hold two digits where they are not ignorable. -/
def fill (opening : Bytes) : Shape → Content
  | .flat => .text opening
  | .nest ignorable inner rest => .group opening (fill (if ignorable then starText else digitText) inner) (fill [] rest)

theorem opening_fill (opening : Bytes) (s : Shape) : (fill opening s).opening = opening := by
  cases s <;> rfl

theorem ignorable_star : Ignorable starText := ⟨[], [], nofun, .inl rfl⟩

theorem not_ignorable_digit : ¬ Ignorable digitText := by
  intro h
  have hpeek := (peek_iff (b := []) (.inr rfl : IsBrace 0x7d)).2 h
  exact absurd hpeek (by decide)

theorem shape_fill (opening : Bytes) (s : Shape) : (fill opening s).shape = s := by
  induction s generalizing opening with
  | flat => rfl
  | nest ignorable inner rest ihinner ihrest =>
    rw [fill, Content.shape, ihinner, ihrest, opening_fill]
    cases ignorable with
    | true => simp [ignorable_star]
    | false => simp [not_ignorable_digit]

theorem unbraced_short (hbrace : raw.Forall fun c => c ≠ 0x7b ∧ c ≠ 0x7d)
    (hescape : (raw.reverse.takeWhile (· == 0x5c)).length % 2 = 0) (hlen : raw.length < 4) : Unbraced raw := by
  refine ⟨List.forall_iff_forall_mem.1 hbrace, hescape, ?_⟩
  rintro front rest rfl
  simp [ascii] at hlen
  omega

theorem unbraced_fill {opening : Bytes} (h : Unbraced opening) (s : Shape) : (fill opening s).Unbraced := by
  induction s generalizing opening with
  | flat => exact h
  | nest ignorable inner rest ihinner ihrest =>
    refine ⟨h, ihinner ?_, ihrest (unbraced_short (by decide) (by decide) (by decide))⟩
    cases ignorable with
    | true => exact unbraced_short (by decide) (by decide) (by decide)
    | false => exact unbraced_short (by decide) (by decide) (by decide)

theorem ne_nil_of_out (h : st.out ≠ []) (b : Bytes) : decodeHexFrom st b ≠ [] :=
  fun hnil => h (List.prefix_nil.1 (hnil ▸ decode_prefix st b))

/-- Two digits directly within a group that is not ignorable, whatever groups are around it. -/
theorem decode_leak (hover : st.overflow = 0) (hout : st.out = []) (hhi : st.hi = none) (b : Bytes) :
    decodeHexFrom (st.enter false) (digitText ++ b) ≠ [] := by
  have h₁ : hexTurn (st.enter false) 0x34 (0x31 :: b) = .next { st.enter false with hi := some 4 } 0 := by
    simp [hexTurn, HexState.enter, HexState.inSkipGroup, hover, hhi, isBlank, nibbleOf]
  have h₂ : hexTurn { st.enter false with hi := some 4 } 0x31 b =
      .next { st.enter false with out := [0x41], hi := none } 0 := by
    simp [hexTurn, HexState.enter, HexState.inSkipGroup, hover, hout, isBlank, nibbleOf, HexState.appended,
      maxBytesPerRTFObject]
    rfl
  rw [show digitText ++ b = 0x34 :: 0x31 :: b from rfl, decode_next h₁, List.drop_zero, decode_next h₂]
  exact ne_nil_of_out (by simp) _

theorem bytes_fill (opening : Bytes) (s : Shape) : ∃ tail, (fill opening s).bytes = opening ++ tail := by
  cases s with
  | flat => exact ⟨[], (List.append_nil _).symm⟩
  | nest ignorable inner rest => exact ⟨_, rfl⟩

/-- If not all groups within a skipped group are ignorable, there is a text for them that reaches the output. -/
theorem leak (hs : ¬ s.Covered) {opening : Bytes} (hopening : Unbraced opening) (hover : st.overflow = 0)
    (hout : st.out = []) (hhi : st.hi = none) (hroom : st.skipStack.length + s.depth < maxSkipStack) (b : Bytes) :
    decodeHexFrom (st.enter true) ((fill opening s).bytes ++ 0x7d :: b) ≠ [] := by
  induction s generalizing opening st b with
  | flat => exact absurd trivial hs
  | nest ignorable inner rest ihinner ihrest =>
    have hdepth : (Shape.nest ignorable inner rest).depth = max (inner.depth + 1) rest.depth := rfl
    have hlen : (st.enter true).skipStack.length = st.skipStack.length + 1 := rfl
    rw [fill, Content.bytes, List.append_assoc, skip_text st hopening.brace, List.cons_append, List.append_assoc,
      List.cons_append, decode_open (by omega)]
    cases ignorable with
    | false =>
      have hpeek : rtfPeekSkipGroup ((fill digitText inner).bytes ++ 0x7d :: ((fill [] rest).bytes ++ 0x7d :: b)) = false := by
        rw [Bool.eq_false_iff, ne_eq, peek_content, opening_fill]
        exact not_ignorable_digit
      obtain ⟨tail, htail⟩ := bytes_fill digitText inner
      rw [if_neg (by decide), hpeek, htail, List.append_assoc]
      exact @decode_leak (st.enter true) hover hout hhi _
    | true =>
      have hstar : Unbraced starText := unbraced_short (by decide) (by decide) (by decide)
      have hnil : Unbraced [] := unbraced_short (by decide) (by decide) (by decide)
      have hpeek : rtfPeekSkipGroup ((fill starText inner).bytes ++ 0x7d :: ((fill [] rest).bytes ++ 0x7d :: b)) = true := by
        rw [peek_content, opening_fill]
        exact ignorable_star
      rw [if_pos rfl, hpeek]
      -- the first group that is not ignorable is within this one, or behind it
      by_cases hinner : inner.Covered
      · have hrest : ¬ rest.Covered := fun hrest => hs ⟨rfl, hinner, hrest⟩
        have hskip := @skip_content (st.enter true) (fill starText inner) hover (by rw [shape_fill]; omega)
          (unbraced_fill hstar inner) (by rwa [shape_fill]) ((fill [] rest).bytes ++ 0x7d :: b)
        rw [hskip]
        exact ihrest hrest hnil hover hout hhi (by omega) b
      · exact @ihinner (st.enter true) hinner _ hstar hover hout hhi (by omega) _

/-- Noise of a shape that is not covered, with no digit around it. -/
theorem decode_uncovered (hdepth : s.depth < maxSkipStack) (hs : ¬ s.Covered) :
    decodeRTFHex ((Noise.group (fill starText s)).bytes ++ [0x7d]) ≠ [] := by
  have hpeek : rtfPeekSkipGroup ((fill starText s).bytes ++ [0x7d, 0x7d]) = true := by
    rw [peek_content, opening_fill]
    exact ignorable_star
  have htext : (Noise.group (fill starText s)).bytes ++ [0x7d] = 0x7b :: ((fill starText s).bytes ++ [0x7d, 0x7d]) := by
    simp [Noise.bytes]
  rw [decodeRTFHex, htext, decode_open (by decide), hpeek]
  exact @leak {} s hs _ (unbraced_short (by decide) (by decide) (by decide)) rfl rfl rfl (by simpa using hdepth) _

theorem within_fill {allowed : Shape → Prop} (hallowed : allowed s) (hdepth : s.depth < maxSkipStack) :
    (Noise.group (fill starText s)).Within allowed := by
  refine ⟨?_, unbraced_fill (unbraced_short (by decide) (by decide) (by decide)) s, ?_, ?_⟩
  · rw [opening_fill]
    exact ignorable_star
  · rwa [shape_fill]
  · rwa [shape_fill]

/-- Obfuscation with groups of the shapes `allowed`, whatever their texts, leaves every object as it is exactly if all
groups nested in those are ignorable themselves. -/
theorem decodeRTFHex_obfuscated_iff (allowed : Shape → Prop) :
    (∀ (object : Bytes) (o : Obfuscated) (behind : Bytes), object.length < maxBytesPerRTFObject → o.Spells object →
        o.Within allowed → decodeRTFHex (o.text ++ 0x7d :: behind) = object) ↔
      ∀ s, allowed s → s.depth < maxSkipStack → s.Covered := by
  constructor
  · intro h s hallowed hdepth
    by_contra hs
    have hnil := h [] ⟨[.group (fill starText s)], []⟩ [] (by decide) rfl
      ⟨List.forall_mem_singleton.2 (within_fill hallowed hdepth), nofun⟩
    have htext : (Obfuscated.mk [.group (fill starText s)] []).text = (Noise.group (fill starText s)).bytes := by
      simp [Obfuscated.text, Obfuscated.digitsText, noiseText]
    rw [htext] at hnil
    exact decode_uncovered hdepth hs hnil
  · intro h object o behind hlen hspell hwithin
    have hcover : ∀ {n : Noise}, n.Within allowed → n.Within Shape.Covered := by
      intro n hn
      cases n with
      | blank c => exact hn
      | word letters parameter => exact hn
      | group content => exact ⟨hn.1, hn.2.1, hn.2.2.1, h _ hn.2.2.2 hn.2.2.1⟩
    exact decode_covered hspell ⟨fun n hn => hcover (hwithin.1 n hn), fun d hd n hn => hcover (hwithin.2 d hd n hn)⟩
      hlen behind

/-- `41{\*{41}}43}`: the digits of the inner group are taken for digits of the object. -/
theorem decodeRTFHex_inner_group : ∃ (object : Bytes) (o : Obfuscated) (behind : Bytes),
    object.length < maxBytesPerRTFObject ∧ o.Spells object ∧ o.Within (fun _ => True) ∧
      decodeRTFHex (o.text ++ 0x7d :: behind) ≠ object := by
  refine ⟨[0x41, 0x43], ⟨[], [(0x34, []), (0x31, [.group (fill starText (.nest false .flat .flat))]), (0x34, []),
    (0x33, [])]⟩, [], by decide, rfl, ⟨nofun, ?_⟩, ?_⟩
  · simp only [List.forall_mem_cons]
    exact ⟨nofun, ⟨within_fill trivial (by decide), nofun⟩, nofun, nofun, nofun⟩
  · have htext : decodeRTFHex (ascii "41\x7b\\*\x7b41\x7d\x7d43\x7d") = [0x41, 0x41, 0x43] := by decide +kernel
    exact ne_of_eq_of_ne htext (by decide)

end MS.Extract
