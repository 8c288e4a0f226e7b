import Mailstrix.Impl.Extract.Fold

/-!
# The gate before the static decoders

What `mayBeEncoded` tells by its scan of the first mebibyte (`unmarked_of_gate`), and what each decoder needs to find:

* `eachRun_quiet`, `decSeq_quiet`: a decoder of runs needs a run that the scan sees;
* `chr_marked`, `word_marked`: an expression needs one of the markers;
* `gate_quiet`: within that window no decoder finds anything that the scan does not see;
* `decSeq_late`: behind it one does.
-/

namespace MS.Extract

open Framework
open Framework.Regex
open Scan (ascii)

variable {p q : UInt8 → Bool} {k : Nat} {s : Prefilter} {rest b w src front : Bytes} {rs : List (Regex UInt8)}

/-! ## Runs -/

/-- The text has `k` bytes of a kind in a row. -/
def LongRun (p : UInt8 → Bool) (k : Nat) (text : Bytes) : Prop := ∃ x, x <:+: text ∧ (∀ c ∈ x, p c) ∧ k ≤ x.length

theorem LongRun.mono {l : Nat} {text : Bytes} (h : LongRun p k text) (hpq : ∀ c, p c → q c) (hlk : l ≤ k) :
    LongRun q l text := by
  obtain ⟨x, hx, hp, hk⟩ := h
  exact ⟨x, hx, fun c hc => hpq c (hp c hc), hlk.trans hk⟩

/-- A counter of the scan that stops it at `k`. -/
theorem prefilter_run {run : Prefilter → Nat} (hnext : ∀ s c, run (s.next c) = if p c then run s + 1 else 0)
    (hstop : ∀ s c rest, (prefilter s (c :: rest)).isSome → run (s.next c) < k) {text : Bytes} (hs : run s < k)
    (h : (prefilter s text).isSome) :
    (∀ x, x <+: text → (∀ c ∈ x, p c) → run s + x.length < k) ∧ ¬ LongRun p k text := by
  induction text generalizing s with
  | nil =>
    have hfront : ∀ x, x <+: ([] : Bytes) → (∀ c ∈ x, p c) → run s + x.length < k := by
      intro x hx _
      rw [List.prefix_nil.1 hx]
      exact hs
    refine ⟨hfront, ?_⟩
    rintro ⟨x, hx, -, hk⟩
    rw [List.infix_nil.1 hx] at hk
    exact absurd (Nat.lt_of_le_of_lt (Nat.zero_le _) hs) (Nat.not_lt.2 hk)
  | cons c rest ih =>
    have hc := hstop s c rest h
    have hrest : (prefilter (s.next c) rest).isSome := by
      rw [prefilter] at h
      split at h
      · cases h
      · exact h
    obtain ⟨ihfront, ihrun⟩ := ih hc hrest
    have hfront : ∀ x, x <+: c :: rest → (∀ c ∈ x, p c) → run s + x.length < k := by
      intro x hx hp
      rcases List.prefix_cons_iff.1 hx with rfl | ⟨y, rfl, hy⟩
      · exact hs
      · have hpc := hp c List.mem_cons_self
        have := ihfront y hy fun d hd => hp d (List.mem_cons_of_mem c hd)
        rw [hnext, if_pos hpc] at this
        rw [List.length_cons]
        omega
    refine ⟨hfront, ?_⟩
    rintro ⟨x, hx, hp, hk⟩
    rcases List.infix_cons_iff.1 hx with hx | hx
    · have := hfront x hx hp
      omega
    · exact ihrun ⟨x, hx, hp, hk⟩

theorem prefilter_stop {c : UInt8} (h : (prefilter s (c :: rest)).isSome) :
    (s.next c).b64Run < minPrefilterRun ∧ (s.next c).decRun < minPrefilterDecRun := by
  rw [prefilter] at h
  split at h
  · cases h
  · omega

theorem prefilter_quotes {t : Prefilter} {text : Bytes} (h : prefilter s text = some t) :
    t.hasQuote = (s.hasQuote || text.any (· == 0x22)) ∧
      t.hasConcatOp = (s.hasConcatOp || text.any fun c => c == 0x26 || c == 0x2b) := by
  induction text generalizing s with
  | nil =>
    obtain rfl := Option.some.inj h
    simp
  | cons c rest ih =>
    rw [prefilter] at h
    split at h
    · cases h
    · obtain ⟨hquote, hop⟩ := ih h
      rw [hquote, hop]
      simp [Prefilter.next, Bool.or_assoc]

/-- What the scan does not see in a text that it lets go. -/
structure Unmarked (text : Bytes) : Prop where
  base64 : ¬ LongRun isBase64 minPrefilterRun text
  decimal : ¬ LongRun (fun c => isDecimal c || isSeparator c) minPrefilterDecRun text
  concat : ¬ (text.any (· == 0x22) = true ∧ (text.any fun c => c == 0x26 || c == 0x2b) = true)
  marker : ∀ m ∈ prefilterMarkers ++ reversedMarkers, containsFold m text = false

theorem not_long_nil (hk : 0 < k) : ¬ LongRun p k [] := by
  rintro ⟨x, hx, -, hlen⟩
  rw [List.infix_nil.1 hx] at hlen
  exact absurd hlen (Nat.not_le_of_lt hk)

theorem unmarked_nil : Unmarked [] :=
  ⟨not_long_nil (by decide), not_long_nil (by decide), by decide, by decide⟩

theorem unmarked_of_gate (h : mayBeEncoded b = false) : Unmarked (window b) := by
  by_cases hb : b = []
  · rw [hb]
    exact unmarked_nil
  rw [mayBeEncoded, if_neg hb] at h
  generalize hscan : prefilter {} (window b) = answer at h
  rcases answer with - | t
  · cases h
  · simp only [Bool.or_eq_false_iff] at h
    obtain ⟨⟨hconcat, hmarker⟩, hreversed⟩ := h
    have hsome : (prefilter {} (window b)).isSome := by rw [hscan]; rfl
    obtain ⟨hquote, hop⟩ := prefilter_quotes hscan
    refine ⟨?_, ?_, ?_, ?_⟩
    · exact (@prefilter_run _ _ {} Prefilter.b64Run (fun _ _ => rfl) (fun _ _ _ h => (prefilter_stop h).1)
        _ (by decide) hsome).2
    · exact (@prefilter_run _ _ {} Prefilter.decRun (fun _ _ => rfl) (fun _ _ _ h => (prefilter_stop h).2)
        _ (by decide) hsome).2
    · rintro ⟨h₁, h₂⟩
      rw [hquote, hop, h₁, h₂] at hconcat
      exact absurd hconcat (by decide)
    · intro m hm
      rcases List.mem_append.1 hm with hm | hm
      · simpa using List.any_eq_false.1 hmarker m hm
      · simpa using List.any_eq_false.1 hreversed m hm

/-! ## Markers -/

theorem containsFold_iff {needle text : Bytes} :
    containsFold needle text = true ↔ ∃ u, u <:+: text ∧ u.map asciiLower = needle := by
  induction text with
  | nil =>
    simp only [containsFold, List.isEmpty_iff, List.infix_nil]
    exact ⟨fun h => ⟨[], rfl, h.symm⟩, fun ⟨u, hu, hmap⟩ => by rw [← hmap, hu]; rfl⟩
  | cons c rest ih =>
    rw [containsFold, Bool.or_eq_true, ih, List.isPrefixOf_iff_prefix, List.prefix_map_iff]
    constructor
    · rintro (⟨u, hu, rfl⟩ | ⟨u, hu, hmap⟩)
      · exact ⟨u, hu.isInfix, rfl⟩
      · exact ⟨u, hu.trans (List.suffix_cons c rest).isInfix, hmap⟩
    · rintro ⟨u, hu, hmap⟩
      rcases List.infix_cons_iff.1 hu with hu | hu
      · exact .inl ⟨u, hu, hmap.symm⟩
      · exact .inr ⟨u, hu, hmap⟩

theorem containsFold_front {a text : Bytes} (h : containsFold (a ++ b) text = true) : containsFold a text = true := by
  obtain ⟨u, hu, hmap⟩ := containsFold_iff.1 h
  refine containsFold_iff.2 ⟨u.take a.length, (List.take_prefix _ u).isInfix.trans hu, ?_⟩
  rw [List.map_take, hmap, List.take_left]

theorem mem_fold_list {l : Bytes} (h : w ∈ (seqs (l.map fun c => set fun d => asciiLower d == asciiLower c)).lang) :
    w.map asciiLower = l.map asciiLower := by
  induction l generalizing w with
  | nil => rw [show w = [] from h]
  | cons c l ih =>
    obtain ⟨u, ⟨d, hd, rfl⟩, v, hv, rfl⟩ := mem_seqs.1 h
    rw [List.map_append, ih hv, List.map_singleton, eq_of_beq hd]
    rfl

/-- An expression that begins with a literal needs it in the text. -/
theorem word_marked {lit : String} {text : Bytes} (hw : w ∈ (seqs (fold lit :: rs)).lang) (hin : w <:+: text) :
    containsFold ((ascii lit).map asciiLower) text = true := by
  obtain ⟨u, hu, v, -, rfl⟩ := mem_seqs.1 hw
  exact containsFold_iff.2 ⟨u, (List.prefix_append u v).isInfix.trans hin, mem_fold_list hu⟩

/-! ## Decoders of runs -/

theorem eachRun_of_none {α : Type} {next : Bytes → Option (α × Bytes)} (h : next src = none) :
    eachRun next src = [] := by
  rw [eachRun, h]

theorem nextRun_long {run r : Bytes} (hrun : ∀ c ∈ run, p c) (h : nextRun p k run src = some (r, rest)) :
    LongRun p k (run ++ src) := by
  induction src generalizing run with
  | nil =>
    rw [nextRun] at h
    split at h
    · rename_i hk
      exact ⟨run, by rw [List.append_nil], hrun, hk.2⟩
    · cases h
  | cons c src ih =>
    rw [nextRun] at h
    split at h
    · rename_i hc
      have := @ih (run ++ [c]) (by simpa [or_imp, forall_and] using ⟨hrun, hc⟩) h
      rwa [List.append_assoc, List.singleton_append] at this
    · split at h
      · rename_i hk
        exact ⟨run, (List.prefix_append _ _).isInfix, hrun, hk.2⟩
      · obtain ⟨x, hx, hp, hk⟩ := @ih [] nofun h
        exact ⟨x, hx.trans ((List.suffix_cons c src).trans (List.suffix_append run _)).isInfix, hp, hk⟩

theorem nextRun_none (h : ¬ LongRun p k src) : nextRun p k [] src = none := by
  rw [Option.eq_none_iff_forall_not_mem]
  rintro ⟨r, rest⟩ hr
  exact h (@nextRun_long p k rest src [] r nofun hr)

theorem nextMatch_none {re : Regex UInt8} (h : re.isMatch src = false) : nextMatch re src = none := by
  rw [isMatch, Option.isSome_eq_false_iff, Option.isNone_iff_eq_none] at h
  rw [nextMatch, h]
  rfl

/-! ## Decimal sequences -/

def isDecSeq (c : UInt8) : Bool := isDecimal c || isSeparator c

/-- The loop at a state `s`, with the bytes `front` behind it: a sequence that has begun is free of other bytes, and a
number that has ended is followed by a separator. -/
structure DecSeq.Inv (s : DecSeq) (front : Bytes) : Prop where
  idle : s.start = none → s.tokens = 0 ∧ s.digits = 0
  begun : ∀ a ∈ s.start, (∀ c ∈ front.drop a, isDecSeq c) ∧ a + s.digits ≤ front.length ∧
    a + 2 * s.tokens ≤ s.stop + 1 ∧ s.stop + (if s.digits = 0 then 1 else 0) ≤ front.length

theorem DecSeq.Inv.init (front : Bytes) : DecSeq.Inv {} front := ⟨fun _ => ⟨rfl, rfl⟩, nofun⟩

theorem DecSeq.Inv.long {s : DecSeq} (h : s.Inv front) (rest : Bytes) (hs : minDecSeqRun ≤ s.tokens) :
    LongRun isDecSeq minPrefilterDecRun (front ++ rest) := by
  rcases hstart : s.start with - | a
  · have := (h.idle hstart).1
    rw [this] at hs
    exact absurd hs (by decide)
  · obtain ⟨hclass, -, hlong, hstop⟩ := h.begun a hstart
    refine ⟨front.drop a, ((List.drop_suffix a front).isInfix).trans (List.prefix_append _ _).isInfix, hclass, ?_⟩
    have : minDecSeqRun = 12 := rfl
    have : minPrefilterDecRun = 23 := rfl
    rw [List.length_drop]
    omega

theorem drop_snoc {a : Nat} {c : UInt8} (ha : a ≤ front.length) (h : ∀ d ∈ front.drop a, isDecSeq d) (hc : isDecSeq c) :
    ∀ d ∈ (front ++ [c]).drop a, isDecSeq d := by
  rw [List.drop_append_of_le_length ha]
  simpa [or_imp, forall_and] using ⟨h, hc⟩

theorem nextDecSeqRun_long {s : DecSeq} {range : Nat × Nat} (hinv : s.Inv front)
    (h : nextDecSeqRun s front.length rest = some range) : LongRun isDecSeq minPrefilterDecRun (front ++ rest) := by
  induction rest generalizing s front with
  | nil =>
    rw [nextDecSeqRun] at h
    split at h
    · exact hinv.long [] ‹_›
    · cases h
  | cons c rest ih =>
    have hmove : front ++ c :: rest = (front ++ [c]) ++ rest := by simp
    have hlen : (front ++ [c]).length = front.length + 1 := by simp
    rw [nextDecSeqRun] at h
    split at h
    · rename_i hc
      have hclass : isDecSeq c := by simp [isDecSeq, hc]
      split at h
      · rename_i hdigits
        split at h
        · exact hinv.long _ ‹_›
        · -- a number that is too long: its last three digits begin anew
          rw [hmove]
          refine @ih (front ++ [c]) ⟨some (front.length - 2), front.length + 1, 1, 3⟩ ⟨nofun, ?_⟩ (by rwa [hlen])
          intro b hb
          obtain rfl : front.length - 2 = b := Option.some.inj hb
          dsimp only
          rcases hstart : s.start with - | a
          · have := (hinv.idle hstart).2
            omega
          · obtain ⟨hfront, ha, -, -⟩ := hinv.begun a hstart
            have hle : a ≤ front.length - 2 := by omega
            refine ⟨drop_snoc (by omega) (fun d hd => ?_) hclass, by omega, by omega, by simp⟩
            exact hfront d ((List.drop_suffix_drop_left front hle).subset hd)
      · rw [hmove]
        refine @ih (front ++ [c]) _ ⟨?_, ?_⟩ (by rwa [hlen])
        · intro hnone
          cases hstart : s.start <;> simp [hstart] at hnone
        · intro b hb
          dsimp only
          rcases hstart : s.start with - | a
          · obtain ⟨htokens, hdigits⟩ := hinv.idle hstart
            obtain rfl : front.length = b := by simpa [hstart] using hb
            refine ⟨drop_snoc (Nat.le_refl _) (by simp) hclass, by omega, ?_, by simp⟩
            rw [htokens, hdigits, if_pos rfl]
          · obtain ⟨hfront, ha, htokens, hstop⟩ := hinv.begun a hstart
            obtain rfl : a = b := by simpa [hstart] using hb
            refine ⟨drop_snoc (by omega) hfront hclass, by omega, ?_, by simp⟩
            split at hstop <;> rename_i hzero
            · rw [if_pos hzero]
              omega
            · rw [if_neg hzero]
              omega
    · split at h
      · rename_i hsep
        rw [Bool.and_eq_true, decide_eq_true_eq] at hsep
        have hclass : isDecSeq c := by simp [isDecSeq, hsep.1]
        rw [hmove]
        refine @ih (front ++ [c]) { s with digits := 0 } ⟨fun hnone => ⟨(hinv.idle hnone).1, rfl⟩, ?_⟩ (by rwa [hlen])
        intro a ha
        obtain ⟨hfront, hle, htokens, hstop⟩ := hinv.begun a ha
        rw [if_neg (by omega)] at hstop
        exact ⟨drop_snoc (by omega) hfront hclass, by dsimp only; omega, htokens, by dsimp only; rw [if_pos rfl]; omega⟩
      · split at h
        · exact hinv.long _ ‹_›
        · rw [hmove]
          exact ih (.init _) (by rwa [hlen])

theorem decSeq_quiet (h : ¬ LongRun isDecSeq minPrefilterDecRun src) : decodeDecSeqRuns src = [] := by
  have hnone : nextDecSeqRun {} 0 src = none := by
    rw [Option.eq_none_iff_forall_not_mem]
    intro range hrange
    exact h (@nextDecSeqRun_long src [] {} range (.init _) hrange)
  rw [decodeDecSeqRuns, eachRun_of_none (by rw [nextDecSeq, hnone]; rfl)]
  rfl

/-! ## Expressions -/

theorem forall_byte {P : UInt8 → Prop} (h : ∀ x : BitVec 8, P ⟨x⟩) (c : UInt8) : P c := h c.toBitVec

/-- A word of an expression, as a run of the bytes it can have. -/
theorem long_of_word {r : Regex UInt8} {text : Bytes} (hw : w ∈ r.lang) (hin : w <:+: text)
    (hp : ∀ c, r.letters c → p c) (hk : k ≤ r.minLength) : LongRun p k text :=
  ⟨w, hin, fun c hc => hp c (mem_letters hw c hc), hk.trans (minLength_le hw)⟩

/-- Which bytes the patterns of runs and the classes of the run finders are made of. -/
theorem run_letters (c : UInt8) :
    ((reHex.letters c → isBase64 c) ∧ ((atLeast minBase64Run (set isBase64)).letters c → isBase64 c) ∧
      ((atLeast minBase32Run (set isBase32)).letters c → isBase64 c) ∧ ((atLeast 20 (set isAlnum)).letters c → isBase64 c) ∧
      (reDecSeq.letters c → isDecSeq c)) ∧
    (isHexDigit c → isBase64 c) ∧ (isNetbios c → isBase64 c) ∧ (isBase32 c → isBase64 c) := by
  revert c
  apply forall_byte
  decide +kernel

/-- A word that begins with two given bytes. -/
theorem mem_two (h : w ∈ (seqs (set p :: set q :: rs)).lang) : ∃ x y v, p x ∧ q y ∧ w = x :: y :: v := by
  obtain ⟨_, ⟨x, hx, rfl⟩, _, hrest, rfl⟩ := mem_seqs.1 h
  obtain ⟨_, ⟨y, hy, rfl⟩, v, -, rfl⟩ := mem_seqs.1 hrest
  exact ⟨x, y, v, hx, hy, rfl⟩

theorem marked_of_pair {x y a b : UInt8} {v text : Bytes} (hx : asciiLower x = a) (hy : asciiLower y = b)
    (h : x :: y :: v <:+: text) : containsFold [a, b] text = true := by
  refine containsFold_iff.2 ⟨[x, y], (List.prefix_append [x, y] v).isInfix.trans h, ?_⟩
  simp [hx, hy]

/-- A word of `Chr` and literals, joined: it has a quote or the letters of `Chr`, and an operator. -/
theorem chr_marked (hw : w ∈ reChrConcat.lang) :
    (0x22 ∈ w ∨ containsFold (ascii "chr") w = true) ∧ ∃ c ∈ w, c = 0x26 ∨ c = 0x2b := by
  obtain ⟨u, hu, v, hv, rfl⟩ := mem_seq.1 hw
  constructor
  · rcases mem_alt.1 hu with hu | hu
    · obtain ⟨_, ⟨x, hx, rfl⟩, t, -, rfl⟩ := mem_seqs.1 hu
      obtain rfl : x = 0x22 := by simpa using hx
      exact .inl (by simp)
    · exact .inr (word_marked hu (List.prefix_append u v).isInfix)
  · obtain ⟨x, hx, hxv⟩ := mem_atLeast_succ hv
    obtain ⟨blanks, -, t, ht, rfl⟩ := mem_seqs.1 hx
    obtain ⟨_, ⟨op, hop, rfl⟩, t, -, rfl⟩ := mem_seqs.1 ht
    refine ⟨op, List.mem_append_right u (hxv.subset (by simp)), by simpa using hop⟩

namespace Unmarked

variable {text : Bytes}

theorem no_base64 (h : Unmarked text) : reBase64.isMatch text = false := by
  refine isMatch_eq_false fun w hw hin => h.base64 ?_
  obtain ⟨u, hu, v, -, rfl⟩ := mem_seq.1 hw
  exact long_of_word hu ((List.prefix_append u v).isInfix.trans hin) (fun c => (run_letters c).1.2.1) (by decide)

theorem no_hex (h : Unmarked text) : reHex.isMatch text = false :=
  isMatch_eq_false fun _ hw hin =>
    h.base64 (long_of_word hw hin (fun c => (run_letters c).1.1) (by decide))

theorem no_base32 (h : Unmarked text) : reBase32.isMatch text = false := by
  refine isMatch_eq_false fun w hw hin => h.base64 ?_
  obtain ⟨u, hu, v, -, rfl⟩ := mem_seq.1 hw
  exact long_of_word hu ((List.prefix_append u v).isInfix.trans hin) (fun c => (run_letters c).1.2.2.1) (by decide)

theorem no_decSeq (h : Unmarked text) : reDecSeq.isMatch text = false :=
  isMatch_eq_false fun _ hw hin =>
    h.decimal (long_of_word hw hin (fun c => (run_letters c).1.2.2.2.2) (by decide))

/-- A quoted word of twenty letters and digits. -/
theorem no_dridex (h : Unmarked text) : ∀ w ∈ reDridex.lang, ¬ w <:+: text := by
  intro w hw hin
  obtain ⟨q, -, t, ht, rfl⟩ := mem_seqs.1 hw
  obtain ⟨u, hu, v, -, rfl⟩ := mem_seqs.1 ht
  have hpart : u <:+: q ++ (u ++ v) := ⟨q, v, by simp⟩
  exact h.base64 (long_of_word hu (hpart.trans hin) (fun c => (run_letters c).1.2.2.2.1) (by decide))

theorem no_concat (h : Unmarked text) : reChrConcat.isMatch text = false := by
  refine isMatch_eq_false fun w hw hin => ?_
  obtain ⟨hquote | hchr, op, hop, hval⟩ := chr_marked hw
  · refine h.concat ⟨List.any_eq_true.2 ⟨0x22, hin.subset hquote, rfl⟩, List.any_eq_true.2 ⟨op, hin.subset hop, ?_⟩⟩
    simpa using hval
  · obtain ⟨u, hu, hmap⟩ := containsFold_iff.1 hchr
    exact absurd (containsFold_iff.2 ⟨u, hu.trans hin, hmap⟩) (by rw [h.marker _ (by simp [prefilterMarkers])]; decide)

/-- An expression that begins with a literal which is a marker, or longer than one. -/
theorem no_word (h : Unmarked text) {lit : String} {m tail : Bytes} (hm : m ∈ prefilterMarkers ++ reversedMarkers)
    (hlit : (ascii lit).map asciiLower = m ++ tail) : (seqs (fold lit :: rs)).isMatch text = false := by
  refine isMatch_eq_false fun w hw hin => ?_
  have hmark := word_marked hw hin
  rw [hlit] at hmark
  exact absurd (containsFold_front hmark) (by rw [h.marker m hm]; decide)

theorem no_pair (h : Unmarked text) {n : Nat}
    (hm : ∀ x y, p x → q y → [asciiLower x, asciiLower y] ∈ prefilterMarkers ++ reversedMarkers) :
    (atLeast (n + 1) (seqs (set p :: set q :: rs))).isMatch text = false := by
  refine isMatch_eq_false fun w hw hin => ?_
  obtain ⟨u, hu, huw⟩ := mem_atLeast_succ hw
  obtain ⟨x, y, v, hx, hy, rfl⟩ := mem_two hu
  exact absurd (marked_of_pair rfl rfl (huw.isInfix.trans hin)) (by rw [h.marker _ (hm x y hx hy)]; decide)

theorem no_xEsc (h : Unmarked text) : reXEsc.isMatch text = false := by
  refine h.no_pair fun x y hx hy => ?_
  obtain rfl := eq_of_beq hx
  obtain rfl := eq_of_beq hy
  decide

theorem no_ampH (h : Unmarked text) : reAmpH.isMatch text = false := by
  refine h.no_pair fun x y hx hy => ?_
  obtain rfl := eq_of_beq hx
  rcases Bool.or_eq_true_iff.1 hy with hy | hy <;> obtain rfl := eq_of_beq hy <;> decide

theorem no_uEsc (h : Unmarked text) : reUEsc.isMatch text = false := by
  refine h.no_pair fun x y hx hy => ?_
  obtain rfl := eq_of_beq hy
  rcases Bool.or_eq_true_iff.1 hx with hx | hx <;> obtain rfl := eq_of_beq hx <;> decide

theorem no_reversed (h : Unmarked text) : reversedMarkers.any (containsFold · text) = false :=
  List.any_eq_false.2 fun m hm => by rw [h.marker m (List.mem_append_right _ hm)]; decide

theorem no_patterns (h : Unmarked text) : encodedPatterns text = false := by
  have hreplace : reReplace.isMatch text = false := h.no_word (m := ascii "replace(") (by decide) rfl
  have harray : reArrayXor.isMatch text = false := h.no_word (m := ascii "array(") (by decide) rfl
  have hreverse : reStrReverse.isMatch text = false := h.no_word (m := ascii "strreverse") (by decide) rfl
  have henviron : reEnviron.isMatch text = false := h.no_word (m := ascii "environ") (by decide) rfl
  simp only [encodedPatterns, h.no_base64, h.no_hex, h.no_reversed, h.no_concat, hreplace, harray, hreverse, henviron,
    isMatch_eq_false h.no_dridex, h.no_xEsc, h.no_ampH, h.no_uEsc, h.no_decSeq, h.no_base32, Bool.or_self]

/-! ## Decoders on an unmarked text -/

theorem no_run (h : Unmarked text) (hp : ∀ c, p c → isBase64 c) (hk : minPrefilterRun ≤ k) :
    nextRun p k [] text = none :=
  nextRun_none fun hlong => h.base64 (hlong.mono hp hk)

theorem runs_quiet (h : Unmarked text) (codecs : Codecs) :
    decodeBase64Runs text = [] ∧ decodeHexRuns text = [] ∧ decodeXEscRuns text = [] ∧ decodeAmpHRuns text = [] ∧
      decodeUEscRuns text = [] ∧ decodeDecSeqRuns text = [] ∧ decodeNetbiosRuns text = [] ∧
      decodeBase32Runs codecs text = [] := by
  refine ⟨?_, ?_, ?_, ?_, ?_, decSeq_quiet h.decimal, ?_, ?_⟩
  · rw [decodeBase64Runs, eachRun_of_none]
    · rfl
    · rw [nextBase64Run, h.no_run (fun _ hc => hc) (by decide)]
      rfl
  · rw [decodeHexRuns, eachRun_of_none]
    · rfl
    · rw [nextHexRun, h.no_run (fun c => (run_letters c).2.1) (by decide)]
      rfl
  · rw [decodeXEscRuns, eachRun_of_none (nextMatch_none h.no_xEsc)]
    rfl
  · rw [decodeAmpHRuns, eachRun_of_none (nextMatch_none h.no_ampH)]
    rfl
  · rw [decodeUEscRuns, eachRun_of_none (nextMatch_none h.no_uEsc)]
    rfl
  · rw [decodeNetbiosRuns, eachRun_of_none (h.no_run (fun c => (run_letters c).2.2.1) (by decide))]
    rfl
  · rw [decodeBase32Runs, eachRun_of_none]
    · rfl
    · rw [nextBase32Run, h.no_run (fun c => (run_letters c).2.2.2) (by decide)]
      rfl

theorem folds_quiet (h : Unmarked (window b)) : foldVBAStrings b = [] := by
  have hconcat : foldConcat (window b) = [] := by
    have hchr : containsFold (ascii "chr") (window b) = false := h.marker _ (by decide)
    rw [foldConcat, if_neg]
    intro hguard
    rw [hchr, Bool.or_false, Bool.and_eq_true, List.contains_iff_mem] at hguard
    exact h.concat ⟨List.any_eq_true.2 ⟨0x22, hguard.2, rfl⟩, hguard.1⟩
  have hreplace : containsFold (ascii "replace(") (window b) = false := h.marker _ (by decide)
  have harray : containsFold (ascii "array(") (window b) = false := h.marker _ (by decide)
  have henviron : containsFold (ascii "environ") (window b) = false := h.marker _ (by decide)
  have hreverse : containsFold (ascii "strreverse(") (window b) = false := by
    rw [Bool.eq_false_iff]
    intro hcall
    have := @containsFold_front [0x28] (ascii "strreverse") (window b) hcall
    rw [h.marker _ (by decide)] at this
    cases this
  simp [foldVBAStrings, hconcat, foldReplace, hreplace, foldArrayXor, harray, foldStrReverse, hreverse, foldEnviron,
    henviron, foldVBAVarReplace, foldDridex, findAll_eq_nil h.no_dridex]

/-- A text that is longer than the window is not reversed at all. -/
theorem reversed_quiet (h : Unmarked (window b)) : emitReversed b = [] := by
  rw [emitReversed, if_neg]
  rintro ⟨-, hlen, hany⟩
  have hwindow : window b = b := List.take_of_length_le hlen
  rw [hwindow] at h
  rw [h.no_reversed] at hany
  cases hany

end Unmarked

/-- Nothing is handed to `emit`, nothing looks encoded, and no pattern of `looksEncoded` is there. -/
structure Quiet (codecs : Codecs) (b : Bytes) : Prop where
  decoders : ∀ d ∈ decoders codecs, d b = []
  looks : looksEncoded b = false
  patterns : encodedPatterns (window b) = false

theorem decoders_quiet {codecs : Codecs} (h : Unmarked (window b)) (hlen : b.length ≤ maxFoldInput) :
    ∀ d ∈ decoders codecs, d b = [] := by
  have hreversed := h.reversed_quiet
  have hfolds := h.folds_quiet
  have hwindow : window b = b := List.take_of_length_le hlen
  rw [hwindow] at h
  obtain ⟨h₁, h₂, h₃, h₄, h₅, h₆, h₇, h₈⟩ := h.runs_quiet codecs
  simp [decoders, h₁, h₂, hreversed, hfolds, h₃, h₄, h₅, h₆, h₇, h₈]

theorem gate_quiet (codecs : Codecs) (hlen : b.length ≤ maxFoldInput) (h : mayBeEncoded b = false) :
    Quiet codecs b := by
  have hb := unmarked_of_gate h
  exact ⟨decoders_quiet hb hlen, by simp [looksEncoded, h], hb.no_patterns⟩

/-! ## Behind the window -/

/-- Twelve numbers. -/
def numbers : Bytes := ascii "1,2,3,4,5,6,7,8,9,1,2,3"

/-- A text whose last number within the window is followed by one behind it. -/
def lateText (n : Nat) : Bytes :=
  List.replicate (maxFoldInput - 22) 0x20 ++ (numbers ++ List.replicate (n - maxFoldInput - 1) 0x20)

theorem length_lateText {n : Nat} (h : maxFoldInput < n) : (lateText n).length = n := by
  have hnumbers : numbers.length = 23 := by decide
  have hwindow : 22 ≤ maxFoldInput := by decide
  simp only [lateText, List.length_append, List.length_replicate, hnumbers]
  omega

theorem window_lateText (n : Nat) : window (lateText n) = List.replicate (maxFoldInput - 22) 0x20 ++ numbers.take 22 := by
  have hwindow : maxFoldInput - (maxFoldInput - 22) = 22 := by decide
  rw [window, lateText, List.take_append, List.take_of_length_le (by rw [List.length_replicate]; omega),
    List.length_replicate, hwindow, List.take_append_of_le_length (by decide)]

theorem prefilter_blanks (k : Nat) (text : Bytes) : prefilter {} (List.replicate k 0x20 ++ text) = prefilter {} text := by
  induction k with
  | zero => rfl
  | succ k ih =>
    rw [List.replicate_succ, List.cons_append, prefilter, if_neg (by decide)]
    exact ih

theorem not_containsFold {needle text : Bytes} {x : UInt8} (hx : x ∈ needle) (h : ∀ c ∈ text, asciiLower c ≠ x) :
    containsFold needle text = false := by
  rw [Bool.eq_false_iff]
  intro hcontains
  obtain ⟨u, hu, rfl⟩ := containsFold_iff.1 hcontains
  obtain ⟨c, hc, rfl⟩ := List.mem_map.1 hx
  exact h c (hu.subset hc) rfl

/-- The gate takes it for prose. -/
theorem gate_lateText (n : Nat) : mayBeEncoded (lateText n) = false := by
  have hne : lateText n ≠ [] := by
    intro hnil
    rw [lateText, List.append_eq_nil_iff, List.append_eq_nil_iff] at hnil
    exact absurd hnil.2.1 (by decide)
  have hletters : ∀ c ∈ window (lateText n), isLower (asciiLower c) = false := by
    rw [window_lateText]
    intro c hc
    rcases List.mem_append.1 hc with hc | hc
    · rw [(List.mem_replicate.1 hc).2]
      decide
    · have hall : ∀ c ∈ numbers.take 22, isLower (asciiLower c) = false :=
        List.forall_iff_forall_mem.1 (by decide)
      exact hall c hc
  have hmarker : ∀ m ∈ prefilterMarkers ++ reversedMarkers, containsFold m (window (lateText n)) = false := by
    intro m hm
    have hall : ∀ m ∈ prefilterMarkers ++ reversedMarkers, ∃ x ∈ m, isLower x = true := by decide
    obtain ⟨x, hx, hlower⟩ := hall m hm
    refine not_containsFold hx fun c hc heq => ?_
    rw [← heq, hletters c hc] at hlower
    cases hlower
  have hscan : prefilter {} (window (lateText n)) = prefilter {} (numbers.take 22) := by
    rw [window_lateText, prefilter_blanks]
  rw [mayBeEncoded, if_neg hne, hscan]
  have hfirst : prefilterMarkers.any (containsFold · (window (lateText n))) = false :=
    List.any_eq_false.2 fun m hm => by rw [hmarker m (List.mem_append_left _ hm)]; decide
  have hsecond : reversedMarkers.any (containsFold · (window (lateText n))) = false :=
    List.any_eq_false.2 fun m hm => by rw [hmarker m (List.mem_append_right _ hm)]; decide
  rw [hfirst, hsecond]
  decide

theorem nextDecSeqRun_blanks (k i : Nat) (text : Bytes) :
    nextDecSeqRun {} i (List.replicate k 0x20 ++ text) = nextDecSeqRun {} (i + k) text := by
  induction k generalizing i with
  | zero => rfl
  | succ k ih =>
    rw [List.replicate_succ, List.cons_append, nextDecSeqRun, if_neg (by decide), if_neg (by decide), if_neg (by decide), ih,
      Nat.add_assoc, Nat.add_comm 1]

/-- The numbers are found, up to a byte that is no digit. -/
theorem nextDecSeqRun_numbers (i : Nat) (hrest : ∀ c ∈ rest.head?, isDecSeq c = false) :
    nextDecSeqRun {} i (numbers ++ rest) = some (i, i + 23) := by
  have hnumbers : numbers ++ rest = 0x31 :: 0x2c :: 0x32 :: 0x2c :: 0x33 :: 0x2c :: 0x34 :: 0x2c :: 0x35 :: 0x2c :: 0x36 ::
      0x2c :: 0x37 :: 0x2c :: 0x38 :: 0x2c :: 0x39 :: 0x2c :: 0x31 :: 0x2c :: 0x32 :: 0x2c :: 0x33 :: rest := rfl
  have hend : ∀ s : DecSeq, ∀ j, minDecSeqRun ≤ s.tokens → nextDecSeqRun s j rest = some (s.start.getD 0, s.stop) := by
    intro s j hs
    cases rest with
    | nil => rw [nextDecSeqRun, if_pos hs]
    | cons c rest =>
      have hc := hrest c rfl
      rw [isDecSeq, Bool.or_eq_false_iff] at hc
      rw [nextDecSeqRun, hc.1, hc.2, if_neg (by decide), Bool.false_and, if_neg (by decide), if_pos hs]
  rw [hnumbers]
  simp [nextDecSeqRun, isDecimal, isSeparator]
  exact hend _ _ (Nat.le_refl 12)

theorem nextDecSeq_late (n : Nat) : ∃ rest, nextDecSeq (lateText n) = some (numbers, rest) := by
  have hrest : ∀ c ∈ (List.replicate (n - maxFoldInput - 1) (0x20 : UInt8)).head?, isDecSeq c = false := by
    intro c hc
    rw [(List.mem_replicate.1 (List.mem_of_mem_head? hc)).2]
    decide
  unfold lateText
  generalize maxFoldInput - 22 = k
  generalize List.replicate (n - maxFoldInput - 1) (0x20 : UInt8) = rest at hrest
  have hrun : ((List.replicate k 0x20 ++ (numbers ++ rest)).take (k + 23)).drop k = numbers := by
    rw [← List.append_assoc, List.take_left' (by rw [List.length_append, List.length_replicate]; rfl)]
    exact List.drop_left' List.length_replicate
  rw [nextDecSeq, nextDecSeqRun_blanks, Nat.zero_add, nextDecSeqRun_numbers _ hrest, Option.map_some]
  dsimp only
  rw [hrun]
  exact ⟨_, rfl⟩

theorem decSeq_late (n : Nat) : decodeDecSeqRuns (lateText n) ≠ [] := by
  obtain ⟨rest, hnext⟩ := nextDecSeq_late n
  have hdecoded : decSeqBytes numbers = some [1, 2, 3, 4, 5, 6, 7, 8, 9, 1, 2, 3] := by decide
  rw [decodeDecSeqRuns, eachRun, hnext, List.filterMap_cons, hdecoded]
  exact List.cons_ne_nil _ _

/-- Every text of a given length that the gate takes for prose has nothing for the decoders, exactly if the length is
within the window that the gate looks at. -/
theorem mayBeEncoded_strict_iff (codecs : Codecs) (n : Nat) :
    (∀ b : Bytes, b.length = n → mayBeEncoded b = false → Quiet codecs b) ↔ n ≤ maxFoldInput := by
  constructor
  · intro h
    by_contra hn
    have hquiet := h (lateText n) (length_lateText (Nat.lt_of_not_le hn)) (gate_lateText n)
    exact decSeq_late n (hquiet.decoders _ (by simp [decoders]))
  · rintro hn b rfl h
    exact gate_quiet codecs hn h

/-- A mebibyte of prose before a sequence of numbers. -/
theorem mayBeEncoded_late_numbers : ∃ (codecs : Codecs) (b : Bytes), mayBeEncoded b = false ∧ ¬ Quiet codecs b :=
  ⟨⟨fun _ => none, fun _ => none⟩, lateText (maxFoldInput + 1), gate_lateText _,
    fun hquiet => decSeq_late _ (hquiet.decoders _ (by simp [decoders]))⟩

end MS.Extract
