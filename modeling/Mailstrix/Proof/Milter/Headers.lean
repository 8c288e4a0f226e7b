import Mailstrix.Spec.Milter.Headers
import Mailstrix.Proof.Milter.Session

/-!
# A sender cannot forge a verdict header

The map of forged headers counts, for each canonical name, the headers with that name in any spelling (`mem_tally`,
`count_canonical`).  Deleting the headers of a name from its count down to one deletes all of them, and none of another
name (`deleteHeaders_all`), so that the order of the names does not matter (`strips_filter`).
-/

namespace MS.Milter

open Framework
open Scan (ascii)

variable {env : Env} {cfg : Config}
variable {a b k : Bytes} {m : Mail}

/-! ## Names -/

theorem sameName_iff : sameName a b = true ↔ a.map asciiLower = b.map asciiLower := by
  rw [sameName, beq_iff_eq]

/-- Changing the case twice, and what it leaves alone. -/
theorem asciiCase (c : UInt8) :
    asciiLower (asciiLower c) = asciiLower c ∧ asciiLower (asciiUpper c) = asciiLower c ∧
      asciiUpper (asciiLower c) = asciiUpper c ∧ (asciiLower c == 0x2d) = (c == 0x2d) := by
  have hall : ∀ x : BitVec 8, asciiLower (asciiLower ⟨x⟩) = asciiLower ⟨x⟩ ∧
      asciiLower (asciiUpper ⟨x⟩) = asciiLower ⟨x⟩ ∧ asciiUpper (asciiLower ⟨x⟩) = asciiUpper ⟨x⟩ ∧
      (asciiLower ⟨x⟩ == 0x2d) = ((⟨x⟩ : UInt8) == 0x2d) := by decide +kernel
  exact hall c.toBitVec

/-- Canonicalising changes the case only. -/
theorem sameName_canonical (upper : Bool) (name : Bytes) : sameName (canonicalFrom upper name) name = true := by
  rw [sameName_iff]
  induction name generalizing upper with
  | nil => rfl
  | cons c name ih =>
    rw [canonicalFrom, List.map_cons, List.map_cons, ih]
    cases upper with
    | true => rw [if_pos rfl, (asciiCase c).2.1]
    | false => rw [if_neg (by decide), (asciiCase c).1]

theorem canonicalFrom_lower (upper : Bool) (name : Bytes) :
    canonicalFrom upper (name.map asciiLower) = canonicalFrom upper name := by
  induction name generalizing upper with
  | nil => rfl
  | cons c name ih =>
    obtain ⟨hlower, -, hupper, hhyphen⟩ := asciiCase c
    rw [List.map_cons, canonicalFrom, canonicalFrom, hhyphen, ih, hupper, hlower]

/-- Two names are the same exactly if their canonical forms are. -/
theorem canonical_inj : canonicalFrom true a = canonicalFrom true b ↔ sameName a b = true := by
  constructor
  · intro h
    have ha := sameName_iff.1 (sameName_canonical true a)
    have hb := sameName_iff.1 (sameName_canonical true b)
    rw [sameName_iff, ← ha, ← hb, h]
  · intro h
    rw [← canonicalFrom_lower true a, ← canonicalFrom_lower true b, sameName_iff.1 h]

theorem sameName_symm (h : sameName a b = true) : sameName b a = true :=
  sameName_iff.2 (sameName_iff.1 h).symm

theorem sameName_trans {c : Bytes} (hab : sameName a b = true) (hbc : sameName b c = true) : sameName a c = true :=
  sameName_iff.2 ((sameName_iff.1 hab).trans (sameName_iff.1 hbc))

theorem verdictName_congr (h : sameName a b = true) : verdictName a = verdictName b := by
  rw [verdictName, verdictName, sameName_iff.1 h]

/-! ## Which names are counted -/

theorem isTokenByte_ascii {c : UInt8} (h : isTokenByte c = true) : c < 0x80 := by
  have hall : ∀ x : BitVec 8, isTokenByte ⟨x⟩ = true → (⟨x⟩ : UInt8) < 0x80 := by decide +kernel
  exact hall c.toBitVec h

/-- `strings.ToLower` of an ASCII text before another one. -/
theorem toLower_append (henv : env.Textual) (ha : ∀ c ∈ a, c < 0x80) (b : Bytes) :
    toLower env (a ++ b) = a.map asciiLower ++ toLower env b := by
  induction a with
  | nil => rfl
  | cons c a ih =>
    have hc : c < 0x80 := ha c List.mem_cons_self
    have hlower : encodeRune (asciiLower c).toNat = [asciiLower c] := by
      have hall : ∀ x : BitVec 8, (⟨x⟩ : UInt8) < 0x80 →
          encodeRune (asciiLower ⟨x⟩).toNat = [asciiLower ⟨x⟩] := by decide +kernel
      exact hall c.toBitVec hc
    have ih := ih fun d hd => ha d (List.mem_cons_of_mem c hd)
    unfold toLower encodeRunes at ih ⊢
    rw [List.cons_append, runes_cons_ascii hc, List.map_cons, List.flatMap_cons, henv.lower c hc, hlower, ih]
    rfl

theorem toLower_ascii (henv : env.Textual) (ha : ∀ c ∈ a, c < 0x80) : toLower env a = a.map asciiLower := by
  have h := toLower_append henv ha []
  rw [List.append_nil, show toLower env [] = [] from rfl, List.append_nil] at h
  exact h

theorem headerPrefix_ascii : ∀ c ∈ headerPrefix, c < 0x80 := by
  have h : headerPrefix.Forall (· < 0x80) := by decide
  exact List.forall_iff_forall_mem.1 h

/-- A name with the prefix is counted, whatever is behind the prefix. -/
theorem isForged_of_verdictName (henv : env.Textual) {name : Bytes} (h : verdictName name = true) :
    isForged env name = true := by
  obtain ⟨tail, htail⟩ := List.isPrefixOf_iff_prefix.1 h
  obtain ⟨front, rest, rfl, hfront, -⟩ := List.map_eq_append_iff.1 htail.symm
  have hascii : ∀ c ∈ front, c < 0x80 := by
    intro c hc
    have hlow : asciiLower c ∈ headerPrefix.map asciiLower := hfront ▸ List.mem_map_of_mem hc
    have hall : ∀ x : BitVec 8, asciiLower ⟨x⟩ ∈ headerPrefix.map asciiLower → (⟨x⟩ : UInt8) < 0x80 := by decide +kernel
    exact hall c.toBitVec hlow
  unfold isForged
  rw [toLower_ascii henv headerPrefix_ascii, toLower_append henv hascii, hfront]
  exact List.isPrefixOf_iff_prefix.2 (List.prefix_append _ _)

/-- Of the names of token characters no others are counted. -/
theorem verdictName_of_isForged (henv : env.Textual) {name : Bytes} (hname : ∀ c ∈ name, isTokenByte c)
    (h : isForged env name = true) : verdictName name = true := by
  unfold isForged at h
  rwa [toLower_ascii henv headerPrefix_ascii, toLower_ascii henv fun c hc => isTokenByte_ascii (hname c hc)] at h

/-! ## The count of forged names -/

/-- The map behind the names `ks`. -/
def tally (ks : List Bytes) : List (Bytes × Nat) := ks.foldl (fun t k => countForged k t) []

theorem countForged_keys (k : Bytes) (t : List (Bytes × Nat)) :
    (countForged k t).map Prod.fst = if k ∈ t.map Prod.fst then t.map Prod.fst else t.map Prod.fst ++ [k] := by
  induction t with
  | nil => rfl
  | cons f t ih =>
    by_cases hf : f.1 = k
    · simp [countForged, hf]
    · have hk : k ≠ f.1 := Ne.symm hf
      simp only [countForged, if_neg hf, List.map_cons, ih, List.mem_cons, hk, false_or]
      split <;> rfl

theorem nodup_countForged {t : List (Bytes × Nat)} (h : (t.map Prod.fst).Nodup) :
    ((countForged k t).map Prod.fst).Nodup := by
  rw [countForged_keys]
  split
  · exact h
  · rename_i hk
    exact List.nodup_append.2 ⟨h, List.nodup_singleton k, fun a ha b hb => by
      obtain rfl := List.mem_singleton.1 hb
      exact fun heq => hk (heq ▸ ha)⟩

theorem count_countForged {t : List (Bytes × Nat)} {count : Bytes → Nat} (hnodup : (t.map Prod.fst).Nodup)
    (ht : ∀ f ∈ t, f.2 = count f.1) (hk : k ∉ t.map Prod.fst → count k = 0) :
    ∀ f ∈ countForged k t, f.2 = count f.1 + if f.1 = k then 1 else 0 := by
  induction t with
  | nil =>
    intro f hf
    obtain rfl := List.mem_singleton.1 hf
    simp [hk (by simp)]
  | cons g t ih =>
    rw [List.map_cons, List.nodup_cons] at hnodup
    have hg := ht g List.mem_cons_self
    have htail : ∀ f ∈ t, f.2 = count f.1 := fun f hf => ht f (List.mem_cons_of_mem g hf)
    intro f hf
    by_cases hgk : g.1 = k
    · rw [countForged, if_pos hgk] at hf
      rcases List.mem_cons.1 hf with rfl | hf
      · rw [if_pos hgk, ← hg]
      · have hne : f.1 ≠ k := fun heq => hnodup.1 (hgk ▸ heq ▸ List.mem_map_of_mem hf)
        rw [if_neg hne, htail f hf]
        rfl
    · rw [countForged, if_neg hgk] at hf
      rcases List.mem_cons.1 hf with rfl | hf
      · rw [if_neg hgk, hg]
        rfl
      · refine ih hnodup.2 htail (fun hkt => hk ?_) f hf
        rw [List.map_cons, List.mem_cons, not_or]
        exact ⟨fun heq => hgk heq.symm, hkt⟩

theorem tally_snoc (ks : List Bytes) (k : Bytes) : tally (ks ++ [k]) = countForged k (tally ks) := by
  rw [tally, List.foldl_append]
  rfl

/-- Each name once, with the number of times it occurs. -/
theorem tally_counts (ks : List Bytes) :
    ((tally ks).map Prod.fst).Nodup ∧ (∀ k, k ∈ (tally ks).map Prod.fst ↔ k ∈ ks) ∧
      ∀ f ∈ tally ks, f.2 = ks.count f.1 := by
  induction ks using List.reverseRecOn with
  | nil => exact ⟨List.nodup_nil, fun k => Iff.rfl, nofun⟩
  | append_singleton ks k ih =>
    obtain ⟨hnodup, hkeys, hcount⟩ := ih
    have hzero : k ∉ (tally ks).map Prod.fst → ks.count k = 0 := fun hk =>
      List.count_eq_zero_of_not_mem fun h => hk ((hkeys k).2 h)
    rw [tally_snoc]
    refine ⟨nodup_countForged hnodup, fun j => ?_, fun f hf => ?_⟩
    · rw [countForged_keys, List.mem_append, List.mem_singleton, ← hkeys j]
      split
      · rename_i hk
        exact ⟨.inl, fun h => h.elim id fun heq => heq ▸ hk⟩
      · rw [List.mem_append, List.mem_singleton]
    · rw [@count_countForged k (tally ks) (fun k => ks.count k) hnodup hcount hzero f hf, List.count_append,
        List.count_singleton]
      simp [@eq_comm _ f.1 k]

/-! ## Deletion -/

/-- The operations for one name. -/
def stripName (f : Bytes × Nat) : List (Nat × Bytes) := (List.range f.2).reverse.map fun i => (i + 1, f.1)

/-- All headers of a name, if their number is right. -/
theorem deleteHeaders_all {f : Bytes × Nat} {headers : List Header}
    (h : f.2 = headers.countP fun h => sameName f.1 h.1) :
    (stripName f).foldl deleteHeader headers = headers.filter fun h => !sameName f.1 h.1 := by
  rw [stripName, List.foldl_map, h]
  exact countdown_all (fun h => sameName f.1 h.1) headers

theorem countP_filter_other (hab : sameName a b = false) (headers : List Header) :
    ((headers.filter fun h => !sameName a h.1).countP fun h => sameName b h.1) = headers.countP fun h => sameName b h.1 := by
  rw [List.countP_filter]
  refine List.countP_congr fun h _ => ?_
  constructor
  · intro hh
    exact (Bool.and_eq_true_iff.1 hh).1
  · intro hb
    have ha : sameName a h.1 = false := by
      rw [Bool.eq_false_iff]
      intro ha
      rw [sameName_trans ha (sameName_symm hb)] at hab
      cases hab
    rw [hb, ha]
    rfl

/-- The operations for all names, in any order. -/
theorem strips_filter {forged : List (Bytes × Nat)} {headers : List Header}
    (hother : forged.Pairwise fun f g => sameName f.1 g.1 = false)
    (hcount : ∀ f ∈ forged, f.2 = headers.countP fun h => sameName f.1 h.1) :
    (forged.flatMap stripName).foldl deleteHeader headers =
      headers.filter fun h => !forged.any fun f => sameName f.1 h.1 := by
  induction forged generalizing headers with
  | nil => simp
  | cons f forged ih =>
    rw [List.pairwise_cons] at hother
    have hrest : ∀ g ∈ forged, g.2 = (headers.filter fun h => !sameName f.1 h.1).countP fun h => sameName g.1 h.1 := by
      intro g hg
      rw [countP_filter_other (hother.1 g hg), hcount g (List.mem_cons_of_mem f hg)]
    rw [List.flatMap_cons, List.foldl_append, deleteHeaders_all (hcount f List.mem_cons_self), ih hother.2 hrest,
      List.filter_filter]
    refine List.filter_congr fun h _ => ?_
    rw [List.any_cons, Bool.not_or, Bool.and_comm]

/-! ## The map behind a message -/

/-- The canonical names of the headers that are counted. -/
def forgedNames (env : Env) (headers : List Header) : List Bytes :=
  (headers.filter fun h => isForged env h.1).map fun h => env.canonical h.1

theorem forged_appendMsg (s : State) (b : Bytes) : (appendMsg cfg s b).forged = s.forged := by
  unfold appendMsg
  split_ifs <;> rfl

theorem forged_separate (s : State) : (separate cfg s).forged = s.forged := by
  unfold separate
  split
  · rfl
  · exact forged_appendMsg s _

theorem forged_header (s : State) (h : Header) :
    (header env cfg s h.1 h.2).forged =
      if isForged env h.1 then countForged (env.canonical h.1) s.forged else s.forged := by
  unfold header
  split
  · rfl
  · exact forged_appendMsg s _

theorem forged_headers (s : State) (headers : List Header) :
    (after env cfg s (headers.map fun h => .header h.1 h.2)).forged =
      (forgedNames env headers).foldl (fun t k => countForged k t) s.forged := by
  induction headers generalizing s with
  | nil => rfl
  | cons h headers ih =>
    rw [List.map_cons, after_cons, ih, step, forged_header, forgedNames, forgedNames, List.filter_cons]
    by_cases hf : isForged env h.1 = true
    · rw [if_pos hf, if_pos hf, List.map_cons, List.foldl_cons]
    · rw [if_neg hf, if_neg hf]

theorem forged_chunks (s : State) (chunks : List Bytes) :
    (after env cfg s (chunks.map .bodyChunk)).forged = s.forged := by
  induction chunks generalizing s with
  | nil => rfl
  | cons b chunks ih =>
    rw [List.map_cons, after_cons, ih, step, bodyChunk, forged_appendMsg, forged_separate]

/-- Behind a message, whatever came before it on the connection. -/
theorem forged_mail (before : List Message) (m : Mail) :
    (after env cfg .fresh (before.flatMap Message.events ++ m.events)).forged = tally (forgedNames env m.headers) := by
  rw [after_append, after_messages, Mail.events, after_append, after_append, forged_chunks]
  cases m.endOfHeaders with
  | true =>
    rw [if_pos rfl, after_cons, after_nil, step, headers, forged_separate, forged_headers]
    rfl
  | false =>
    rw [if_neg (by decide), after_nil, forged_headers]
    rfl

/-! ## What is delivered -/

/-- Every header that is counted has a name of token characters. -/
def Mail.TokenNames (env : Env) (m : Mail) : Prop := ∀ h ∈ m.headers, isForged env h.1 = true → ∀ c ∈ h.1, isTokenByte c

theorem isForged_iff (henv : env.Textual) (hm : m.TokenNames env) {h : Header} (hh : h ∈ m.headers) :
    isForged env h.1 = true ↔ verdictName h.1 = true :=
  ⟨fun hf => verdictName_of_isForged henv (hm h hh hf) hf, isForged_of_verdictName henv⟩

/-- A counted name is a canonical one, of some header of the message. -/
theorem mem_forgedNames (henv : env.Textual) (hm : m.TokenNames env) :
    k ∈ forgedNames env m.headers ↔ ∃ h ∈ m.headers, verdictName h.1 = true ∧ k = canonicalFrom true h.1 := by
  rw [forgedNames, List.mem_map]
  constructor
  · rintro ⟨h, hh, rfl⟩
    obtain ⟨hh, hf⟩ := List.mem_filter.1 hh
    exact ⟨h, hh, (isForged_iff henv hm hh).1 hf, henv.canonical h.1 (hm h hh hf)⟩
  · rintro ⟨h, hh, hv, rfl⟩
    have hf := (isForged_iff henv hm hh).2 hv
    exact ⟨h, List.mem_filter.2 ⟨hh, hf⟩, henv.canonical h.1 (hm h hh hf)⟩

theorem canonical_of_mem (henv : env.Textual) (hm : m.TokenNames env) (hk : k ∈ forgedNames env m.headers) :
    canonicalFrom true k = k ∧ verdictName k = true := by
  obtain ⟨h, -, hv, rfl⟩ := (mem_forgedNames henv hm).1 hk
  have hsame := sameName_canonical true h.1
  exact ⟨canonical_inj.2 hsame, (verdictName_congr hsame).trans hv⟩

/-- A canonical name counts the headers of that name in any spelling. -/
theorem count_canonical (henv : env.Textual) (hm : m.TokenNames env) (hk : k ∈ forgedNames env m.headers) :
    (forgedNames env m.headers).count k = m.headers.countP fun h => sameName k h.1 := by
  obtain ⟨hcanon, hverdict⟩ := canonical_of_mem henv hm hk
  rw [forgedNames, List.count, List.countP_map, List.countP_filter]
  refine List.countP_congr fun h hh => ?_
  simp only [Function.comp, Bool.and_eq_true, beq_iff_eq]
  constructor
  · rintro ⟨heq, hf⟩
    rw [henv.canonical h.1 (hm h hh hf), ← hcanon] at heq
    exact sameName_symm (canonical_inj.1 heq)
  · intro hsame
    have hf := (isForged_iff henv hm hh).2 ((verdictName_congr hsame).symm.trans hverdict)
    refine ⟨?_, hf⟩
    rw [henv.canonical h.1 (hm h hh hf), ← hcanon]
    exact canonical_inj.2 (sameName_symm hsame)

/-- Whatever the order of the names, the operations delete the headers with the prefix and no others. -/
theorem strips_verdict (henv : env.Textual) (hm : m.TokenNames env) {order : List (Bytes × Nat)}
    (horder : order.Perm (tally (forgedNames env m.headers))) :
    (order.flatMap stripName).foldl deleteHeader m.headers = m.headers.filter fun h => !verdictName h.1 := by
  obtain ⟨hnodup, hkeys, hcount⟩ := tally_counts (forgedNames env m.headers)
  have hmem : ∀ f ∈ order, f.1 ∈ forgedNames env m.headers := fun f hf =>
    (hkeys f.1).1 (List.mem_map_of_mem (horder.mem_iff.1 hf))
  have hnodup' : (order.map Prod.fst).Nodup := (horder.map Prod.fst).nodup_iff.2 hnodup
  have hother : order.Pairwise fun f g => sameName f.1 g.1 = false := by
    refine List.Pairwise.imp_of_mem ?_ (List.pairwise_map.1 hnodup')
    intro f g hf hg hne
    rw [Bool.eq_false_iff]
    intro hsame
    have heq := canonical_inj.2 hsame
    rw [(canonical_of_mem henv hm (hmem f hf)).1, (canonical_of_mem henv hm (hmem g hg)).1] at heq
    exact hne heq
  have hcount' : ∀ f ∈ order, f.2 = m.headers.countP fun h => sameName f.1 h.1 := by
    intro f hf
    rw [hcount f (horder.mem_iff.1 hf), count_canonical henv hm (hmem f hf)]
  rw [strips_filter hother hcount']
  refine List.filter_congr fun h hh => ?_
  congr 1
  rw [Bool.eq_iff_iff, List.any_eq_true]
  constructor
  · rintro ⟨f, hf, hsame⟩
    exact (verdictName_congr hsame).symm.trans (canonical_of_mem henv hm (hmem f hf)).2
  · intro hv
    obtain ⟨f, hf, hfst⟩ := List.mem_map.1 ((hkeys _).2 ((mem_forgedNames henv hm).2 ⟨h, hh, hv, rfl⟩))
    refine ⟨f, horder.mem_iff.2 hf, ?_⟩
    rw [hfst]
    exact sameName_canonical true h.1

/-! ## Stamped values -/

/-- No control character and nothing but ASCII. -/
def Printable (c : UInt8) : Prop := 0x20 ≤ c ∧ c ≤ 0x7e

theorem printable_sanitized (v : Bytes) : ∀ c ∈ sanitizeHeaderValue v, Printable c := by
  have hmapped : ∀ c ∈ (Scan.trimSpace ((runes v).map fun r => if r < 0x20 ∨ 0x7e < r then 0x3f else r)).map UInt8.ofNat,
      Printable c := by
    intro c hc
    obtain ⟨r, hr, rfl⟩ := List.mem_map.1 hc
    obtain ⟨r', -, rfl⟩ := List.mem_map.1 (Scan.mem_of_mem_trimSpace hr)
    have hall : ∀ r < 0x7f, 0x20 ≤ r → Printable (UInt8.ofNat r) := by
      unfold Printable
      decide
    split
    · exact hall 0x3f (by decide) (by decide)
    · exact hall r' (by omega) (by omega)
  intro c hc
  unfold sanitizeHeaderValue at hc
  dsimp only at hc
  split at hc
  · rcases List.mem_append.1 hc with hc | hc
    · exact hmapped c (List.mem_of_mem_take hc)
    · have hdots : (ascii "...").Forall Printable := by
        unfold Printable
        decide
      exact List.forall_iff_forall_mem.1 hdots c hc
  · exact hmapped c hc

/-- The names of the headers behind the first one that is stamped. -/
def otherNames : List Bytes := [hdrRules, hdrFamily, hdrInfo, hdrVersionKey]

theorem otherNames_status : ∀ name ∈ otherNames, sameName hdrStatus name = false := by
  have h : otherNames.Forall fun name => sameName hdrStatus name = false := by decide
  exact List.forall_iff_forall_mem.1 h

/-- The status comes first, then headers of other names. -/
theorem stamps_status (s : State) (x : Exchange) : ∃ others : List Header,
    (body env cfg s x).2.stamps = ((hdrStatus, (classify env cfg s x).2.status.text) :: others).map
        (fun h => (h.1, sanitizeHeaderValue h.2)) ∧ ∀ h ∈ others, h.1 ∈ otherNames := by
  have hsome : ∀ {c : Prop} [Decidable c] {name value : Bytes} {h : Header}, name ∈ otherNames →
      h ∈ (if c then [] else [(name, value)]) → h.1 ∈ otherNames := by
    intro c _ name value h hname hh
    split at hh
    · cases hh
    · obtain rfl := List.mem_singleton.1 hh
      exact hname
  let c := (classify env cfg s x).2
  refine ⟨(if c.rules = [] then [] else [(hdrRules, joinRules c.rules)]) ++
      ((if c.family = [] then [] else [(hdrFamily, c.family)]) ++
        ((if c.info = [] then [] else [(hdrInfo, c.info)]) ++ [(hdrVersionKey, cfg.version)])), ?_, ?_⟩
  · simp only [body, List.append_assoc, List.cons_append, List.nil_append, c]
  · intro h hh
    simp only [List.mem_append] at hh
    rcases hh with hh | hh | hh | hh
    · exact hsome (by simp [otherNames]) hh
    · exact hsome (by simp [otherNames]) hh
    · exact hsome (by simp [otherNames]) hh
    · rw [List.mem_singleton.1 hh]
      simp [otherNames]

theorem verdictName_status : verdictName hdrStatus = true := by decide

/-- Of a message that ends on a connection, behind any messages before it: whatever verdict headers it came with, in any
spelling, and in whatever order their names are deleted, exactly the other headers are delivered, with the stamped
headers behind them; one of these is the status, and all their values are printable. -/
theorem deliver_unforged (env : Env) (henv : env.Textual) (cfg : Config) (before : List Message) (m : Mail) (x : Exchange)
    (hm : m.TokenNames env) (order : List (Bytes × Nat))
    (horder : order.Perm (after env cfg .fresh (before.flatMap Message.events ++ m.events)).forged) :
    let s := { after env cfg .fresh (before.flatMap Message.events ++ m.events) with forged := order }
    let o := (body env cfg s x).2
    deliver m.headers o = (m.headers.filter fun h => !verdictName h.1) ++ o.stamps ∧
      ((deliver m.headers o).filter fun h => sameName hdrStatus h.1) =
        [(hdrStatus, sanitizeHeaderValue (classify env cfg s x).2.status.text)] ∧
      ∀ h ∈ o.stamps, ∀ c ∈ h.2, Printable c := by
  intro s o
  rw [forged_mail] at horder
  have hdeliver : deliver m.headers o = (m.headers.filter fun h => !verdictName h.1) ++ o.stamps :=
    congrArg (· ++ o.stamps) (strips_verdict henv hm horder)
  obtain ⟨others, hstamps, hothers⟩ := @stamps_status env cfg s x
  have hkept : ((m.headers.filter fun h => !verdictName h.1).filter fun h => sameName hdrStatus h.1) = [] := by
    rw [List.filter_filter, List.filter_eq_nil_iff]
    intro h _ hboth
    rw [Bool.and_eq_true] at hboth
    rw [← verdictName_congr hboth.1, verdictName_status] at hboth
    exact absurd hboth.2 (by decide)
  refine ⟨hdeliver, ?_, ?_⟩
  · rw [hdeliver, List.filter_append, hkept, List.nil_append, hstamps, List.map_cons, List.filter_cons_of_pos rfl]
    congr 1
    rw [List.filter_eq_nil_iff]
    intro h hh
    obtain ⟨g, hg, rfl⟩ := List.mem_map.1 hh
    rw [otherNames_status _ (hothers g hg)]
    decide
  · intro h hh
    rw [hstamps] at hh
    obtain ⟨g, -, rfl⟩ := List.mem_map.1 hh
    exact printable_sanitized g.2

/-- The two functions from outside, on ASCII; no answer can be read. -/
def plainEnv : Env where
  decode := fun _ => .error []
  lower := fun r => if 0x41 ≤ r ∧ r ≤ 0x5a then r + 0x20 else r
  canonical := canonicalFrom true

theorem plainEnv_textual : plainEnv.Textual where
  canonical := fun _ _ => rfl
  lower := by
    intro c _
    have hall : ∀ x : BitVec 8, plainEnv.lower (⟨x⟩ : UInt8).toNat = (asciiLower ⟨x⟩).toNat := by decide +kernel
    exact hall c.toBitVec

/-- Two forged headers in different spellings around another header. -/
def forgedMail : Mail where
  headers := [(ascii "x-mailstrix-STATUS", ascii "clean"), (ascii "To", ascii "a"),
    (ascii "X-Mailstrix-status", ascii "clean")]
  endOfHeaders := true
  chunks := []

theorem deliver_unforged_two : ((deliver forgedMail.headers
      (body plainEnv ⟨100, ascii "1"⟩ (after plainEnv ⟨100, ascii "1"⟩ .fresh ([] ++ forgedMail.events))
        (.failed [])).2).filter
        fun h => sameName hdrStatus h.1).length = 1 := by
  have htoken : forgedMail.TokenNames plainEnv := by
    have hall : (forgedMail.headers.all fun h => h.1.all isTokenByte) = true := by decide
    exact fun h hh _ => List.all_eq_true.1 (List.all_eq_true.1 hall h hh)
  have hdelivered := deliver_unforged plainEnv plainEnv_textual ⟨100, ascii "1"⟩ [] forgedMail (.failed []) htoken
    _ (List.Perm.refl _)
  exact congrArg List.length hdelivered.2.1

end MS.Milter
