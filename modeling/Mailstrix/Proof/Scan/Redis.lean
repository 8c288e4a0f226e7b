import Mailstrix.Impl.Scan.Cache

/-!
# Sealed verdicts in a shared Redis

The tag of a value covers its prefixed key, a NUL and the value, without a length.  Keys may contain
NUL bytes, but neither what is sealed nor what is decoded does, so that the last NUL is where they
meet (`redisMessage_inj`).  An adversary may store anything; of the tag it is assumed only that the one
verified at the `GET` is not forged: `sealed_under_same_key`.
-/

namespace MS.Cache

open Framework

variable {M : Hmac} {J : Json} {key : Bytes}

/-! ## Framing -/

theorem openRedisValue_some {rk framed value : Bytes} (hkey : key ≠ [])
    (h : openRedisValue M key rk framed = some value) :
    (framed.drop 1).take macLen = redisMAC M key rk value ∧ value = framed.drop (1 + macLen) := by
  unfold openRedisValue at h
  rw [if_neg (by simpa using hkey)] at h
  simp only at h
  split_ifs at h with h₁ h₂
  cases h
  exact ⟨not_not.1 h₂, rfl⟩

theorem redisMessage_inj {rk rk' value value' : Bytes} (hvalue : 0 ∉ value) (hvalue' : 0 ∉ value')
    (h : redisMessage rk value = redisMessage rk' value') : rk = rk' ∧ value = value' :=
  append_sep_inj_last hvalue hvalue' h

/-! ## What Redis holds -/

/-- The step sealed this value under this prefixed key. -/
def SharedEvent.Seals (J : Json) (rk value : Bytes) (e : SharedEvent) : Prop :=
  ∃ r now k hits, e = .put r now k hits ∧ r.redisPrefix ++ k = rk ∧ J.marshal hits = some value

/-- Every message that was tagged is that of a value which a step sealed. -/
def Tagged (J : Json) (es : List SharedEvent) (s : Shared) : Prop :=
  ∀ m ∈ s.tagged, ∃ rk value, m = redisMessage rk value ∧ ∃ e ∈ es, e.Seals J rk value

theorem Tagged.step {es : List SharedEvent} {s s' : Shared} {e : SharedEvent} (h : Tagged J es s)
    (hstep : SharedStep M J key s e s') : Tagged J (es ++ [e]) s' := by
  have hold : ∀ m ∈ s.tagged, ∃ rk value, m = redisMessage rk value ∧ ∃ ev ∈ es ++ [e], ev.Seals J rk value := by
    intro m hm
    obtain ⟨rk, value, hmessage, ev, hev, hseals⟩ := h m hm
    exact ⟨rk, value, hmessage, ev, List.mem_append_left _ hev, hseals⟩
  cases hstep with
  | @put r now k hits b store hr hallow hb hstore =>
    intro m hm
    rcases List.mem_cons.1 hm with rfl | hm
    · have hlast : SharedEvent.put r now k hits ∈ es ++ [.put r now k hits] := by simp
      exact ⟨_, _, rfl, _, hlast, r, now, k, hits, rfl, rfl, hb⟩
    · exact hold m hm
  | place => exact hold

theorem run_tagged {es : List SharedEvent} {s : Shared} (hrun : Run (sharedSystem M J key) {} es s) : Tagged J es s :=
  Run.history (I := Tagged J) (fun m hm => (by cases hm)) (fun _ _ _ _ _ h hstep => h.step hstep) hrun

/-- Sealed verdicts stay under their keys.  With a MAC key, whatever its holders sealed and whatever
someone without it stores under any name: if `redisLayer.get` returns a verdict, and the tag it verified
is not forged, then the JSON value it decoded was sealed under the same prefixed key. -/
theorem sealed_under_same_key (M : Hmac) (J : Json) {key : Bytes} (hkey : key ≠ []) {es : List SharedEvent}
    {s : Shared} (hrun : Run (sharedSystem M J key) {} es s) {r : RedisLayer} (hr : r.macKey = key)
    {now later : Int} {k : Bytes} {hits : Slice RetainedMatch} (hun : s.Unforged M key (r.redisPrefix ++ k))
    (hget : (r.get M J now later (s.reply (r.redisPrefix ++ k)) k).2 = some hits) :
    ∃ framed value, s.store (r.redisPrefix ++ k) = some framed ∧
      openRedisValue M key (r.redisPrefix ++ k) framed = some value ∧ J.unmarshal value = some hits ∧
      ∃ e ∈ es, e.Seals J (r.redisPrefix ++ k) value := by
  unfold RedisLayer.get Shared.reply at hget
  cases hs : s.store (r.redisPrefix ++ k) with
  | none =>
    simp only [hs] at hget
    split_ifs at hget
  | some framed =>
    simp only [hs] at hget
    split_ifs at hget
    rw [hr] at hget
    cases ho : openRedisValue M key (r.redisPrefix ++ k) framed with
    | none =>
      simp only [ho] at hget
      cases hget
    | some value =>
      simp only [ho] at hget
      refine ⟨framed, value, rfl, ho, hget, ?_⟩
      obtain ⟨htag, hvalue⟩ := openRedisValue_some hkey ho
      subst hvalue
      obtain ⟨rk, v, hm, ev, hev, hseals⟩ := run_tagged hrun _ (hun framed hs htag)
      -- neither value contains a NUL, so that the last one separates key and value
      have hnul : 0 ∉ v := by
        obtain ⟨r', now', k', hits', -, -, hmarshal⟩ := hseals
        exact J.marshal_nul hmarshal
      obtain ⟨hk, hv⟩ := redisMessage_inj (J.unmarshal_nul hget) hnul hm
      rw [hk, hv]
      exact ⟨ev, hev, hseals⟩

/-- A code with one text, and tags that repeat the end of the message. -/
def sampleJson : Json where
  marshal _ := some [0x5b, 0x5d]
  unmarshal b := if b = [0x5b, 0x5d] then some {} else none
  marshal_nul h := by
    cases h
    decide
  unmarshal_nul h := by
    split_ifs at h with hb
    rw [hb]
    decide

def sampleHmac : Hmac where
  sum _ m := (List.replicate 32 7 ++ m).drop m.length
  length _ m := by
    rw [List.length_drop, List.length_append, List.length_replicate]
    omega

def sampleLayer : RedisLayer := ⟨[0x70, 0x3a], [1, 2, 3], {}, false⟩

/-- A key with a NUL in it, as raw hashes have. -/
def sampleKey : Bytes := [0x61, 0, 0x62]

/-- Another key, under which the adversary stores what was sealed for the first. -/
def otherKey : Bytes := [0x63]

def sampleName : Bytes := sampleLayer.redisPrefix ++ sampleKey

def sampleFramed : Bytes := sealRedisValue sampleHmac [1, 2, 3] sampleName [0x5b, 0x5d]

def sampleSealed : Shared where
  store := Function.update (fun _ => none) sampleName (some sampleFramed)
  tagged := [redisMessage sampleName [0x5b, 0x5d]]

/-- After the move: the same content under both names. -/
def sampleShared : Shared :=
  { sampleSealed with
    store := Function.update sampleSealed.store (sampleLayer.redisPrefix ++ otherKey) (some sampleFramed) }

/-- A verdict is found under the key it was sealed for, and not under the one to which it was moved. -/
theorem sealed_under_same_key_moved :
    (sampleLayer.get sampleHmac sampleJson 0 0 (sampleShared.reply sampleName) sampleKey).2 = some {} ∧
    (∃ value, sampleJson.unmarshal value = some {} ∧
      SharedEvent.Seals sampleJson sampleName value (.put sampleLayer 0 sampleKey {})) ∧
    sampleShared.Unforged sampleHmac [1, 2, 3] (sampleLayer.redisPrefix ++ otherKey) ∧
    (sampleLayer.get sampleHmac sampleJson 0 0
      (sampleShared.reply (sampleLayer.redisPrefix ++ otherKey)) otherKey).2 = none := by
  have hput : (sharedSystem sampleHmac sampleJson [1, 2, 3]).step {} (.put sampleLayer 0 sampleKey {}) sampleSealed :=
    .put rfl rfl rfl (.inr ⟨_, rfl, rfl⟩)
  have hmove : (sharedSystem sampleHmac sampleJson [1, 2, 3]).step sampleSealed
      (.place (sampleLayer.redisPrefix ++ otherKey) (some sampleFramed)) sampleShared := .place
  have hrun := (Run.single hput).snoc hmove
  have hget : (sampleLayer.get sampleHmac sampleJson 0 0 (sampleShared.reply sampleName) sampleKey).2 = some {} := rfl
  have hun : sampleShared.Unforged sampleHmac [1, 2, 3] sampleName := by
    intro framed hframed _
    obtain rfl : sampleFramed = framed := Option.some.inj hframed
    decide
  obtain ⟨framed, value, -, -, hvalue, e, he, hseals⟩ :=
    sealed_under_same_key sampleHmac sampleJson (by decide) hrun rfl hun hget
  refine ⟨hget, ⟨value, hvalue, ?_⟩, ?_, rfl⟩
  · simp only [List.cons_append, List.nil_append, List.mem_cons, List.not_mem_nil, or_false] at he
    rcases he with rfl | rfl
    · exact hseals
    · obtain ⟨r, now, k, hits, h, -⟩ := hseals
      cases h
  · intro framed hframed htag
    obtain rfl : sampleFramed = framed := Option.some.inj hframed
    exact absurd htag (by decide)

end MS.Cache
