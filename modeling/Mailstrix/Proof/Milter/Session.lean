import Mailstrix.Impl.Milter.Session

/-!
# What a milter session posts

Between the callbacks the buffer holds the text of what was handed over, or is latched once that text is over the limit
(`Holds`); each callback adds its own text.  A message begins with a fresh state, whatever came before it on the
connection (`after_messages`).  So the end of a message posts its text and stamps what the answer to that post says,
except that nothing writes the blank line of a message that ends without end-of-headers and without a body.
-/

namespace MS.Milter

open Framework
open Scan (ascii)

variable (env : Env) (cfg : Config)

variable {s : State}
variable {x : Exchange}

/-! ## The buffer -/

/-- The buffer holds `text` if that is within the limit, and is latched otherwise. -/
def Holds (s : State) (text : Bytes) : Prop :=
  if cfg.maxBody < text.length then s.oversize = true else s.oversize = false ∧ s.msg = text

variable {env cfg}

theorem holds_appendMsg {text : Bytes} (h : Holds cfg s text) (b : Bytes) :
    Holds cfg (appendMsg cfg s b) (text ++ b) := by
  unfold Holds at h ⊢
  rw [List.length_append]
  split at h
  · rename_i hlong
    rw [if_pos (by omega), appendMsg, if_pos h]
    exact h
  · obtain ⟨hover, rfl⟩ := h
    have hover' : ¬ s.oversize = true := by simp [hover]
    unfold appendMsg
    rw [if_neg hover']
    by_cases hlong : cfg.maxBody < s.msg.length + b.length
    · rw [if_pos hlong, if_pos hlong]
    · rw [if_neg hlong, if_neg hlong]
      exact ⟨hover, rfl⟩

theorem inBody_appendMsg (s : State) (b : Bytes) : (appendMsg cfg s b).inBody = s.inBody := by
  unfold appendMsg
  split_ifs <;> rfl

/-- The state behind some callbacks: what the buffer holds, and whether the blank line is in it. -/
structure Reads (cfg : Config) (s : State) (text : Bytes) (separated : Bool) : Prop where
  holds : Holds cfg s text
  inBody : s.inBody = separated

theorem reads_fresh : Reads cfg .fresh [] false := ⟨by simp [Holds, State.fresh], rfl⟩

/-- What a header adds to the text. -/
def headerText (env : Env) (h : Bytes × Bytes) : Bytes := if isForged env h.1 then [] else headerLine h.1 h.2

theorem reads_header {text : Bytes} (h : Reads cfg s text false) (name value : Bytes) :
    Reads cfg (header env cfg s name value) (text ++ headerText env (name, value)) false := by
  unfold header headerText
  dsimp only
  split
  · rw [List.append_nil]
    exact ⟨h.holds, h.inBody⟩
  · exact ⟨holds_appendMsg h.holds _, (inBody_appendMsg s _).trans h.inBody⟩

theorem reads_separate {text : Bytes} {separated : Bool} (h : Reads cfg s text separated) :
    Reads cfg (separate cfg s) (text ++ if separated then [] else ascii "\r\n") true := by
  unfold separate
  cases separated with
  | true =>
    rw [if_pos h.inBody, if_pos rfl, List.append_nil]
    exact h
  | false =>
    have hin : ¬ s.inBody = true := by simp [h.inBody]
    rw [if_neg hin]
    exact ⟨holds_appendMsg h.holds _, rfl⟩

theorem reads_bodyChunk {text : Bytes} {separated : Bool} (h : Reads cfg s text separated) (chunk : Bytes) :
    Reads cfg (bodyChunk cfg s chunk) (text ++ (if separated then [] else ascii "\r\n") ++ chunk) true :=
  ⟨holds_appendMsg (reads_separate h).holds chunk, (inBody_appendMsg _ chunk).trans (reads_separate h).inBody⟩

/-! ## One message -/

def Mail.headerBlock (env : Env) (m : Mail) : Bytes := m.headers.flatMap (headerText env)

/-- The message: its header lines but for the forged ones, a blank line, its body. -/
def Mail.text (env : Env) (m : Mail) : Bytes := m.headerBlock env ++ ascii "\r\n" ++ m.chunks.flatten

/-- Something after the headers was handed over. -/
def Mail.separated (m : Mail) : Bool := m.endOfHeaders || !m.chunks.isEmpty

theorem after_nil (s : State) : after env cfg s [] = s := rfl

theorem after_cons (s : State) (e : Event) (es : List Event) :
    after env cfg s (e :: es) = after env cfg (step env cfg s e).1 es := rfl

theorem after_append (s : State) (a b : List Event) :
    after env cfg s (a ++ b) = after env cfg (after env cfg s a) b := by
  rw [after, after, after, List.foldl_append]

theorem reads_headers {text : Bytes} (h : Reads cfg s text false) (hs : List (Bytes × Bytes)) :
    Reads cfg (after env cfg s (hs.map fun h => .header h.1 h.2)) (text ++ hs.flatMap (headerText env)) false := by
  induction hs generalizing s text with
  | nil =>
    rw [List.map_nil, after_nil, List.flatMap_nil, List.append_nil]
    exact h
  | cons x hs ih =>
    rw [List.map_cons, after_cons, List.flatMap_cons, ← List.append_assoc]
    exact ih (reads_header h x.1 x.2)

theorem reads_chunks {text : Bytes} {separated : Bool} (h : Reads cfg s text separated) (chunks : List Bytes) :
    Reads cfg (after env cfg s (chunks.map .bodyChunk))
      (text ++ (if separated || chunks.isEmpty then [] else ascii "\r\n") ++ chunks.flatten)
      (separated || !chunks.isEmpty) := by
  induction chunks generalizing s text separated with
  | nil =>
    rw [List.map_nil, after_nil]
    simpa using h
  | cons b chunks ih =>
    have hb := ih (reads_bodyChunk h b)
    rw [List.map_cons, after_cons, step]
    simpa using hb

/-- Behind the callbacks of a message, from a fresh state. -/
theorem reads_mail (m : Mail) :
    Reads cfg (after env cfg .fresh m.events)
      (m.headerBlock env ++ (if m.separated then ascii "\r\n" else []) ++ m.chunks.flatten) m.separated := by
  have hheaders : Reads cfg (after env cfg .fresh (m.headers.map fun h => .header h.1 h.2)) (m.headerBlock env) false :=
    reads_headers reads_fresh m.headers
  rw [Mail.events, after_append, after_append]
  generalize after env cfg .fresh (m.headers.map fun h => .header h.1 h.2) = s at hheaders
  unfold Mail.separated
  cases m.endOfHeaders with
  | true =>
    have := @reads_chunks env _ _ _ _ (reads_separate hheaders) m.chunks
    rw [if_pos rfl, after_cons, after_nil, step, headers]
    simpa using this
  | false =>
    rw [if_neg (by decide), after_nil]
    have := @reads_chunks env _ _ _ _ hheaders m.chunks
    cases hc : m.chunks with
    | nil => simpa [hc] using this
    | cons b chunks => simpa [hc] using this

theorem after_messages (before : List Message) : after env cfg .fresh (before.flatMap Message.events) = .fresh := by
  induction before with
  | nil => rfl
  | cons m before ih =>
    have hm : after env cfg .fresh m.events = .fresh := by
      rw [Message.events, after_append, after_cons, after_nil]
      cases m.ended with
      | none => rfl
      | some x => rfl
    rw [List.flatMap_cons, after_append, hm, ih]

/-! ## The end of a message -/

/-- The answer to a post is a verdict that is complete and has no match to act on. -/
def CleanReply (env : Env) (x : Exchange) : Prop :=
  ∃ body ms, x = .answered 200 body none ∧ body.length ≤ maxResponseBody ∧
    env.decode body = .ok { «matches» := some ms, degraded := [] } ∧ actionable ms = []

theorem scan_clean {ms : List Match} (h : scan env x = (ms, none)) (hms : actionable ms = []) : CleanReply env x := by
  cases x with
  | failed err => cases h
  | answered status body broken =>
    unfold scan at h
    dsimp only at h
    split at h
    · cases h
    · rename_i hstatus
      split at h
      · cases h
      · rename_i hlen
        cases broken with
        | some err => cases h
        | none =>
          dsimp only at h
          split at h
          · cases h
          · rename_i out hdecode
            obtain ⟨_ | ms', degraded⟩ := out
            · cases h
            · dsimp only at h
              split at h
              · cases h
              · rename_i hdegraded
                cases h
                have hempty : degraded = [] := by
                  by_contra hne
                  exact hdegraded ⟨hne, hms⟩
                subst hempty
                obtain rfl : status = 200 := not_not.1 hstatus
                exact ⟨body, ms, rfl, Nat.le_of_not_lt hlen, hdecode, hms⟩

theorem classify_clean (h : (classify env cfg s x).2.status = .clean) :
    (classify env cfg s x).1 = some s.msg ∧ CleanReply env x := by
  unfold classify at h ⊢
  split
  · rename_i hover
    rw [if_pos hover] at h
    cases h
  · rename_i hover
    rw [if_neg hover] at h
    split
    · rename_i hempty
      rw [if_pos hempty] at h
      cases h
    · rename_i hempty
      rw [if_neg hempty] at h
      refine ⟨rfl, ?_⟩
      dsimp only at h
      split at h
      · cases h
      · cases h
      · rename_i ms hscan
        split at h
        · cases h
        · rename_i hmal
          refine scan_clean hscan ?_
          simpa [verdictFor] using hmal

theorem classify_posted (s : State) (x : Exchange) :
    (classify env cfg s x).1 = if s.oversize ∨ s.msg = [] then none else some s.msg := by
  unfold classify
  by_cases hover : s.oversize = true <;> by_cases hempty : s.msg = [] <;> simp [hover, hempty]

theorem status_text_inj {a b : Status} (h : sanitizeHeaderValue a.text = b.text) : a = b := by
  have hall : ∀ a b : Status, sanitizeHeaderValue a.text = b.text → a = b := by
    intro a b
    cases a <;> cases b <;> decide +kernel
  exact hall a b h

theorem status_stamped (h : (hdrStatus, Status.clean.text) ∈ (body env cfg s x).2.stamps) :
    (classify env cfg s x).2.status = .clean := by
  simp only [body, List.map_append, List.map_cons, List.map_nil, List.mem_append, List.mem_map, List.mem_cons,
    List.not_mem_nil, or_false] at h
  have hother : ∀ {c : Prop} [Decidable c] {name value : Bytes}, hdrStatus ≠ name →
      ¬ ∃ a, (a ∈ if c then [] else [(name, value)]) ∧ (a.1, sanitizeHeaderValue a.2) = (hdrStatus, Status.clean.text) := by
    rintro c _ name value hne ⟨a, ha, heq⟩
    split at ha
    · cases ha
    · obtain rfl := List.mem_singleton.1 ha
      exact hne (congrArg Prod.fst heq).symm
  obtain (((h | h) | h) | h) | h := h
  · exact status_text_inj (congrArg Prod.snd h).symm
  · exact absurd h (hother (by decide +kernel))
  · exact absurd h (hother (by decide +kernel))
  · exact absurd h (hother (by decide +kernel))
  · have hne : hdrStatus ≠ hdrVersionKey := by decide +kernel
    exact absurd (congrArg Prod.fst h) hne

/-! ## Sessions -/

/-- The end of a message posts the message if it is within the limit and nothing otherwise, stamps it clean only if it
was posted and the answer is clean, and accepts it. -/
structure ScannedWhole (env : Env) (cfg : Config) (m : Mail) (x : Exchange) (o : Outcome) : Prop where
  posted : o.posted = if cfg.maxBody < (m.text env).length then none else some (m.text env)
  clean : (hdrStatus, Status.clean.text) ∈ o.stamps → o.posted = some (m.text env) ∧ CleanReply env x
  accept : o.answer = .accept

/-- What handed the blank line over, or made it irrelevant: end-of-headers or a body chunk, headers that are over the
limit by themselves, or no header at all where the blank line alone is over it. -/
def Mail.Separates (env : Env) (cfg : Config) (m : Mail) : Prop :=
  m.endOfHeaders = true ∨ m.chunks ≠ [] ∨ cfg.maxBody < (m.headerBlock env).length ∨
    (m.headerBlock env = [] ∧ cfg.maxBody < 2)

theorem length_crlf : (ascii "\r\n").length = 2 := by decide

/-- What the end of a message posts. -/
theorem posted_holds {text : Bytes} (h : Holds cfg s text) (x : Exchange) :
    (body env cfg s x).2.posted = if cfg.maxBody < text.length ∨ text = [] then none else some text := by
  show (classify env cfg s x).1 = _
  rw [classify_posted]
  unfold Holds at h
  split at h
  · rename_i hlong
    rw [if_pos (.inl h), if_pos (.inl hlong)]
  · rename_i hshort
    obtain ⟨hover, rfl⟩ := h
    simp [hover, hshort]

theorem scannedWhole_of_posted {m : Mail}
    (h : (body env cfg s x).2.posted = if cfg.maxBody < (m.text env).length then none else some (m.text env)) :
    ScannedWhole env cfg m x (body env cfg s x).2 := by
  refine ⟨h, ?_, rfl⟩
  intro hstamp
  obtain ⟨hposted, hreply⟩ := classify_clean (status_stamped hstamp)
  have hposted : (body env cfg s x).2.posted = some s.msg := hposted
  refine ⟨?_, hreply⟩
  rw [hposted] at h ⊢
  split at h
  · cases h
  · exact h

/-- In any session, behind any messages that were ended or aborted: the end of a message scans it whole exactly if the
blank line behind its headers was handed over or is irrelevant. -/
theorem session_scans_whole_iff (env : Env) (cfg : Config) (before : List Message) (m : Mail) (x : Exchange) :
    ScannedWhole env cfg m x (body env cfg (after env cfg .fresh (before.flatMap Message.events ++ m.events)) x).2 ↔
      m.Separates env cfg := by
  have hposted := @posted_holds env cfg _ _ (@reads_mail env cfg m).holds x
  rw [after_append, after_messages]
  generalize after env cfg .fresh m.events = s at hposted ⊢
  cases hsep : m.separated with
  | true =>
    have htext : m.headerBlock env ++ (if m.separated then ascii "\r\n" else []) ++ m.chunks.flatten = m.text env := by
      rw [hsep, if_pos rfl, Mail.text]
    have hne : m.text env ≠ [] := by
      intro hnil
      have := congrArg List.length hnil
      rw [Mail.text, List.length_append, List.length_append, length_crlf, List.length_nil] at this
      omega
    have hcond : m.Separates env cfg := by
      simp only [Mail.separated, Bool.or_eq_true, Bool.not_eq_true', List.isEmpty_eq_false_iff] at hsep
      exact hsep.elim .inl fun h => .inr (.inl h)
    rw [htext] at hposted
    simp only [hne, or_false] at hposted
    exact ⟨fun _ => hcond, fun _ => scannedWhole_of_posted hposted⟩
  | false =>
    simp only [Mail.separated, Bool.or_eq_false_iff, Bool.not_eq_false', List.isEmpty_iff] at hsep
    obtain ⟨hend, hchunks⟩ := hsep
    have htext : m.headerBlock env ++ (if m.separated then ascii "\r\n" else []) ++ m.chunks.flatten =
        m.headerBlock env := by
      simp [Mail.separated, hend, hchunks]
    have hlen : (m.text env).length = (m.headerBlock env).length + 2 := by
      rw [Mail.text, hchunks, List.flatten_nil, List.append_nil, List.length_append, length_crlf]
    have hcond : m.Separates env cfg ↔
        cfg.maxBody < (m.headerBlock env).length ∨ (m.headerBlock env = [] ∧ cfg.maxBody < 2) := by
      simp [Mail.Separates, hend, hchunks]
    rw [htext] at hposted
    rw [hcond]
    constructor
    · intro h
      have hboth := h.posted
      by_cases hlong : cfg.maxBody < (m.headerBlock env).length
      · exact .inl hlong
      · by_cases hnil : m.headerBlock env = []
        · refine .inr ⟨hnil, ?_⟩
          rw [hposted, if_pos (.inr hnil), hlen, hnil, List.length_nil] at hboth
          by_contra hshort
          rw [if_neg (by omega)] at hboth
          cases hboth
        · -- the headers were posted without the blank line
          exfalso
          rw [hposted, if_neg (by rintro (h | h); exacts [hlong h, hnil h])] at hboth
          split at hboth
          · cases hboth
          · have := congrArg List.length (Option.some.inj hboth)
            omega
    · intro h
      refine scannedWhole_of_posted ?_
      rw [hposted, hlen]
      rcases h with hlong | ⟨hnil, hshort⟩
      · rw [if_pos (.inl hlong), if_pos (by omega)]
      · rw [if_pos (.inr hnil), hnil, if_pos (by simpa using hshort)]

/-- A message of one header, ended at once: it is posted without the blank line, and stamped clean. -/
theorem session_posts_headers_alone :
    ∃ (env : Env) (cfg : Config) (before : List Message) (m : Mail) (x : Exchange),
      ¬ ScannedWhole env cfg m x
        (body env cfg (after env cfg .fresh (before.flatMap Message.events ++ m.events)) x).2 := by
  let env : Env := { decode := fun _ => .ok { «matches» := some [], degraded := [] }, lower := id, canonical := id }
  let m : Mail := { headers := [(ascii "Subject", ascii "hi")], endOfHeaders := false, chunks := [] }
  refine ⟨env, { maxBody := 100, version := [] }, [], m, .answered 200 [] none, ?_⟩
  intro h
  exact absurd h.posted (by decide +kernel)

end MS.Milter
