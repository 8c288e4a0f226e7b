import Mailstrix.Impl.Scan.Scanner

/-!
# What a scan reports

The set of rules that a complete scan reports, from the entries of its sweep: an entry counts on its own
channel unless an earlier one, on whichever channel, had the same bytes.

* `report_exact_iff`: every hit of every entry is reported exactly if no marker has the bytes of the body
  or of a stream, and the body is not also a macro stream.
-/

namespace MS.Scan

open Framework

/-! ## Merging matches -/

/-- Some match has this (namespace, rule) pair. -/
def Fired (ms : List Match) (k : Bytes × Bytes) : Prop := ∃ m ∈ ms, m.key = k

@[simp] theorem fired_nil (k : Bytes × Bytes) : ¬ Fired [] k := by simp [Fired]

@[simp] theorem fired_cons (m : Match) (ms : List Match) (k : Bytes × Bytes) :
    Fired (m :: ms) k ↔ m.key = k ∨ Fired ms k := by simp [Fired]

@[simp] theorem fired_append (ms ns : List Match) (k : Bytes × Bytes) :
    Fired (ms ++ ns) k ↔ Fired ms k ∨ Fired ns k := by simp [Fired, or_and_right, exists_or]

/-- What was seen is what was put out. -/
def Sweep.Consistent (x : Sweep) : Prop := ∀ k, k ∈ x.matchSeen ↔ Fired x.out k

/-- Merging adds the matches' keys and touches nothing else. -/
theorem merge_spec (x : Sweep) (h : x.Consistent) (ms : List Match) :
    (x.merge ms).Consistent ∧ (∀ k, Fired (x.merge ms).out k ↔ Fired x.out k ∨ Fired ms k) ∧
      (x.merge ms).seen = x.seen := by
  induction ms generalizing x with
  | nil => simpa [Sweep.merge] using h
  | cons m ms ih =>
    unfold Sweep.merge
    split
    · rename_i hm
      obtain ⟨h₁, h₂, h₃⟩ := ih x h
      refine ⟨h₁, fun k => ?_, h₃⟩
      -- the key is already out
      have hk : m.key = k → Fired x.out k := fun hk => (h k).mp (hk ▸ hm)
      rw [h₂, fired_cons]
      tauto
    · obtain ⟨h₁, h₂, h₃⟩ := ih { x with matchSeen := m.key :: x.matchSeen, out := x.out ++ [m] } (by
        intro k
        simp [h k, or_comm, eq_comm])
      refine ⟨h₁, fun k => ?_, h₃⟩
      rw [h₂]
      simp [or_assoc]

/-! ## Scans that complete -/

section Sweeping

variable {R : Type} {H : Hashes} {c : SweepContext R} {f : R → Bytes → ScanVars → List Match}

/-- No native scan of this sweep fails, and none finds less than a second of the budget left. -/
structure SweepContext.Completes (c : SweepContext R) (f : R → Bytes → ScanVars → List Match) : Prop where
  native : ∀ n r b v t, c.world.native n r b v t = .ok (f r b v)
  time : ∀ d n, c.deadline = some d → second ≤ d - c.world.clock n

variable (H) (c) (f) in
/-- The matches of one entry that its channel lets through. -/
def SweepContext.hits (ch : Bool) (b : Bytes) : List Match :=
  filterMarkerChannel (f (c.streamRules b ch) b (c.streamVars H b ch)) ch

/-- An entry whose bytes are new is scanned and its matches are merged, if its native scan returns in
time. -/
theorem scan_new {x : Sweep} {b : Bytes} (ch : Bool) (ms : List Match) (h : streamDedupKey H b ∉ x.seen)
    (htime : ∀ d, c.deadline = some d → second ≤ d - c.world.clock x.reads)
    (hn : ∀ t, c.world.native x.scans (c.streamRules b ch) b (c.streamVars H b ch) t = .ok ms) :
    ∃ reads, c.scan H x b ch =
      (({ x with seen := streamDedupKey H b :: x.seen, reads := reads, scans := x.scans + 1 }.merge
        (filterMarkerChannel ms ch)).visit b ch .scanned, false) := by
  unfold SweepContext.scan
  cases hd : c.deadline with
  | none => exact ⟨x.reads, by simp [h, hn]⟩
  | some d =>
    have hlow : ¬ d - c.world.clock x.reads < second := not_lt.mpr (htime d hd)
    exact ⟨x.reads + 1, by simp [h, hlow, hn]⟩

/-- One entry: skipped if its bytes were seen, else its hits are added. -/
theorem scan_spec (hc : c.Completes f) (x : Sweep) (hx : x.Consistent) (b : Bytes) (ch : Bool) :
    (c.scan H x b ch).2 = false ∧ (c.scan H x b ch).1.Consistent ∧
    (∀ h, h ∈ (c.scan H x b ch).1.seen ↔ h ∈ x.seen ∨ h = streamDedupKey H b) ∧
    ∀ k, Fired (c.scan H x b ch).1.out k ↔
      Fired x.out k ∨ (streamDedupKey H b ∉ x.seen ∧ Fired (c.hits H f ch b) k) := by
  by_cases hseen : streamDedupKey H b ∈ x.seen
  · have heq : c.scan H x b ch = (x.visit b ch .duplicate, false) := by simp [SweepContext.scan, hseen]
    rw [heq]
    refine ⟨rfl, hx, fun h => ⟨Or.inl, ?_⟩, fun k => by simp [hseen, Sweep.visit]⟩
    rintro (h | rfl) <;> assumption
  · obtain ⟨reads, heq⟩ := scan_new ch _ hseen (fun d hd => hc.time d _ hd) (fun t => hc.native _ _ _ _ t)
    change _ = ((Sweep.merge _ (c.hits H f ch b)).visit b ch .scanned, false) at heq
    obtain ⟨h₁, h₂, h₃⟩ := merge_spec
      { x with seen := streamDedupKey H b :: x.seen, reads := reads, scans := x.scans + 1 } hx (c.hits H f ch b)
    rw [heq]
    refine ⟨rfl, h₁, fun h => ?_, fun k => ?_⟩
    · show h ∈ (Sweep.merge _ _).seen ↔ _
      rw [h₃, List.mem_cons, or_comm]
    · show Fired (Sweep.merge _ _).out k ↔ _
      rw [h₂]
      simp [hseen]

/-- A loop over entries that hash apart: each one whose bytes were not seen before the loop adds its
hits. -/
theorem scanEach_spec (hc : c.Completes f) {S : Set Bytes} (hinj : S.InjOn (streamDedupKey H)) (ch : Bool)
    (bs : List Bytes) (hbs : ∀ b ∈ bs, b ∈ S) (x : Sweep) (hx : x.Consistent) :
    (c.scanEach H ch x bs).Consistent ∧
    (∀ h, h ∈ (c.scanEach H ch x bs).seen ↔ h ∈ x.seen ∨ ∃ b ∈ bs, h = streamDedupKey H b) ∧
    ∀ k, Fired (c.scanEach H ch x bs).out k ↔
      Fired x.out k ∨ ∃ b ∈ bs, streamDedupKey H b ∉ x.seen ∧ Fired (c.hits H f ch b) k := by
  induction bs generalizing x with
  | nil => simpa [SweepContext.scanEach] using hx
  | cons b bs ih =>
    obtain ⟨hstop, h₁, h₂, h₃⟩ := scan_spec (H := H) hc x hx b ch
    rw [List.forall_mem_cons] at hbs
    obtain ⟨i₁, i₂, i₃⟩ := ih hbs.2 _ h₁
    unfold SweepContext.scanEach
    simp only [hstop, Bool.false_eq_true, if_false]
    refine ⟨i₁, fun h => ?_, fun k => ?_⟩
    · rw [i₂, h₂]
      simp [or_assoc]
    · rw [i₃, h₃]
      simp only [h₂, not_or, List.exists_mem_cons_iff]
      constructor
      · rintro ((h | h) | ⟨b', hb', ⟨hs, -⟩, hk⟩)
        · exact Or.inl h
        · exact Or.inr (Or.inl h)
        · exact Or.inr (Or.inr ⟨b', hb', hs, hk⟩)
      · rintro (h | h | ⟨b', hb', hs, hk⟩)
        · exact Or.inl (Or.inl h)
        · exact Or.inl (Or.inr h)
        · -- an entry with the bytes of the first one has its hits
          by_cases heq : streamDedupKey H b' = streamDedupKey H b
          · obtain rfl := hinj (hbs.2 b' hb') hbs.1 heq
            exact Or.inl (Or.inr ⟨hs, hk⟩)
          · exact Or.inr ⟨b', hb', ⟨hs, heq⟩, hk⟩

end Sweeping

/-! ## The whole scan -/

section Report

variable {R : Type} (H : Hashes) (s : Scanner) (profile : EffortProfile) (g : Generation R)
variable (buf : Bytes) (m : ScanMeta) (w : World R) (rules : R)

/-- A world in which the native scanner is a function of ruleset, bytes and variables. -/
def World.withNative (f : R → Bytes → ScanVars → List Match) : World R :=
  { w with native := fun _ r b v _ => .ok (f r b v) }

/-- Every out-of-band marker: the scanner's own and the extractor's. -/
def outOfBand : List Bytes := (mismatchMarker H w.extraction m.extension).toList ++ w.extraction.markers

/-- The rules that the scan reports, before the denylist. -/
def Reported (f : R → Bytes → ScanVars → List Match) : Bytes × Bytes → Prop :=
  Fired (scanRules H s profile g buf m (w.withNative f) rules).sweep.out

/-- The rules that it should report: what is no marker's on the body and on every stream, and what is a
marker's on every marker. -/
def Expected (f : R → Bytes → ScanVars → List Match) (k : Bytes × Bytes) : Prop :=
  let c := sweepContext H s profile g m w rules
  Fired (filterMarkerChannel (f (contentRules s g rules buf) buf (rawVars m)) false) k ∨
    (∃ b ∈ w.extraction.streams, Fired (c.hits H f false b) k) ∨
    ∃ b ∈ outOfBand H m w, Fired (c.hits H f true b) k

/-- What deduplication leaves of it: a stream with the body's bytes, and a marker with the body's or a
stream's bytes, is left out. -/
def Kept (f : R → Bytes → ScanVars → List Match) (k : Bytes × Bytes) : Prop :=
  let c := sweepContext H s profile g m w rules
  Fired (filterMarkerChannel (f (contentRules s g rules buf) buf (rawVars m)) false) k ∨
    (∃ b ∈ w.extraction.streams, b ≠ buf ∧ Fired (c.hits H f false b) k) ∨
    ∃ b ∈ outOfBand H m w, (b ≠ buf ∧ b ∉ w.extraction.streams) ∧ Fired (c.hits H f true b) k

/-- No marker has the bytes of the body or of a stream, and the body is no macro stream. -/
def Separated : Prop :=
  (∀ b ∈ outOfBand H m w, b ≠ buf ∧ b ∉ w.extraction.streams) ∧
    (buf ∈ w.extraction.streams → buf ∉ w.extraction.vbaStreams)

/-- Every byte string that a scan hashes. -/
def hashed : Set Bytes :=
  {b | b = buf ∨ b ∈ w.extraction.streams ∨ b ∈ w.extraction.vbaStreams ∨ b ∈ outOfBand H m w}

variable {H s profile g buf m w rules}

theorem mem_streamScanOrder {res : Extraction} {b : Bytes} : b ∈ streamScanOrder res ↔ b ∈ res.streams := by
  rw [streamScanOrder, List.mem_append, (List.perm_insertionSort _ _).mem_iff, ← List.mem_append,
    List.take_append_drop]

theorem rawSeed_eq (hkey : m.rawKey = List.replicate 16 0 ∨ m.rawKey = streamDedupKey H buf) :
    rawSeed H buf m = streamDedupKey H buf := by
  unfold rawSeed
  split
  · rfl
  · exact hkey.resolve_left ‹_›

/-- The streams on one channel, then all markers on the other. -/
theorem scanStreamLoop_eq {c : SweepContext R} {f : R → Bytes → ScanVars → List Match} (hc : c.Completes f)
    {x : Sweep} (hx : (c.scanEach H false x (streamScanOrder c.world.extraction)).Consistent) :
    c.scanStreamLoop H x = c.scanEach H true (c.scanEach H false x (streamScanOrder c.world.extraction))
      (outOfBand H c.scanMeta c.world) := by
  cases hmk : mismatchMarker H c.world.extraction c.scanMeta.extension with
  | none => simp [SweepContext.scanStreamLoop, outOfBand, hmk]
  | some marker =>
    obtain ⟨hstop, -⟩ := scan_spec (H := H) hc _ hx marker true
    simp [SweepContext.scanStreamLoop, outOfBand, hmk, SweepContext.scanEach, hstop]

theorem sweepStart_consistent (f : R → Bytes → ScanVars → List Match) :
    (sweepStart H s profile g buf m (w.withNative f) rules).Consistent := by
  intro k
  simp [sweepStart, scanRawChannel, rawOutcome, World.withNative, Fired]

theorem completes_withNative (htime : ∀ d n, scanDeadline profile w = some d → second ≤ d - w.clock n)
    (f : R → Bytes → ScanVars → List Match) :
    (sweepContext H s profile g m (w.withNative f) rules).Completes f where
  native _ _ _ _ _ := rfl
  time := htime

theorem reported_iff (hkey : m.rawKey = List.replicate 16 0 ∨ m.rawKey = streamDedupKey H buf)
    (hinj : (hashed H buf m w).InjOn (streamDedupKey H))
    (htime : ∀ d n, scanDeadline profile w = some d → second ≤ d - w.clock n)
    (f : R → Bytes → ScanVars → List Match) (k : Bytes × Bytes) :
    Reported H s profile g buf m w rules f k ↔ Kept H s profile g buf m w rules f k := by
  have hc : (sweepContext H s profile g m (w.withNative f) rules).Completes f := completes_withNative htime f
  have hstart : (sweepStart H s profile g buf m (w.withNative f) rules).Consistent := sweepStart_consistent f
  have hstreams : ∀ b ∈ streamScanOrder w.extraction, b ∈ hashed H buf m w := fun b hb =>
    Or.inr (Or.inl (mem_streamScanOrder.mp hb))
  obtain ⟨h₁, h₂, h₃⟩ := scanEach_spec hc hinj false _ hstreams _ hstart
  have hmarkers : ∀ b ∈ outOfBand H m w, b ∈ hashed H buf m w := fun b hb => Or.inr (Or.inr (Or.inr hb))
  obtain ⟨-, -, h₄⟩ := scanEach_spec hc hinj true _ hmarkers _ h₁
  -- hashes tell the entries apart
  have hne : ∀ b ∈ hashed H buf m w, (streamDedupKey H b ∉ [rawSeed H buf m] ↔ b ≠ buf) := by
    intro b hb
    rw [List.mem_singleton, rawSeed_eq hkey, hinj.eq_iff hb (Or.inl rfl)]
  have hnot : ∀ b ∈ hashed H buf m w,
      ((∃ b' ∈ streamScanOrder w.extraction, streamDedupKey H b = streamDedupKey H b') ↔ b ∈ w.extraction.streams) := by
    intro b hb
    constructor
    · rintro ⟨b', hb', heq⟩
      rw [hinj hb (hstreams b' hb') heq]
      exact mem_streamScanOrder.mp hb'
    · exact fun h => ⟨b, mem_streamScanOrder.mpr h, rfl⟩
  have hloop : (scanRules H s profile g buf m (w.withNative f) rules).sweep = _ := scanStreamLoop_eq hc h₁
  unfold Reported
  rw [hloop]
  refine (h₄ k).trans ?_
  rw [h₃, or_assoc]
  refine or_congr Iff.rfl (or_congr ⟨?_, ?_⟩ ⟨?_, ?_⟩)
  · rintro ⟨b, hb, hs, hk⟩
    exact ⟨b, mem_streamScanOrder.mp hb, (hne b (hstreams b hb)).mp hs, hk⟩
  · rintro ⟨b, hb, hs, hk⟩
    have hb := mem_streamScanOrder.mpr hb
    exact ⟨b, hb, (hne b (hstreams b hb)).mpr hs, hk⟩
  · rintro ⟨b, hb, hs, hk⟩
    rw [h₂, not_or] at hs
    exact ⟨b, hb, ⟨(hne b (hmarkers b hb)).mp hs.1, fun h => hs.2 ((hnot b (hmarkers b hb)).mpr h)⟩, hk⟩
  · rintro ⟨b, hb, ⟨hs, hn⟩, hk⟩
    refine ⟨b, hb, ?_, hk⟩
    rw [h₂, not_or]
    exact ⟨(hne b (hmarkers b hb)).mpr hs, fun h => hn ((hnot b (hmarkers b hb)).mp h)⟩

/-- A body that is no macro stream is scanned as the body and as a stream alike. -/
theorem hits_body (hinj : (hashed H buf m w).InjOn (streamDedupKey H)) (hvba : buf ∉ w.extraction.vbaStreams)
    (f : R → Bytes → ScanVars → List Match) :
    (sweepContext H s profile g m w rules).hits H f false buf =
      filterMarkerChannel (f (contentRules s g rules buf) buf (rawVars m)) false := by
  have hnot : streamDedupKey H buf ∉ w.extraction.vbaStreams.map (streamDedupKey H) := by
    rintro h
    obtain ⟨b, hb, heq⟩ := List.mem_map.mp h
    exact hvba (hinj (Or.inr (Or.inr (Or.inl hb))) (Or.inl rfl) heq ▸ hb)
  simp [SweepContext.hits, SweepContext.streamRules, SweepContext.streamVars, sweepContext, rawVars, hnot]

/-- A rule of the marker channel, and one of the content channel. -/
def markerHit : Match := { rule := ascii "Marker", tags := [markerTag] }

def contentHit : Match := { rule := ascii "Content" }

/-- A ruleset that knows one marker misses it if its bytes came first. -/
theorem not_kept_of_marker {b : Bytes} (hb : b ∈ outOfBand H m w) (hdup : b = buf ∨ b ∈ w.extraction.streams) :
    ∃ f k, Expected H s profile g buf m w rules f k ∧ ¬ Kept H s profile g buf m w rules f k := by
  -- the rule fires on these bytes only, and only on the marker channel
  let f : R → Bytes → ScanVars → List Match := fun _ b' _ => if b' = b then [markerHit] else []
  have hcontent : ∀ r b' v, filterMarkerChannel (f r b' v) false = [] := by
    intro r b' v
    by_cases h : b' = b <;> simp [f, h, filterMarkerChannel, matchIsMarker, markerHit]
  have hmarker : ∀ b', b' ≠ b → (sweepContext H s profile g m w rules).hits H f true b' = [] := by
    intro b' h
    simp [SweepContext.hits, f, h, filterMarkerChannel]
  refine ⟨f, markerHit.key, Or.inr (Or.inr ⟨b, hb, ?_⟩), ?_⟩
  · simp [SweepContext.hits, f, filterMarkerChannel, matchIsMarker, markerHit, Match.key]
  · rintro (h | ⟨b', -, -, h⟩ | ⟨b', -, hnew, h⟩)
    · simp [hcontent] at h
    · simp [SweepContext.hits, hcontent] at h
    · by_cases heq : b' = b
      · subst heq
        exact hdup.elim hnew.1 hnew.2
      · simp [hmarker b' heq] at h

/-- A macro rule misses a macro stream that the body repeats: the body is scanned without the macro
variable, and the stream is not scanned. -/
theorem not_kept_of_vba (hstream : buf ∈ w.extraction.streams) (hvba : buf ∈ w.extraction.vbaStreams) :
    ∃ f k, Expected H s profile g buf m w rules f k ∧ ¬ Kept H s profile g buf m w rules f k := by
  let f : R → Bytes → ScanVars → List Match := fun _ b v => if b = buf ∧ v.vba then [contentHit] else []
  have hkey : streamDedupKey H buf ∈ w.extraction.vbaStreams.map (streamDedupKey H) := List.mem_map_of_mem hvba
  refine ⟨f, contentHit.key, Or.inr (Or.inl ⟨buf, hstream, ?_⟩), ?_⟩
  · simp [SweepContext.hits, f, SweepContext.streamVars, sweepContext, hkey, filterMarkerChannel, matchIsMarker,
      contentHit, Match.key]
  · rintro (h | ⟨b, -, hne, h⟩ | ⟨b, -, hnew, h⟩)
    · simp [f, rawVars, filterMarkerChannel] at h
    · simp [SweepContext.hits, f, hne, filterMarkerChannel] at h
    · simp [SweepContext.hits, f, hnew.1, filterMarkerChannel] at h

theorem report_exact_iff (hkey : m.rawKey = List.replicate 16 0 ∨ m.rawKey = streamDedupKey H buf)
    (hinj : (hashed H buf m w).InjOn (streamDedupKey H))
    (htime : ∀ d n, scanDeadline profile w = some d → second ≤ d - w.clock n) :
    (∀ f k, Reported H s profile g buf m w rules f k ↔ Expected H s profile g buf m w rules f k) ↔
      Separated H buf m w := by
  simp only [reported_iff hkey hinj htime]
  constructor
  · intro hexact
    refine ⟨fun b hb => ?_, fun hstream hvba => ?_⟩
    · by_contra hdup
      rw [not_and_or, not_not, not_not] at hdup
      obtain ⟨f, k, he, hk⟩ : ∃ f k, Expected H s profile g buf m w rules f k ∧
        ¬ Kept H s profile g buf m w rules f k := not_kept_of_marker hb hdup
      exact hk ((hexact f k).mpr he)
    · obtain ⟨f, k, he, hk⟩ : ∃ f k, Expected H s profile g buf m w rules f k ∧
        ¬ Kept H s profile g buf m w rules f k := not_kept_of_vba hstream hvba
      exact hk ((hexact f k).mpr he)
  · rintro ⟨hmark, hvba⟩ f k
    refine ⟨?_, ?_⟩
    · rintro (h | ⟨b, hb, -, h⟩ | ⟨b, hb, -, h⟩)
      · exact Or.inl h
      · exact Or.inr (Or.inl ⟨b, hb, h⟩)
      · exact Or.inr (Or.inr ⟨b, hb, h⟩)
    · rintro (h | ⟨b, hb, h⟩ | ⟨b, hb, h⟩)
      · exact Or.inl h
      · by_cases heq : b = buf
        · subst heq
          rw [hits_body hinj (hvba hb)] at h
          exact Or.inl h
        · exact Or.inr (Or.inl ⟨b, hb, heq, h⟩)
      · exact Or.inr (Or.inr ⟨b, hb, hmark b hb, h⟩)

end Report

/-! ## A renamed container that carries its own marker -/

/-- Hashes that tell short texts apart, and the ASCII half of the lower-case table. -/
def sampleHashes : Hashes where
  hash128 b := (UInt64.ofNat (b.foldl (fun n c => n * 31 + c.toNat + 1) 0), UInt64.ofNat b.length)
  sum64 b := UInt64.ofNat (b.foldl (fun n c => n * 31 + c.toNat + 1) 0)
  toLower r := if 0x41 ≤ r ∧ r ≤ 0x5a then r + 0x20 else r

def sampleScanner : Scanner where
  bigFileThreshold := 0
  scanTimeout := 0

def sampleProfile : EffortProfile where
  scanTimeout := 0
  reputationFeeds := false
  floor := Or.inl rfl

def sampleGeneration : Generation Unit where
  rules := some ()

def sampleMeta : ScanMeta where
  filename := ascii "a.txt"
  extension := ascii ".txt"

/-- A zip archive with these members. -/
def sampleWorld (members : List Bytes) : World Unit where
  clock _ := 0
  monotone := monotone_const
  native _ _ _ _ _ := .ok []
  extraction := { streams := members, contentStreams := members.length, topType := .zip, isDoc := true }
  extractorReads := 0
  sha256 b := b

/-- The marker that the scanner builds for such an archive named `a.txt`. -/
def sampleMarker : Bytes := ascii "EXT-MISMATCH office-doc:txt"

/-- The rule on renamed containers. -/
def renamedRule (_ : Unit) (b : Bytes) (_ : ScanVars) : List Match :=
  if extMismatchMarkerPrefix.isPrefixOf b then [markerHit] else []

instance (ms : List Match) (k : Bytes × Bytes) : Decidable (Fired ms k) :=
  inferInstanceAs (Decidable (∃ m ∈ ms, m.key = k))

/-- A member with the marker's bytes stops the marker's rule. -/
theorem marker_suppressed :
    Expected sampleHashes sampleScanner sampleProfile sampleGeneration (ascii "PK") sampleMeta
        (sampleWorld [sampleMarker]) () renamedRule markerHit.key ∧
      ¬ Reported sampleHashes sampleScanner sampleProfile sampleGeneration (ascii "PK") sampleMeta
        (sampleWorld [sampleMarker]) () renamedRule markerHit.key := by
  constructor
  · exact Or.inr (Or.inr (by decide +kernel))
  · unfold Reported
    decide +kernel

/-- With an innocent member the rule fires. -/
theorem report_exact_member :
    Reported sampleHashes sampleScanner sampleProfile sampleGeneration (ascii "PK") sampleMeta
      (sampleWorld [ascii "abcd"]) () renamedRule markerHit.key := by
  have hsep : Separated sampleHashes (ascii "PK") sampleMeta (sampleWorld [ascii "abcd"]) := by
    refine ⟨?_, fun h => absurd h (by decide +kernel)⟩
    decide +kernel
  have hlist : ∀ b ∈ hashed sampleHashes (ascii "PK") sampleMeta (sampleWorld [ascii "abcd"]),
      b ∈ [ascii "PK", ascii "abcd", sampleMarker] := by
    have hmark : outOfBand sampleHashes sampleMeta (sampleWorld [ascii "abcd"]) = [sampleMarker] := by
      decide +kernel
    rintro b (rfl | hb | hb | hb)
    · decide +kernel
    · exact List.mem_cons_of_mem _ (List.mem_cons.mpr (Or.inl (List.mem_singleton.mp hb)))
    · exact absurd hb List.not_mem_nil
    · rw [hmark] at hb
      exact List.mem_cons_of_mem _ (List.mem_cons_of_mem _ hb)
  have hapart : ∀ a ∈ [ascii "PK", ascii "abcd", sampleMarker], ∀ b ∈ [ascii "PK", ascii "abcd", sampleMarker],
      streamDedupKey sampleHashes a = streamDedupKey sampleHashes b → a = b := by decide +kernel
  have htime : ∀ d n, scanDeadline sampleProfile (sampleWorld [ascii "abcd"]) = some d →
      second ≤ d - (sampleWorld [ascii "abcd"]).clock n := by
    intro d n h
    simp [scanDeadline, sampleProfile] at h
  exact ((report_exact_iff (Or.inl rfl) (fun a ha b hb => hapart a (hlist a ha) b (hlist b hb)) htime).mpr hsep
    renamedRule markerHit.key).mpr (Or.inr (Or.inr (by decide +kernel)))

end MS.Scan
