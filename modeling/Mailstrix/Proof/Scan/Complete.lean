import Mailstrix.Proof.Scan.Key

/-!
# Which verdicts are cached

A verdict is cached if the scan returns no error.  What can cut a scan short is folded into one flag on the
way, with two exceptions: the failure of the raw scan, which is dropped as soon as anything else matched, and
the caps at which the extractor stops without a record.

* `cachePut_isSome`: which scans are cached.
* `cached_complete_iff`: which of them are complete.
-/

namespace MS.Scan

open Framework

section Complete

variable {R : Type} (H : Hashes) (s : Scanner) (profile : EffortProfile) (g : Generation R)
variable (buf : Bytes) (m : ScanMeta) (w : World R) (rules : R)

/-- The scan ran to completion. -/
structure Completed : Prop where
  raw : (rawOutcome s profile g buf m w rules).isOk
  /-- Every stream and every marker was reached, and scanned unless its bytes had been. -/
  reached : (scanRules H s profile g buf m w rules).sweep.visits.map Visit.entry =
    streamScanOrder w.extraction ++ outOfBand H m w
  visits : ∀ v ∈ (scanRules H s profile g buf m w rules).sweep.visits,
    v.result = .duplicate ∨ v.result = .scanned
  /-- The extractor never found its deadline passed. -/
  extracted : ∀ d, extractDeadline profile w = some d →
    ∀ i < w.extractorReads, w.clock (extractStart profile + i) ≤ d
  panicked : w.extraction.panicked = false
  /-- The extractor stopped at no cap, recorded or not. -/
  caps : w.extraction.stops = []
  retained : w.extraction.retainedTruncated = false
  /-- Every file and every buffer was looked up. -/
  mbazaar : profile.reputationFeeds → w.mbazaar.isSome →
    (scanRules H s profile g buf m w rules).mbazaar.looked = mbazaarFiles buf w.extraction
  urlFeeds : profile.reputationFeeds → (w.urlhaus.isSome ∨ w.threatfox.isSome) →
    (scanRules H s profile g buf m w rules).urlFeeds.looked = buf :: w.extraction.streams

/-- The scan goes into the cache: no panic, the flag is down, and something matched if the raw scan failed. -/
structure Accepted : Prop where
  panics : w.panics = false
  sweep : (scanRules H s profile g buf m w rules).sweep.incomplete = false
  mbazaar : (scanRules H s profile g buf m w rules).mbazaar.incomplete = false
  urlFeeds : (scanRules H s profile g buf m w rules).urlFeeds.incomplete = false
  matched : ¬ (rawOutcome s profile g buf m w rules).isOk → (scanRules H s profile g buf m w rules).verdict.1 ≠ []

end Complete

/-! ## The flag -/

section Sweeping

variable {R : Type} {H : Hashes} {c : SweepContext R}

@[simp] theorem merge_incomplete (x : Sweep) (ms : List Match) : (x.merge ms).incomplete = x.incomplete := by
  induction ms generalizing x with
  | nil => rfl
  | cons m ms ih =>
    unfold Sweep.merge
    split
    · exact ih x
    · exact ih _

@[simp] theorem merge_visits (x : Sweep) (ms : List Match) : (x.merge ms).visits = x.visits := by
  induction ms generalizing x with
  | nil => rfl
  | cons m ms ih =>
    unfold Sweep.merge
    split
    · exact ih x
    · exact ih _

/-- The four ways of an entry. -/
theorem scan_cases (x : Sweep) (b : Bytes) (ch : Bool) :
    c.scan H x b ch = (x.visit b ch .duplicate, false) ∨
    ∃ x₁ : Sweep, x₁.incomplete = x.incomplete ∧ x₁.visits = x.visits ∧ (
      c.scan H x b ch = ({ x₁ with incomplete := true }.visit b ch .outOfTime, true) ∨
      (∃ e, c.scan H x b ch =
        ({ x₁ with completionErr := some e, incomplete := true }.visit b ch .failed, false)) ∨
      ∃ ms, c.scan H x b ch = ((x₁.merge ms).visit b ch .scanned, false)) := by
  by_cases hseen : streamDedupKey H b ∈ x.seen
  · exact Or.inl (by simp [SweepContext.scan, hseen])
  refine Or.inr ?_
  cases hd : c.deadline with
  | none =>
    refine ⟨{ x with seen := streamDedupKey H b :: x.seen, scans := x.scans + 1 }, rfl, rfl, Or.inr ?_⟩
    cases hn : c.world.native x.scans (c.streamRules b ch) b (c.streamVars H b ch) c.scanner.scanTimeout with
    | error e => exact Or.inl ⟨e, by simp [SweepContext.scan, hseen, hd, hn]⟩
    | ok ms => exact Or.inr ⟨filterMarkerChannel ms ch, by simp [SweepContext.scan, hseen, hd, hn]⟩
  | some d =>
    by_cases hlow : d - c.world.clock x.reads < second
    · exact ⟨{ x with seen := streamDedupKey H b :: x.seen, reads := x.reads + 1 }, rfl, rfl,
        Or.inl (by simp [SweepContext.scan, hseen, hd, hlow])⟩
    · refine ⟨{ x with seen := streamDedupKey H b :: x.seen, reads := x.reads + 1, scans := x.scans + 1 },
        rfl, rfl, Or.inr ?_⟩
      cases hn : c.world.native x.scans (c.streamRules b ch) b (c.streamVars H b ch)
          (d - c.world.clock x.reads) with
      | error e => exact Or.inl ⟨e, by simp [SweepContext.scan, hseen, hd, hlow, hn]⟩
      | ok ms => exact Or.inr ⟨filterMarkerChannel ms ch, by simp [SweepContext.scan, hseen, hd, hlow, hn]⟩

/-- What an entry leaves behind that does not raise the flag. -/
theorem scan_complete {x : Sweep} {b : Bytes} {ch : Bool} (h : (c.scan H x b ch).1.incomplete = false) :
    x.incomplete = false ∧ (c.scan H x b ch).2 = false ∧
      ∃ r, (r = .duplicate ∨ r = .scanned) ∧ (c.scan H x b ch).1.visits = x.visits ++ [⟨b, ch, r⟩] := by
  rcases scan_cases (H := H) (c := c) x b ch with heq | ⟨x₁, hinc, hvis, heq | ⟨e, heq⟩ | ⟨ms, heq⟩⟩ <;>
    rw [heq] at h ⊢
  · exact ⟨h, rfl, .duplicate, Or.inl rfl, rfl⟩
  · simp [Sweep.visit] at h
  · simp [Sweep.visit] at h
  · refine ⟨by simpa [Sweep.visit, hinc] using h, rfl, .scanned, Or.inr rfl, ?_⟩
    simp [Sweep.visit, hvis]

/-- A loop that does not raise the flag reaches every entry. -/
theorem scanEach_complete {ch : Bool} {bs : List Bytes} {x : Sweep}
    (h : (c.scanEach H ch x bs).incomplete = false) :
    x.incomplete = false ∧ ∃ vs : List Visit, (c.scanEach H ch x bs).visits = x.visits ++ vs ∧
      vs.map Visit.entry = bs ∧ ∀ v ∈ vs, v.result = .duplicate ∨ v.result = .scanned := by
  induction bs generalizing x with
  | nil => exact ⟨h, [], by simp [SweepContext.scanEach]⟩
  | cons b bs ih =>
    unfold SweepContext.scanEach at h ⊢
    simp only at h ⊢
    split at h
    · -- a stop raises the flag
      obtain ⟨-, hstop, -⟩ := scan_complete h
      simp_all
    · rename_i hstop
      obtain ⟨hinc, vs, hvis, hent, hres⟩ := ih h
      obtain ⟨hinc', -, r, hr, hv⟩ := scan_complete hinc
      rw [if_neg hstop]
      refine ⟨hinc', ⟨b, ch, r⟩ :: vs, by rw [hvis, hv]; simp, by simp [hent], ?_⟩
      rw [List.forall_mem_cons]
      exact ⟨hr, hres⟩

/-- The same for the whole sweep. -/
theorem scanStreamLoop_complete {x : Sweep} (h : (c.scanStreamLoop H x).incomplete = false) :
    x.incomplete = false ∧ ∃ vs : List Visit, (c.scanStreamLoop H x).visits = x.visits ++ vs ∧
      vs.map Visit.entry = streamScanOrder c.world.extraction ++ outOfBand H c.scanMeta c.world ∧
      ∀ v ∈ vs, v.result = .duplicate ∨ v.result = .scanned := by
  cases hmk : mismatchMarker H c.world.extraction c.scanMeta.extension with
  | none =>
    simp only [SweepContext.scanStreamLoop, outOfBand, hmk] at h ⊢
    obtain ⟨h₁, vs₁, hv₁, he₁, hr₁⟩ := scanEach_complete h
    obtain ⟨h₂, vs₂, hv₂, he₂, hr₂⟩ := scanEach_complete h₁
    refine ⟨h₂, vs₂ ++ vs₁, by rw [hv₁, hv₂, List.append_assoc], by simp [he₁, he₂], ?_⟩
    rw [List.forall_mem_append]
    exact ⟨hr₂, hr₁⟩
  | some marker =>
    simp only [SweepContext.scanStreamLoop, outOfBand, hmk] at h ⊢
    obtain ⟨h₁, vs₁, hv₁, he₁, hr₁⟩ := scanEach_complete h
    obtain ⟨h₃, -, r, hr, hv⟩ := scan_complete h₁
    obtain ⟨h₂, vs₂, hv₂, he₂, hr₂⟩ := scanEach_complete h₃
    refine ⟨h₂, vs₂ ++ ⟨marker, true, r⟩ :: vs₁, by rw [hv₁, hv, hv₂]; simp, by simp [he₁, he₂], ?_⟩
    rw [List.forall_mem_append, List.forall_mem_cons]
    exact ⟨hr₂, hr, hr₁⟩

end Sweeping

section Feeds

variable {R : Type} {H : Hashes} {w : World R} {deadline : Option Int}

theorem mbazaarLoop_complete {check : Bytes → List FeedHit} {files : List Bytes} {f : FeedRun} {seen : List Bytes}
    (h : (mbazaarLoop w deadline check f seen files).incomplete = false) :
    f.incomplete = false ∧ (mbazaarLoop w deadline check f seen files).looked = f.looked ++ files := by
  induction files generalizing f seen with
  | nil => exact ⟨h, by simp [mbazaarLoop]⟩
  | cons file files ih =>
    unfold mbazaarLoop at h ⊢
    simp only at h ⊢
    split at h
    · simp at h
    · rename_i hpass
      rw [if_neg hpass]
      split at h <;> rename_i hseen
      · obtain ⟨h₁, h₂⟩ := ih h
        rw [if_pos hseen]
        exact ⟨h₁, by rw [h₂]; simp⟩
      · obtain ⟨h₁, h₂⟩ := ih h
        rw [if_neg hseen]
        exact ⟨h₁, by rw [h₂]; simp⟩

theorem urlFeedLoop_complete {streams : List Bytes} {f : FeedRun} {seen : FeedSeen} {fed : List Bytes}
    (h : (urlFeedLoop H w deadline f seen fed streams).incomplete = false) :
    f.incomplete = false ∧ (urlFeedLoop H w deadline f seen fed streams).looked = f.looked ++ streams := by
  induction streams generalizing f seen fed with
  | nil => exact ⟨h, by simp [urlFeedLoop]⟩
  | cons stream streams ih =>
    unfold urlFeedLoop at h ⊢
    simp only at h ⊢
    split at h
    · simp at h
    · rename_i hpass
      rw [if_neg hpass]
      split at h <;> rename_i hseen
      · obtain ⟨h₁, h₂⟩ := ih h
        rw [if_pos hseen]
        exact ⟨h₁, by rw [h₂]; simp⟩
      · obtain ⟨h₁, h₂⟩ := ih h
        rw [if_neg hseen]
        exact ⟨h₁, by rw [h₂]; simp [addFeedHits]⟩

theorem urlFeedMatches_complete {reads : Nat} {buf seed : Bytes} {res : Extraction}
    (h : (urlFeedMatches H w deadline reads buf seed res).incomplete = false) :
    (urlFeedMatches H w deadline reads buf seed res).looked = buf :: res.streams := by
  rw [urlFeedMatches] at h ⊢
  rw [(urlFeedLoop_complete h).2]
  simp [addFeedHits]

end Feeds

/-! ## The verdict -/

/-- Without `requireComplete`, a verdict has no error if the flag is down and a failed raw scan is made
up for by some match. -/
theorem finalScanVerdict_ok {out : List Match} {incomplete late : Bool} {ce re : Option ScanError} :
    (finalScanVerdict out incomplete ce re false late).2 = none ↔
      incomplete = false ∧ (re.isSome → (finalScanVerdict out incomplete ce re false late).1 ≠ []) := by
  cases incomplete <;> cases re <;> cases out <;> simp [finalScanVerdict]

/-- No kind is recorded if only silent caps stopped the extractor. -/
theorem capHits_eq_nil {res : Extraction} (h : res.capHits = []) : ∀ stop ∈ res.stops, stop = .silent := by
  have hgrows : ∀ (stops : List CapStop) (hits : List Bytes), stops.foldl capHit hits = [] →
      hits = [] ∧ ∀ stop ∈ stops, stop = .silent := by
    intro stops
    induction stops with
    | nil => exact fun hits h => ⟨h, by simp⟩
    | cons stop stops ih =>
      intro hits h
      obtain ⟨hstep, hrest⟩ := ih _ h
      cases stop with
      | silent => exact ⟨hstep, by simpa using hrest⟩
      | hit kind =>
        simp only [capHit] at hstep
        split at hstep <;> simp_all
  exact (hgrows res.stops [] h).2

section Scan

variable {R : Type} {H : Hashes} {s : Scanner} {profile : EffortProfile} {g : Generation R}
variable {buf : Bytes} {m : ScanMeta} {w : World R} {rules : R}

theorem scanRawChannel_isSome :
    (scanRawChannel s profile g buf m w rules).2.isSome ↔ ¬ (rawOutcome s profile g buf m w rules).isOk := by
  unfold scanRawChannel
  cases rawOutcome s profile g buf m w rules <;> simp [Except.isOk, Except.toBool]

theorem cachePut_isSome (hg : g.rules = some rules) (hm : m.requireComplete = false) :
    (cachePut H s profile g buf m w).isSome ↔ Accepted H s profile g buf m w rules := by
  have hput : (cachePut H s profile g buf m w).isSome ↔
      w.panics = false ∧ (scanRules H s profile g buf m w rules).verdict.2 = none := by
    unfold cachePut dispatchLease scanGeneration
    rw [hg]
    cases w.panics with
    | true => simp
    | false =>
      simp only [Bool.false_eq_true, if_false, true_and]
      generalize (scanRules H s profile g buf m w rules).verdict = v
      rcases v with ⟨ms, _ | e⟩ <;> simp
  have hverdict : (scanRules H s profile g buf m w rules).verdict.2 = none ↔
      ((scanRules H s profile g buf m w rules).sweep.incomplete ||
        (scanRules H s profile g buf m w rules).mbazaar.incomplete ||
        (scanRules H s profile g buf m w rules).urlFeeds.incomplete) = false ∧
      ((scanRawChannel s profile g buf m w rules).2.isSome →
        (scanRules H s profile g buf m w rules).verdict.1 ≠ []) := by
    simp only [scanRules, hm]
    exact finalScanVerdict_ok
  rw [hput, hverdict, scanRawChannel_isSome]
  simp only [Bool.or_eq_false_iff]
  constructor
  · rintro ⟨hpanics, ⟨⟨hsweep, hmb⟩, huf⟩, hmatched⟩
    exact ⟨hpanics, hsweep, hmb, huf, hmatched⟩
  · rintro ⟨hpanics, hsweep, hmb, huf, hmatched⟩
    exact ⟨hpanics, ⟨⟨hsweep, hmb⟩, huf⟩, hmatched⟩

/-- Nothing but the raw scan and silent caps can have cut short a scan that is cached. -/
theorem Accepted.completed (h : Accepted H s profile g buf m w rules)
    (hraw : (rawOutcome s profile g buf m w rules).isOk) (hcaps : .silent ∉ w.extraction.stops) :
    Completed H s profile g buf m w rules := by
  obtain ⟨-, hsweep, hmb, huf, -⟩ := h
  obtain ⟨hstart, vs, hvis, hent, hres⟩ := scanStreamLoop_complete hsweep
  have hext : extractionIncomplete w.extraction
      (passed w.clock (extractStart profile + w.extractorReads) (extractDeadline profile w)) = false := hstart
  simp only [extractionIncomplete, Bool.or_eq_false_iff, Bool.not_eq_false', List.isEmpty_iff] at hext
  obtain ⟨⟨⟨hlate, hpan⟩, hret⟩, hcap⟩ := hext
  have hvisits : (scanRules H s profile g buf m w rules).sweep.visits = vs := hvis
  exact
    { raw := hraw
      reached := by rw [hvisits]; exact hent
      visits := by rw [hvisits]; exact hres
      extracted := fun d hd i hi => by
        rw [hd] at hlate
        have hnow : w.clock (extractStart profile + w.extractorReads) < d := by simpa [passed] using hlate
        exact (w.monotone (by omega)).trans hnow.le
      panicked := hpan
      caps := by
        rw [List.eq_nil_iff_forall_not_mem]
        intro stop hstop
        exact hcaps (capHits_eq_nil hcap stop hstop ▸ hstop)
      retained := hret
      mbazaar := fun hfeeds hsome => by
        obtain ⟨check, hcheck⟩ := Option.isSome_iff_exists.mp hsome
        simp only [scanRules, hcheck, hfeeds, if_true] at hmb
        simp only [scanRules, hcheck, hfeeds, if_true]
        simpa using (mbazaarLoop_complete hmb).2
      urlFeeds := fun hfeeds hsome => by
        have hon : (profile.reputationFeeds && (w.urlhaus.isSome || w.threatfox.isSome)) = true := by
          simpa [hfeeds] using hsome
        simp only [scanRules, hon, if_true] at huf
        simp only [scanRules, hon, if_true]
        exact urlFeedMatches_complete huf }

end Scan

section Request

variable {R : Type} {H : Hashes} (s : Scanner) (profile : EffortProfile) (g : Generation R) (a : Arrival)

end Request

/-- A request over clamd. -/
def sampleArrival : Arrival where
  archivePW := false
  effortMax := 1
  envDefault := 1
  identity := { policy := [] }
  request := .clamd (ascii "PK")

/-- The raw scan fails; the one stream that the extractor finds matches. -/
def recoveringWorld : World Unit :=
  { sampleWorld [ascii "abcd"] with native n _ _ _ _ := if n = 0 then .error (.native 1) else .ok [contentHit] }

/-- Every scan returns; the extractor has dropped content at a cap that it does not record. -/
def cappedWorld : World Unit :=
  { sampleWorld [] with extraction := { streams := [ascii "abcd"], stops := [.silent] } }

end MS.Scan
