import Mailstrix.Impl.Scan.Server
import Mailstrix.Proof.Scan.Channels

/-!
# Verdict keys

What a verdict key says about the request it was built for: `key_inj`.  Cache and flights go by the key,
so that every verdict is given to requests like the one that it was computed for: `verdicts_shared_alike`.
-/

namespace MS.Scan

open Framework

variable {H : Hashes}
variable {m n : ScanMeta} {a : Arrival} {s : Server}

/-! ## Attachment names -/

theorem zero_notMem_cleaned (b : Bytes) : (0 : UInt8) ∉ cleaned b := by
  refine zero_notMem_encodeRunes fun r hr => Nat.pos_of_ne_zero ?_
  rintro rfl
  have := (List.mem_filter.mp (mem_of_mem_trimSpace hr)).2
  simp [printable] at this

/-- What every front end's meta says of the name: it carries no separator, and extension and type are
read off it.  None demands a complete scan. -/
structure ScanMeta.Named (H : Hashes) (m : ScanMeta) : Prop where
  zero : (0 : UInt8) ∉ m.filename
  extension : m.extension = toLower H (dotSuffix m.filename)
  fileType : m.fileType = fileTypeFromExtension m.extension
  lenient : m.requireComplete = false

theorem named_empty (e : Int) (k : Bytes) (c : List Bytes) :
    ScanMeta.Named H { effort := e, rawKey := k, pwCandidates := c } where
  zero := by simp
  extension := by simp [dotSuffix, toLower, runes, encodeRunes]
  fileType := by simp [fileTypeFromExtension, ascii]
  lenient := rfl

theorem named_newScanMeta (raw : Bytes) : (newScanMeta H raw).Named H := by
  have hzero : (0 : UInt8) ∉ (cleaned (basename raw)).take maxFilenameLen := fun h =>
    zero_notMem_cleaned (basename raw) (List.mem_of_mem_take h)
  unfold newScanMeta
  generalize (cleaned (basename raw)).take maxFilenameLen = name at hzero
  simp only
  split
  · exact named_empty 0 _ []
  · exact ⟨hzero, rfl, rfl, rfl⟩

theorem named_scanMetaFromRequest (filename pw : Bytes) (archivePW : Bool) :
    (scanMetaFromRequest H filename pw archivePW).Named H := by
  have hname : ScanMeta.Named H
      (if filename = [] then {} else ((decodeFilenameB64 filename).map (newScanMeta H)).getD {}) := by
    split
    · exact named_empty 0 _ []
    · cases decodeFilenameB64 filename with
      | none => exact named_empty 0 _ []
      | some name => exact named_newScanMeta name
  unfold scanMetaFromRequest
  simp only
  split
  · exact ⟨hname.zero, hname.extension, hname.fileType, hname.lenient⟩
  · exact hname

theorem named_scanMeta (a : Arrival) : (a.scanMeta H).Named H := by
  unfold Arrival.scanMeta
  split
  · rename_i filename pw _ _ _
    obtain ⟨h₁, h₂, h₃, h₄⟩ := named_scanMetaFromRequest (H := H) filename pw a.archivePW
    exact ⟨h₁, h₂, h₃, h₄⟩
  · exact named_empty _ _ []
  · exact named_empty _ _ []

/-! ## Candidate passwords -/

/-- The header's candidates are few and short. -/
def FewShort (cs : List Bytes) : Prop :=
  cs.length ≤ maxHeaderPWCandidates ∧ ∀ c ∈ cs, c.length ≤ maxHeaderPWCandidateLen

theorem fewShort_pwCandidateLines {out : List Bytes} (lines : List Bytes)
    (h : FewShort out) (hlt : out.length < maxHeaderPWCandidates) : FewShort (pwCandidateLines out lines) := by
  induction lines generalizing out with
  | nil => exact h
  | cons line lines ih =>
    simp only [pwCandidateLines]
    split_ifs with h₁ h₂ h₃
    · exact ih h hlt
    · exact ih h hlt
    all_goals
      have hshort : (cleaned line).length ≤ maxHeaderPWCandidateLen := not_lt.mp fun hl => h₁ (Or.inr hl)
      have hout : FewShort (out ++ [cleaned line]) := by
        refine ⟨by simpa using hlt, fun c hc => ?_⟩
        rcases List.mem_append.mp hc with hc | hc
        · exact h.2 c hc
        · simpa [List.mem_singleton.mp hc] using hshort
    · exact hout
    · exact ih hout (not_le.mp h₃)

theorem fewShort_scanMeta (a : Arrival) : FewShort (a.scanMeta H).pwCandidates := by
  have hnil : FewShort [] := by simp [FewShort]
  have hreq : ∀ header, FewShort (pwCandidatesFromRequest header) := by
    intro header
    unfold pwCandidatesFromRequest
    split
    · exact hnil
    · split
      · exact hnil
      · exact fewShort_pwCandidateLines _ hnil (by decide)
  unfold Arrival.scanMeta scanMetaFromRequest
  split
  · simp only
    split
    · exact hreq _
    · split
      · exact hnil
      · cases decodeFilenameB64 _ with
        | none => exact hnil
        | some name =>
          simp only [Option.map_some, Option.getD_some, newScanMeta]
          split <;> exact hnil
  · exact hnil
  · exact hnil

theorem frames_candidates_inj {as bs : List Bytes} (ha : FewShort as) (hb : FewShort bs)
    (h : frames as = frames bs) : as = bs := by
  have hlt : maxHeaderPWCandidateLen < 256 ^ 8 ∧ maxHeaderPWCandidates < 256 ^ 8 := by decide
  exact frames_inj (fun c hc => (ha.2 c hc).trans_lt hlt.1) (fun c hc => (hb.2 c hc).trans_lt hlt.1)
    (ha.1.trans_lt hlt.2) (hb.1.trans_lt hlt.2) h

/-! ## The parts of a key -/

theorem numeral_ten {n : Nat} {c : UInt8} (h : c ∈ numeral 10 n) : 45 < c :=
  (numeral_chars (by decide) (by decide) h).1

theorem zero_notMem_itoa (n : Int) : (0 : UInt8) ∉ itoa n := by
  unfold itoa
  split
  · simp only [List.mem_cons, not_or]
    exact ⟨by decide, fun h => absurd (numeral_ten h) (by decide)⟩
  · exact fun h => absurd (numeral_ten h) (by decide)

theorem itoa_ne_nil (n : Int) : itoa n ≠ [] := by
  unfold itoa
  split
  · exact List.cons_ne_nil _ _
  · exact numeral_ne_nil _ _

theorem itoa_inj {m n : Int} (h : itoa m = itoa n) : m = n := by
  -- a minus sign is no character of a numeral
  have hsign : ∀ k l : Nat, 0x2d :: numeral 10 k ≠ numeral 10 l := fun k l h =>
    absurd (numeral_ten (h ▸ List.mem_cons_self : (0x2d : UInt8) ∈ numeral 10 l)) (by decide)
  have hinj : ∀ {k l : Nat}, numeral 10 k = numeral 10 l → k = l := numeral_inj (by decide) (by decide)
  unfold itoa at h
  split at h <;> split at h
  · have := hinj (List.cons.inj h).2
    omega
  · exact absurd h (hsign _ _)
  · exact absurd h.symm (hsign _ _)
  · have := hinj h
    omega

theorem colon_notMem_hexText (b : Bytes) : (0x3a : UInt8) ∉ hexText b := by
  simp only [hexText, List.mem_flatMap, List.mem_cons, List.not_mem_nil, or_false, not_exists, not_and]
  rintro c - (h | h)
  · exact (digit_ne (by have := c.toNat_lt; omega)).2 h.symm
  · exact (digit_ne (Nat.mod_lt _ (by decide))).2 h.symm

/-- Everything of a key behind the fingerprint is read back. -/
theorem fingerprint_append_inj {i j : Identity} {x y : Bytes}
    (h : i.fingerprint ++ 0x3a :: x = j.fingerprint ++ 0x3a :: y) : i.fingerprint = j.fingerprint ∧ x = y := by
  simp only [Identity.fingerprint, List.append_assoc, List.cons_append] at h ⊢
  have h₁ := (List.cons.inj (List.append_cancel_left h)).2
  obtain ⟨hfp, h₂⟩ := append_sep_inj (colon_notMem_hexText _) (colon_notMem_hexText _) h₁
  obtain ⟨hcontent, h₃⟩ := append_sep_inj (colon_notMem_hexText _) (colon_notMem_hexText _) h₂
  obtain ⟨hdeny, h₄⟩ := append_sep_inj (colon_notMem_hexText _) (colon_notMem_hexText _) h₃
  obtain ⟨hpolicy, h₅⟩ := append_sep_inj (colon_notMem_hexText _) (colon_notMem_hexText _) h₄
  exact ⟨by rw [hfp, hcontent, hdeny, hpolicy], h₅⟩

/-- The effort and the candidates are read back from the end of a meta's key. -/
theorem effort_append_inj {e f : Int} {as bs : List Bytes} (ha : FewShort as) (hb : FewShort bs)
    (hfree : H.sum64 (frames as) = H.sum64 (frames bs) → frames as = frames bs)
    (h : itoa e ++ pwSuffix H as = itoa f ++ pwSuffix H bs) : e = f ∧ as = bs := by
  unfold pwSuffix at h
  split at h <;> split at h
  · exact ⟨itoa_inj (by simpa using h), by simp_all⟩
  · exact absurd h (by simpa using ne_append_sep (zero_notMem_itoa e))
  · exact absurd h.symm (by simpa using ne_append_sep (zero_notMem_itoa f))
  · obtain ⟨he, hpw⟩ := append_sep_inj (zero_notMem_itoa e) (zero_notMem_itoa f) h
    have hsum := numeral_inj (by decide) (by decide) (List.append_cancel_left hpw)
    exact ⟨itoa_inj he, frames_candidates_inj ha hb (hfree (UInt64.toNat_inj.mp hsum))⟩

/-- What two metas that share a name share. -/
theorem ScanMeta.Named.same_name (hm : m.Named H) (hn : n.Named H) (h : m.filename = n.filename) :
    m.extension = n.extension ∧ m.fileType = n.fileType := by
  have hext : m.extension = n.extension := by rw [hm.extension, hn.extension, h]
  exact ⟨hext, by rw [hm.fileType, hn.fileType, hext]⟩

theorem cacheKey_inj (hm : m.Named H) (hn : n.Named H) (ha : FewShort m.pwCandidates) (hb : FewShort n.pwCandidates)
    (hfree : H.sum64 (frames m.pwCandidates) = H.sum64 (frames n.pwCandidates) →
      frames m.pwCandidates = frames n.pwCandidates) (h : m.cacheKey H = n.cacheKey H) :
    m.filename = n.filename ∧ m.effort = n.effort ∧ m.pwCandidates = n.pwCandidates := by
  obtain ⟨hname, h₁⟩ := append_sep_inj hm.zero hn.zero h
  obtain ⟨hext, htype⟩ := hm.same_name hn hname
  rw [hext, htype] at h₁
  have h₂ := (List.cons.inj (List.append_cancel_left h₁)).2
  have h₃ := (List.cons.inj (List.append_cancel_left h₂)).2
  exact ⟨hname, effort_append_inj ha hb hfree h₃⟩

/-- No key of a named meta begins as ICAP's do: behind the name "icap" comes the effort, where an ICAP
key has one separator more. -/
theorem cacheKey_ne_icap (hm : m.Named H) (hempty : n.filename = [] ∧ n.extension = [] ∧ n.fileType = []) :
    m.cacheKey H ≠ ascii "icap" ++ 0 :: n.cacheKey H := by
  intro h
  obtain ⟨hname, h₁⟩ := append_sep_inj hm.zero (by decide) h
  have hext : m.extension = [] := by rw [hm.extension, hname]; rfl
  have htype : m.fileType = [] := by rw [hm.fileType, hext]; rfl
  simp only [ScanMeta.cacheKey, hext, htype, hempty, List.nil_append, List.cons.injEq, true_and] at h₁
  cases hitoa : itoa m.effort with
  | nil => exact itoa_ne_nil _ hitoa
  | cons c t =>
    rw [hitoa] at h₁
    have hc : c = 0 := (List.cons.inj h₁).1
    exact zero_notMem_itoa m.effort (by rw [hitoa, hc]; exact List.mem_cons_self)

/-! ## The whole key -/

theorem length_streamDedupKey (b : Bytes) : (streamDedupKey H b).length = 16 := by
  simp [streamDedupKey, littleEndian64]

theorem littleEndian64_inj {m n : UInt64} (h : littleEndian64 m = littleEndian64 n) : m = n := by
  have hlt : ∀ k : UInt64, k.toNat < 256 ^ 8 := fun k => k.toNat_lt
  exact UInt64.toNat_inj.mp (bigEndian_inj (hlt m) (hlt n) (List.reverse_inj.mp h))

theorem hash128_of_streamDedupKey {a b : Bytes} (h : streamDedupKey H a = streamDedupKey H b) :
    H.hash128 a = H.hash128 b := by
  obtain ⟨hlo, hhi⟩ := List.append_inj h (by simp [littleEndian64])
  exact Prod.ext (littleEndian64_inj hlo) (littleEndian64_inj hhi)

@[simp] theorem rawKey_scanMeta (a : Arrival) : (a.scanMeta H).rawKey = streamDedupKey H a.request.body := by
  unfold Arrival.scanMeta Request.body
  split <;> rfl

/-- The two hashes tell these two requests' bodies and candidate lists apart, if they differ. -/
structure CollisionFree (H : Hashes) (a b : Arrival) : Prop where
  body : H.hash128 a.request.body = H.hash128 b.request.body → a.request.body = b.request.body
  candidates : H.sum64 (frames (a.scanMeta H).pwCandidates) = H.sum64 (frames (b.scanMeta H).pwCandidates) →
    frames (a.scanMeta H).pwCandidates = frames (b.scanMeta H).pwCandidates

/-- Everything that a verdict depends on.  The meta holds the normalised name, its extension and type, the
effort, the body's hash and the candidate passwords in order. -/
structure SameInputs (H : Hashes) (a b : Arrival) : Prop where
  fingerprint : a.identity.fingerprint = b.identity.fingerprint
  icap : a.request.isIcap = b.request.isIcap
  scanMeta : a.scanMeta H = b.scanMeta H
  body : a.request.body = b.request.body

theorem scanMeta_icap (h : a.request.isIcap = true) :
    (a.scanMeta H).filename = [] ∧ (a.scanMeta H).extension = [] ∧ (a.scanMeta H).fileType = [] := by
  unfold Arrival.scanMeta
  split
  · simp_all [Request.isIcap]
  · exact ⟨rfl, rfl, rfl⟩
  · exact ⟨rfl, rfl, rfl⟩

/-- A partition determines the namespace and the meta's key. -/
theorem partition_inj {b : Arrival} (h : a.partition H = b.partition H) :
    a.request.isIcap = b.request.isIcap ∧ (a.scanMeta H).cacheKey H = (b.scanMeta H).cacheKey H := by
  unfold Arrival.partition at h
  split at h <;> split at h <;> rename_i ha hb
  · exact ⟨by rw [ha, hb], (List.cons.inj (List.append_cancel_left h)).2⟩
  · exact absurd h.symm (cacheKey_ne_icap (named_scanMeta b) (scanMeta_icap ha))
  · exact absurd h (cacheKey_ne_icap (named_scanMeta a) (scanMeta_icap hb))
  · exact ⟨by simp_all, h⟩

theorem key_inj {b : Arrival} (hfree : CollisionFree H a b) (h : a.key H = b.key H) : SameInputs H a b := by
  obtain ⟨hfp, hrest⟩ := fingerprint_append_inj h
  obtain ⟨hpart, hraw⟩ := List.append_inj' hrest (by simp [length_streamDedupKey])
  have hraw := (List.cons.inj hraw).2
  obtain ⟨hicap, hkey⟩ := partition_inj hpart
  obtain ⟨hname, heffort, hpw⟩ := cacheKey_inj (named_scanMeta a) (named_scanMeta b) (fewShort_scanMeta a)
    (fewShort_scanMeta b) hfree.candidates hkey
  obtain ⟨hext, htype⟩ := (named_scanMeta a).same_name (named_scanMeta b) hname
  have hlenient : (a.scanMeta H).requireComplete = (b.scanMeta H).requireComplete := by
    rw [(named_scanMeta a).lenient, (named_scanMeta b).lenient]
  rw [rawKey_scanMeta, rawKey_scanMeta] at hraw
  refine ⟨hfp, hicap, ScanMeta.ext hname hext htype heffort ?_ hpw hlenient, hfree.body (hash128_of_streamDedupKey hraw)⟩
  rw [rawKey_scanMeta, rawKey_scanMeta, hraw]

/-! ## Shared verdicts -/

/-- Cache and flights hold verdicts under the key of the request that they were computed for. -/
structure Server.Keyed (H : Hashes) (s : Server) : Prop where
  cache : ∀ e ∈ s.cache, e.key = e.outcome.origin.key H
  flights : ∀ f ∈ s.flights, f.key = f.leader.key H ∧ ∀ o, f.finished = some (some o) → f.key = o.origin.key H
  waiting : ∀ n a, (n, a) ∈ s.waiting → ∃ f, s.flights[n]? = some f ∧ f.key = a.key H

theorem Server.Keyed.finish (h : s.Keyed H) {n : Nat} {f : Flight} {result : Option Outcome}
    (hf : s.flights[n]? = some f) (hr : ∀ o, result = some o → f.key = o.origin.key H) :
    (s.finish n f result).Keyed H where
  cache := h.cache
  flights := by
    intro f' hf'
    rcases List.mem_or_eq_of_mem_set hf' with hmem | rfl
    · exact h.flights f' hmem
    · refine ⟨(h.flights f (List.mem_of_getElem? hf)).1, fun o ho => hr o ?_⟩
      simpa using ho
  waiting := by
    intro k a hka
    obtain ⟨f', hf', hkey⟩ := h.waiting k a hka
    by_cases hk : n = k
    · subst hk
      rw [hf] at hf'
      cases hf'
      have hlt := (List.getElem?_eq_some_iff.mp hf).1
      exact ⟨{ f with finished := some result }, by simp [Server.finish, hlt], hkey⟩
    · exact ⟨f', by simp [Server.finish, hk, hf'], hkey⟩

theorem serverStep_keyed {s' : Server} {e : ServerEvent} (h : s.Keyed H) (hstep : ServerStep H s e s') :
    s'.Keyed H := by
  cases hstep with
  | hit => exact h
  | @join a n f hf _ hkey =>
    refine ⟨h.cache, h.flights, fun k b hkb => ?_⟩
    rcases List.mem_cons.mp hkb with heq | hkb
    · cases heq
      exact ⟨f, hf, hkey⟩
    · exact h.waiting k b hkb
  | @lead a _ =>
    refine ⟨h.cache, fun f hf => ?_, fun k b hkb => ?_⟩
    · rcases List.mem_append.mp hf with hf | hf
      · exact h.flights f hf
      · rw [List.mem_singleton.mp hf]
        exact ⟨rfl, by simp⟩
    · obtain ⟨f, hf, hkey⟩ := h.waiting k b hkb
      have hlt := (List.getElem?_eq_some_iff.mp hf).1
      exact ⟨f, by rw [List.getElem?_append_left hlt, hf], hkey⟩
  | giveUp hf _ => exact h.finish hf (by simp)
  | found hf _ hmem hkey =>
    refine h.finish hf fun o ho => ?_
    cases ho
    rw [← hkey, h.cache _ hmem]
  | @scan n f o _ _ _ _ _ hf _ horigin _ =>
    have hkey : f.key = o.origin.key H := by rw [horigin, (h.flights f (List.mem_of_getElem? hf)).1]
    have hfin : (s.finish n f (some o)).Keyed H := h.finish hf (by rintro o' ⟨⟩; exact hkey)
    refine ⟨?_, hfin.flights, hfin.waiting⟩
    intro e he
    simp only at he
    split at he
    · rcases List.mem_cons.mp he with rfl | he
      · exact hkey
      · exact h.cache e he
    · exact h.cache e he
  | follow => exact h
  | leave hsub => exact ⟨h.cache, h.flights, fun k a hka => h.waiting k a (hsub hka)⟩
  | drop hsub => exact ⟨fun e he => h.cache e (hsub he), h.flights, h.waiting⟩

/-- The keys of a request and of the verdict that it is given agree. -/
theorem answered_key {s' : Server} (h : s.Keyed H) {o : Outcome} (hstep : ServerStep H s (.answered a o) s') :
    a.key H = o.origin.key H := by
  cases hstep with
  | hit hmem hkey => rw [← hkey, h.cache _ hmem]
  | follow hwait hf hfin =>
    obtain ⟨f', hf', hkey⟩ := h.waiting _ _ hwait
    rw [hf] at hf'
    cases hf'
    rw [← hkey, (h.flights _ (List.mem_of_getElem? hf)).2 o hfin]

theorem run_keyed {es : List ServerEvent} (h : Run (serverSystem H) {} es s) : s.Keyed H :=
  h.history (I := fun _ s => s.Keyed H) ⟨by simp, by simp, by simp⟩ fun _ _ _ _ _ hs hstep => serverStep_keyed hs hstep

/-- Equal keys mean equal inputs; and in every run of servers that share verdicts, by the cache or by
coalescing, a request is only given the verdict of a request with the same inputs. -/
theorem verdicts_shared_alike (H : Hashes) :
    (∀ a b : Arrival, CollisionFree H a b → a.key H = b.key H → SameInputs H a b) ∧
    ∀ es s, Run (serverSystem H) {} es s → ∀ a o, .answered a o ∈ es →
      CollisionFree H a o.origin → SameInputs H a o.origin := by
  refine ⟨fun a b => key_inj, fun es s hrun a o hmem hfree => ?_⟩
  obtain ⟨before, after, rfl⟩ := List.append_of_mem hmem
  obtain ⟨s₁, h₁, h₂⟩ := hrun.split
  obtain ⟨s₂, hstep, -⟩ := h₂.cons_inv
  exact key_inj hfree (answered_key (run_keyed h₁) hstep)

/-- A request over HTTP with this name header. -/
def sampleNamed (header : String) : Arrival where
  archivePW := true
  effortMax := 3
  envDefault := 2
  identity := { policy := [1, 2] }
  request := .http (ascii header) [] [] (ascii "PK")

/-- One message is sent as `dir/a.txt` and as `a.txt`.  The second request is answered from the cache. -/
theorem verdicts_shared_basename :
    SameInputs sampleHashes (sampleNamed "YS50eHQ=") (sampleNamed "ZGlyL2EudHh0") := by
  have hmeta : (sampleNamed "ZGlyL2EudHh0").scanMeta sampleHashes = (sampleNamed "YS50eHQ=").scanMeta sampleHashes := by
    decide +kernel
  have hkey : (sampleNamed "ZGlyL2EudHh0").key sampleHashes = (sampleNamed "YS50eHQ=").key sampleHashes := by
    simp only [Arrival.key, Arrival.partition, hmeta]
    rfl
  let o : Outcome := ⟨sampleNamed "ZGlyL2EudHh0", [], none⟩
  let f : Flight := { key := o.origin.key sampleHashes, leader := o.origin }
  let s : Server := { flights := [f] }
  have hlead : ServerStep sampleHashes {} (.led o.origin) s := .lead (by simp)
  have hverdict : (o.hits, o.err) = dispatchLease sampleHashes sampleScanner sampleProfile sampleGeneration
      o.origin.request.body (o.origin.scanMeta sampleHashes) (sampleWorld []) := by decide +kernel
  let s₂ : Server := { s.finish 0 f (some o) with cache := [⟨f.key, o⟩] }
  have hscan : ServerStep sampleHashes s (.scanned o.origin o) s₂ := .scan (n := 0) (f := f) rfl rfl rfl hverdict
  have hhit : ServerStep sampleHashes s₂ (.answered (sampleNamed "YS50eHQ=") o) s₂ :=
    .hit (e := ⟨f.key, o⟩) List.mem_cons_self hkey
  refine (verdicts_shared_alike sampleHashes).2 _ _ ((Run.single hlead).snoc hscan |>.snoc hhit) _ o (by simp) ?_
  exact ⟨fun _ => rfl, fun _ => by rw [hmeta]⟩

end MS.Scan
