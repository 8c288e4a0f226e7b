import Mailstrix.Impl.Clamd.Stream

/-!
# INSTREAM bodies: exact framing

`Framed` is the wire form of a body.  `streamLoop_framed` reads every framed stream, `streamLoop_ok` takes every body
read apart into the chunks it came in, and `held_streamLoop` bounds the buffers of any read.
-/

namespace MS.Clamd

open Framework

/-- Chunks behind their lengths, ended by a zero length. -/
def wire (chunks : List Bytes) : Bytes := chunks.flatMap (fun c => bigEndian 4 c.length ++ c) ++ bigEndian 4 0

/-- A stream of non-empty chunks within the cap of a chunk, their total within the limit (no bytes at all within a
negative one), and what is behind the zero length. -/
def Framed (limit : Int64) (stream : Bytes) (chunks : List Bytes) (rest : Bytes) : Prop :=
  stream = wire chunks ++ rest ∧ (∀ c ∈ chunks, c ≠ [] ∧ c.length ≤ clamdChunkLimit) ∧
    chunks.flatten.length ≤ limit.toInt.toNat

variable {limit : Int64} {r : Reader} {body : Bytes} {held : List Int} {chunks : List Bytes}

theorem wire_cons (c : Bytes) (chunks : List Bytes) (rest : Bytes) :
    wire (c :: chunks) ++ rest = bigEndian 4 c.length ++ (c ++ (wire chunks ++ rest)) := by
  simp [wire]

theorem bigEndianUint32_bigEndian {n : Nat} (hn : n < 2 ^ 32) : bigEndianUint32 (bigEndian 4 n) = n := by
  simp only [bigEndianUint32, bigEndian, List.foldl_cons, List.foldl_nil, UInt8.toNat_ofNat']
  omega

theorem bigEndian_bigEndianUint32 {header : Bytes} (h : header.length = 4) :
    bigEndian 4 (bigEndianUint32 header) = header := by
  obtain ⟨a, b, c, d, rfl⟩ : ∃ a b c d, header = [a, b, c, d] := by
    match header, h with
    | [a, b, c, d], _ => exact ⟨a, b, c, d, rfl⟩
  have ha := a.toNat_lt
  have hb := b.toNat_lt
  have hc := c.toNat_lt
  have hd := d.toNat_lt
  simp only [bigEndianUint32, bigEndian, List.foldl_cons, List.foldl_nil, List.cons.injEq, ← UInt8.toNat_inj,
    UInt8.toNat_ofNat', and_true]
  omega

/-! ## The buffer -/

/-- The buffers stay within the limit, and the last one holds the chunk. -/
theorem grow_spec {stop : Nat} (hstop : (stop : Int) ≤ limit.toInt) (hheld : ∀ cap ∈ held, cap ≤ limit.toInt) :
    (∀ cap ∈ grow limit held stop, cap ≤ limit.toInt) ∧ (stop : Int) ≤ (grow limit held stop).headD 0 := by
  unfold grow
  split
  · refine ⟨List.forall_mem_cons.2 ⟨Int.min_le_left _ _, hheld⟩, ?_⟩
    rw [List.headD_cons]
    omega
  · exact ⟨hheld, by omega⟩

theorem held_streamLoop (hheld : ∀ cap ∈ held, cap ≤ limit.toInt) :
    (∀ cap ∈ (streamLoop limit r body held).held, cap ≤ limit.toInt) ∧
      (streamLoop limit r body held).body ≠ .error .panic := by
  fun_induction streamLoop limit r body held with
  | case1 | case2 | case3 | case4 => exact ⟨hheld, by simp⟩
  | case5 r body held header r₁ hheader n hzero hlimit hcap stop held' hroom =>
    exact absurd hroom (Int.not_lt.2 (grow_spec (by omega) hheld).2)
  | case6 => exact ⟨(grow_spec (by omega) hheld).1, by simp⟩
  | case7 r body held header r₁ hheader n hzero hlimit hcap stop held' hroom data r₂ hdata ih =>
    exact ih (grow_spec (by omega) hheld).1

/-! ## Streams in and out -/

/-- A turn that reads a chunk. -/
theorem streamLoop_chunk {r₁ r₂ : Reader} {header data : Bytes} (hheader : r.readFull 4 [] = (.ok header, r₁))
    (hn : bigEndianUint32 header = data.length) (hpos : 0 < data.length) (hcap : data.length ≤ clamdChunkLimit)
    (hlimit : (body.length + data.length : Nat) ≤ limit.toInt) (hheld : ∀ cap ∈ held, cap ≤ limit.toInt)
    (hdata : r₁.readFull data.length [] = (.ok data, r₂)) :
    streamLoop limit r body held = streamLoop limit r₂ (body ++ data) (grow limit held (body.length + data.length)) := by
  have hroom := Int.not_lt.2 (grow_spec hlimit hheld).2
  rw [streamLoop, hheader]
  dsimp only
  rw [dif_neg (by omega), dif_neg (by omega), if_neg (by omega), hn, if_neg hroom]
  split
  · rename_i h
    rw [hdata] at h
    simp at h
  · rename_i h
    rw [hdata, Prod.mk.injEq, Except.ok.injEq] at h
    rw [h.1, h.2]

theorem streamLoop_framed {rest : Bytes} (hheld : ∀ cap ∈ held, cap ≤ limit.toInt)
    (hahead : r.ahead = wire chunks ++ rest) (hchunks : ∀ c ∈ chunks, c ≠ [] ∧ c.length ≤ clamdChunkLimit)
    (hlimit : body.length + chunks.flatten.length ≤ limit.toInt.toNat) :
    (streamLoop limit r body held).body = .ok (body ++ chunks.flatten) ∧
      (streamLoop limit r body held).reader.ahead = rest := by
  induction chunks generalizing r body held with
  | nil =>
    obtain ⟨r₁, hread, hrest, -⟩ := r.readFull_of_le 4 [] hahead (length_bigEndian 4 0)
    have hn : bigEndianUint32 (wire []) = 0 := by decide
    rw [streamLoop, hread]
    simp only [List.nil_append, hn, dite_true]
    exact ⟨by simp, hrest⟩
  | cons c chunks ih =>
    obtain ⟨⟨hne, hcap⟩, hchunks⟩ := List.forall_mem_cons.1 hchunks
    have hpos := List.length_pos_iff.2 hne
    rw [List.flatten_cons, List.length_append] at hlimit
    rw [wire_cons] at hahead
    obtain ⟨r₁, hheader, hrest₁, -⟩ := r.readFull_of_le 4 [] hahead (length_bigEndian 4 _)
    obtain ⟨r₂, hdata, hrest₂, -⟩ := r₁.readFull_of_le c.length [] hrest₁ rfl
    have hn : bigEndianUint32 (bigEndian 4 c.length) = c.length :=
      bigEndianUint32_bigEndian (Nat.lt_of_le_of_lt hcap (by decide))
    rw [streamLoop_chunk hheader hn hpos hcap (by omega) hheld hdata, List.flatten_cons, ← List.append_assoc]
    apply ih (grow_spec (by omega) hheld).1 hrest₂ hchunks
    rw [List.length_append]
    omega

theorem streamLoop_ok {out : Bytes} (h : (streamLoop limit r body held).body = .ok out) :
    ∃ chunks rest, r.ahead = wire chunks ++ rest ∧ (∀ c ∈ chunks, c ≠ [] ∧ c.length ≤ clamdChunkLimit) ∧
      (chunks = [] ∨ body.length + chunks.flatten.length ≤ limit.toInt.toNat) ∧ out = body ++ chunks.flatten := by
  fun_induction streamLoop limit r body held with
  | case1 | case3 | case4 | case5 | case6 => simp at h
  | case2 r body held header r₁ hheader n hzero =>
    obtain ⟨hahead, hlen⟩ := Reader.readFull_ok hheader
    refine ⟨[], r₁.ahead, ?_, by simp, .inl rfl, by simpa using h.symm⟩
    rw [hahead, ← bigEndian_bigEndianUint32 hlen]
    simp [wire, n, hzero]
  | case7 r body held header r₁ hheader n hzero hlimit hcap stop held' hroom data r₂ hdata ih =>
    obtain ⟨hahead, hlen⟩ := Reader.readFull_ok hheader
    obtain ⟨hahead₁, hn⟩ := Reader.readFull_ok hdata
    obtain ⟨chunks, rest, hahead₂, hchunks, htotal, rfl⟩ := ih h
    refine ⟨data :: chunks, rest, ?_, List.forall_mem_cons.2 ⟨⟨?_, by omega⟩, hchunks⟩, .inr ?_, by simp⟩
    · rw [wire_cons, hn, bigEndian_bigEndianUint32 hlen, ← hahead₂, ← hahead₁, ← hahead]
    · exact List.ne_nil_of_length_pos (by omega)
    · rw [List.flatten_cons, List.length_append]
      rcases htotal with rfl | htotal
      · rw [List.flatten_nil, List.length_nil]
        omega
      · rw [List.length_append] at htotal
        omega

/-- A body is read from exactly the framed streams: it is their chunks in a row, what is behind the zero length stays
ahead of the reader, and no buffer is larger than the limit. -/
theorem readClamdStream_exact (r : Reader) (limit : Int64) :
    (∀ body rest, ((readClamdStream r limit).body = .ok body ∧ (readClamdStream r limit).reader.ahead = rest) ↔
      ∃ chunks, Framed limit r.ahead chunks rest ∧ body = chunks.flatten) ∧
    (∀ cap ∈ (readClamdStream r limit).held, cap ≤ limit.toInt) ∧ (readClamdStream r limit).body ≠ .error .panic := by
  have hframed : ∀ chunks rest, Framed limit r.ahead chunks rest →
      (readClamdStream r limit).body = .ok chunks.flatten ∧ (readClamdStream r limit).reader.ahead = rest := by
    intro chunks rest ⟨hahead, hchunks, hlimit⟩
    exact streamLoop_framed (by simp) hahead hchunks (by simpa using hlimit)
  refine ⟨fun body rest => ⟨?_, ?_⟩, held_streamLoop (by simp)⟩
  · rintro ⟨hok, hrest⟩
    obtain ⟨chunks, rest', hahead, hchunks, htotal, rfl⟩ := streamLoop_ok hok
    have hlimit : chunks.flatten.length ≤ limit.toInt.toNat := by
      rcases htotal with rfl | htotal
      · exact Nat.zero_le _
      · simpa using htotal
    have hframed' : Framed limit r.ahead chunks rest' := ⟨hahead, hchunks, hlimit⟩
    rw [(hframed chunks rest' hframed').2] at hrest
    exact ⟨chunks, hrest ▸ hframed', rfl⟩
  · rintro ⟨chunks, h, rfl⟩
    exact hframed chunks rest h

end MS.Clamd
