import Mailstrix.Proof.Icap.Chunk

/-!
# Whole bodies

The chunked-body reader takes from a stream a `Cut`: frames and a last one (`readChunks_ok`, `readChunks_cut`).  A
stream has at most one cut, and if it starts with an encoding of the grammar, the cut is that encoding
(`cut_encoding`).  From this follow

* the round trip: an encoding is read back exactly, provided that its header lines and its data are within the limits;
* the converse: what a call has taken is an encoding exactly if the cut of the stream is tight.
-/

namespace MS.Icap

open Framework

variable {maxBytes : Int64} {chunks : List Chunk} {x y out rest : Bytes} {enc : Encoding} {r : Reader} {h : Header}
  {f : Frame} {c : Chunk} {l : Last} {closing : Closing} {frames : List Frame}

structure Cut where
  frames : List Frame
  last : Last

namespace Cut

def text (c : Cut) : Bytes := c.frames.flatMap Frame.text ++ c.last.text

def data (c : Cut) : Bytes := c.frames.flatMap Frame.data

/-- The cut of what is ahead of a reader, for a body of which `used` bytes are there. -/
structure Of (c : Cut) (r : Reader) (rest : Bytes) (used : Nat) (maxBytes : Int64) : Prop where
  ahead : r.ahead = c.text ++ rest
  room : c.frames ≠ [] → (used + c.data.length : Int) ≤ maxBytes.toInt
  atEnd : c.last.closed = false → rest = [] ∧ r.ending = .eof

end Cut

/-! ## The loop -/

theorem readChunks_ok {fuel : Nat} {body : Bytes} {ieof : Bool} {r' : Reader} (hout : out.length < 2 ^ 63)
    (h : readChunks maxBytes fuel out r = (.ok (body, ieof), r')) :
    ∃ c : Cut, c.Of r r'.ahead out.length maxBytes ∧ body = out ++ c.data ∧ ieof = c.last.ieof := by
  induction fuel generalizing out r with
  | zero => cases h
  | succ fuel ih =>
    rw [readChunks] at h
    cases hturn : readChunk maxBytes out r with
    | mk answer r₁ =>
    rw [hturn] at h
    obtain e | t := answer
    · cases h
    obtain ⟨f, rfl, hahead, hroom, hend⟩ | ⟨l, rfl, hahead, hopen⟩ := readChunk_cases hout hturn
    · have hlt := maxBytes.toInt_lt
      have hout₁ : (out ++ f.data).length < 2 ^ 63 := by
        rw [List.length_append]
        omega
      obtain ⟨c, hof, rfl, rfl⟩ := ih hout₁ h
      refine ⟨⟨f :: c.frames, c.last⟩, ⟨?_, ?_, ?_⟩, ?_, rfl⟩
      · rw [hahead, hof.ahead]
        simp [Cut.text]
      · intro _
        by_cases hnil : c.frames = []
        · simpa [Cut.data, hnil] using hroom
        · have := hof.room hnil
          simp only [Cut.data, List.length_append, List.flatMap_cons] at this ⊢
          push_cast at this ⊢
          omega
      · intro hopen
        exact ⟨(hof.atEnd hopen).1, hend ▸ (hof.atEnd hopen).2⟩
      · simp [Cut.data]
    · cases h
      exact ⟨⟨[], l⟩, ⟨by simpa [Cut.text] using hahead, fun hne => absurd rfl hne, hopen⟩, by simp [Cut.data], rfl⟩

theorem readChunks_cut (c : Cut) {fuel : Nat} (hof : c.Of r rest out.length maxBytes) (hout : out.length < 2 ^ 63)
    (hfuel : c.frames.length < fuel) :
    ∃ r', readChunks maxBytes fuel out r = (.ok (out ++ c.data, c.last.ieof), r') ∧ r'.ahead = rest := by
  obtain ⟨frames, last⟩ := c
  induction frames generalizing fuel out r with
  | nil =>
    obtain _ | fuel := fuel
    · cases hfuel
    obtain ⟨r', hread, hrest⟩ := @readChunk_last maxBytes out r rest last (by simpa [Cut.text] using hof.ahead) hof.atEnd
    exact ⟨r', by rw [readChunks, hread]; simp [Cut.data], hrest⟩
  | cons f frames ih =>
    obtain _ | fuel := fuel
    · cases hfuel
    have hroom := hof.room (List.cons_ne_nil _ _)
    simp only [Cut.data, List.flatMap_cons, List.length_append] at hroom
    push_cast at hroom
    have hlt := maxBytes.toInt_lt
    have hahead : r.ahead = f.text ++ ((⟨frames, last⟩ : Cut).text ++ rest) := by
      rw [hof.ahead]
      simp [Cut.text]
    have hfirst : (out.length + f.data.length : Int) ≤ maxBytes.toInt := by omega
    obtain ⟨r₁, hread, hrest₁, hend⟩ := readChunk_frame f hahead hout hfirst
    have hof₁ : (⟨frames, last⟩ : Cut).Of r₁ rest (out ++ f.data).length maxBytes := by
      refine ⟨hrest₁, ?_, ?_⟩
      · intro _
        simp only [Cut.data, List.length_append]
        push_cast
        omega
      · intro hopen
        exact ⟨(hof.atEnd hopen).1, hend ▸ (hof.atEnd hopen).2⟩
    obtain ⟨r', hok, hrest⟩ := ih (by rw [List.length_append]; omega) hof₁ (Nat.lt_of_succ_lt_succ hfuel)
    refine ⟨r', ?_, hrest⟩
    rw [readChunks, hread]
    simpa [Cut.data] using hok

theorem length_frames (frames : List Frame) : frames.length ≤ (frames.flatMap Frame.text).length := by
  induction frames with
  | nil => exact Nat.le_refl _
  | cons f frames ih =>
    simp only [List.flatMap_cons, List.length_append, List.length_cons, Frame.text]
    omega

/-- The loop's fuel suffices: it is above the number of bytes ahead, and so above the number of frames. -/
theorem readICAPChunkedAppend_cut {c : Cut} (hof : c.Of r rest out.length maxBytes) (hout : out.length < 2 ^ 63) :
    ∃ r', readICAPChunkedAppend r out maxBytes = (.ok (out ++ c.data, c.last.ieof), r') ∧ r'.ahead = rest := by
  refine readChunks_cut c hof hout ?_
  have := length_frames c.frames
  rw [hof.ahead, Cut.text, List.length_append, List.length_append]
  omega

/-! ## Cuts and encodings -/

theorem size_of_line {head : Bytes} {n : Nat} {ieof : Bool} (hn : n < 2 ^ 63)
    (hsize : chunkHeader (trimCR head) = .ok (Int64.ofNat n, ieof)) (heq : head = h.line) :
    n = h.size ∧ ieof = h.ieof := by
  rw [heq, trimCR_line, chunkHeader_of_header] at hsize
  split at hsize
  · cases hsize
  · rename_i hlt
    simp only [Except.ok.injEq, Prod.mk.injEq] at hsize
    have := congrArg Int64.toInt hsize.1
    rw [Int64.toInt_ofNat_of_lt hn, Int64.toInt_ofNat_of_lt (Nat.lt_of_not_le hlt)] at this
    exact ⟨by omega, hsize.2.symm⟩

theorem lf_notMem_cr (e : LineEnd) : 0x0a ∉ e.cr := by
  cases e <;> decide

/-- The head, the data and the line behind them, on both sides. -/
def Frame.parts (f : Frame) : Bytes × Bytes × Bytes := (f.head, f.data, f.tail)

def Chunk.parts (c : Chunk) : Bytes × Bytes × Bytes := (c.header.line, c.data, c.closing.cr)

theorem frame_chunk (h : f.text ++ x = c.text ++ y) : f.parts = c.parts ∧ x = y := by
  simp only [Frame.text, Chunk.text, List.append_assoc, List.cons_append, List.nil_append] at h
  obtain ⟨hhead, h⟩ := append_sep_inj f.head_line (lf_notMem_line c.header) h
  have hlen : f.data.length = c.data.length := (size_of_line f.data_lt f.head_size hhead).1.trans c.size_eq
  obtain ⟨hdata, h⟩ := List.append_inj h hlen
  obtain ⟨htail, h⟩ := append_sep_inj f.tail_line (lf_notMem_cr c.closing) h
  exact ⟨by rw [Frame.parts, Chunk.parts, hhead, hdata, htail], h⟩

theorem frame_ne_last (hsize : h.size = 0) : f.text ++ x ≠ h.line ++ 0x0a :: y := by
  intro heq
  simp only [Frame.text, List.append_assoc, List.cons_append, List.nil_append] at heq
  obtain ⟨hhead, -⟩ := append_sep_inj f.head_line (lf_notMem_line h) heq
  have := (size_of_line f.data_lt f.head_size hhead).1
  rw [hsize] at this
  exact f.data_ne (List.length_eq_zero_iff.1 this)

theorem last_ne_chunk : l.text ++ x ≠ c.text ++ y := by
  intro heq
  simp only [Last.text, Chunk.text, List.append_assoc, List.cons_append, List.nil_append] at heq
  obtain ⟨hhead, -⟩ := append_sep_inj l.head_line (lf_notMem_line c.header) heq
  have hzero := (size_of_line (n := 0) (by decide) l.head_size hhead).1
  rw [c.size_eq] at hzero
  exact c.data_ne (List.length_eq_zero_iff.1 hzero.symm)

/-- The closing of an encoding is what the last frame has for its tail. -/
def Last.ClosedBy (l : Last) : Closing → Prop
  | .emptyLine e => l.closed = true ∧ l.tail = e.cr
  | .endOfInput => l.closed = false ∧ l.tail = []

theorem last_closing (hx : l.closed = false → x = []) (hy : closing = .endOfInput → y = [])
    (heq : l.text ++ x = h.line ++ 0x0a :: (closing.text ++ y)) :
    l.head = h.line ∧ l.ieof = h.ieof ∧ l.ClosedBy closing ∧ x = y := by
  simp only [Last.text, List.append_assoc, List.cons_append] at heq
  obtain ⟨hhead, heq⟩ := append_sep_inj l.head_line (lf_notMem_line h) heq
  have hieof := (size_of_line (n := 0) (by decide) l.head_size hhead).2
  refine ⟨hhead, hieof, ?_⟩
  have htail := l.tail_line
  cases hclosed : l.closed with
  | true =>
    rw [hclosed] at heq
    cases closing with
    | emptyLine e =>
      simp only [Closing.text, if_true, List.append_assoc, List.cons_append, List.nil_append] at heq
      obtain ⟨htail, hrest⟩ := append_sep_inj htail (lf_notMem_cr e) heq
      exact ⟨⟨hclosed, htail⟩, hrest⟩
    | endOfInput =>
      rw [hy rfl] at heq
      simp at heq
  | false =>
    rw [hclosed, hx hclosed] at heq
    cases closing with
    | emptyLine e =>
      have heq : l.tail = e.cr ++ 0x0a :: y := by simpa using heq
      exact absurd heq (ne_append_sep htail)
    | endOfInput =>
      rw [hy rfl] at heq
      exact ⟨⟨hclosed, by simpa using heq⟩, by rw [hx hclosed, hy rfl]⟩

/-- The cut of a stream that starts with an encoding is that encoding. -/
theorem cut_encoding (hsize : h.size = 0) (hx : l.closed = false → x = []) (hy : closing = .endOfInput → y = [])
    (heq : frames.flatMap Frame.text ++ (l.text ++ x) =
      chunks.flatMap Chunk.text ++ (h.line ++ 0x0a :: (closing.text ++ y))) :
    frames.map Frame.parts = chunks.map Chunk.parts ∧
      l.head = h.line ∧ l.ieof = h.ieof ∧ l.ClosedBy closing ∧ x = y := by
  induction frames generalizing chunks with
  | nil =>
    cases chunks with
    | nil => exact ⟨rfl, last_closing hx hy heq⟩
    | cons c chunks =>
      rw [List.flatMap_cons, List.append_assoc] at heq
      exact absurd heq last_ne_chunk
  | cons f frames ih =>
    rw [List.flatMap_cons, List.append_assoc] at heq
    cases chunks with
    | nil => exact absurd heq (frame_ne_last hsize)
    | cons c chunks =>
      rw [List.flatMap_cons, List.append_assoc] at heq
      obtain ⟨hsame, heq⟩ := frame_chunk heq
      obtain ⟨hall, hlast⟩ := ih heq
      exact ⟨by rw [List.map_cons, List.map_cons, hsame, hall], hlast⟩

theorem data_of_parts (h : frames.map Frame.parts = chunks.map Chunk.parts) :
    frames.flatMap Frame.data = chunks.flatMap Chunk.data := by
  have := congrArg (List.flatMap fun p => p.2.1) h
  rwa [List.flatMap_map, List.flatMap_map] at this

/-! ## The round trip -/

namespace Encoding

/-- The header lines of an encoding and its data are within the limits, with `used` bytes read before. -/
structure Fits (e : Encoding) (used : Nat) (maxBytes : Int64) : Prop where
  lines : ∀ c ∈ e.chunks, c.header.line.length ≤ maxICAPChunkHeaderLine
  last : e.last.line.length ≤ maxICAPChunkHeaderLine
  room : e.chunks ≠ [] → (used + e.data.length : Int) ≤ maxBytes.toInt

end Encoding

theorem frame_of_chunk (c : Chunk) (hshort : c.header.line.length ≤ maxICAPChunkHeaderLine)
    (hlt : c.data.length < 2 ^ 63) : ∃ f : Frame, f.text = c.text ∧ f.data = c.data := by
  have hsize : chunkHeader (trimCR c.header.line) = .ok (Int64.ofNat c.data.length, c.header.ieof) := by
    rw [trimCR_line, chunkHeader_of_header, c.size_eq, if_neg (by omega)]
  have htail : c.closing.cr.length ≤ maxICAPChunkHeaderLine := by
    cases c.closing <;> decide
  exact ⟨⟨c.header.line, c.data, c.closing.cr, c.header.ieof, lf_notMem_line _, hshort, hsize, c.data_ne, hlt,
    lf_notMem_cr _, htail⟩, rfl, rfl⟩

theorem frames_of_chunks
    (hshort : ∀ c ∈ chunks, c.header.line.length ≤ maxICAPChunkHeaderLine ∧ c.data.length < 2 ^ 63) :
    ∃ frames : List Frame, frames.flatMap Frame.text = chunks.flatMap Chunk.text ∧
      frames.flatMap Frame.data = chunks.flatMap Chunk.data ∧ (frames ≠ [] → chunks ≠ []) := by
  induction chunks with
  | nil => exact ⟨[], rfl, rfl, fun h => absurd rfl h⟩
  | cons c chunks ih =>
    obtain ⟨f, htext, hdata⟩ := frame_of_chunk c (hshort c List.mem_cons_self).1 (hshort c List.mem_cons_self).2
    obtain ⟨frames, htexts, hdatas, -⟩ := ih fun d hd => hshort d (List.mem_cons_of_mem _ hd)
    exact ⟨f :: frames, by simp [htext, htexts], by simp [hdata, hdatas], by simp⟩

theorem length_data_le (h : c ∈ chunks) : c.data.length ≤ (chunks.flatMap Chunk.data).length :=
  (List.sublist_flatten_of_mem (List.mem_map_of_mem h)).length_le

theorem cut_of_encoding {closing : LineEnd} {used : Nat} (hahead : r.ahead = enc.text ++ (closing.cr ++ 0x0a :: rest))
    (hfits : enc.Fits used maxBytes) :
    ∃ c : Cut, c.Of r rest used maxBytes ∧ c.data = enc.data ∧ c.last.ieof = enc.ieof := by
  have hlt := maxBytes.toInt_lt
  have hshort : ∀ c ∈ enc.chunks, c.header.line.length ≤ maxICAPChunkHeaderLine ∧ c.data.length < 2 ^ 63 := by
    intro c hc
    have hroom := hfits.room (List.ne_nil_of_mem hc)
    have hle := length_data_le hc
    rw [Encoding.data] at hroom
    exact ⟨hfits.lines c hc, by omega⟩
  obtain ⟨frames, htext, hdata, hne⟩ := frames_of_chunks hshort
  have hsize : chunkHeader (trimCR enc.last.line) = .ok (0, enc.last.ieof) := by
    rw [trimCR_line, chunkHeader_of_header, enc.last_size, if_neg (by decide)]
    rfl
  have htail : closing.cr.length ≤ maxICAPChunkHeaderLine := by
    cases closing <;> decide
  refine ⟨⟨frames, ⟨enc.last.line, closing.cr, true, enc.last.ieof, lf_notMem_line _, hfits.last, hsize,
    lf_notMem_cr _, htail⟩⟩, ⟨?_, ?_, nofun⟩, hdata, rfl⟩
  · rw [hahead, Encoding.text, Cut.text, htext]
    simp [Last.text]
  · intro hframes
    rw [Cut.data, hdata]
    exact hfits.room (hne hframes)

/-- What a call on an encoding has returned. -/
theorem read_encoding_ok {r' : Reader} {closing : LineEnd} {preview : Bytes} {answer : Bytes × Bool}
    (hpreview : preview.length < 2 ^ 63) (hahead : r.ahead = enc.text ++ (closing.cr ++ 0x0a :: rest))
    (hok : readICAPChunkedAppend r preview maxBytes = (.ok answer, r')) :
    enc.Fits preview.length maxBytes ∧ answer = (preview ++ enc.data, enc.ieof) ∧ r'.ahead = rest := by
  obtain ⟨body, ieof⟩ := answer
  obtain ⟨c, hof, rfl, rfl⟩ := readChunks_ok hpreview hok
  have heq : c.frames.flatMap Frame.text ++ (c.last.text ++ r'.ahead) =
      enc.chunks.flatMap Chunk.text ++ (enc.last.line ++ 0x0a :: ((Closing.emptyLine closing).text ++ rest)) := by
    have := hof.ahead.symm.trans hahead
    simpa [Cut.text, Encoding.text] using this
  have hopen : Closing.emptyLine closing = .endOfInput → rest = [] := by
    intro h
    cases h
  obtain ⟨hall, hhead, hieof, -, hrest⟩ := cut_encoding enc.last_size (fun h => (hof.atEnd h).1) hopen heq
  have hdata : c.data = enc.data := data_of_parts hall
  refine ⟨⟨?_, ?_, ?_⟩, by rw [hdata, hieof]; rfl, hrest⟩
  · intro ch hch
    obtain ⟨f, -, hf⟩ := List.mem_map.1 (hall ▸ List.mem_map_of_mem hch)
    have hline : f.head = ch.header.line := congrArg Prod.fst hf
    rw [← hline]
    exact f.head_short
  · rw [← hhead]
    exact c.last.head_short
  · intro hne
    rw [← hdata]
    refine hof.room ?_
    intro hnil
    rw [hnil] at hall
    exact hne (List.map_eq_nil_iff.1 hall.symm)

theorem read_encoding_fits {closing : LineEnd} {preview : Bytes} (hpreview : preview.length < 2 ^ 63)
    (hahead : r.ahead = enc.text ++ (closing.cr ++ 0x0a :: rest)) (hfits : enc.Fits preview.length maxBytes) :
    ∃ answer r', readICAPChunkedAppend r preview maxBytes = (.ok answer, r') := by
  obtain ⟨c, hof, -, -⟩ := cut_of_encoding hahead hfits
  obtain ⟨r', hok, -⟩ := readICAPChunkedAppend_cut hof hpreview
  exact ⟨_, r', hok⟩

/-- An encoding and any bytes behind it, delivered in any pieces, behind any bytes already read: the reader succeeds
exactly if the lines and the data are within the limits, and then returns the data and stands behind the empty line.
The test of the limit is exact for every declared size. -/
theorem readICAPChunkedAppend_encoding (r : Reader) (enc : Encoding) (closing : LineEnd) (rest preview : Bytes)
    (maxBytes : Int64) (hpreview : preview.length < 2 ^ 63)
    (hahead : r.ahead = enc.text ++ (closing.cr ++ 0x0a :: rest)) :
    ((∃ answer r', readICAPChunkedAppend r preview maxBytes = (.ok answer, r')) ↔ enc.Fits preview.length maxBytes) ∧
      (∀ answer r', readICAPChunkedAppend r preview maxBytes = (.ok answer, r') →
        answer = (preview ++ enc.data, enc.ieof) ∧ r'.ahead = rest) ∧
      ∀ (used : Nat) (size : Int64), used < 2 ^ 63 → ¬ size < 0 →
        (exceeds maxBytes used size ↔ maxBytes.toInt < (used : Int) + size.toInt) := by
  refine ⟨⟨?_, read_encoding_fits hpreview hahead⟩, ?_, fun _ _ => exceeds_iff⟩
  · rintro ⟨answer, r', h⟩
    exact (read_encoding_ok hpreview hahead h).1
  · intro answer r' h
    exact (read_encoding_ok hpreview hahead h).2

/-! The samples below: a body in one chunk, and the last chunk with extensions that are names alone. -/

def plainHeader (digits : HexDigits) (exts : List Extension) : Header where
  before := ⟨[], nofun⟩
  digits := digits
  behind := ⟨[], nofun⟩
  exts := exts
  ending := .crlf

def bareExtension (name : Token) : Extension := ⟨⟨[], nofun⟩, name, ⟨[], nofun⟩, none⟩

def helloChunk : Chunk where
  header := plainHeader ⟨[0x35], by decide +kernel⟩ []
  data := [0x68, 0x65, 0x6c, 0x6c, 0x6f]
  closing := .crlf
  size_eq := by decide
  data_ne := by decide

def lastWith (exts : List Extension) (chunks : List Chunk) : Encoding where
  chunks := chunks
  last := plainHeader ⟨[0x30], by decide +kernel⟩ exts
  last_size := by rfl

/-- A reader of a text that arrives in two pieces. -/
def pieces (a b : Bytes) (ha : a ≠ []) (hb : b ≠ []) : Reader :=
  .fresh 16 (by decide) [a, b] (by simp [ha, hb])

theorem ahead_pieces (a b : Bytes) (ha : a ≠ []) (hb : b ≠ []) : (pieces a b ha hb).ahead = a ++ b := by
  simp [pieces, Reader.fresh, Reader.ahead]

theorem Encoding.text_ne (enc : Encoding) : enc.text ≠ [] := by
  simp [Encoding.text]

/-- A reader of an encoding whose empty line arrives last, and nothing behind it. -/
def readerOf (enc : Encoding) : Reader := pieces enc.text [0x0d, 0x0a] enc.text_ne (by decide)

theorem ahead_readerOf (enc : Encoding) : (readerOf enc).ahead = enc.text ++ (LineEnd.crlf.cr ++ 0x0a :: []) :=
  ahead_pieces enc.text [0x0d, 0x0a] enc.text_ne (by decide)

/-- A body of five bytes behind a preview of one, with `ieof`; the second piece begins within the data. -/
theorem readICAPChunkedAppend_encoding_hello :
    let r := pieces (Scan.ascii "5\r\nhe") (Scan.ascii "llo\r\n0;ieof\r\n\r\nnext") (by decide) (by decide)
    ∃ r', readICAPChunkedAppend r [0x3e] 6 = (.ok (Scan.ascii ">hello", true), r') ∧ r'.ahead = Scan.ascii "next" := by
  intro r
  let enc := lastWith [bareExtension ⟨ieofName, by decide +kernel⟩] [helloChunk]
  have hahead : r.ahead = enc.text ++ (LineEnd.crlf.cr ++ 0x0a :: Scan.ascii "next") := by
    rw [ahead_pieces]
    decide
  have hfits : enc.Fits 1 6 := ⟨by decide, by decide, by decide⟩
  have hread := readICAPChunkedAppend_encoding r enc .crlf (Scan.ascii "next") [0x3e] 6 (by decide) hahead
  obtain ⟨answer, r', hok⟩ := hread.1.2 hfits
  obtain ⟨rfl, hrest⟩ := hread.2.1 answer r' hok
  exact ⟨r', hok, hrest⟩

/-- Two valid bodies for which success is not decided by the total length: a last chunk whose extension is longer than a
header line may be is refused, and an empty body behind a preview that is over the limit is accepted. -/
theorem readICAPChunkedAppend_other_limits :
    (∃ (r : Reader) (enc : Encoding) (rest preview : Bytes) (maxBytes : Int64),
      r.ahead = enc.text ++ (LineEnd.crlf.cr ++ 0x0a :: rest) ∧
        (preview.length + enc.data.length : Int) ≤ maxBytes.toInt ∧
        ∀ answer r', readICAPChunkedAppend r preview maxBytes ≠ (.ok answer, r')) ∧
      ∃ (r : Reader) (enc : Encoding) (rest preview : Bytes) (maxBytes : Int64),
        r.ahead = enc.text ++ (LineEnd.crlf.cr ++ 0x0a :: rest) ∧
          maxBytes.toInt < (preview.length + enc.data.length : Int) ∧
          ∃ answer r', readICAPChunkedAppend r preview maxBytes = (.ok answer, r') := by
  constructor
  · let enc := lastWith [bareExtension ⟨List.replicate 256 0x61, by decide +kernel⟩] []
    refine ⟨readerOf enc, enc, [], [], 6, ahead_readerOf enc, by decide, ?_⟩
    intro answer r' hok
    have hfits := (read_encoding_ok (by decide) (ahead_readerOf enc) hok).1
    exact absurd hfits.last (by decide +kernel)
  · let enc := lastWith [] []
    have hfits : enc.Fits 1 0 := ⟨by decide, by decide, by decide⟩
    exact ⟨readerOf enc, enc, [], [0x3e], 0, ahead_readerOf enc, by decide,
      read_encoding_fits (by decide) (ahead_readerOf enc) hfits⟩

/-! ## The converse -/

/-- The line behind a chunk is empty. -/
def EmptyTail (tail : Bytes) : Prop := tail = [] ∨ tail = [0x0d]

def Frame.Tight (f : Frame) : Prop := PlainHead f.head ∧ EmptyTail f.tail

def Last.Tight (l : Last) : Prop :=
  PlainHead l.head ∧ if l.closed then EmptyTail l.tail else l.tail = []

/-- Every size is written with digits alone, and every line behind a chunk is empty. -/
def Cut.Tight (c : Cut) : Prop := (∀ f ∈ c.frames, f.Tight) ∧ c.last.Tight

/-- What a call took from a stream is an encoding of what it added to the body. -/
def TookEncoding (r r' : Reader) (preview : Bytes) (answer : Bytes × Bool) : Prop :=
  ∃ (enc : Encoding) (closing : Closing), r.ahead = enc.text ++ (closing.text ++ r'.ahead) ∧
    answer = (preview ++ enc.data, enc.ieof) ∧ (closing = .endOfInput → r'.ahead = [])

theorem emptyTail_cr (e : LineEnd) : EmptyTail e.cr := by
  cases e
  · exact .inl rfl
  · exact .inr rfl

theorem EmptyTail.lineEnd {tail : Bytes} (h : EmptyTail tail) : ∃ e : LineEnd, tail = e.cr := by
  rcases h with rfl | rfl
  · exact ⟨.lf, rfl⟩
  · exact ⟨.crlf, rfl⟩

theorem tight_of_encoding {c : Cut} (hx : c.last.closed = false → x = []) (hy : closing = .endOfInput → y = [])
    (heq : c.text ++ x = enc.text ++ (closing.text ++ y)) : c.Tight := by
  have heq : c.frames.flatMap Frame.text ++ (c.last.text ++ x) =
      enc.chunks.flatMap Chunk.text ++ (enc.last.line ++ 0x0a :: (closing.text ++ y)) := by
    simpa [Cut.text, Encoding.text] using heq
  obtain ⟨hall, hhead, -, hclosed, -⟩ := cut_encoding enc.last_size hx hy heq
  refine ⟨?_, ?_, ?_⟩
  · intro f hf
    obtain ⟨ch, -, hparts⟩ := List.mem_map.1 (hall ▸ List.mem_map_of_mem hf)
    simp only [Chunk.parts, Frame.parts, Prod.mk.injEq] at hparts
    obtain ⟨hline, -, htail⟩ := hparts
    rw [Frame.Tight, ← hline, ← htail]
    exact ⟨plainHead_line _, emptyTail_cr _⟩
  · rw [hhead]
    exact plainHead_line _
  · cases closing with
    | emptyLine e =>
      rw [hclosed.1, hclosed.2]
      exact emptyTail_cr e
    | endOfInput =>
      rw [hclosed.1, hclosed.2]
      rfl

theorem chunk_of_frame (h : f.Tight) : ∃ c : Chunk, c.text = f.text ∧ c.data = f.data := by
  obtain ⟨hd, hline, -, hsize, hlt⟩ := chunkHeader_sound f.head_size h.1
  obtain ⟨e, he⟩ := h.2.lineEnd
  have hlen : hd.size = f.data.length := by
    have := congrArg Int64.toInt hsize
    rw [Int64.toInt_ofNat_of_lt f.data_lt, Int64.toInt_ofNat_of_lt hlt] at this
    omega
  exact ⟨⟨hd, f.data, e, hlen, f.data_ne⟩, by rw [Chunk.text, Frame.text, hline, he], rfl⟩

theorem chunks_of_frames (h : ∀ f ∈ frames, f.Tight) :
    ∃ chunks : List Chunk, chunks.flatMap Chunk.text = frames.flatMap Frame.text ∧
      chunks.flatMap Chunk.data = frames.flatMap Frame.data := by
  induction frames with
  | nil => exact ⟨[], rfl, rfl⟩
  | cons f frames ih =>
    obtain ⟨c, htext, hdata⟩ := chunk_of_frame (h f List.mem_cons_self)
    obtain ⟨chunks, htexts, hdatas⟩ := ih fun g hg => h g (List.mem_cons_of_mem _ hg)
    exact ⟨c :: chunks, by simp [htext, htexts], by simp [hdata, hdatas]⟩

theorem encoding_of_tight {c : Cut} (h : c.Tight) :
    ∃ (enc : Encoding) (closing : Closing), c.text = enc.text ++ closing.text ∧ enc.data = c.data ∧
      enc.ieof = c.last.ieof ∧ (closing = .endOfInput → c.last.closed = false) := by
  obtain ⟨chunks, htext, hdata⟩ := chunks_of_frames h.1
  obtain ⟨hd, hline, hieof, hsize, hlt⟩ := chunkHeader_sound c.last.head_size h.2.1
  have hzero : hd.size = 0 := by
    have := congrArg Int64.toInt hsize
    rw [Int64.toInt_ofNat_of_lt hlt, Int64.toInt_zero] at this
    omega
  have htail := h.2.2
  cases hclosed : c.last.closed with
  | true =>
    rw [hclosed] at htail
    obtain ⟨e, he⟩ := EmptyTail.lineEnd htail
    refine ⟨⟨chunks, hd, hzero⟩, .emptyLine e, ?_, hdata, hieof, by simp⟩
    rw [Cut.text, Encoding.text, htext, Last.text, hline, hclosed, he]
    simp
  | false =>
    rw [hclosed] at htail
    have htail : c.last.tail = [] := htail
    refine ⟨⟨chunks, hd, hzero⟩, .endOfInput, ?_, hdata, hieof, fun _ => rfl⟩
    rw [Cut.text, Encoding.text, htext, Last.text, hline, hclosed, htail]
    simp

/-- Whatever a call on a stream takes is an encoding of what it returns, exactly if the stream's cut is tight. -/
theorem readICAPChunkedAppend_took_encoding_iff (r : Reader) (preview : Bytes) (maxBytes : Int64)
    (hpreview : preview.length < 2 ^ 63) :
    (∀ answer r', readICAPChunkedAppend r preview maxBytes = (.ok answer, r') → TookEncoding r r' preview answer) ↔
      ∀ (c : Cut) (rest : Bytes), c.Of r rest preview.length maxBytes → c.Tight := by
  constructor
  · intro h c rest hof
    obtain ⟨r', hok, hrest⟩ := readICAPChunkedAppend_cut hof hpreview
    obtain ⟨enc, closing, hahead, -, hend⟩ := h _ r' hok
    have heq : c.text ++ rest = enc.text ++ (closing.text ++ r'.ahead) := hof.ahead.symm.trans hahead
    exact tight_of_encoding (fun hopen => (hof.atEnd hopen).1) hend heq
  · rintro h ⟨body, ieof⟩ r' hok
    obtain ⟨c, hof, rfl, rfl⟩ := readChunks_ok hpreview hok
    obtain ⟨enc, closing, htext, hdata, hieof, hopen⟩ := encoding_of_tight (h c _ hof)
    refine ⟨enc, closing, by rw [hof.ahead, htext, List.append_assoc], by rw [hdata, hieof], ?_⟩
    intro hclosing
    exact (hof.atEnd (hopen hclosing)).1

theorem readICAPChunkedAppend_took_encoding_hello :
    let r := readerOf (lastWith [] [helloChunk])
    ∀ answer r', readICAPChunkedAppend r [] 6 = (.ok answer, r') → TookEncoding r r' [] answer := by
  intro r
  refine (readICAPChunkedAppend_took_encoding_iff r [] 6 (by decide)).2 ?_
  intro c rest hof
  have heq : c.text ++ rest =
      (lastWith [] [helloChunk]).text ++ ((Closing.emptyLine .crlf).text ++ []) :=
    hof.ahead.symm.trans (ahead_readerOf _)
  exact tight_of_encoding (fun hopen => (hof.atEnd hopen).1) (fun h => by cases h) heq

/-- Data followed by four more bytes before the end of the line. -/
def stuffed : Cut where
  frames := [{
    head := Scan.ascii "5\r"
    data := Scan.ascii "hello"
    tail := Scan.ascii "EVIL\r"
    ieof := false
    head_line := by decide
    head_short := by decide
    head_size := by decide
    data_ne := by decide
    data_lt := by decide
    tail_line := by decide
    tail_short := by decide }]
  last := {
    head := Scan.ascii "0\r"
    tail := Scan.ascii "\r"
    closed := true
    ieof := false
    head_line := by decide
    head_short := by decide
    head_size := by decide
    tail_line := by decide
    tail_short := by decide }

/-- The line behind the data is dropped, whatever it holds: `hello` is returned, `EVIL` is not. -/
theorem readICAPChunkedAppend_drops :
    ∃ (r r' : Reader) (preview : Bytes) (maxBytes : Int64) (answer : Bytes × Bool), preview.length < 2 ^ 63 ∧
      readICAPChunkedAppend r preview maxBytes = (.ok answer, r') ∧ ¬ TookEncoding r r' preview answer := by
  let r := pieces (Scan.ascii "5\r\nhelloEVIL\r\n") (Scan.ascii "0\r\n\r\n") (by decide) (by decide)
  have hof : stuffed.Of r [] 0 6 := ⟨by rw [ahead_pieces]; decide, fun _ => by decide, fun h => by cases h⟩
  obtain ⟨r', hok, hrest⟩ := @readICAPChunkedAppend_cut 6 [] [] r stuffed hof (by decide)
  refine ⟨r, r', [], 6, _, by decide, hok, ?_⟩
  rintro ⟨enc, closing, hahead, -, hend⟩
  have heq : stuffed.text ++ [] = enc.text ++ (closing.text ++ r'.ahead) := hof.ahead.symm.trans hahead
  obtain ⟨hframes, -⟩ := tight_of_encoding (fun _ => rfl) hend heq
  have htail := (hframes _ List.mem_cons_self).2
  revert htail
  simp [EmptyTail, Scan.ascii]

/-! ## Fragments -/

/-- Neither the buffer nor the pieces of the connection show in what is accepted, in the body or in what is left. -/
theorem readICAPChunkedAppend_fragments {r₁ r₂ : Reader} (hahead : r₁.ahead = r₂.ahead) (hending : r₁.ending = r₂.ending)
    {preview : Bytes} (hpreview : preview.length < 2 ^ 63) (maxBytes : Int64) (answer : Bytes × Bool) (rest : Bytes) :
    (∃ r', readICAPChunkedAppend r₁ preview maxBytes = (.ok answer, r') ∧ r'.ahead = rest) ↔
      ∃ r', readICAPChunkedAppend r₂ preview maxBytes = (.ok answer, r') ∧ r'.ahead = rest := by
  have key : ∀ {r₁ r₂ : Reader}, r₁.ahead = r₂.ahead → r₁.ending = r₂.ending →
      (∃ r', readICAPChunkedAppend r₁ preview maxBytes = (.ok answer, r') ∧ r'.ahead = rest) →
      ∃ r', readICAPChunkedAppend r₂ preview maxBytes = (.ok answer, r') ∧ r'.ahead = rest := by
    rintro r₁ r₂ hahead hending ⟨r', hok, rfl⟩
    obtain ⟨body, ieof⟩ := answer
    obtain ⟨c, hof, rfl, rfl⟩ := readChunks_ok hpreview hok
    exact readICAPChunkedAppend_cut ⟨hahead ▸ hof.ahead, hof.room, hending ▸ hof.atEnd⟩ hpreview
  exact ⟨key hahead hending, key hahead.symm hending.symm⟩

/-- A body that is read in two pieces, wherever it is cut. -/
theorem readICAPChunkedAppend_fragments_hi :
    let r₁ := pieces (Scan.ascii "2\r\nh") (Scan.ascii "i\r\n0\r\n\r\n") (by decide) (by decide)
    let r₂ := pieces (Scan.ascii "2\r") (Scan.ascii "\nhi\r\n0\r\n\r\n") (by decide) (by decide)
    (∃ r', readICAPChunkedAppend r₁ [] 6 = (.ok (Scan.ascii "hi", false), r') ∧ r'.ahead = []) ∧
      ∃ r', readICAPChunkedAppend r₂ [] 6 = (.ok (Scan.ascii "hi", false), r') ∧ r'.ahead = [] := by
  intro r₁ r₂
  have hahead : r₁.ahead = r₂.ahead := by
    rw [ahead_pieces, ahead_pieces]
    decide
  have hfirst : ∃ r', readICAPChunkedAppend r₁ [] 6 = (.ok (Scan.ascii "hi", false), r') ∧ r'.ahead = [] :=
    ⟨(readICAPChunkedAppend r₁ [] 6).2, Prod.ext (by decide +kernel) rfl, by decide +kernel⟩
  exact ⟨hfirst, (readICAPChunkedAppend_fragments hahead rfl (by decide) 6 _ _).1 hfirst⟩

end MS.Icap
