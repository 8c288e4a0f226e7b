import Mailstrix.Proof.Icap.Line
import Mailstrix.Proof.Icap.Header

/-!
# One chunk

What one turn of the chunked-body reader takes from the bytes ahead of it: a `Frame`, or the `Last` one.  The reader
accepts exactly these (`readChunk_frame`, `readChunk_last`, `readChunk_cases`); the line behind the data may hold
anything, and the size is whatever the size parser makes of the head.
-/

namespace MS.Icap

open Framework

variable {maxBytes size : Int64} {out : Bytes} {r : Reader}

/-- The head of a chunk, its data and the line behind them, each line without its LF. -/
structure Frame where
  head : Bytes
  data : Bytes
  tail : Bytes
  ieof : Bool
  head_line : 0x0a ∉ head
  head_short : head.length ≤ maxICAPChunkHeaderLine
  head_size : chunkHeader (trimCR head) = .ok (Int64.ofNat data.length, ieof)
  data_ne : data ≠ []
  data_lt : data.length < 2 ^ 63
  tail_line : 0x0a ∉ tail
  tail_short : tail.length ≤ maxICAPChunkHeaderLine

def Frame.text (f : Frame) : Bytes := f.head ++ 0x0a :: (f.data ++ (f.tail ++ [0x0a]))

/-- The head of the last chunk and what follows it, up to an LF or to the end of the input. -/
structure Last where
  head : Bytes
  tail : Bytes
  closed : Bool
  ieof : Bool
  head_line : 0x0a ∉ head
  head_short : head.length ≤ maxICAPChunkHeaderLine
  head_size : chunkHeader (trimCR head) = .ok (0, ieof)
  tail_line : 0x0a ∉ tail
  tail_short : tail.length ≤ maxICAPChunkHeaderLine

def Last.text (l : Last) : Bytes := l.head ++ 0x0a :: (l.tail ++ if l.closed then [0x0a] else [])

/-- For a size that is not negative the test does not overflow. -/
theorem exceeds_iff {used : Nat} (hused : used < 2 ^ 63) (hsize : ¬ size < 0) :
    exceeds maxBytes used size ↔ maxBytes.toInt < (used : Int) + size.toInt := by
  have hmax := maxBytes.toInt_lt
  rw [Int64.lt_iff_toInt_lt, Int64.toInt_zero] at hsize
  rw [exceeds, Int64.lt_iff_toInt_lt, Int64.lt_iff_toInt_lt, Int64.toInt_sub, Int64.toInt_ofNat_of_lt hused]
  by_cases hle : (used : Int) ≤ maxBytes.toInt
  · -- the difference is not negative and below the limit: it does not wrap
    rw [Int.bmod_eq_of_le (by omega) (by omega)]
    omega
  · have hlt : maxBytes.toInt < used := by omega
    exact ⟨fun _ => by omega, fun _ => .inl hlt⟩

theorem toNatClampNeg_toInt (h : ¬ size < 0) : (size.toNatClampNeg : Int) = size.toInt := by
  rw [Int64.lt_iff_toInt_lt, Int64.toInt_zero] at h
  rw [← Int64.toNat_toInt]
  omega

theorem chunkHeader_not_neg {raw : Bytes} {ieof : Bool} (h : chunkHeader raw = .ok (size, ieof)) : ¬ size < 0 := by
  unfold chunkHeader at h
  split at h
  · cases h
  · split at h
    · cases h
    · split at h
      · cases h
      · rename_i hneg
        cases h
        exact hneg

theorem readChunk_frame {rest : Bytes} (f : Frame) (hahead : r.ahead = f.text ++ rest) (hout : out.length < 2 ^ 63)
    (hroom : (out.length + f.data.length : Int) ≤ maxBytes.toInt) :
    ∃ r', readChunk maxBytes out r = (.ok (.more (out ++ f.data)), r') ∧ r'.ahead = rest ∧ r'.ending = r.ending := by
  have hahead : r.ahead = f.head ++ 0x0a :: (f.data ++ (f.tail ++ 0x0a :: rest)) := by
    simpa [Frame.text] using hahead
  obtain ⟨r₁, hhead, hahead₁, hend₁⟩ := readBoundedLine_of_line hahead f.head_line (Int.ofNat_le.2 f.head_short)
  have hclamp := Int64.toNatClampNeg_ofNat_of_lt f.data_lt
  obtain ⟨r₂, hdata, hahead₂, hend₂⟩ := readSteps_of_le (Nat.le_refl f.data.length) out hahead₁ rfl
  obtain ⟨r₃, htail, hahead₃, hend₃⟩ := readBoundedLine_of_line hahead₂ f.tail_line (Int.ofNat_le.2 f.tail_short)
  have hpos := List.length_pos_iff.2 f.data_ne
  have hzero : ¬ Int64.ofNat f.data.length = 0 := by
    rw [← Int64.toInt_inj, Int64.toInt_ofNat_of_lt f.data_lt, Int64.toInt_zero]
    omega
  rw [← Int64.toInt_ofNat_of_lt f.data_lt] at hroom
  have hallow : ¬ exceeds maxBytes out.length (Int64.ofNat f.data.length) := by
    rw [exceeds_iff hout (ofNat_not_neg f.data_lt)]
    omega
  refine ⟨r₃, ?_, hahead₃, hend₃.trans (hend₂.trans hend₁)⟩
  rw [readChunk, hhead]
  dsimp only
  rw [f.head_size]
  dsimp only
  rw [if_neg hzero, if_neg hallow, hclamp, hdata]
  dsimp only
  rw [htail]

theorem readChunk_last {rest : Bytes} (l : Last) (hahead : r.ahead = l.text ++ rest)
    (hopen : l.closed = false → rest = [] ∧ r.ending = .eof) :
    ∃ r', readChunk maxBytes out r = (.ok (.done out l.ieof), r') ∧ r'.ahead = rest := by
  rw [Last.text, List.append_assoc] at hahead
  obtain ⟨r₁, hhead, hahead₁, hend₁⟩ := readBoundedLine_of_line hahead l.head_line (Int.ofNat_le.2 l.head_short)
  rw [readChunk, hhead]
  dsimp only
  rw [l.head_size]
  dsimp only
  rw [if_pos rfl]
  cases hclosed : l.closed with
  | true =>
    rw [hclosed] at hahead₁
    obtain ⟨r₂, htail, hahead₂, -⟩ := readBoundedLine_of_line
      (show r₁.ahead = l.tail ++ 0x0a :: rest by simpa using hahead₁) l.tail_line (Int.ofNat_le.2 l.tail_short)
    exact ⟨r₂, by rw [htail], hahead₂⟩
  | false =>
    obtain ⟨rfl, heof⟩ := hopen hclosed
    rw [hclosed] at hahead₁
    have hahead₁ : r₁.ahead = l.tail := by simpa using hahead₁
    have hanswer := readBoundedLine_answer maxICAPChunkHeaderLine r₁
    generalize readBoundedLine maxICAPChunkHeaderLine r₁ = answer at hanswer ⊢
    obtain ⟨e | line, r₂⟩ := answer
    · obtain ⟨-, text, rest', heq, -, hlong⟩ | ⟨rfl, -, hnil, -, -⟩ := hanswer
      · have := congrArg List.length heq
        rw [hahead₁, List.length_append] at this
        have := l.tail_short
        omega
      · exact ⟨r₂, by rw [hend₁, heof]; simp, hnil⟩
    · obtain ⟨-, text, heq, -⟩ := hanswer
      rw [hahead₁] at heq
      exact absurd (by rw [heq]; simp) l.tail_line

/-- What a turn that succeeds has taken. -/
theorem readChunk_cases {r' : Reader} {t : Turn} (hout : out.length < 2 ^ 63)
    (h : readChunk maxBytes out r = (.ok t, r')) :
    (∃ f : Frame, t = .more (out ++ f.data) ∧ r.ahead = f.text ++ r'.ahead ∧
        (out.length + f.data.length : Int) ≤ maxBytes.toInt ∧ r'.ending = r.ending) ∨
      ∃ l : Last, t = .done out l.ieof ∧ r.ahead = l.text ++ r'.ahead ∧
        (l.closed = false → r'.ahead = [] ∧ r.ending = .eof) := by
  rw [readChunk] at h
  have hanswer := readBoundedLine_answer maxICAPChunkHeaderLine r
  generalize readBoundedLine maxICAPChunkHeaderLine r = answer at hanswer h
  obtain ⟨e | raw, r₁⟩ := answer
  · cases h
  obtain ⟨hend₁, head, hahead, hhead, hshort, rfl⟩ := hanswer
  dsimp only at h
  cases hsize : chunkHeader (trimCR head) with
  | error e =>
    rw [hsize] at h
    cases h
  | ok answer =>
  obtain ⟨size, ieof⟩ := answer
  rw [hsize] at h
  dsimp only at h
  have hneg := chunkHeader_not_neg hsize
  split at h
  · -- the last chunk
    rename_i hzero
    rw [hzero] at hsize
    refine .inr ?_
    have hanswer := readBoundedLine_answer maxICAPChunkHeaderLine r₁
    generalize readBoundedLine maxICAPChunkHeaderLine r₁ = answer at hanswer h
    obtain ⟨e | line, r₂⟩ := answer
    · dsimp only at h
      split at h
      · rename_i heof
        cases h
        obtain ⟨rfl, -⟩ | ⟨rfl, -, hnil, hnl, hle⟩ := hanswer
        · cases heof
        · refine ⟨⟨head, r₁.ahead, false, ieof, hhead, Int.ofNat_le.1 hshort, hsize, hnl, Int.ofNat_le.1 hle⟩, rfl, ?_, ?_⟩
          · rw [hahead, hnil]
            simp [Last.text]
          · intro _
            exact ⟨hnil, by rw [← hend₁]; simpa using heof⟩
      · cases h
    · cases h
      obtain ⟨-, tail, hahead₁, htail, htailshort, -⟩ := hanswer
      refine ⟨⟨head, tail, true, ieof, hhead, Int.ofNat_le.1 hshort, hsize, htail, Int.ofNat_le.1 htailshort⟩, rfl, ?_, nofun⟩
      rw [hahead, hahead₁]
      simp [Last.text]
  · rename_i hzero
    refine .inl ?_
    split at h
    · cases h
    · rename_i hallow
      rw [exceeds_iff hout hneg, Int.not_lt] at hallow
      have hclamp := toNatClampNeg_toInt hneg
      cases hdata : readSteps size.toNatClampNeg size.toNatClampNeg out r₁ with
      | mk answer r₂ =>
      rw [hdata] at h
      obtain e | out₂ := answer
      · cases h
      obtain ⟨data, hahead₁, hlen, rfl, hend₂⟩ := readSteps_ok (Nat.le_refl _) hdata
      dsimp only at h
      have hanswer := readBoundedLine_answer maxICAPChunkHeaderLine r₂
      generalize readBoundedLine maxICAPChunkHeaderLine r₂ = answer at hanswer h
      obtain ⟨e | line, r₃⟩ := answer
      · cases h
      cases h
      obtain ⟨hend₃, tail, hahead₂, htail, htailshort, -⟩ := hanswer
      have hlt := size.toInt_lt
      have hsize' : size = Int64.ofNat data.length := by
        rw [hlen, Int64.ofNat_toNatClampNeg]
        rw [Int64.lt_iff_toInt_lt] at hneg
        rw [Int64.le_iff_toInt_le]
        omega
      have hne : data ≠ [] := by
        rintro rfl
        exact hzero hsize'
      rw [hsize'] at hsize
      refine ⟨⟨head, data, tail, ieof, hhead, by omega, hsize, hne, by omega, htail, by omega⟩, rfl, ?_, ?_,
        hend₃.trans (hend₂.trans hend₁)⟩
      · rw [hahead, hahead₁, hahead₂]
        simp [Frame.text]
      · rwa [← hclamp, ← hlen] at hallow

end MS.Icap
