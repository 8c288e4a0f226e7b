import Mailstrix.Impl.Icap.Chunk

/-!
# Bounded lines and blocks of data

What the bounded line reader and the stepwise reads return, as facts about the bytes ahead of the reader: neither the
pieces in which the connection delivers nor the fragments of a full buffer show in the result.

* `readBoundedLine_answer`: what an answer of the line reader says of the bytes ahead;
* `readBoundedLine_of_line`: a line within the limit; `readBoundedLine_bytewise`: any bytes and any limit;
* `readSteps_of_le`, `readSteps_ok`: the same for a number of bytes.
-/

namespace MS.Icap

open Framework

variable {limit : Int} {r : Reader}

/-- What an answer of the line reader says of the bytes that were ahead. -/
def LineAnswer (limit : Int) (ahead : Bytes) (ending : ReadError) : Except Err Bytes × Reader → Prop
  | (.ok line, r') =>
    r'.ending = ending ∧
      ∃ text, ahead = text ++ 0x0a :: r'.ahead ∧ 0x0a ∉ text ∧ text.length ≤ limit ∧ line = trimCR text
  | (.error e, r') =>
    (e = .lineTooLong ∧ ∃ text rest, ahead = text ++ rest ∧ 0x0a ∉ text ∧ limit < text.length) ∨
      (e = .read ending ∧ r'.ending = ending ∧ r'.ahead = [] ∧ 0x0a ∉ ahead ∧ ahead.length ≤ limit)

theorem lineLoop_answer {fuel : Nat} {acc : Bytes} (hacc : 0x0a ∉ acc) (hfuel : limit < acc.length + fuel) :
    LineAnswer limit (acc ++ r.ahead) r.ending (lineLoop limit fuel acc r) := by
  induction fuel generalizing acc r with
  | zero => exact .inl ⟨rfl, acc, r.ahead, rfl, hacc, by simpa using hfuel⟩
  | succ fuel ih =>
    obtain ⟨hof, hend⟩ := Reader.readSlice_spec 0x0a r
    rw [lineLoop]
    generalize hs : r.readSlice 0x0a = answer at hof hend ⊢
    obtain ⟨slice, r'⟩ := answer
    cases slice with
    | found line =>
      obtain ⟨hahead, hline⟩ := hof
      have hnl : 0x0a ∉ acc ++ line := by simp [hacc, hline]
      dsimp only
      split
      · rename_i hlong
        exact .inl ⟨rfl, acc ++ line, 0x0a :: r'.ahead, by rw [hahead, List.append_assoc], hnl, hlong⟩
      · rename_i hshort
        exact ⟨hend, acc ++ line, by rw [hahead, List.append_assoc], hnl, Int.not_lt.1 hshort, rfl⟩
    | full part =>
      obtain ⟨hahead, hpart, hne⟩ := hof
      have hnl : 0x0a ∉ acc ++ part := by simp [hacc, hpart]
      have hpos := List.length_pos_iff.2 hne
      dsimp only
      split
      · rename_i hlong
        exact .inl ⟨rfl, acc ++ part, r'.ahead, by rw [hahead, List.append_assoc], hnl, hlong⟩
      · have := @ih r' (acc ++ part) hnl (by rw [List.length_append]; omega)
        rwa [List.append_assoc, ← hahead, hend] at this
    | ended part =>
      obtain ⟨hahead, hnil, hpart⟩ := hof
      have hnl : 0x0a ∉ acc ++ part := by simp [hacc, hpart]
      dsimp only
      split
      · rename_i hlong
        exact .inl ⟨rfl, acc ++ part, [], by rw [hahead, List.append_nil], hnl, hlong⟩
      · rename_i hshort
        exact .inr ⟨by rw [hend], hend, hnil, by rwa [hahead], by rw [hahead]; exact Int.not_lt.1 hshort⟩

theorem readBoundedLine_answer (limit : Int) (r : Reader) :
    LineAnswer limit r.ahead r.ending (readBoundedLine limit r) :=
  @lineLoop_answer limit r _ [] (by simp) (by simp)

theorem readBoundedLine_of_line {text rest : Bytes} (hahead : r.ahead = text ++ 0x0a :: rest)
    (htext : 0x0a ∉ text) (hlen : text.length ≤ limit) :
    ∃ r', readBoundedLine limit r = (.ok (trimCR text), r') ∧ r'.ahead = rest ∧ r'.ending = r.ending := by
  have hanswer := readBoundedLine_answer limit r
  generalize readBoundedLine limit r = answer at hanswer ⊢
  obtain ⟨line | line, r'⟩ := answer
  · obtain ⟨-, text', rest', heq, hnl, hlong⟩ | ⟨-, -, -, hnl, -⟩ := hanswer
    · -- the long stretch without LF reaches over the whole line
      rw [hahead] at heq
      have hpre : text ++ [0x0a] <+: text' :=
        List.prefix_of_prefix_length_le ⟨rest, by simpa using heq⟩ (List.prefix_append _ _) (by simp; omega)
      exact absurd (hpre.subset (by simp)) hnl
    · simp [hahead] at hnl
  · obtain ⟨hend, text', heq, hnl, hlen', rfl⟩ := hanswer
    rw [hahead] at heq
    obtain ⟨rfl, hrest⟩ := append_sep_inj htext hnl heq
    exact ⟨r', rfl, hrest.symm, hend⟩

/-- The bytes before the first newline, if they are within the limit, and the bytes behind it. -/
def lineOf (limit : Int) (ahead : Bytes) (ending : ReadError) : Except Err (Bytes × Bytes) :=
  let text := ahead.takeWhile (· != 0x0a)
  if limit < text.length then .error .lineTooLong
  else if 0x0a ∈ ahead then .ok (trimCR text, ahead.drop (text.length + 1))
  else .error (.read ending)

/-- Whatever the buffer and the pieces, the answer is that of the bytes ahead, and a line that is returned is taken
from them with its newline. -/
theorem readBoundedLine_bytewise (limit : Int) (r : Reader) :
    (readBoundedLine limit r).1 = (lineOf limit r.ahead r.ending).map Prod.fst ∧
      ∀ line rest, lineOf limit r.ahead r.ending = .ok (line, rest) → (readBoundedLine limit r).2.ahead = rest := by
  have hplain : ∀ {text : Bytes}, 0x0a ∉ text → ∀ c ∈ text, (c != 0x0a) = true := fun hnl c hc =>
    bne_iff_ne.2 (ne_of_mem_of_not_mem hc hnl)
  have hanswer := readBoundedLine_answer limit r
  generalize readBoundedLine limit r = answer at hanswer ⊢
  obtain ⟨e | line, r'⟩ := answer
  · rcases hanswer with ⟨rfl, text, rest, hahead, hnl, hlong⟩ | ⟨rfl, -, -, hnl, hshort⟩
    · have htext : r.ahead.takeWhile (· != 0x0a) = text ++ rest.takeWhile (· != 0x0a) := by
        rw [hahead, List.takeWhile_append_of_pos (hplain hnl)]
      have hlimit : limit < (r.ahead.takeWhile (· != 0x0a)).length := by
        rw [htext, List.length_append]
        omega
      simp [lineOf, hlimit, Except.map]
    · have htext : r.ahead.takeWhile (· != 0x0a) = r.ahead := List.takeWhile_eq_self_iff.2 (hplain hnl)
      simp [lineOf, htext, Int.not_lt.2 hshort, hnl, Except.map]
  · obtain ⟨-, text, hahead, hnl, hlen, rfl⟩ := hanswer
    have htext : r.ahead.takeWhile (· != 0x0a) = text := by
      rw [hahead]
      exact takeWhile_append_stop (hplain hnl) (by simp)
    have hline : lineOf limit r.ahead r.ending = .ok (trimCR text, r'.ahead) := by
      simp only [lineOf, htext, if_neg (Int.not_lt.2 hlen)]
      simp [hahead]
    rw [hline]
    exact ⟨rfl, fun _ _ h => (Prod.mk.inj (Except.ok.inj h)).2⟩

/-! ## Data -/

theorem readSteps_of_le {fuel left : Nat} (hfuel : left ≤ fuel) (out : Bytes) {r : Reader} {data rest : Bytes}
    (hahead : r.ahead = data ++ rest) (hdata : data.length = left) :
    ∃ r', readSteps fuel left out r = (.ok (out ++ data), r') ∧ r'.ahead = rest ∧ r'.ending = r.ending := by
  induction fuel generalizing left out r data with
  | zero =>
    obtain rfl : data = [] := List.length_eq_zero_iff.1 (by omega)
    exact ⟨r, by simp [readSteps], hahead, rfl⟩
  | succ fuel ih =>
    rw [readSteps]
    split
    · obtain rfl : data = [] := List.length_eq_zero_iff.1 (by omega)
      exact ⟨r, by simp, hahead, rfl⟩
    · rename_i hleft
      have hstep : 0 < min left icapChunkReadStep := by
        have : 0 < icapChunkReadStep := by decide
        omega
      generalize hk : min left icapChunkReadStep = k at hstep ⊢
      have hkl : k ≤ left := by omega
      obtain ⟨r₁, hread, hrest, hend⟩ := Reader.readFull_of_le k r []
        (show r.ahead = data.take k ++ (data.drop k ++ rest) by rw [hahead, ← List.append_assoc, List.take_append_drop])
        (by simp; omega)
      obtain ⟨r₂, hsteps, hrest₂, hend₂⟩ := ih (show left - k ≤ fuel by omega) (out ++ data.take k) hrest (by simp; omega)
      refine ⟨r₂, ?_, hrest₂, hend₂.trans hend⟩
      rw [hread]
      simpa using hsteps

theorem readSteps_ok {fuel left : Nat} (hfuel : left ≤ fuel) {out out' : Bytes} {r r' : Reader}
    (h : readSteps fuel left out r = (.ok out', r')) :
    ∃ data, r.ahead = data ++ r'.ahead ∧ data.length = left ∧ out' = out ++ data ∧ r'.ending = r.ending := by
  by_cases hle : left ≤ r.ahead.length
  · obtain ⟨r₁, hread, hrest, hend⟩ := readSteps_of_le hfuel out
      (show r.ahead = r.ahead.take left ++ r.ahead.drop left by simp) (by simpa using hle)
    rw [h] at hread
    simp only [Prod.mk.injEq, Except.ok.injEq] at hread
    obtain ⟨rfl, rfl⟩ := hread
    exact ⟨r.ahead.take left, by rw [hrest, List.take_append_drop], by simpa using hle, rfl, hend⟩
  · exfalso
    induction fuel generalizing left out r with
    | zero => omega
    | succ fuel ih =>
      rw [readSteps, if_neg (by omega)] at h
      generalize hk : min left icapChunkReadStep = k at h
      by_cases hlt : r.ahead.length < k
      · obtain ⟨e, r₁, hread⟩ := Reader.readFull_of_lt k r [] hlt
        simp [hread] at h
      · obtain ⟨r₁, hread, hrest, -⟩ := Reader.readFull_of_le k r []
          (show r.ahead = r.ahead.take k ++ r.ahead.drop k by simp) (by simp; omega)
        rw [hread] at h
        have hpos : 0 < icapChunkReadStep := by decide
        exact ih (show left - k ≤ fuel by omega) h (by rw [hrest, List.length_drop]; omega)

end MS.Icap
