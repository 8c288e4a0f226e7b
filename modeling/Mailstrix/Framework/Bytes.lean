import Mathlib

/-!
# Texts as bytes

What a text built by concatenation can be read back as:

* `append_sep_inj`, `append_sep_inj_last`: on both sides of a separator, if the parts before it are free
  of it, or those behind it;
* `takeWhile_append_stop`, `dropWhile_append_stop`: a span, before a byte that is not of its kind;
* `numeral_inj`: a number from its numeral;
* `frames_inj`: a list of texts from its framing, each text behind its length in eight bytes.
-/

namespace Framework

variable {α : Type} {s : α} {a b y : List α} {p : α → Bool} {c : UInt8} {n m : Nat}

abbrev Bytes := List UInt8

instance : LawfulBEq Bytes := inferInstance

/-! ## Separators -/

theorem append_sep_inj {x : List α} (ha : s ∉ a) (hb : s ∉ b) (h : a ++ s :: x = b ++ s :: y) : a = b ∧ x = y := by
  induction a generalizing b with
  | nil =>
    cases b with
    | nil => exact ⟨rfl, by simpa using h⟩
    | cons c b => exact absurd (by simpa using Or.inl (List.cons.inj h).1) hb
  | cons c a ih =>
    cases b with
    | nil => exact absurd (by simpa using Or.inl (List.cons.inj h).1.symm) ha
    | cons d b =>
      simp only [List.cons_append, List.cons.injEq, List.mem_cons, not_or] at h ha hb
      obtain ⟨rfl, rfl⟩ := ih ha.2 hb.2 h.2
      exact ⟨by rw [h.1], rfl⟩

theorem append_sep_inj_last {x : List α} (hx : s ∉ x) (hy : s ∉ y) (h : a ++ s :: x = b ++ s :: y) : a = b ∧ x = y := by
  have hrev := congrArg List.reverse h
  simp only [List.reverse_append, List.reverse_cons, List.append_assoc, List.singleton_append] at hrev
  obtain ⟨h₁, h₂⟩ := append_sep_inj (by simpa using hx) (by simpa using hy) hrev
  exact ⟨List.reverse_inj.1 h₂, List.reverse_inj.1 h₁⟩

/-- The same with nothing behind one of the parts. -/
theorem ne_append_sep (ha : s ∉ a) : a ≠ b ++ s :: y := by
  rintro rfl
  simp at ha

/-! ## Spans -/

theorem takeWhile_append_stop (ha : ∀ c ∈ a, p c) (hb : ∀ c ∈ b.head?, p c = false) : (a ++ b).takeWhile p = a := by
  rw [List.takeWhile_append_of_pos ha]
  cases b with
  | nil => simp
  | cons c b => simp [hb c rfl]

theorem dropWhile_append_stop (ha : ∀ c ∈ a, p c) (hb : ∀ c ∈ b.head?, p c = false) : (a ++ b).dropWhile p = b := by
  rw [List.dropWhile_append_of_pos ha]
  cases b with
  | nil => rfl
  | cons c b => simp [hb c rfl]

/-- The head of what `dropWhile` leaves. -/
theorem head_dropWhile (l : List α) : ∀ c ∈ (l.dropWhile p).head?, p c = false := by
  intro c hc
  have := List.head?_dropWhile_not p l
  rw [Option.mem_def] at hc
  rwa [hc] at this

/-- A text without the bytes `c` at its end. -/
def trimRight (c : UInt8) (text : Bytes) : Bytes := (text.reverse.dropWhile (· == c)).reverse

theorem trimRight_split (c : UInt8) (text : Bytes) : ∃ n, text = trimRight c text ++ List.replicate n c := by
  refine ⟨(text.reverse.takeWhile (· == c)).length, ?_⟩
  have hall : text.reverse.takeWhile (· == c) = List.replicate (text.reverse.takeWhile (· == c)).length c := by
    refine List.eq_replicate_iff.2 ⟨rfl, ?_⟩
    intro d hd
    simpa using List.all_eq_true.1 List.all_takeWhile d hd
  have := congrArg List.reverse (@List.takeWhile_append_dropWhile _ (· == c) text.reverse)
  rw [List.reverse_append, hall, List.reverse_replicate, List.reverse_reverse] at this
  exact this.symm

theorem trimRight_append {d : UInt8} (hd : d ≠ c) (a b : Bytes) :
    trimRight c (a ++ d :: b) = a ++ d :: trimRight c b := by
  have hstop : (b.reverse ++ (d :: a.reverse)).dropWhile (· == c) = b.reverse.dropWhile (· == c) ++ d :: a.reverse := by
    rw [List.dropWhile_append]
    split
    · rename_i hnil
      simp [List.isEmpty_iff.1 hnil, hd]
    · rfl
  simp only [trimRight, List.reverse_append, List.reverse_cons, List.append_assoc, List.singleton_append, hstop]
  simp

theorem trimRight_of_notMem {text : Bytes} (h : c ∉ text) : trimRight c text = text := by
  obtain ⟨n, hn⟩ := trimRight_split c text
  cases n with
  | zero => simpa using hn.symm
  | succ n =>
    rw [hn] at h
    simp [List.replicate_succ] at h

/-! ## Numerals -/

/-- The character of a digit in a base up to sixteen. -/
def digit (d : Nat) : UInt8 := if d < 10 then UInt8.ofNat (48 + d) else UInt8.ofNat (87 + d)

/-- The numeral of `n`: its digits, most significant first, and one digit for zero. -/
def numeral (base n : Nat) : Bytes :=
  if n = 0 then [48] else ((Nat.digits base n).map digit).reverse

theorem digit_inj {a b : Nat} (ha : a < 16) (hb : b < 16) (h : digit a = digit b) : a = b := by
  have hall : ∀ a < 16, ∀ b < 16, digit a = digit b → a = b := by decide
  exact hall a ha b hb h

theorem digit_ne {d : Nat} (h : d < 16) : 45 < digit d ∧ digit d ≠ 58 := by
  have hall : ∀ d < 16, 45 < digit d ∧ digit d ≠ 58 := by decide
  exact hall d h

theorem map_digit_inj {a b : List Nat} (ha : ∀ d ∈ a, d < 16) (hb : ∀ d ∈ b, d < 16)
    (h : a.map digit = b.map digit) : a = b := by
  induction a generalizing b with
  | nil => simpa using h.symm
  | cons d a ih =>
    cases b with
    | nil => simp at h
    | cons e b =>
      simp only [List.map_cons, List.cons.injEq, List.forall_mem_cons] at h ha hb
      rw [digit_inj ha.1 hb.1 h.1, ih ha.2 hb.2 h.2]

theorem numeral_ne_nil (base n : Nat) : numeral base n ≠ [] := by
  unfold numeral
  split
  · exact List.cons_ne_nil _ _
  · simpa [Nat.digits_ne_nil_iff_ne_zero] using ‹n ≠ 0›

section Numeral

variable {base : Nat} (h₁ : 1 < base) (h₂ : base ≤ 16)
include h₁ h₂

/-- No character of a numeral is a minus sign, a colon or anything below a minus sign. -/
theorem numeral_chars (h : c ∈ numeral base n) : 45 < c ∧ c ≠ 58 := by
  unfold numeral at h
  split at h
  · simp only [List.mem_singleton] at h
    subst h
    decide
  · obtain ⟨d, hd, rfl⟩ := List.mem_map.mp (List.mem_reverse.mp h)
    exact digit_ne (lt_of_lt_of_le (Nat.digits_lt_base h₁ hd) h₂)

theorem numeral_inj (h : numeral base m = numeral base n) : m = n := by
  have hlt : ∀ k, ∀ d ∈ Nat.digits base k, d < 16 := fun k d hd =>
    lt_of_lt_of_le (Nat.digits_lt_base h₁ hd) h₂
  -- only zero has a numeral that begins with the digit zero
  have hzero : ∀ k, k ≠ 0 → ((Nat.digits base k).map digit).reverse ≠ [48] := by
    intro k hk h48
    have hmap : (Nat.digits base k).map digit = [0].map digit := by
      rw [← List.reverse_reverse ((Nat.digits base k).map digit), h48]
      rfl
    have hd := map_digit_inj (hlt k) (by simp) hmap
    have hk0 := Nat.ofDigits_digits base k
    rw [hd] at hk0
    exact hk (by simpa using hk0.symm)
  unfold numeral at h
  split at h <;> split at h
  · omega
  · exact absurd h.symm (hzero _ ‹_›)
  · exact absurd h (hzero _ ‹_›)
  · exact Nat.digits_inj_iff.mp (map_digit_inj (hlt m) (hlt n) (List.reverse_inj.mp h))

end Numeral

/-! ## Fixed-width numbers and framed texts -/

/-- The lowest `w` bytes of `n`, most significant first. -/
def bigEndian : Nat → Nat → Bytes
  | 0, _ => []
  | w + 1, n => UInt8.ofNat (n / 256 ^ w) :: bigEndian w n

@[simp] theorem length_bigEndian (w n : Nat) : (bigEndian w n).length = w := by
  induction w with
  | zero => rfl
  | succ w ih => simp [bigEndian, ih]

/-- The bytes of a number determine what is left of it modulo the width. -/
theorem mod_of_bigEndian {w : Nat} (h : bigEndian w m = bigEndian w n) : m % 256 ^ w = n % 256 ^ w := by
  induction w with
  | zero => simp [Nat.mod_one]
  | succ w ih =>
    simp only [bigEndian, List.cons.injEq] at h
    have hhead : m / 256 ^ w % 256 = n / 256 ^ w % 256 := by
      simpa using congrArg UInt8.toNat h.1
    rw [Nat.mod_pow_succ, Nat.mod_pow_succ, ih h.2, hhead]

theorem bigEndian_inj {w : Nat} (hm : m < 256 ^ w) (hn : n < 256 ^ w) (h : bigEndian w m = bigEndian w n) : m = n := by
  have hmod := mod_of_bigEndian h
  rwa [Nat.mod_eq_of_lt hm, Nat.mod_eq_of_lt hn] at hmod

/-- A text behind its length. -/
def frame (b : Bytes) : Bytes := bigEndian 8 b.length ++ b

/-- A list of texts behind its length, each framed. -/
def frames (bs : List Bytes) : Bytes := bigEndian 8 bs.length ++ bs.flatMap frame

/-- A framed text is read back whatever follows it. -/
theorem frame_append_inj {a b x y : Bytes} (ha : a.length < 256 ^ 8) (hb : b.length < 256 ^ 8)
    (h : frame a ++ x = frame b ++ y) : a = b ∧ x = y := by
  simp only [frame, List.append_assoc] at h
  obtain ⟨hlen, hrest⟩ := List.append_inj h (by simp)
  exact List.append_inj hrest (bigEndian_inj ha hb hlen)

theorem flatMap_frame_inj {as bs : List Bytes} (ha : ∀ a ∈ as, a.length < 256 ^ 8)
    (hb : ∀ b ∈ bs, b.length < 256 ^ 8) (hlen : as.length = bs.length)
    (h : as.flatMap frame = bs.flatMap frame) : as = bs := by
  induction as generalizing bs with
  | nil => exact (List.length_eq_zero_iff.mp hlen.symm).symm
  | cons a as ih =>
    cases bs with
    | nil => simp at hlen
    | cons b bs =>
      simp only [List.flatMap_cons, List.forall_mem_cons, List.length_cons, Nat.add_right_cancel_iff] at h ha hb hlen
      obtain ⟨rfl, hrest⟩ := frame_append_inj ha.1 hb.1 h
      rw [ih ha.2 hb.2 hlen hrest]

theorem frames_inj {as bs : List Bytes} (ha : ∀ a ∈ as, a.length < 256 ^ 8)
    (hb : ∀ b ∈ bs, b.length < 256 ^ 8) (hla : as.length < 256 ^ 8) (hlb : bs.length < 256 ^ 8)
    (h : frames as = frames bs) : as = bs := by
  obtain ⟨hlen, hrest⟩ := List.append_inj h (by simp)
  exact flatMap_frame_inj ha hb (bigEndian_inj hla hlb hlen) hrest

end Framework
