import Mailstrix.Framework.Bytes

/-!
# Ascii85

The standard encoding, a group of four bytes as five digits of the base 85 or as `z` if it is zero, and a decoder with a
bounded destination: it decodes whole groups while four bytes of its space are left.

* `decodeFrom_filter`: blanks between the digits do not matter;
* `decodeFrom_encode`: of an encoded text as many groups are decoded as there is space for.
-/

namespace Framework.Ascii85

variable {d n v nb : Nat} {src : Bytes}

/-! ## Words -/

def word (a b c d : UInt8) : Nat := ((a.toNat * 256 + b.toNat) * 256 + c.toNat) * 256 + d.toNat

def bytes (v : Nat) : Bytes := [UInt8.ofNat (v / 2 ^ 24), UInt8.ofNat (v / 2 ^ 16), UInt8.ofNat (v / 2 ^ 8), UInt8.ofNat v]

def digit (d : Nat) : UInt8 := UInt8.ofNat (0x21 + d)

/-- The five digits of a word, the most significant one first. -/
def digits (v : Nat) : Bytes :=
  [digit (v / 85 ^ 4), digit (v / 85 ^ 3 % 85), digit (v / 85 ^ 2 % 85), digit (v / 85 % 85), digit (v % 85)]

/-- A last group of fewer bytes has one digit more than it has bytes, and no shortcut. -/
def encode : Bytes → Bytes
  | a :: b :: c :: d :: rest => (if word a b c d = 0 then [0x7a] else digits (word a b c d)) ++ encode rest
  | [a, b, c] => (digits (word a b c 0)).take 4
  | [a, b] => (digits (word a b 0 0)).take 3
  | [a] => (digits (word a 0 0 0)).take 2
  | [] => []

theorem toNat_digit (hd : d < 85) : (digit d).toNat = 0x21 + d := by
  rw [digit, UInt8.toNat_ofNat']
  omega

theorem digit_range (hd : d < 85) : 0x21 ≤ digit d ∧ digit d ≤ 0x75 := by
  simp only [UInt8.le_iff_toNat_le, toNat_digit hd, UInt8.reduceToNat]
  omega

theorem word_lt (a b c d : UInt8) : word a b c d < 2 ^ 32 := by
  have := a.toNat_lt
  have := b.toNat_lt
  have := c.toNat_lt
  have := d.toNat_lt
  unfold word
  omega

theorem byte_eq {a : UInt8} (h : n % 256 = a.toNat) : UInt8.ofNat n = a := by
  apply UInt8.toNat_inj.1
  rw [UInt8.toNat_ofNat']
  exact h

/-- The bytes that are there of a group are read back if the word is off by less than what is missing. -/
theorem bytes_word (a b c d : UInt8) {e : Nat} (hv : v = word a b c d + e) :
    (e = 0 → bytes v = [a, b, c, d]) ∧ (d.toNat + e < 2 ^ 8 → (bytes v).take 3 = [a, b, c]) ∧
      (c.toNat * 256 + d.toNat + e < 2 ^ 16 → (bytes v).take 2 = [a, b]) ∧
      ((b.toNat * 256 + c.toNat) * 256 + d.toNat + e < 2 ^ 24 → (bytes v).take 1 = [a]) := by
  have ha := a.toNat_lt
  have hb := b.toNat_lt
  have hc := c.toNat_lt
  have hd := d.toNat_lt
  unfold word at hv
  refine ⟨fun he => ?_, fun he => ?_, fun he => ?_, fun he => ?_⟩
  · simp only [bytes, List.cons.injEq, and_true]
    exact ⟨byte_eq (by omega), byte_eq (by omega), byte_eq (by omega), byte_eq (by omega)⟩
  · simp only [bytes, List.take_succ_cons, List.take_zero, List.cons.injEq, and_true]
    exact ⟨byte_eq (by omega), byte_eq (by omega), byte_eq (by omega)⟩
  · simp only [bytes, List.take_succ_cons, List.take_zero, List.cons.injEq, and_true]
    exact ⟨byte_eq (by omega), byte_eq (by omega)⟩
  · simp only [bytes, List.take_succ_cons, List.take_zero, List.cons.injEq, and_true]
    exact byte_eq (by omega)

/-! ## Decoding -/

/-- A short group is filled up with the largest digit. -/
def pad : Nat → Nat → Nat
  | 0, v => v
  | n + 1, v => pad n ((v * 85 + 84) % 2 ^ 32)

/-- What is written at the end, with `nb` digits of a group read; a single one is an error. -/
def flush (v nb : Nat) (out : Bytes) : Option Bytes :=
  if nb = 0 then some out else if nb = 1 then none else some (out ++ (bytes (pad (5 - nb) v)).take (nb - 1))

/-- Whether the byte is passed over. -/
def blank (c : UInt8) : Bool := c ≤ 0x20

/-- The decoder, behind `nb` digits of a group, which are the number `v`; nothing is returned for a byte that is no digit. -/
def decodeFrom (space : Nat) : Nat → Nat → Bytes → Bytes → Option Bytes
  | v, nb, out, [] => flush v nb out
  | v, nb, out, c :: rest =>
    if space < out.length + 4 then some out
    else if blank c then decodeFrom space v nb out rest
    else if c = 0x7a ∧ nb = 0 then decodeFrom space 0 0 (out ++ bytes 0) rest
    else if 0x21 ≤ c ∧ c ≤ 0x75 then
      let v := (v * 85 + (c.toNat - 0x21)) % 2 ^ 32
      if nb + 1 = 5 then decodeFrom space 0 0 (out ++ bytes v) rest else decodeFrom space v (nb + 1) out rest
    else none

/-- `space` is the length of the destination. -/
def decode (space : Nat) (src : Bytes) : Option Bytes := decodeFrom space 0 0 [] src

theorem decodeFrom_full {space : Nat} {out : Bytes} (h : space < out.length + 4) (hnb : nb = 0) :
    decodeFrom space v nb out src = some out := by
  subst hnb
  cases src with
  | nil => rfl
  | cons c rest => rw [decodeFrom, if_pos h]

/-- Blanks do not matter: within a group there is space, and between groups nothing is lost if there is none. -/
theorem decodeFrom_filter {space : Nat} {out : Bytes} (h : nb = 0 ∨ out.length + 4 ≤ space) (src : Bytes) :
    decodeFrom space v nb out src = decodeFrom space v nb out (src.filter fun c => !blank c) := by
  induction src generalizing v nb out with
  | nil => rfl
  | cons c rest ih =>
    by_cases hspace : space < out.length + 4
    · have hnb : nb = 0 := h.resolve_right (by omega)
      rw [decodeFrom_full hspace hnb, decodeFrom_full hspace hnb]
    · by_cases hc : blank c = true
      · rw [decodeFrom, if_neg hspace, if_pos hc, List.filter_cons_of_neg (by simpa using hc), ih h]
      · rw [List.filter_cons_of_pos (by simpa using hc), decodeFrom, decodeFrom, if_neg hspace, if_neg hspace, if_neg hc,
          if_neg hc]
        dsimp only
        rw [ih (.inl rfl), ih (.inl rfl), ih (.inr (by omega))]

section Digit

variable {space : Nat} {out : Bytes} (hspace : out.length + 4 ≤ space)
include hspace

theorem decodeFrom_digit (hd : d < 85) (hv : v * 85 + d < 2 ^ 32) (rest : Bytes) :
    decodeFrom space v nb out (digit d :: rest) =
      if nb + 1 = 5 then decodeFrom space 0 0 (out ++ bytes (v * 85 + d)) rest
      else decodeFrom space (v * 85 + d) (nb + 1) out rest := by
  have hn := toNat_digit hd
  have hblank : ¬ blank (digit d) = true := by
    simp only [blank, decide_eq_true_eq, UInt8.le_iff_toNat_le, hn, UInt8.reduceToNat]
    omega
  have hz : ¬ (digit d = 0x7a ∧ nb = 0) := by
    rintro ⟨h, -⟩
    have := congrArg UInt8.toNat h
    simp only [hn, UInt8.reduceToNat] at this
    omega
  rw [decodeFrom, if_neg (by omega), if_neg hblank, if_neg hz, if_pos (digit_range hd), hn]
  simp only [show 0x21 + d - 0x21 = d by omega, Nat.mod_eq_of_lt hv]

/-- The first digits of a word are the word without the last ones. -/
theorem decodeFrom_digits (hv : v < 2 ^ 32) (rest : Bytes) :
    decodeFrom space 0 0 out (digits v ++ rest) = decodeFrom space 0 0 (out ++ bytes v) rest ∧
      (∀ n, 2 ≤ n → n < 5 → decodeFrom space 0 0 out ((digits v).take n) = flush (v / 85 ^ (5 - n)) n out) := by
  have h₁ : 0 * 85 + v / 85 ^ 4 = v / 85 ^ 4 := by omega
  have h₂ : v / 85 ^ 4 * 85 + v / 85 ^ 3 % 85 = v / 85 ^ 3 := by omega
  have h₃ : v / 85 ^ 3 * 85 + v / 85 ^ 2 % 85 = v / 85 ^ 2 := by omega
  have h₄ : v / 85 ^ 2 * 85 + v / 85 % 85 = v / 85 := by omega
  have h₅ : v / 85 * 85 + v % 85 = v := by omega
  have hfirst : ∀ rest, decodeFrom space 0 0 out (digit (v / 85 ^ 4) :: digit (v / 85 ^ 3 % 85) :: rest) =
      decodeFrom space (v / 85 ^ 3) 2 out rest := by
    intro rest
    rw [decodeFrom_digit hspace (by omega) (by omega), if_neg (by decide), h₁, decodeFrom_digit hspace (by omega) (by omega),
      if_neg (by decide), h₂]
  have hthird : ∀ rest, decodeFrom space (v / 85 ^ 3) 2 out (digit (v / 85 ^ 2 % 85) :: rest) =
      decodeFrom space (v / 85 ^ 2) 3 out rest := by
    intro rest
    rw [decodeFrom_digit hspace (by omega) (by omega), if_neg (by decide), h₃]
  have hfourth : ∀ rest, decodeFrom space (v / 85 ^ 2) 3 out (digit (v / 85 % 85) :: rest) =
      decodeFrom space (v / 85) 4 out rest := by
    intro rest
    rw [decodeFrom_digit hspace (by omega) (by omega), if_neg (by decide), h₄]
  constructor
  · rw [digits, List.cons_append, List.cons_append, List.cons_append, List.cons_append, List.cons_append, hfirst, hthird,
      hfourth, decodeFrom_digit hspace (by omega) (by omega), if_pos rfl, h₅]
    rfl
  · intro n hn hn'
    obtain rfl | rfl | rfl : n = 2 ∨ n = 3 ∨ n = 4 := by omega
    · rw [show (digits v).take 2 = [digit (v / 85 ^ 4), digit (v / 85 ^ 3 % 85)] from rfl, hfirst]
      rfl
    · rw [show (digits v).take 3 = [digit (v / 85 ^ 4), digit (v / 85 ^ 3 % 85), digit (v / 85 ^ 2 % 85)] from rfl, hfirst,
        hthird]
      rfl
    · rw [show (digits v).take 4 = [digit (v / 85 ^ 4), digit (v / 85 ^ 3 % 85), digit (v / 85 ^ 2 % 85),
        digit (v / 85 % 85)] from rfl, hfirst, hthird, hfourth, decodeFrom, Nat.pow_one]

theorem decodeFrom_zero (rest : Bytes) :
    decodeFrom space 0 0 out (0x7a :: rest) = decodeFrom space 0 0 (out ++ bytes 0) rest := by
  rw [decodeFrom, if_neg (by omega), if_neg (by decide), if_pos ⟨rfl, rfl⟩]

end Digit

theorem pad_eq (h : v * 85 ^ n + (85 ^ n - 1) < 2 ^ 32) : pad n v = v * 85 ^ n + (85 ^ n - 1) := by
  induction n generalizing v with
  | zero => simp [pad]
  | succ n ih =>
    have hpos : 1 ≤ 85 ^ n := Nat.one_le_pow _ _ (by decide)
    have hnext : (v * 85 + 84) * 85 ^ n + (85 ^ n - 1) = v * 85 ^ (n + 1) + (85 ^ (n + 1) - 1) := by
      rw [Nat.add_mul, pow_succ, Nat.mul_assoc, Nat.mul_comm 85 (85 ^ n)]
      omega
    have hle : v * 85 + 84 ≤ (v * 85 + 84) * 85 ^ n := Nat.le_mul_of_pos_right _ hpos
    rw [pad, Nat.mod_eq_of_lt (by omega), ih (by omega), hnext]

/-- A last group of `n - 1` bytes, filled up with zero, of which the word is known up to what is missing. -/
theorem decodeFrom_last {space : Nat} {out : Bytes} (hspace : out.length + 4 ≤ space) {last : Bytes} (h₁ : 2 ≤ n)
    (h₂ : n < 5) (hv : v + 85 ^ (5 - n) ≤ 2 ^ 32) (hlast : ∀ e < 85 ^ (5 - n), (bytes (v + e)).take (n - 1) = last) :
    decodeFrom space 0 0 out ((digits v).take n) = some (out ++ last) := by
  have hpos : 1 ≤ 85 ^ (5 - n) := Nat.one_le_pow _ _ (by decide)
  have hdiv := Nat.div_add_mod v (85 ^ (5 - n))
  have hmod := Nat.mod_lt v (Nat.lt_of_lt_of_le Nat.zero_lt_one hpos)
  rw [(decodeFrom_digits hspace (by omega) []).2 n h₁ h₂, flush, if_neg (by omega), if_neg (by omega)]
  rw [Nat.mul_comm] at hdiv
  rw [pad_eq (by omega), show v / 85 ^ (5 - n) * 85 ^ (5 - n) + (85 ^ (5 - n) - 1) =
    v + (85 ^ (5 - n) - 1 - v % 85 ^ (5 - n)) by omega, hlast _ (by omega)]

/-- As many groups are decoded as there is space for. -/
theorem decodeFrom_encode (space : Nat) (out src : Bytes) :
    decodeFrom space 0 0 out (encode src) = some (out ++ src.take (4 * ((space - out.length) / 4))) := by
  by_cases hfull : space < out.length + 4
  · rw [decodeFrom_full hfull rfl, show (space - out.length) / 4 = 0 by omega]
    simp
  rw [Nat.not_lt] at hfull
  have hfit : ∀ last : Bytes, last.length ≤ 4 → last.take (4 * ((space - out.length) / 4)) = last := by
    intro last hlast
    apply List.take_of_length_le
    omega
  induction src using encode.induct generalizing out with
  | case1 a b c d rest ih =>
    have hgroup : decodeFrom space 0 0 out (encode (a :: b :: c :: d :: rest)) =
        decodeFrom space 0 0 (out ++ [a, b, c, d]) (encode rest) := by
      rw [encode, ← (bytes_word a b c d (Nat.add_zero _).symm).1 rfl]
      split
      · next hzero =>
        rw [hzero]
        exact decodeFrom_zero hfull _
      · exact (decodeFrom_digits hfull (word_lt a b c d) _).1
    have hlen : (out ++ [a, b, c, d]).length = out.length + 4 := by simp
    have hstep : (space - out.length) / 4 = (space - (out.length + 4)) / 4 + 1 := by omega
    rw [hgroup, hstep, Nat.mul_add,
      show out ++ (a :: b :: c :: d :: rest).take (4 * ((space - (out.length + 4)) / 4) + 4 * 1) =
      (out ++ [a, b, c, d]) ++ rest.take (4 * ((space - (out ++ [a, b, c, d]).length) / 4)) by rw [hlen]; simp]
    by_cases hnext : space < (out ++ [a, b, c, d]).length + 4
    · rw [decodeFrom_full hnext rfl, show (space - (out ++ [a, b, c, d]).length) / 4 = 0 by omega]
      simp
    · refine ih _ (by omega) fun last hlast => ?_
      apply List.take_of_length_le
      omega
  | case2 a b c =>
    have ha := a.toNat_lt
    have hb := b.toNat_lt
    have hc := c.toNat_lt
    rw [hfit _ (by simp), encode]
    apply decodeFrom_last hfull (by decide) (by decide)
    · simp only [word, UInt8.toNat_zero]
      omega
    · intro e he
      exact (bytes_word a b c 0 rfl).2.1 (by simp only [UInt8.toNat_zero]; omega)
  | case3 a b =>
    have ha := a.toNat_lt
    have hb := b.toNat_lt
    rw [hfit _ (by simp), encode]
    apply decodeFrom_last hfull (by decide) (by decide)
    · simp only [word, UInt8.toNat_zero]
      omega
    · intro e he
      exact (bytes_word a b 0 0 rfl).2.2.1 (by simp only [UInt8.toNat_zero]; omega)
  | case4 a =>
    have ha := a.toNat_lt
    rw [hfit _ (by simp), encode]
    apply decodeFrom_last hfull (by decide) (by decide)
    · simp only [word, UInt8.toNat_zero]
      omega
    · intro e he
      exact (bytes_word a 0 0 0 rfl).2.2.2 (by simp only [UInt8.toNat_zero]; omega)
  | case5 => simp [encode, decodeFrom, flush]


theorem digits_range (hv : v < 2 ^ 32) : ∀ c ∈ digits v, 0x21 ≤ c ∧ c ≤ 0x75 := by
  intro c hc
  simp only [digits, List.mem_cons, List.not_mem_nil, or_false] at hc
  rcases hc with rfl | rfl | rfl | rfl | rfl
  · exact digit_range (by omega)
  · exact digit_range (by omega)
  · exact digit_range (by omega)
  · exact digit_range (by omega)
  · exact digit_range (by omega)

/-- What the encoding is written with. -/
theorem encode_range (src : Bytes) : ∀ c ∈ encode src, (0x21 ≤ c ∧ c ≤ 0x75) ∨ c = 0x7a := by
  have hlast : ∀ (a b c d : UInt8) (n : Nat), ∀ e ∈ (digits (word a b c d)).take n, (0x21 ≤ e ∧ e ≤ 0x75) ∨ e = 0x7a :=
    fun a b c d n e he => .inl (digits_range (word_lt a b c d) e (List.mem_of_mem_take he))
  fun_induction encode src with
  | case1 a b c d rest ih =>
    intro e he
    rcases List.mem_append.1 he with he | he
    · split at he
      · exact .inr (List.mem_singleton.1 he)
      · exact .inl (digits_range (word_lt a b c d) e he)
    · exact ih e he
  | case2 a b c => exact hlast a b c 0 4
  | case3 a b => exact hlast a b 0 0 3
  | case4 a => exact hlast a 0 0 0 2
  | case5 => exact fun e he => absurd he List.not_mem_nil

/-- One character alone is the shortcut. -/
theorem encode_singleton {c : UInt8} (h : encode src = [c]) : c = 0x7a := by
  fun_cases encode src with
  | case1 a b c' d rest =>
    rw [encode] at h
    split at h
    · exact (List.cons.inj h).1.symm
    · exact absurd (congrArg List.length h) (by simp [digits])
  | case2 a b c' => exact absurd (List.cons.inj h).2 nofun
  | case3 a b => exact absurd (List.cons.inj h).2 nofun
  | case4 a => exact absurd (List.cons.inj h).2 nofun
  | case5 => exact absurd h nofun

theorem encode_ne_nil (h : src ≠ []) : encode src ≠ [] := by
  fun_cases encode src with
  | case1 a b c d rest =>
    intro he
    have hleft := (List.append_eq_nil_iff.1 he).1
    split at hleft
    · exact absurd hleft nofun
    · exact absurd hleft nofun
  | case2 a b c => exact nofun
  | case3 a b => exact nofun
  | case4 a => exact nofun
  | case5 => exact absurd rfl h

end Framework.Ascii85
