import Mailstrix.Framework.Bytes

/-!
# Runes

Texts as sequences of code points, here called runes.  Decoding never fails: a byte that begins no well-formed sequence is
read as the replacement character, alone.  What was written is read back (`runes_encodeRunes`), and an ASCII character is
read as itself wherever it stands (`runes_append_ascii`).
-/

namespace Framework

variable {a b c : UInt8} {rs : List Nat} {r : Nat}

def runeError : Nat := 0xfffd

def continuation (b : UInt8) : Bool := 0x80 ≤ b && b ≤ 0xbf

/-- The second byte that a three-byte sequence beginning with `a` allows: no overlong form, no surrogate. -/
def second3 (a b : UInt8) : Bool :=
  if a == 0xe0 then 0xa0 ≤ b && b ≤ 0xbf
  else if a == 0xed then 0x80 ≤ b && b ≤ 0x9f
  else 0xe1 ≤ a && a ≤ 0xef && continuation b

/-- The second byte that a four-byte sequence beginning with `a` allows. -/
def second4 (a b : UInt8) : Bool :=
  if a == 0xf0 then 0x90 ≤ b && b ≤ 0xbf
  else if a == 0xf4 then 0x80 ≤ b && b ≤ 0x8f
  else 0xf1 ≤ a && a ≤ 0xf3 && continuation b

def runes : Bytes → List Nat
  | [] => []
  | a :: t =>
    if a < 0x80 then a.toNat :: runes t else
    match t with
    | [] => [runeError]
    | b :: t₁ =>
      if 0xc2 ≤ a && a ≤ 0xdf && continuation b then
        ((a.toNat - 0xc0) * 64 + (b.toNat - 0x80)) :: runes t₁ else
      match t₁ with
      | [] => runeError :: runes [b]
      | c :: t₂ =>
        if second3 a b && continuation c then
          ((a.toNat - 0xe0) * 4096 + (b.toNat - 0x80) * 64 + (c.toNat - 0x80)) :: runes t₂ else
        match t₂ with
        | [] => runeError :: runes [b, c]
        | d :: t₃ =>
          if second4 a b && continuation c && continuation d then
            ((a.toNat - 0xf0) * 262144 + (b.toNat - 0x80) * 4096 + (c.toNat - 0x80) * 64 + (d.toNat - 0x80))
              :: runes t₃
          else runeError :: runes (b :: c :: d :: t₃)

theorem runes_cons_ascii (h : a < 0x80) (t : Bytes) : runes (a :: t) = a.toNat :: runes t := by
  rw [runes.eq_def]
  simp only [h, if_true]

theorem runes_ascii {text : Bytes} (h : ∀ c ∈ text, c < 0x80) : runes text = text.map UInt8.toNat := by
  induction text with
  | nil => rfl
  | cons c text ih =>
    rw [runes_cons_ascii (h c List.mem_cons_self), ih fun d hd => h d (List.mem_cons_of_mem _ hd), List.map_cons]

def encodeRune (r : Nat) : Bytes :=
  if r < 0x80 then [UInt8.ofNat r]
  else if r < 0x800 then [UInt8.ofNat (0xc0 + r / 64), UInt8.ofNat (0x80 + r % 64)]
  else if 0xd800 ≤ r ∧ r < 0xe000 ∨ 0x10ffff < r then [0xef, 0xbf, 0xbd]
  else if r < 0x10000 then
    [UInt8.ofNat (0xe0 + r / 4096), UInt8.ofNat (0x80 + r / 64 % 64), UInt8.ofNat (0x80 + r % 64)]
  else
    [UInt8.ofNat (0xf0 + r / 262144), UInt8.ofNat (0x80 + r / 4096 % 64), UInt8.ofNat (0x80 + r / 64 % 64),
      UInt8.ofNat (0x80 + r % 64)]

def encodeRunes (rs : List Nat) : Bytes := rs.flatMap encodeRune

theorem length_le_encodeRunes (rs : List Nat) : rs.length ≤ (encodeRunes rs).length := by
  induction rs with
  | nil => simp
  | cons r rs ih =>
    have hr : 1 ≤ (encodeRune r).length := by
      unfold encodeRune
      split_ifs <;> simp
    simp only [encodeRunes, List.flatMap_cons, List.length_append, List.length_cons] at ih ⊢
    omega

theorem encodeRunes_eq_nil : encodeRunes rs = [] ↔ rs = [] := by
  have hlen := length_le_encodeRunes rs
  constructor
  · intro h
    rw [h] at hlen
    simpa using hlen
  · rintro rfl
    rfl

theorem toNat_ofNat_lt {n : Nat} (h : n < 256) : (UInt8.ofNat n).toNat = n := UInt8.toNat_ofNat_of_lt' h

/-- An ASCII character is written as its byte, every other one with bytes that are no ASCII character. -/
theorem mem_encodeRune (h : b ∈ encodeRune r) : b.toNat = r ∨ 0x80 ≤ b.toNat := by
  unfold encodeRune at h
  split_ifs at h <;> simp only [List.mem_cons, List.not_mem_nil, or_false] at h
  · rw [h, toNat_ofNat_lt (by omega)]
    exact .inl rfl
  all_goals right
  · rcases h with rfl | rfl <;> rw [toNat_ofNat_lt (by omega)] <;> omega
  · rcases h with rfl | rfl | rfl <;> decide
  · rcases h with rfl | rfl | rfl <;> rw [toNat_ofNat_lt (by omega)] <;> omega
  · rcases h with rfl | rfl | rfl | rfl <;> rw [toNat_ofNat_lt (by omega)] <;> omega

/-- Only the rune zero is written with a zero byte. -/
theorem zero_notMem_encodeRune (h : 0 < r) : (0 : UInt8) ∉ encodeRune r := by
  intro hmem
  rcases mem_encodeRune hmem with h' | h'
  · exact absurd h' (by simpa using h.ne)
  · exact absurd h' (by decide)

theorem zero_notMem_encodeRunes (h : ∀ r ∈ rs, 0 < r) : (0 : UInt8) ∉ encodeRunes rs := by
  simp only [encodeRunes, List.mem_flatMap, not_exists, not_and]
  exact fun r hr => zero_notMem_encodeRune (h r hr)

/-! ## Reading what was written -/

theorem runes_cons₂ (ha : 0xc2 ≤ a.toNat ∧ a.toNat ≤ 0xdf) (hb : 0x80 ≤ b.toNat ∧ b.toNat ≤ 0xbf) (t : Bytes) :
    runes (a :: b :: t) = ((a.toNat - 0xc0) * 64 + (b.toNat - 0x80)) :: runes t := by
  rw [runes.eq_def]
  simp only [UInt8.lt_iff_toNat_lt, UInt8.le_iff_toNat_le, continuation, UInt8.reduceToNat]
  rw [if_neg (by omega), if_pos (by simp; omega)]

theorem runes_cons₃ (ha : 0xe0 ≤ a.toNat ∧ a.toNat ≤ 0xef) (hb : second3 a b) (hc : 0x80 ≤ c.toNat ∧ c.toNat ≤ 0xbf)
    (t : Bytes) :
    runes (a :: b :: c :: t) =
      ((a.toNat - 0xe0) * 4096 + (b.toNat - 0x80) * 64 + (c.toNat - 0x80)) :: runes t := by
  rw [runes.eq_def]
  simp only [UInt8.lt_iff_toNat_lt, UInt8.le_iff_toNat_le, continuation, UInt8.reduceToNat, hb]
  rw [if_neg (by omega), if_neg (by simp; omega), if_pos (by simp; omega)]

theorem runes_cons₄ {d : UInt8} (ha : 0xf0 ≤ a.toNat ∧ a.toNat ≤ 0xf4) (hb : second4 a b)
    (hc : 0x80 ≤ c.toNat ∧ c.toNat ≤ 0xbf) (hd : 0x80 ≤ d.toNat ∧ d.toNat ≤ 0xbf) (t : Bytes) :
    runes (a :: b :: c :: d :: t) =
      ((a.toNat - 0xf0) * 262144 + (b.toNat - 0x80) * 4096 + (c.toNat - 0x80) * 64 + (d.toNat - 0x80)) :: runes t := by
  have h3 : second3 a b = false := by
    simp only [second3, beq_iff_eq, UInt8.le_iff_toNat_le, ← UInt8.toNat_inj, UInt8.reduceToNat]
    rw [if_neg (by omega), if_neg (by omega)]
    simp
    omega
  rw [runes.eq_def]
  simp only [UInt8.lt_iff_toNat_lt, UInt8.le_iff_toNat_le, continuation, UInt8.reduceToNat, hb, h3]
  rw [if_neg (by omega), if_neg (by simp; omega), if_neg (by simp), if_pos (by simp; omega)]

/-- What is written is read back. -/
theorem runes_encodeRune (h : r.isValidChar) (t : Bytes) : runes (encodeRune r ++ t) = r :: runes t := by
  unfold encodeRune
  unfold Nat.isValidChar at h
  split_ifs with h₁ h₂ h₃ h₄
  · rw [List.singleton_append, runes_cons_ascii (by simp [UInt8.lt_iff_toNat_lt]; omega), toNat_ofNat_lt (by omega)]
  · simp only [List.cons_append, List.nil_append]
    rw [runes_cons₂ (by rw [toNat_ofNat_lt] <;> omega) (by rw [toNat_ofNat_lt] <;> omega)]
    rw [toNat_ofNat_lt (by omega), toNat_ofNat_lt (by omega)]
    exact congrArg (· :: runes t) (by omega)
  · omega
  · simp only [List.cons_append, List.nil_append]
    rw [runes_cons₃ (by rw [toNat_ofNat_lt] <;> omega) ?_ (by rw [toNat_ofNat_lt] <;> omega)]
    · rw [toNat_ofNat_lt (by omega), toNat_ofNat_lt (by omega), toNat_ofNat_lt (by omega)]
      exact congrArg (· :: runes t) (by omega)
    · simp only [second3, continuation, beq_iff_eq, UInt8.le_iff_toNat_le, ← UInt8.toNat_inj, UInt8.reduceToNat,
        toNat_ofNat_lt (show 0xe0 + r / 4096 < 256 by omega), toNat_ofNat_lt (show 0x80 + r / 64 % 64 < 256 by omega)]
      split_ifs <;> simp <;> omega
  · simp only [List.cons_append, List.nil_append]
    rw [runes_cons₄ (by rw [toNat_ofNat_lt] <;> omega) ?_ (by rw [toNat_ofNat_lt] <;> omega)
      (by rw [toNat_ofNat_lt] <;> omega)]
    · rw [toNat_ofNat_lt (by omega), toNat_ofNat_lt (by omega), toNat_ofNat_lt (by omega), toNat_ofNat_lt (by omega)]
      exact congrArg (· :: runes t) (by omega)
    · simp only [second4, continuation, beq_iff_eq, UInt8.le_iff_toNat_le, ← UInt8.toNat_inj, UInt8.reduceToNat,
        toNat_ofNat_lt (show 0xf0 + r / 262144 < 256 by omega), toNat_ofNat_lt (show 0x80 + r / 4096 % 64 < 256 by omega)]
      split_ifs <;> simp <;> omega

theorem runes_encodeRunes (h : ∀ r ∈ rs, r.isValidChar) (t : Bytes) : runes (encodeRunes rs ++ t) = rs ++ runes t := by
  induction rs with
  | nil => rfl
  | cons r rs ih =>
    simp only [List.forall_mem_cons] at h
    simp only [encodeRunes, List.flatMap_cons, List.append_assoc] at ih ⊢
    rw [runes_encodeRune h.1, ih h.2, List.cons_append]

theorem continuation_ascii (h : c < 0x80) : continuation c = false := by
  simp only [continuation, UInt8.lt_iff_toNat_lt, UInt8.le_iff_toNat_le, UInt8.reduceToNat] at h ⊢
  simp
  omega

theorem second3_ascii (a : UInt8) (h : c < 0x80) : second3 a c = false := by
  simp only [second3, continuation_ascii h, UInt8.lt_iff_toNat_lt, UInt8.le_iff_toNat_le, UInt8.reduceToNat] at h ⊢
  split_ifs <;> simp <;> omega

theorem second4_ascii (a : UInt8) (h : c < 0x80) : second4 a c = false := by
  simp only [second4, continuation_ascii h, UInt8.lt_iff_toNat_lt, UInt8.le_iff_toNat_le, UInt8.reduceToNat] at h ⊢
  split_ifs <;> simp <;> omega

/-- A byte that begins no sequence. -/
theorem runes_cons_error (ha : ¬ a < 0x80) {x : Bytes}
    (h₂ : ∀ b y, x = b :: y → ¬ (0xc2 ≤ a && a ≤ 0xdf && continuation b) = true)
    (h₃ : ∀ b c y, x = b :: c :: y → ¬ (second3 a b && continuation c) = true)
    (h₄ : ∀ b c d y, x = b :: c :: d :: y → ¬ (second4 a b && continuation c && continuation d) = true) :
    runes (a :: x) = runeError :: runes x := by
  rw [runes.eq_def]
  simp only [ha, if_false]
  match x with
  | [] => rfl
  | [b] => simp only [if_neg (h₂ b [] rfl)]
  | [b, c] => simp only [if_neg (h₂ b [c] rfl), if_neg (h₃ b c [] rfl)]
  | b :: c :: d :: y => simp only [if_neg (h₂ b _ rfl), if_neg (h₃ b c _ rfl), if_neg (h₄ b c d y rfl)]

/-- An ASCII character begins anew, whatever stands before it. -/
theorem runes_append_ascii (h : c < 0x80) (x t : Bytes) : runes (x ++ c :: t) = runes x ++ c.toNat :: runes t := by
  have hc := continuation_ascii h
  have h3 := fun a => second3_ascii a h
  have h4 := fun a => second4_ascii a h
  fun_induction runes x with
  | case1 => exact runes_cons_ascii h t
  | case2 a x ha ih => rw [List.cons_append, runes_cons_ascii ha, ih, List.cons_append]
  | case3 a ha =>
    rw [List.singleton_append, runes_cons_error ha, runes_cons_ascii h]
    · rfl
    all_goals grind
  | case4 a ha b x hb ih =>
    simp only [List.cons_append, ← ih]
    rw [runes.eq_def]
    simp only [ha, hb, if_true, if_false]
  | case5 a ha b hb ih =>
    rw [List.cons_append, runes_cons_error ha, ih, List.cons_append]
    all_goals grind
  | case6 a ha b hb d x hd ih =>
    simp only [List.cons_append, ← ih]
    rw [runes.eq_def]
    simp only [ha, hb, hd, if_true, if_false, Bool.false_eq_true]
  | case7 a ha b hb d hd ih =>
    rw [List.cons_append, runes_cons_error ha, ih, List.cons_append]
    all_goals grind
  | case8 a ha b hb d hd e x he ih =>
    simp only [List.cons_append, ← ih]
    rw [runes.eq_def]
    simp only [ha, hb, hd, he, if_true, if_false, Bool.false_eq_true]
  | case9 a ha b hb d hd e x he ih =>
    rw [List.cons_append, runes_cons_error ha, ih, List.cons_append]
    all_goals grind

end Framework
