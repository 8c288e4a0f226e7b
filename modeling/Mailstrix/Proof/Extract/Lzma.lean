import Mailstrix.Framework.Lz77
import Mailstrix.Impl.Extract.Lzma

/-!
# Bounded dictionaries decode what the declared ones do

The dictionary is bounded by the ceiling only if no more is unpacked than the ceiling, so that a window of that size holds all
that is produced (`Lz77.decode_window`).  `Bounded` is what is required of both formats; `boundedLZMADict_bounded` and
`boundedLZMA2Dict_bounded` show it of each.
-/

namespace MS.Extract

open Framework
open Framework.Lz77 (Token decode produced)

variable (lib : LzmaLibrary)

/-- The dictionary that the properties of an LZMA member ask for. -/
def lzmaDeclared (props : Bytes) : Option Nat := if props.length = 5 then some (uint32 (props.drop 1)) else none

/-- The same for LZMA2. -/
def lzma2Declared : Bytes → Option Nat
  | [p] => (lzma2DictSize p).toOption
  | _ => none

/-- The window of a dictionary: the library has a smallest one. -/
def windowOf (dict : Nat) : Nat := max dict lib.minDictCap

/-- What a bounded window must be, for a declared dictionary and the size of what is unpacked. -/
structure Bounded (ceiling : Nat) (declared : Option Nat) (unpack : Nat) (window : Except LzmaError Nat) : Prop where
  same : ∀ {d w}, declared = some d → window = .ok w → ∀ tokens : List (Token UInt8),
    (produced (decode (windowOf lib d) [] tokens)).length ≤ unpack → decode w [] tokens = decode (windowOf lib d) [] tokens
  le : ∀ {w}, window = .ok w → w ≤ ceiling
  refused : window = .error .dictCap ↔ ∃ d, declared = some d ∧ ceiling < d ∧ ceiling < unpack
  accepted : (∃ w, window = .ok w) ↔ ∃ d, declared = some d ∧ ¬ (ceiling < d ∧ ceiling < unpack)

/-- A member without a declared dictionary is an error of another kind. -/
theorem bounded_none {ceiling unpack : Nat} {e : LzmaError} (he : e ≠ .dictCap) :
    Bounded lib ceiling none unpack (.error e) where
  same h _ := absurd h nofun
  le h := absurd h nofun
  refused := iff_of_false (fun h => he (Except.error.inj h)) fun ⟨_, h, _⟩ => absurd h nofun
  accepted := iff_of_false (fun ⟨_, h⟩ => absurd h nofun) fun ⟨_, h, _⟩ => absurd h nofun

/-- A window is bounded right if it is refused above the ceiling, and otherwise holds what is unpacked or is the declared
one. -/
theorem bounded_some {ceiling declared unpack : Nat} {window : Except LzmaError Nat}
    (hrefused : ceiling < declared ∧ ceiling < unpack → window = .error .dictCap)
    (haccepted : ¬ (ceiling < declared ∧ ceiling < unpack) → ∃ w, window = .ok w ∧ w ≤ ceiling ∧
      (w = windowOf lib declared ∨ unpack ≤ w ∧ unpack ≤ windowOf lib declared)) :
    Bounded lib ceiling (some declared) unpack window := by
  by_cases hover : ceiling < declared ∧ ceiling < unpack
  · obtain rfl := hrefused hover
    refine ⟨fun _ h => absurd h nofun, fun h => absurd h nofun, iff_of_true rfl ⟨declared, rfl, hover⟩, ?_⟩
    refine iff_of_false (fun ⟨_, h⟩ => absurd h nofun) ?_
    rintro ⟨d, hd, hnot⟩
    obtain rfl := Option.some.inj hd
    exact hnot hover
  · obtain ⟨w, rfl, hle, hw⟩ := haccepted hover
    refine ⟨?_, fun h => Except.ok.inj h ▸ hle, ?_, iff_of_true ⟨w, rfl⟩ ⟨declared, rfl, hover⟩⟩
    · intro d w' hd hw' tokens hlen
      obtain rfl := Option.some.inj hd
      obtain rfl := Except.ok.inj hw'
      rcases hw with rfl | ⟨h₁, h₂⟩
      · rfl
      · exact Lz77.decode_window h₂ h₁ hlen
    · refine iff_of_false nofun ?_
      rintro ⟨d, hd, hboth⟩
      obtain rfl := Option.some.inj hd
      exact hover hboth

theorem uint32_putUint32 (b : Bytes) {n : Nat} (h : n < 2 ^ 32) : uint32 (putUint32 b n) = n := by
  have hbytes : ((bigEndian 4 n).reverse ++ b.drop 4).take 4 = (bigEndian 4 n).reverse := by
    have hlen : (bigEndian 4 n).reverse.length = 4 := by rw [List.length_reverse, length_bigEndian]
    rw [List.take_append_of_le_length (by omega), List.take_of_length_le (by omega)]
  rw [uint32, putUint32, hbytes]
  simp only [bigEndian, List.reverse_cons, List.reverse_nil, List.nil_append, List.cons_append, List.foldr_cons,
    List.foldr_nil, UInt8.toNat_ofNat']
  omega

theorem boundedLZMADict_bounded (props : Bytes) (unpack : UInt64) :
    Bounded lib lzmaDictCeiling (lzmaDeclared props) unpack.toNat
      ((boundedLZMADict lib props unpack).map fun out => windowOf lib (uint32 (out.drop 1))) := by
  have hmin := lib.min_le
  unfold lzmaDeclared boundedLZMADict
  by_cases hlen : props.length = 5
  · rw [if_pos hlen, if_neg (not_not.2 hlen)]
    have hone : (props.take 1).length = 1 := by rw [List.length_take]; omega
    dsimp only
    generalize hd : uint32 (props.drop 1) = declared
    apply bounded_some lib
    · rintro ⟨h₁, h₂⟩
      rw [if_pos (by split_ifs <;> omega)]
      rfl
    · intro hnot
      rw [if_neg (by split_ifs <;> omega)]
      by_cases hover : lzmaDictCeiling < declared
      · -- then no more is unpacked than the ceiling
        have hdrop : (props.take 1 ++ putUint32 (props.drop 1) lzmaDictCeiling).drop 1 =
            putUint32 (props.drop 1) lzmaDictCeiling := by
          rw [List.drop_append_of_le_length (by omega), List.drop_of_length_le (by omega), List.nil_append]
        rw [if_pos hover]
        refine ⟨windowOf lib lzmaDictCeiling, ?_, Nat.le_of_eq (max_eq_left hmin), .inr ?_⟩
        · rw [Except.map, hdrop, uint32_putUint32 _ (by decide)]
        · simp only [windowOf]
          omega
      · rw [if_neg hover]
        refine ⟨windowOf lib declared, ?_, max_le (by omega) hmin, .inl rfl⟩
        simp only [Except.map, hd]
  · rw [if_neg hlen, if_pos hlen]
    exact bounded_none lib nofun

theorem lzma2DictSize_ne {p : UInt8} {e : LzmaError} (h : lzma2DictSize p = .error e) : e ≠ .dictCap := by
  unfold lzma2DictSize at h
  split_ifs at h
  obtain rfl := Except.error.inj h
  exact nofun

theorem boundedLZMA2Dict_bounded (props : Bytes) (unpack : UInt64) :
    Bounded lib lzma2DictCeiling (lzma2Declared props) unpack.toNat (boundedLZMA2Dict lib props unpack) := by
  have hmin : lib.minDictCap ≤ lzma2DictCeiling := lib.min_le.trans (by decide)
  have hother : ∀ {props : Bytes}, (∀ p, props ≠ [p]) →
      lzma2Declared props = none ∧ boundedLZMA2Dict lib props unpack = .error .missingProps := by
    intro props hprops
    rcases props with - | ⟨p, - | ⟨q, props⟩⟩
    · exact ⟨rfl, rfl⟩
    · exact absurd rfl (hprops p)
    · exact ⟨rfl, rfl⟩
  by_cases hone : ∃ p, props = [p]
  · obtain ⟨p, rfl⟩ := hone
    simp only [lzma2Declared, boundedLZMA2Dict]
    cases hsize : lzma2DictSize p with
    | error e => exact bounded_none lib (lzma2DictSize_ne hsize)
    | ok declared =>
      apply bounded_some lib
      · rintro ⟨h₁, h₂⟩
        exact if_pos (by split_ifs <;> omega)
      · intro hnot
        refine ⟨_, if_neg (by split_ifs <;> omega), ?_, ?_⟩
        · split_ifs <;> omega
        · simp only [windowOf]
          split_ifs <;> omega
  · obtain ⟨h₁, h₂⟩ := hother fun p hp => hone ⟨p, hp⟩
    rw [h₁, h₂]
    exact bounded_none lib (by simp)

end MS.Extract
