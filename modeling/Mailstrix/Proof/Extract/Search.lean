import Mailstrix.Impl.Extract.Mime

/-!
# Where a pattern is found

`index` is `bytes.Index` of the source.  The pattern begins where it says (`index_isPrefixOf`), and no place
begins where the pattern's first byte is missing (`index_skip`).
-/

namespace MS.Extract

open Framework

theorem index_isPrefixOf {pattern s : Bytes} {k : Nat} (h : index pattern s = some k) :
    pattern <+: s.drop k := by
  induction s generalizing k with
  | nil => exact absurd h nofun
  | cons c s ih =>
    rw [index] at h
    split at h
    · next hp =>
      obtain rfl := Option.some.inj h
      exact List.isPrefixOf_iff_prefix.1 hp
    · obtain ⟨n, hn, rfl⟩ := Option.map_eq_some_iff.1 h
      exact ih hn

/-- A part without the first byte of the pattern is passed over. -/
theorem index_skip {c : UInt8} {pattern s : Bytes} (hs : c ∉ s) (b : Bytes) :
    index (c :: pattern) (s ++ b) = (index (c :: pattern) b).map (· + s.length) := by
  induction s with
  | nil => simp
  | cons d s ih =>
    simp only [List.mem_cons, not_or] at hs
    have hhead : (c :: pattern).isPrefixOf (d :: (s ++ b)) = false := by
      rw [List.isPrefixOf, beq_eq_false_iff_ne.2 hs.1, Bool.false_and]
    rw [List.cons_append, index, hhead, if_neg (by decide), ih hs.2, Option.map_map]
    rfl

end MS.Extract
