import Mathlib

/-!
# Rewriting a text in one pass

A pass over a text that replaces what a matcher finds, from the left and without overlap.  The matcher sees what is left of
the text and the symbol before it.  A symbol is a break for it if no match contains the symbol and a match behind the symbol
is one at the beginning of a text: a pass treats what stands on both sides of a break by itself (`rewrite_append`).  A pass
in which every match is replaced by itself changes nothing (`rewrite_id`).
-/

namespace Framework

variable {α : Type}
variable {b c : α} {text x y s out : List α} {before : Option α}

/-- What is found at the beginning of a text, behind a symbol: its length, and what is written for it. -/
abbrev Matcher (α : Type) := Option α → List α → Option (Nat × List α)

/-- The pass; `skip` symbols belong to a match already. -/
def rewriteFrom (find : Matcher α) : Nat → Option α → List α → List α
  | _, _, [] => []
  | skip + 1, _, c :: rest => rewriteFrom find skip (some c) rest
  | 0, before, c :: rest =>
    match find before (c :: rest) with
    | none => c :: rewriteFrom find 0 (some c) rest
    | some (n, written) => written ++ rewriteFrom find (n - 1) (some c) rest

def rewrite (find : Matcher α) (text : List α) : List α := rewriteFrom find 0 none text

/-- A match is not empty and within the text. -/
def Matcher.Within (find : Matcher α) : Prop :=
  ∀ {before text n written}, find before text = some (n, written) → 1 ≤ n ∧ n ≤ text.length

structure Matcher.Break (find : Matcher α) (b : α) : Prop where
  append : ∀ before x y, find before (x ++ b :: y) = find before x
  behind : ∀ text, find (some b) text = find none text

variable {find : Matcher α}

theorem Matcher.Within.nil (h : find.Within) (before : Option α) : find before [] = none := by
  cases hf : find before [] with
  | none => rfl
  | some found =>
    obtain ⟨n, written⟩ := found
    have := h hf
    simp at this
    omega

theorem Matcher.Break.head (h : find.Within) (hb : find.Break b) (before : Option α) (y : List α) :
    find before (b :: y) = none :=
  (hb.append before [] y).trans (h.nil before)

theorem rewriteFrom_behind (hb : find.Break b) (text : List α) :
    rewriteFrom find 0 (some b) text = rewrite find text := by
  cases text with
  | nil => rfl
  | cons c rest => simp only [rewrite, rewriteFrom, hb.behind]

theorem rewriteFrom_append (h : find.Within) (hb : find.Break b) (x y : List α) {skip : Nat} (hskip : skip ≤ x.length)
    (before : Option α) :
    rewriteFrom find skip before (x ++ b :: y) = rewriteFrom find skip before x ++ b :: rewrite find y := by
  induction x generalizing skip before with
  | nil =>
    obtain rfl : skip = 0 := by simpa using hskip
    show rewriteFrom find 0 before (b :: y) = b :: rewrite find y
    simp only [rewriteFrom, hb.head h, rewriteFrom_behind hb]
  | cons c x ih =>
    cases skip with
    | succ skip =>
      rw [List.cons_append, rewriteFrom, rewriteFrom]
      exact ih (by simpa using hskip) _
    | zero =>
      have happ := hb.append before (c :: x) y
      rw [List.cons_append] at happ
      rw [List.cons_append, rewriteFrom, rewriteFrom, happ]
      cases hf : find before (c :: x) with
      | none => simp only [ih (Nat.zero_le _), List.cons_append]
      | some found =>
        obtain ⟨n, written⟩ := found
        have hn := (h hf).2
        rw [List.length_cons] at hn
        simp only [ih (show n - 1 ≤ x.length by omega), List.append_assoc]

theorem rewriteFrom_skip (before : Option α) (text : List α) : rewriteFrom find text.length before text = [] := by
  induction text generalizing before with
  | nil => rfl
  | cons c text ih => exact ih _

/-- A text that is one match. -/
theorem rewrite_match {written : List α} (h : find none text = some (text.length, written)) :
    rewrite find text = if text = [] then [] else written := by
  cases text with
  | nil => rfl
  | cons c text =>
    rw [rewrite, rewriteFrom, h]
    simp only [List.length_cons, Nat.add_sub_cancel, rewriteFrom_skip, List.append_nil]
    rfl

/-- What stands on both sides of a break is rewritten by itself. -/
theorem rewrite_append (h : find.Within) (hb : find.Break b) (x y : List α) :
    rewrite find (x ++ b :: y) = rewrite find x ++ b :: rewrite find y :=
  rewriteFrom_append h hb x y (Nat.zero_le _) none

theorem rewrite_cons (h : find.Within) (hb : find.Break b) (y : List α) : rewrite find (b :: y) = b :: rewrite find y :=
  rewrite_append h hb [] y

/-- Every match in the text is replaced by itself. -/
def Matcher.Quiet (find : Matcher α) (before : Option α) (text : List α) : Prop :=
  ∀ x y n written, text = x ++ y → find (x.getLast?.or before) y = some (n, written) → written = y.take n

theorem Matcher.Within.quiet_nil (h : find.Within) (before : Option α) : find.Quiet before [] := by
  intro u v n written huv hf
  obtain ⟨-, rfl⟩ := List.append_eq_nil_iff.1 huv.symm
  exact absurd (h.nil _ ▸ hf) nofun

theorem Matcher.Quiet.suffix (h : find.Quiet before (x ++ text)) : find.Quiet (x.getLast?.or before) text := by
  intro u v n written htext hf
  refine h (x ++ u) v n written (by rw [htext, List.append_assoc]) ?_
  rw [← hf, List.getLast?_append, Option.or_assoc]

theorem Matcher.Quiet.tail (h : find.Quiet before (c :: text)) : find.Quiet (some c) text :=
  Matcher.Quiet.suffix (x := [c]) h

theorem rewriteFrom_quiet (h : find.Within) (hq : find.Quiet before text) {skip : Nat} (hskip : skip ≤ text.length) :
    rewriteFrom find skip before text = text.drop skip := by
  induction text generalizing skip before with
  | nil => simp [rewriteFrom]
  | cons c text ih =>
    cases skip with
    | succ skip => rw [rewriteFrom, ih hq.tail (by simpa using hskip), List.drop_succ_cons]
    | zero =>
      rw [rewriteFrom]
      cases hf : find before (c :: text) with
      | none => simp only [ih hq.tail (Nat.zero_le _), List.drop_zero]
      | some found =>
        obtain ⟨n, written⟩ := found
        obtain ⟨h₁, h₂⟩ := h hf
        have hw := hq [] (c :: text) n written rfl hf
        rw [List.length_cons] at h₂
        simp only [ih hq.tail (show n - 1 ≤ text.length by omega), hw]
        obtain ⟨n, rfl⟩ := Nat.exists_eq_add_of_le' h₁
        simp

/-- A text with a break in it is quiet if both sides are. -/
theorem Matcher.Quiet.append (h : find.Within) (hb : find.Break b) (hx : find.Quiet none x) (hy : find.Quiet none y) :
    find.Quiet none (x ++ b :: y) := by
  intro u v n written huv hf
  rcases List.append_eq_append_iff.1 huv with ⟨w, rfl, hv⟩ | ⟨w, rfl, hv⟩
  · -- the match is behind the break, or is the break
    cases w with
    | nil =>
      rw [List.nil_append] at hv
      rw [← hv, hb.head h] at hf
      exact absurd hf nofun
    | cons c w =>
      rw [List.cons_append] at hv
      obtain ⟨rfl, hyw⟩ := List.cons.inj hv
      refine hy w v n written hyw ?_
      rw [← hf]
      cases hw : w.getLast? with
      | none =>
        obtain rfl := List.getLast?_eq_none_iff.1 hw
        simp [hb.behind]
      | some d => simp [List.getLast?_append, List.getLast?_cons, hw]
  · subst hv
    rw [hb.append] at hf
    rw [hx u w n written rfl hf, List.take_append_of_le_length (h hf).2]

theorem Matcher.Quiet.of_append (h : find.Within) (hb : find.Break b) (hq : find.Quiet none (x ++ b :: y)) :
    find.Quiet none x ∧ find.Quiet none y := by
  constructor
  · intro u v n written huv hf
    have hlen := (h hf).2
    rw [← hb.append _ v y] at hf
    have hw := hq u (v ++ b :: y) n written (by rw [huv, List.append_assoc]) hf
    rwa [List.take_append_of_le_length hlen] at hw
  · intro u v n written huv hf
    refine hq (x ++ b :: u) v n written (by rw [huv, List.append_assoc, List.cons_append]) ?_
    rw [← hf]
    cases hu : u.getLast? with
    | none =>
      obtain rfl := List.getLast?_eq_none_iff.1 hu
      simp [hb.behind]
    | some d => simp [List.getLast?_append, List.getLast?_cons, hu]

theorem rewrite_id (h : find.Within) (hq : find.Quiet none text) : rewrite find text = text := by
  rw [rewrite, rewriteFrom_quiet h hq (Nat.zero_le _), List.drop_zero]

theorem rewriteFrom_found (x y : List α) (before : Option α) :
    rewriteFrom find x.length before (x ++ y) = rewriteFrom find 0 (x.getLast?.or before) y := by
  induction x generalizing before with
  | nil => rfl
  | cons c x ih =>
    rw [List.length_cons, List.cons_append, rewriteFrom, ih]
    cases x <;> rfl

/-- A text that begins with a match is quiet if nothing new is written for it, nor for a match that begins within it, and what
is behind it is quiet. -/
theorem Matcher.Quiet.found (hx : x ≠ [])
    (hin : ∀ u v n written, x = u ++ v → v ≠ [] → find (u.getLast?.or before) (v ++ y) = some (n, written) →
      written = (v ++ y).take n) (hy : find.Quiet x.getLast? y) : find.Quiet before (x ++ y) := by
  intro u v n written huv hf
  have hlast : x.getLast?.or before = x.getLast? := by
    rw [List.getLast?_eq_some_getLast hx]
    rfl
  rcases List.append_eq_append_iff.1 huv with ⟨w, rfl, rfl⟩ | ⟨w, rfl, rfl⟩
  · refine hy w v n written rfl ?_
    rw [← hf, List.getLast?_append, Option.or_assoc, hlast]
  · cases w with
    | nil =>
      rw [List.append_nil] at hlast hy
      exact hy [] y n written rfl (by rw [← hf, hlast]; rfl)
    | cons c w => exact hin u (c :: w) n written rfl (List.cons_ne_nil _ _) hf

theorem Matcher.Quiet.symbol (hf : find before (c :: s) = none) (hs : find.Quiet (some c) s) :
    find.Quiet before (c :: s) := by
  refine Matcher.Quiet.found (x := [c]) (List.cons_ne_nil _ _) ?_ hs
  intro u v n written huv hv hf'
  obtain ⟨rfl, rfl⟩ : u = [] ∧ v = [c] := by
    rcases List.singleton_eq_append_iff.1 huv with h | ⟨-, h⟩
    · exact h
    · exact absurd h hv
  exact absurd (hf ▸ hf') nofun

/-! ## Passes that stop

A pass may leave the rest of a text as it is at any point.  What it writes is related to the text by `Rewrites`. -/

inductive Rewrites (find : Matcher α) : Option α → List α → List α → Prop
  | stop (before : Option α) (s : List α) : Rewrites find before s s
  | symbol {before : Option α} {c : α} {s out : List α} : find before (c :: s) = none → Rewrites find (some c) s out →
      Rewrites find before (c :: s) (c :: out)
  | found {before : Option α} {x y written out : List α} : x ≠ [] → find before (x ++ y) = some (x.length, written) →
      Rewrites find x.getLast? y out → Rewrites find before (x ++ y) (written ++ out)

/-- What a pass does at the beginning of a text. -/
theorem rewriteFrom_round (h : find.Within) (before : Option α) (c : α) (s : List α) :
    (find before (c :: s) = none ∧ rewriteFrom find 0 before (c :: s) = c :: rewriteFrom find 0 (some c) s) ∨
      ∃ x y written, c :: s = x ++ y ∧ x ≠ [] ∧ find before (x ++ y) = some (x.length, written) ∧
        rewriteFrom find 0 before (c :: s) = written ++ rewriteFrom find 0 x.getLast? y := by
  rw [rewriteFrom]
  cases hf : find before (c :: s) with
  | none => exact .inl ⟨rfl, rfl⟩
  | some found =>
    obtain ⟨m, written⟩ := found
    obtain ⟨h₁, h₂⟩ := h hf
    obtain ⟨m, rfl⟩ := Nat.exists_eq_add_of_le' h₁
    rw [List.length_cons] at h₂
    have hlen : (s.take m).length = m := by
      rw [List.length_take]
      omega
    have hs : c :: s = (c :: s.take m) ++ s.drop m := by rw [List.cons_append, List.take_append_drop]
    refine .inr ⟨c :: s.take m, s.drop m, written, hs, List.cons_ne_nil _ _, ?_, ?_⟩
    · rw [← hs, hf, List.length_cons, hlen]
    · have hrest := @rewriteFrom_found _ find (s.take m) (s.drop m) (some c)
      rw [hlen, List.take_append_drop] at hrest
      simp only [Nat.add_sub_cancel, hrest]
      cases s.take m <;> rfl

/-- By the rounds of a pass. -/
theorem pass_induction (h : find.Within) {P : Option α → List α → Prop} (hnil : ∀ before, P before [])
    (hsymbol : ∀ before c s, find before (c :: s) = none →
      rewriteFrom find 0 before (c :: s) = c :: rewriteFrom find 0 (some c) s →
      P (some c) s → P before (c :: s))
    (hfound : ∀ before x y written, x ≠ [] → find before (x ++ y) = some (x.length, written) →
      rewriteFrom find 0 before (x ++ y) = written ++ rewriteFrom find 0 x.getLast? y → P x.getLast? y → P before (x ++ y))
    (before : Option α) (s : List α) : P before s := by
  induction hn : s.length using Nat.strongRecOn generalizing before s with
  | _ n ih =>
    cases s with
    | nil => exact hnil before
    | cons c s =>
      rcases @rewriteFrom_round _ find h before c s with ⟨hf, heq⟩ | ⟨x, y, written, hs, hx, hf, heq⟩
      · exact hsymbol before c s hf heq (ih s.length (by simp at hn; omega) _ _ rfl)
      · have hlen := congrArg List.length hs
        have hpos := List.length_pos_of_ne_nil hx
        rw [List.length_append] at hlen
        rw [hs] at heq ⊢
        exact hfound before x y written hx hf heq (ih y.length (by omega) _ _ rfl)

theorem rewrites_rewriteFrom (h : find.Within) (before : Option α) (s : List α) :
    Rewrites find before s (rewriteFrom find 0 before s) := by
  induction before, s using @pass_induction _ find h with
  | hnil before => exact .stop _ _
  | hsymbol before c s hf heq ih => exact heq ▸ .symbol hf ih
  | hfound before x y written hx hf heq ih => exact heq ▸ .found hx hf ih

namespace Rewrites

theorem nil (hr : Rewrites find before [] out) : out = [] := by
  generalize hs : ([] : List α) = s at hr
  cases hr with
  | stop => rfl
  | symbol _ _ => exact absurd hs nofun
  | found hx _ _ => exact absurd (List.append_eq_nil_iff.1 hs.symm).1 hx

theorem alone (hf : find before [c] = none) (hr : Rewrites find before [c] out) : out = [c] := by
  generalize hs : [c] = s at hr hf
  cases hr with
  | stop => rfl
  | symbol _ hr =>
    obtain ⟨rfl, rfl⟩ := List.cons.inj hs
    rw [hr.nil]
  | found _ hf' _ => exact absurd (hf ▸ hf') nofun

theorem behind (hb : find.Break b) (hr : Rewrites find (some b) s out) : Rewrites find none s out := by
  generalize hbefore : some b = before at hr
  cases hr with
  | stop => exact .stop _ _
  | symbol hf hr => exact .symbol (by rw [← hb.behind, hbefore, hf]) hr
  | found hx hf hr => exact .found hx (by rw [← hb.behind, hbefore, hf]) hr

/-- What stands on both sides of a break is rewritten by itself. -/
theorem split (h : find.Within) (hb : find.Break b) (hr : Rewrites find before (x ++ b :: y) out) :
    ∃ x' y', out = x' ++ b :: y' ∧ Rewrites find before x x' ∧ Rewrites find none y y' := by
  generalize hs : x ++ b :: y = s at hr
  induction hr generalizing x with
  | stop before s => exact ⟨x, y, hs.symm, .stop _ _, .stop _ _⟩
  | @symbol before c s out hf hr ih =>
    cases x with
    | nil =>
      obtain ⟨rfl, rfl⟩ := List.cons.inj hs
      exact ⟨[], out, rfl, .stop _ _, hr.behind hb⟩
    | cons d x =>
      rw [List.cons_append] at hs
      obtain ⟨rfl, htail⟩ := List.cons_eq_cons.1 hs
      obtain ⟨x', y', rfl, hx, hy⟩ := ih htail
      refine ⟨d :: x', y', rfl, .symbol ?_ hx, hy⟩
      rw [← hb.append before (d :: x) y, List.cons_append, htail, hf]
  | @found before u v written out hu hf hr ih =>
    rw [← hs, hb.append] at hf
    have hlen := (h hf).2
    obtain ⟨w, rfl, rfl⟩ : ∃ w, x = u ++ w ∧ v = w ++ b :: y := by
      rcases List.append_eq_append_iff.1 hs with ⟨w, rfl, hw⟩ | ⟨w, rfl, rfl⟩
      · obtain rfl : w = [] := by
          rw [List.length_append] at hlen
          exact List.length_eq_zero_iff.1 (by omega)
        exact ⟨[], by simp, by simpa using hw.symm⟩
      · exact ⟨w, rfl, rfl⟩
    obtain ⟨x', y', rfl, hx, hy⟩ := ih rfl
    exact ⟨written ++ x', y', by simp, .found hu hf hx, hy⟩

end Rewrites

/-! ## Counting

A pass that writes fewer symbols of a kind wherever it writes something new, and whose matches do not overlap, leaves fewer
of them in every text that is not quiet. -/

/-- What is written for a match is the match, or has fewer symbols of the kind. -/
def Matcher.Fewer (find : Matcher α) (p : α → Bool) : Prop :=
  ∀ {before text n written}, find before text = some (n, written) →
    written = text.take n ∨ written.countP p < (text.take n).countP p

/-- No match begins within another one. -/
def Matcher.Apart (find : Matcher α) : Prop :=
  ∀ {before x y written}, find before (x ++ y) = some (x.length, written) →
    ∀ u v, x = u ++ v → u ≠ [] → v ≠ [] → ∀ before', find before' (v ++ y) = none

section

variable {p : α → Bool} (hs : find.Fewer p)
include hs

theorem Rewrites.count (hr : Rewrites find before s out) : out = s ∨ out.countP p < s.countP p := by
  induction hr with
  | stop => exact .inl rfl
  | symbol _ _ ih =>
    rcases ih with rfl | ih
    · exact .inl rfl
    · exact .inr (by simpa only [List.countP_cons] using Nat.add_lt_add_right ih _)
  | @found before x y written out _ hf _ ih =>
    have hw := hs hf
    rw [List.take_left] at hw
    simp only [List.countP_append]
    rcases hw with rfl | hw
    · rcases ih with rfl | ih
      · exact .inl rfl
      · exact .inr (by omega)
    · rcases ih with rfl | ih
      · exact .inr (by omega)
      · exact .inr (by omega)

theorem Rewrites.count_le (hr : Rewrites find before s out) : out.countP p ≤ s.countP p := by
  rcases hr.count hs with rfl | h
  · exact Nat.le_refl _
  · exact Nat.le_of_lt h

/-- A text that a pass leaves as it is is quiet. -/
theorem quiet_of_rewriteFrom (h : find.Within) (hapart : find.Apart) (heq : rewriteFrom find 0 before s = s) :
    find.Quiet before s := by
  induction before, s using @pass_induction _ find h with
  | hnil before => exact h.quiet_nil before
  | hsymbol before c s hf hround ih =>
    rw [hround] at heq
    exact .symbol hf (ih (List.cons.inj heq).2)
  | hfound before x y written hx hf hround ih =>
    have hcount := (@rewrites_rewriteFrom _ find h x.getLast? y).count_le hs
    rw [hround] at heq
    have hw : written = x := by
      have := hs hf
      rw [List.take_left] at this
      refine this.resolve_right fun hlt => ?_
      have := congrArg (List.countP p) heq
      simp only [List.countP_append] at this
      omega
    subst hw
    refine Matcher.Quiet.found hx ?_ (ih (List.append_cancel_left heq))
    intro u v n written' huv hv hf'
    cases u with
    | nil =>
      obtain rfl := huv
      obtain ⟨rfl, rfl⟩ := Prod.mk.inj (Option.some.inj (hf.symm.trans hf'))
      rw [List.take_left]
    | cons d u => exact absurd (hapart hf (d :: u) v huv (List.cons_ne_nil _ _) hv _ ▸ hf') nofun

end

end Framework
