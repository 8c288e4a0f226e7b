import Mathlib

/-!
# Definitions in modules

A program is a list of definitions.  Each has a home module, may use others by their position, and
sees the ambient definitions of its module.  Definitions are evaluated in order: a value depends on
the body, on the values used that are already there, and on the ambient values of the module so far.
A result depends on the body, the value and all ambient values of the module.

Dropping whole modules, with the positions renumbered, changes no value and no result of what is left
(`values_restrict`, `results_restrict`).
-/

namespace Framework

structure Definition (N D : Type) where
  home : N
  ambient : Bool
  body : D
  uses : List Nat

/-- What definitions mean: their values, and what is made of them in the end. -/
structure Meaning (D V R : Type) where
  value : D → List (Option V) → List V → V
  result : D → V → List V → R

section

variable {N D V R A : Type} [DecidableEq N] (M : Meaning D V R)

/-- The values of a module's ambient definitions. -/
def ambients (home : N) (prog : List (Definition N D)) (vals : List V) : List V :=
  (prog.zip vals).filterMap fun p => if p.1.home = home ∧ p.1.ambient = true then some p.2 else none

def valueOf (prog : List (Definition N D)) (vals : List V) (e : Definition N D) : V :=
  M.value e.body (e.uses.map (vals[·]?)) (ambients e.home prog vals)

/-- The definitions evaluated so far, and their values. -/
def eval (prog : List (Definition N D)) : List (Definition N D) × List V :=
  prog.foldl (fun s e => (s.1 ++ [e], s.2 ++ [valueOf M s.1 s.2 e])) ([], [])

def values (prog : List (Definition N D)) : List V := (eval M prog).2

def resultOf (prog : List (Definition N D)) (vals : List V) (e : Definition N D) (v : V) : R :=
  M.result e.body v (ambients e.home prog vals)

def results (prog : List (Definition N D)) : List R :=
  (prog.zip (values M prog)).map fun p => resultOf M prog (values M prog) p.1 p.2

variable {M}

theorem eval_fst (prog : List (Definition N D)) : (eval M prog).1 = prog := by
  induction prog using List.reverseRecOn with
  | nil => rfl
  | append_singleton prog e ih =>
    rw [eval, List.foldl_append]
    exact congrArg (· ++ [e]) ih

theorem values_snoc (prog : List (Definition N D)) (e : Definition N D) :
    values M (prog ++ [e]) = values M prog ++ [valueOf M prog (values M prog) e] := by
  have hfst := eval_fst (M := M) prog
  rw [values, eval, List.foldl_append]
  show (eval M prog).2 ++ [valueOf M (eval M prog).1 (eval M prog).2 e] = _
  rw [hfst]
  rfl

theorem length_values (prog : List (Definition N D)) : (values M prog).length = prog.length := by
  induction prog using List.reverseRecOn with
  | nil => rfl
  | append_singleton prog e ih => simp [values_snoc, ih]

/-! ## Keeping some entries -/

/-- The entries of the second list at the positions that `sel` selects in the first. -/
def keep (sel : A → Bool) : List A → List V → List V
  | a :: as, v :: vs => if sel a then v :: keep sel as vs else keep sel as vs
  | _, _ => []

/-- The number of selected entries before position `i`. -/
def rank (sel : A → Bool) (l : List A) (i : Nat) : Nat := (l.take i).countP sel

omit [DecidableEq N] in
theorem keep_snoc {sel : A → Bool} {as : List A} {vs : List V} (h : as.length = vs.length) (a : A) (v : V) :
    keep sel (as ++ [a]) (vs ++ [v]) = keep sel as vs ++ if sel a then [v] else [] := by
  induction as generalizing vs with
  | nil =>
    cases List.length_eq_zero_iff.1 h.symm
    simp [keep]
  | cons b as ih =>
    cases vs with
    | nil => cases h
    | cons w vs =>
      simp only [List.cons_append, keep]
      rw [ih (Nat.succ.inj h)]
      split <;> rfl

theorem keep_self {sel : A → Bool} (as : List A) : keep sel as as = as.filter sel := by
  induction as with
  | nil => rfl
  | cons a as ih => rw [keep, ih, List.filter_cons]

theorem keep_map {B : Type} {sel : B → Bool} (f : A → B) (as : List A) (vs : List V) :
    keep sel (as.map f) vs = keep (fun a => sel (f a)) as vs := by
  induction as generalizing vs with
  | nil => rfl
  | cons a as ih =>
    cases vs with
    | nil => rfl
    | cons v vs => rw [List.map_cons, keep, keep, ih]

/-- What only kept entries satisfy is found among them. -/
theorem filter_zip_keep {sel : A → Bool} {P : A × V → Bool} {as : List A}
    (hP : ∀ a ∈ as, ∀ v, P (a, v) = true → sel a = true) (vs : List V) :
    ((as.filter sel).zip (keep sel as vs)).filter P = (as.zip vs).filter P := by
  induction as generalizing vs with
  | nil => rfl
  | cons a as ih =>
    cases vs with
    | nil => simp [keep]
    | cons v vs =>
      have hrest := ih (fun b hb => hP b (List.mem_cons_of_mem _ hb)) vs
      by_cases ha : sel a = true
      · simp only [List.filter_cons_of_pos ha, keep, ha, if_true, List.zip_cons_cons, List.filter_cons, hrest]
      · have hno : P (a, v) = false := by
          by_contra h
          exact ha (hP a List.mem_cons_self v (by simpa using h))
        simp only [List.filter_cons_of_neg ha, keep, ha, List.zip_cons_cons, List.filter_cons, hno, hrest,
          Bool.false_eq_true, if_false]

/-- A selected position, or one past the end, is found under its rank. -/
theorem keep_rank {sel : A → Bool} {as bs : List A} {vs : List V} {i : Nat} (h : as.length = vs.length)
    (hi : ∀ a, as[i]? = some a → sel a = true) : (keep sel as vs)[rank sel (as ++ bs) i]? = vs[i]? := by
  induction as generalizing vs i with
  | nil =>
    cases List.length_eq_zero_iff.1 h.symm
    simp [keep]
  | cons a as ih =>
    cases vs with
    | nil => cases h
    | cons v vs =>
      cases i with
      | zero =>
        have ha : sel a = true := hi a rfl
        simp [keep, rank, ha]
      | succ i =>
        have hrest := ih (Nat.succ.inj h) (i := i) hi
        rw [List.getElem?_cons_succ, ← hrest]
        by_cases ha : sel a = true
        · simp [keep, rank, ha, List.countP_cons_of_pos]
        · simp [keep, rank, ha, List.countP_cons_of_neg]

/-- Selected positions have different ranks. -/
theorem rank_inj {sel : A → Bool} {as : List A} {i j : Nat} {a b : A} (hi : as[i]? = some a) (ha : sel a = true)
    (hj : as[j]? = some b) (hb : sel b = true) (h : rank sel as i = rank sel as j) : i = j := by
  have hfind : ∀ k c, as[k]? = some c → sel c = true → (keep sel as (List.range as.length))[rank sel as k]? = some k := by
    intro k c hk hc
    have hlt : k < as.length := (List.getElem?_eq_some_iff.1 hk).1
    have hrank : (keep sel as (List.range as.length))[rank sel (as ++ []) k]? = (List.range as.length)[k]? := by
      refine keep_rank List.length_range.symm fun c' hc' => ?_
      cases hk.symm.trans hc'
      exact hc
    rw [List.append_nil] at hrank
    rw [hrank, List.getElem?_range hlt]
  have hij := (hfind i a hi ha).symm.trans (h ▸ hfind j b hj hb)
  exact Option.some.inj hij

theorem rank_append {sel : A → Bool} {as bs : List A} {i : Nat} (h : i ≤ as.length) :
    rank sel (as ++ bs) i = rank sel as i := by
  rw [rank, rank, List.take_append_of_le_length h]

theorem rank_map {B : Type} {sel : B → Bool} (f : A → B) (as : List A) (i : Nat) :
    rank sel (as.map f) i = rank (fun a => sel (f a)) as i := by
  rw [rank, rank, ← List.map_take, List.countP_map]
  rfl

theorem rank_length {sel : A → Bool} (as bs : List A) : rank sel (as ++ bs) as.length = (as.filter sel).length := by
  rw [rank, List.take_left, List.countP_eq_length_filter]

/-- What is made of the kept entries and their new positions, in terms of the old ones. -/
theorem mapIdx_filter {B : Type} {sel : A → Bool} (F : Nat → A → B) (as : List A) :
    (as.filter sel).mapIdx F = ((as.mapIdx fun i a => (i, a)).filter fun p => sel p.2).map
      fun p => F (rank sel as p.1) p.2 := by
  induction as using List.reverseRecOn with
  | nil => rfl
  | append_singleton as a ih =>
    have hold : ((as.mapIdx fun i a => (i, a)).filter fun p => sel p.2).map (fun p => F (rank sel (as ++ [a]) p.1) p.2) =
        ((as.mapIdx fun i a => (i, a)).filter fun p => sel p.2).map fun p => F (rank sel as p.1) p.2 := by
      refine List.map_congr_left fun p hp => ?_
      obtain ⟨i, hi, rfl⟩ := List.mem_mapIdx.1 (List.mem_filter.1 hp).1
      rw [rank_append (Nat.le_of_lt hi)]
    rw [List.mapIdx_concat, List.filter_append, List.filter_append, List.map_append, hold, List.mapIdx_append, ih]
    by_cases ha : sel a = true
    · simp [ha, rank_length]
    · simp [ha]

/-- What does not look at the position is the same for entries that were numbered. -/
theorem map_filter_mapIdx {C : Type} {F : Nat → A → A} {P : A → Bool} {G : A → C}
    (hP : ∀ k a, P (F k a) = P a) (hG : ∀ k a, G (F k a) = G a) (as : List A) :
    ((as.mapIdx F).filter P).map G = (as.filter P).map G := by
  induction as using List.reverseRecOn with
  | nil => rfl
  | append_singleton as a ih =>
    rw [List.mapIdx_concat, List.filter_append, List.filter_append, List.map_append, List.map_append, ih]
    by_cases ha : P a = true
    · simp [ha, hP, hG]
    · simp [ha, hP]

/-! ## Dropping modules -/

/-- The modules that `sel` selects, the positions used in them renumbered by `f`. -/
def restrictBy (sel : N → Bool) (f : Nat → Nat) (prog : List (Definition N D)) : List (Definition N D) :=
  (prog.filter fun e => sel e.home).map fun e => { e with uses := e.uses.map f }

def restrict (sel : N → Bool) (prog : List (Definition N D)) : List (Definition N D) :=
  restrictBy sel (rank (fun e => sel e.home) prog) prog

/-- What a definition uses is there, and in the same module. -/
def Local (prog : List (Definition N D)) : Prop :=
  ∀ e ∈ prog, ∀ u ∈ e.uses, ∃ e', prog[u]? = some e' ∧ e'.home = e.home

variable {sel : N → Bool} {f : Nat → Nat}

omit [DecidableEq N] in
theorem restrictBy_snoc (prog : List (Definition N D)) (e : Definition N D) :
    restrictBy sel f (prog ++ [e]) =
      restrictBy sel f prog ++ if sel e.home then [{ e with uses := e.uses.map f }] else [] := by
  rw [restrictBy, List.filter_append, List.map_append]
  by_cases he : sel e.home = true <;> simp [he, restrictBy]

theorem ambients_restrictBy {home : N} (hs : sel home = true) (prog : List (Definition N D)) (vals : List V) :
    ambients home (restrictBy sel f prog) (keep (fun e => sel e.home) prog vals) = ambients home prog vals := by
  induction prog generalizing vals with
  | nil => rfl
  | cons e prog ih =>
    cases vals with
    | nil =>
      rw [keep]
      · simp [ambients]
      · exact nofun
    | cons v vals =>
      have hrest := ih vals
      by_cases he : sel e.home = true
      · simp only [ambients, restrictBy, keep, he, if_true, List.filter_cons_of_pos, List.map_cons,
          List.zip_cons_cons, List.filterMap_cons] at hrest ⊢
        rw [hrest]
      · have hne : e.home ≠ home := by
          rintro rfl
          exact he hs
        simp only [ambients, restrictBy, keep, he, List.filter_cons_of_neg, not_false_eq_true,
          List.zip_cons_cons, List.filterMap_cons, hne, false_and, if_false, Bool.false_eq_true] at hrest ⊢
        exact hrest

/-- The values of what is kept are those it had. -/
theorem values_restrictBy {prog rest : List (Definition N D)} (hlocal : Local (prog ++ rest))
    (hf : f = rank (fun e => sel e.home) (prog ++ rest)) :
    values M (restrictBy sel f prog) = keep (fun e => sel e.home) prog (values M prog) := by
  induction prog using List.reverseRecOn generalizing rest with
  | nil => rfl
  | append_singleton prog e ih =>
    rw [List.append_assoc] at hlocal hf
    have hprog := ih hlocal hf
    rw [restrictBy_snoc, values_snoc, keep_snoc (length_values prog).symm]
    by_cases he : sel e.home = true
    · rw [if_pos he, if_pos he, values_snoc, hprog]
      have huses : e.uses.map (fun u => (keep (fun e => sel e.home) prog (values M prog))[f u]?) =
          e.uses.map ((values M prog)[·]?) := by
        refine List.map_congr_left fun u hu => ?_
        rw [hf]
        refine keep_rank (length_values prog).symm fun a ha => ?_
        -- What is used is in the same module, so it was kept as well.
        obtain ⟨e', he', hhome⟩ := hlocal e (by simp) u hu
        have hlt : u < prog.length := (List.getElem?_eq_some_iff.1 ha).1
        rw [List.getElem?_append_left hlt, ha] at he'
        cases he'
        show sel a.home = true
        rw [hhome]
        exact he
      simp only [valueOf, List.map_map, Function.comp_def, huses, ambients_restrictBy he]
    · rw [if_neg he, if_neg he, List.append_nil, List.append_nil, hprog]

theorem values_restrict {prog : List (Definition N D)} (hlocal : Local prog) :
    values M (restrict sel prog) = keep (fun e => sel e.home) prog (values M prog) := by
  have hnil : Local (prog ++ []) := by rwa [List.append_nil]
  refine values_restrictBy hnil ?_
  rw [List.append_nil]

omit [DecidableEq N] in
/-- What is computed from each definition and its value, for those that are kept. -/
theorem map_restrictBy (g g' : Definition N D → V → R) {f : Nat → Nat}
    (hg : ∀ e v, sel e.home = true → g' { e with uses := e.uses.map f } v = g e v)
    (prog : List (Definition N D)) (vals : List V) :
    ((restrictBy sel f prog).zip (keep (fun e => sel e.home) prog vals)).map (fun p => g' p.1 p.2) =
      keep (fun e => sel e.home) prog ((prog.zip vals).map fun p => g p.1 p.2) := by
  induction prog generalizing vals with
  | nil => rfl
  | cons e prog ih =>
    cases vals with
    | nil => simp [keep]
    | cons v vals =>
      have hrest := ih vals
      by_cases he : sel e.home = true
      · simp only [restrictBy, keep, he, if_true, List.filter_cons_of_pos, List.map_cons,
          List.zip_cons_cons] at hrest ⊢
        rw [hrest, hg e v he]
      · simp only [restrictBy, keep, he, List.filter_cons_of_neg, not_false_eq_true, List.zip_cons_cons,
          List.map_cons, Bool.false_eq_true, if_false] at hrest ⊢
        exact hrest

theorem results_restrict {prog : List (Definition N D)} (hlocal : Local prog) :
    results M (restrict sel prog) = keep (fun e => sel e.home) prog (results M prog) := by
  rw [results, values_restrict hlocal]
  refine map_restrictBy (resultOf M prog (values M prog))
    (resultOf M (restrict sel prog) (keep (fun e => sel e.home) prog (values M prog))) (fun e v he => ?_) prog _
  show M.result e.body v (ambients e.home _ _) = M.result e.body v (ambients e.home _ _)
  rw [restrict, ambients_restrictBy he]

end

end Framework
