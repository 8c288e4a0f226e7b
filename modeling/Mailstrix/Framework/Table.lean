import Mathlib

/-!
# Tables with a primary key

A finite list of rows no two of which share a key, with the four statements a program issues
against such a table: look a row up, insert one, overwrite one, erase one.  Every operation is
described by what it does to `get?`, so proofs about a table never open the list.
-/

namespace Framework

variable {κ α : Type} {key : α → κ}
variable {k : κ} {a : α}

/-- Rows with pairwise distinct keys. -/
structure Table (key : α → κ) where
  rows : List α
  nodup : (rows.map key).Nodup

namespace Table

instance : EmptyCollection (Table key) := ⟨⟨[], List.nodup_nil⟩⟩

variable [DecidableEq κ]

/-- The row with key `k`. -/
def get? (t : Table key) (k : κ) : Option α := t.rows.find? fun a => key a = k

/-- Overwrite the row that has `a`'s key; nothing happens when there is none. -/
def set (t : Table key) (a : α) : Table key where
  rows := t.rows.map fun b => if key b = key a then a else b
  nodup := by
    have h : (t.rows.map fun b => if key b = key a then a else b).map key = t.rows.map key := by
      rw [List.map_map]
      refine List.map_congr_left fun b _ => ?_
      by_cases hb : key b = key a <;> simp [hb]
    rw [h]
    exact t.nodup

/-- Erase the row with key `k`. -/
def erase (t : Table key) (k : κ) : Table key where
  rows := t.rows.filter fun a => key a ≠ k
  nodup := t.nodup.sublist (List.filter_sublist.map key)

/-- Add a row, unless its key is taken. -/
def insert? (t : Table key) (a : α) : Option (Table key) :=
  if h : key a ∈ t.rows.map key then none
  else some ⟨t.rows ++ [a], by
    rw [List.map_append, List.nodup_append]
    refine ⟨t.nodup, List.nodup_singleton _, fun x hx y hy => ?_⟩
    rw [List.map_singleton, List.mem_singleton] at hy
    rintro rfl
    exact h (hy ▸ hx)⟩

/-- Add a row in the place of one that has its key. -/
def put (t : Table key) (a : α) : Table key where
  rows := (t.erase (key a)).rows ++ [a]
  nodup := by
    rw [List.map_append, List.nodup_append]
    refine ⟨(t.erase (key a)).nodup, List.nodup_singleton _, fun x hx y hy => ?_⟩
    obtain ⟨b, hb, rfl⟩ := List.mem_map.1 hx
    rw [List.map_singleton, List.mem_singleton] at hy
    rw [hy]
    simpa using (List.mem_filter.1 hb).2

/-! ## Looking rows up -/

@[simp] theorem get?_empty (k : κ) : (∅ : Table key).get? k = none := rfl

theorem key_of_get? {t : Table key} (h : t.get? k = some a) : key a = k := by
  simpa using List.find?_some h

theorem get?_key {t : Table key} (h : t.get? k = some a) : t.get? (key a) = some a := by
  rwa [key_of_get? h]

theorem mem_of_get? {t : Table key} (h : t.get? k = some a) : a ∈ t.rows :=
  List.mem_of_find?_eq_some h

private theorem find?_key {l : List α} (hl : (l.map key).Nodup) (ha : a ∈ l) :
    l.find? (fun b => key b = key a) = some a := by
  induction l with
  | nil => cases ha
  | cons b l ih =>
    rw [List.map_cons, List.nodup_cons] at hl
    rcases List.mem_cons.1 ha with rfl | ha
    · simp
    · have hne : key b ≠ key a := fun h => hl.1 (h ▸ List.mem_map_of_mem ha)
      simp [hne, ih hl.2 ha]

theorem mem_rows {t : Table key} : a ∈ t.rows ↔ t.get? (key a) = some a :=
  ⟨find?_key t.nodup, mem_of_get?⟩

theorem get?_eq_none {t : Table key} : t.get? k = none ↔ k ∉ t.rows.map key := by
  simp only [get?, List.find?_eq_none, List.mem_map, decide_eq_true_eq, not_exists, not_and]

/-! ## What the statements do -/

theorem get?_set (t : Table key) (a : α) (k : κ) :
    (t.set a).get? k = if key a = k then (t.get? k).map fun _ => a else t.get? k := by
  obtain ⟨l, hl⟩ := t
  simp only [get?, set]
  clear hl
  induction l with
  | nil => simp
  | cons b l ih =>
    by_cases hb : key b = key a
    · by_cases hk : key a = k
      · simp [hb, hk]
      · simp only [List.map_cons, hb, if_true, List.find?_cons, hk, decide_false]
        simpa [hk] using ih
    · by_cases hk : key a = k
      · subst hk
        simp only [List.map_cons, hb, if_false, List.find?_cons, decide_false, if_true]
        simpa using ih
      · by_cases hbk : key b = k
        · subst hbk
          simp [hb, Ne.symm hb]
        · simp only [List.map_cons, hb, if_false, List.find?_cons, hbk, decide_false]
          simpa [hk] using ih

theorem get?_erase (t : Table key) (k k' : κ) :
    (t.erase k).get? k' = if k = k' then none else t.get? k' := by
  simp only [get?, erase, List.find?_filter]
  split_ifs with h
  · subst h
    exact List.find?_eq_none.2 fun a _ => by simp
  · congr 1
    funext a
    by_cases ha : key a = k' <;> simp [ha, Ne.symm h]

theorem get?_insert {t t' : Table key} (h : t.insert? a = some t') (k : κ) :
    t'.get? k = if key a = k then some a else t.get? k := by
  unfold insert? at h
  split at h
  · cases h
  rename_i hn
  cases h
  simp only [get?, List.find?_append]
  split_ifs with hk
  · subst hk
    rw [List.find?_eq_none.2 (by simpa using hn)]
    simp
  · simp [hk]

theorem get?_of_insert {t t' : Table key} (h : t.insert? a = some t') : t.get? (key a) = none := by
  unfold insert? at h
  split at h
  · cases h
  · exact get?_eq_none.2 ‹_›

theorem mem_erase {t : Table key} : a ∈ (t.erase k).rows ↔ a ∈ t.rows ∧ key a ≠ k := by
  simp only [erase, List.mem_filter, decide_eq_true_eq]

theorem mem_put {t : Table key} {b : α} : b ∈ (t.put a).rows ↔ b ∈ t.rows ∧ key b ≠ key a ∨ b = a := by
  simp only [put, List.mem_append, mem_erase, List.mem_singleton]

theorem get?_put (t : Table key) (a : α) (k : κ) :
    (t.put a).get? k = if key a = k then some a else t.get? k := by
  have happ : (t.put a).get? k = ((t.erase (key a)).get? k).or (if key a = k then some a else none) := by
    simp only [get?, put, List.find?_append, List.find?_singleton, decide_eq_true_eq]
  rw [happ, get?_erase]
  split_ifs with hk <;> simp

/-- A table with no new keys is no longer. -/
theorem length_le {t t' : Table key} (h : ∀ a ∈ t'.rows, t.get? (key a) ≠ none) :
    t'.rows.length ≤ t.rows.length := by
  have hsub : t'.rows.map key ⊆ t.rows.map key := by
    intro k hk
    obtain ⟨a, ha, rfl⟩ := List.mem_map.1 hk
    exact not_not.1 (mt get?_eq_none.2 (h a ha))
  simpa using (List.subperm_of_subset t'.nodup hsub).length_le

theorem length_insert {t t' : Table key} (h : t.insert? a = some t') : t'.rows.length = t.rows.length + 1 := by
  unfold insert? at h
  split at h
  · cases h
  · cases h
    simp

/-! ## Sums over the rows -/

/-- The weights of the rows that satisfy `p`. -/
def total (t : Table key) (p : α → Bool) (f : α → Int) : Int := ((t.rows.filter p).map f).sum

omit [DecidableEq κ] in
private theorem sum_filter_le {p : α → Bool} {f : α → Int} : ∀ (l' l : List α), (l'.map key).Nodup →
    (∀ a' ∈ l', ∃ a ∈ l, key a = key a' ∧ p a = p a' ∧ f a' ≤ f a) → (∀ a ∈ l, 0 ≤ f a) →
    ((l'.filter p).map f).sum ≤ ((l.filter p).map f).sum
  | [], l, _, _, h0 => by
    have hsum : ∀ m : List α, (∀ a ∈ m, 0 ≤ f a) → 0 ≤ (m.map f).sum := by
      intro m
      induction m with
      | nil => intro _; simp
      | cons a m ih =>
        intro hm
        have h₁ := hm a List.mem_cons_self
        have h₂ := ih fun b hb => hm b (List.mem_cons_of_mem _ hb)
        simp only [List.map_cons, List.sum_cons]
        omega
    exact hsum _ fun a ha => h0 a (List.mem_filter.1 ha).1
  | a' :: l', l, hnd, hl, h0 => by
    rw [List.map_cons, List.nodup_cons] at hnd
    obtain ⟨a, ha, hk, hp, hf⟩ := hl a' List.mem_cons_self
    obtain ⟨l₁, l₂, rfl⟩ := List.append_of_mem ha
    -- the partners of the other rows have other keys, so they are not `a`
    have hrest := sum_filter_le (p := p) (f := f) l' (l₁ ++ l₂) hnd.2 (fun b' hb' => by
      obtain ⟨b, hb, hbk, hrel⟩ := hl b' (List.mem_cons_of_mem _ hb')
      have hne : b ≠ a := by
        rintro rfl
        exact hnd.1 (List.mem_map.2 ⟨b', hb', hbk.symm.trans hk⟩)
      refine ⟨b, ?_, hbk, hrel⟩
      simpa [hne] using hb) fun b hb => h0 b (by
        rcases List.mem_append.1 hb with hb | hb <;> simp [hb])
    have h0a := h0 a ha
    simp only [List.filter_append, List.map_append, List.sum_append] at hrest
    simp only [List.filter_append, List.filter_cons, List.map_append, List.sum_append, hp]
    split_ifs
    · simp only [List.map_cons, List.sum_cons]
      omega
    · exact hrest

/-- Rows that come from rows with the same key and no smaller weight weigh no more. -/
theorem total_le {t t' : Table key} {p : α → Bool} {f : α → Int}
    (h : ∀ k a', t'.get? k = some a' → ∃ a, t.get? k = some a ∧ p a = p a' ∧ f a' ≤ f a)
    (h0 : ∀ a ∈ t.rows, 0 ≤ f a) : t'.total p f ≤ t.total p f := by
  refine sum_filter_le t'.rows t.rows t'.nodup (fun a' ha' => ?_) h0
  obtain ⟨a, ha, hrel⟩ := h _ a' (mem_rows.1 ha')
  exact ⟨a, mem_of_get? ha, key_of_get? ha, hrel⟩

theorem total_insert {t t' : Table key} (h : t.insert? a = some t') (p : α → Bool) (f : α → Int) :
    t'.total p f = t.total p f + if p a then f a else 0 := by
  unfold insert? at h
  split at h
  · cases h
  · cases h
    simp only [total, List.filter_append, List.map_append, List.sum_append]
    cases hp : p a <;> simp [hp]

end Table

end Framework
