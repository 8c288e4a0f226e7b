import Mailstrix.Framework.Recency
import Mailstrix.Framework.Run

/-!
# What a verdict cache is for

A recency list of values that are good until they expire.  A value that is put moves its key to the
front, and the least recently used items go until both bounds hold; one that exceeds the bound by
itself only takes the old value of its key away.
-/

namespace MS.Spec

open Framework Recency

/-- A value and until when it is good. -/
structure Stored (ν : Type) where
  value : ν
  expires : Int

inductive Call (κ ν : Type)
  | get (key : κ) (now : Int) (result : Option ν)
  | put (key : κ) (value : ν) (weight : Nat) (expires : Int)
  | flush

variable {κ ν : Type} [DecidableEq κ]

def fetch (xs : List (Item κ (Stored ν))) (key : κ) (now : Int) : List (Item κ (Stored ν)) × Option ν :=
  match get? xs key with
  | none => (xs, none)
  | some x => if now < x.value.expires then (push xs x, some x.value.value) else (erase xs key, none)

def store (w n : Nat) (xs : List (Item κ (Stored ν))) (x : Item κ (Stored ν)) : List (Item κ (Stored ν)) :=
  if x.weight > w then erase xs x.key else trim w n (push xs x)

/-- The machine with room for `n` items that weigh at most `w`. -/
def recencySystem (w n : Nat) : System (List (Item κ (Stored ν))) (Call κ ν) where
  init xs := xs = []
  step xs call xs' :=
    match call with
    | .get key now result => fetch xs key now = (xs', result)
    | .put key value weight expires => xs' = store w n xs ⟨key, ⟨value, expires⟩, weight⟩
    | .flush => xs' = []

theorem fetch_hit {xs : List (Item κ (Stored ν))} {key : κ} {now : Int} {v : ν} :
    (fetch xs key now).2 = some v ↔ ∃ x, get? xs key = some x ∧ now < x.value.expires ∧ x.value.value = v := by
  unfold fetch
  cases get? xs key with
  | none => simp
  | some x => by_cases hlive : now < x.value.expires <;> simp [hlive]

/-- What is put is in front, if it has room at all. -/
theorem head_store {w n : Nat} (hn : 0 < n) (xs : List (Item κ (Stored ν))) {x : Item κ (Stored ν)}
    (hx : x.weight ≤ w) : (store w n xs x).head? = some x := by
  rw [store, if_neg (by omega), push, trim, if_pos ⟨hx, hn⟩, List.head?_cons]

/-- What is there after a step was there before it, or the step has put it. -/
theorem mem_of_step {w n : Nat} {xs xs' : List (Item κ (Stored ν))} {call : Call κ ν}
    (h : (recencySystem w n).step xs call xs') {x : Item κ (Stored ν)} (hx : x ∈ xs') :
    (x ∈ xs ∧ ∀ v weight expires, call ≠ .put x.key v weight expires) ∨
      call = .put x.key x.value.value x.weight x.value.expires ∧ x.weight ≤ w := by
  cases call with
  | get key now result =>
    refine .inl ⟨?_, fun _ _ _ he => by cases he⟩
    have h : fetch xs key now = (xs', result) := h
    unfold fetch at h
    split at h
    · cases h
      exact hx
    · rename_i y hy
      split_ifs at h
      · cases h
        rcases List.mem_cons.1 hx with rfl | hx
        · exact List.mem_of_find?_eq_some hy
        · exact (List.mem_filter.1 hx).1
      · cases h
        exact (List.mem_filter.1 hx).1
  | put key value weight expires =>
    have h : xs' = store w n xs ⟨key, ⟨value, expires⟩, weight⟩ := h
    have hold : ∀ y ∈ erase xs key, y ∈ xs ∧ ∀ v weight' expires',
        Call.put key value weight expires ≠ .put y.key v weight' expires' := by
      intro y hy
      obtain ⟨hmem, hne⟩ := List.mem_filter.1 hy
      refine ⟨hmem, fun _ _ _ he => of_decide_eq_true hne ?_⟩
      cases he
      rfl
    rw [h, store] at hx
    split_ifs at hx with hw
    · exact .inl (hold x hx)
    · rcases List.mem_cons.1 ((trim_sublist ..).subset hx) with rfl | hx
      · exact .inr ⟨rfl, Nat.not_lt.1 hw⟩
      · exact .inl (hold x hx)
  | flush =>
    have h : xs' = [] := h
    rw [h] at hx
    cases hx

end MS.Spec
