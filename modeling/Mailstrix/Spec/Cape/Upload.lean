import Mailstrix.Framework.Run

/-!
# Uploading at most once

The protocol between a durable account and the workers, over any ids and attempts.  An attempt that
begins is owed for and gives out one ticket; a ticket is used for at most one upload; a worker hands
its ticket back, used or not; and only an id whose ticket is back can be proved unsent, which may clear
the account.
An attempt can also begin, or be found begun, without a ticket: it is then doomed.

* `no_second_upload`: between two uploads of an id its earlier attempt was proved unsent.
* `doomed_never_uploaded`: a doomed id is not uploaded again.
* `uploads_le_of_run`: the uploads of an id are at most one more than its proofs.
-/

namespace MS.Spec

open Framework

variable {ι ν : Type}

structure Ticket (ι ν : Type) where
  id : ι
  attempt : ν
  /-- The upload has started. -/
  sent : Bool

structure Desk (ι ν : Type) where
  /-- The attempt that is owed for. -/
  owed : ι → Option ν := fun _ => none
  /-- The tickets the workers hold. -/
  out : List (Ticket ι ν) := []
  /-- The ids whose tickets are back. -/
  back : List ι := []

namespace Desk

inductive Event (ι ν : Type)
  | upload (id : ι) (attempt : ν)
  | prove (id : ι) (attempt : ν)
  | doom (id : ι)
  | other

def ids (s : Desk ι ν) : List ι := s.out.map (·.id) ++ s.back

inductive Step [DecidableEq ι] : Desk ι ν → Event ι ν → Desk ι ν → Prop
  | stay {s : Desk ι ν} : Step s .other s
  | begin {s : Desk ι ν} {id : ι} {v : ν} : s.owed id = none → id ∉ s.ids →
      Step s .other { s with owed := Function.update s.owed id (some v), out := ⟨id, v, false⟩ :: s.out }
  | doomed {s : Desk ι ν} {id : ι} {v : ν} : s.owed id = none → id ∉ s.ids →
      Step s (.doom id) { s with owed := Function.update s.owed id (some v) }
  | found {s : Desk ι ν} {id : ι} {v : ν} : s.owed id = some v → s.ids = [] → Step s (.doom id) s
  | upload {s : Desk ι ν} {id : ι} {v : ν} {l r : List (Ticket ι ν)} : s.out = l ++ ⟨id, v, false⟩ :: r →
      Step s (.upload id v) { s with out := l ++ ⟨id, v, true⟩ :: r }
  | spend {s : Desk ι ν} {t : Ticket ι ν} {l r : List (Ticket ι ν)} : s.out = l ++ t :: r →
      Step s .other { s with out := l ++ { t with sent := true } :: r }
  | giveBack {s : Desk ι ν} {t : Ticket ι ν} {l r : List (Ticket ι ν)} : s.out = l ++ t :: r →
      Step s .other { s with out := l ++ r, back := s.back ++ [t.id] }
  | settle {s : Desk ι ν} {back : List ι} : back.Sublist s.back → Step s .other { s with back := back }
  | prove {s : Desk ι ν} {id : ι} {v : ν} : id ∈ s.back → s.owed id = some v →
      Step s (.prove id v) { s with owed := Function.update s.owed id none }
  | proveInVain {s : Desk ι ν} {id : ι} {v : ν} : id ∈ s.back → s.owed id = some v → Step s (.prove id v) s
  | crash {s : Desk ι ν} : Step s .other { s with out := [], back := [] }

def system [DecidableEq ι] : System (Desk ι ν) (Event ι ν) where
  init s := s = {}
  step := Step

/-- Some attempt of `id` is proved unsent. -/
def Event.Proves (id : ι) (e : Event ι ν) : Prop := ∃ v, e = .prove id v

/-- What the accounts and the tickets have to do with the history. -/
structure Inv (es : List (Event ι ν)) (s : Desk ι ν) : Prop where
  nodup : s.ids.Nodup
  owed : ∀ t ∈ s.out, s.owed t.id = some t.attempt
  fresh : ∀ t ∈ s.out, t.sent = false → ∀ v, ¬ Since (· = .upload t.id v) (Event.Proves t.id) es
  sent : ∀ id v, Since (· = .upload id v) (Event.Proves id) es → s.owed id = some v
  doomed : ∀ id, .doom id ∈ es → s.owed id ≠ none ∧ id ∉ s.ids

theorem Inv.init : Inv ([] : List (Event ι ν)) {} := by
  refine ⟨List.nodup_nil, ?_, ?_, fun id v h => absurd h not_since_nil, ?_⟩ <;> simp

/-- A label that is neither an upload nor a proof leaves what was sent since the last proof. -/
theorem since_other {es : List (Event ι ν)} {e : Event ι ν} {id : ι} {v : ν} (hu : ∀ v, e ≠ .upload id v)
    (hp : ∀ v, e ≠ .prove id v) :
    Since (· = .upload id v) (Event.Proves id) (es ++ [e]) ↔ Since (· = .upload id v) (Event.Proves id) es := by
  rw [since_snoc]
  simp [hu, hp, Event.Proves]

/-- The same accounts with fewer tickets, or more of them spent. -/
theorem Inv.fewer {es : List (Event ι ν)} {s s' : Desk ι ν} (h : Inv es s) (howed : s'.owed = s.owed)
    (hnodup : s'.ids.Nodup) (hids : ∀ id ∈ s'.ids, id ∈ s.ids)
    (hout : ∀ t ∈ s'.out, t ∈ s.out ∨ t.sent = true ∧ ∃ b, { t with sent := b } ∈ s.out) : Inv es s' where
  nodup := hnodup
  owed t ht := by
    rw [howed]
    rcases hout t ht with ht | ⟨-, b, ht⟩
    · exact h.owed t ht
    · exact h.owed { t with sent := b } ht
  fresh t ht hf := by
    rcases hout t ht with ht | ⟨hs, -⟩
    · exact h.fresh t ht hf
    · simp [hf] at hs
  sent id v hs := by rw [howed]; exact h.sent id v hs
  doomed id hd := ⟨by rw [howed]; exact (h.doomed id hd).1, fun hid => (h.doomed id hd).2 (hids id hid)⟩

/-- A label that tells nothing. -/
theorem Inv.other {es : List (Event ι ν)} {s : Desk ι ν} (h : Inv es s) : Inv (es ++ [.other]) s where
  nodup := h.nodup
  owed := h.owed
  fresh t ht hf v hs := h.fresh t ht hf v ((since_other (by simp) (by simp)).1 hs)
  sent id v hs := h.sent id v ((since_other (by simp) (by simp)).1 hs)
  doomed id hd := h.doomed id (by simpa using hd)

/-- Nothing has been sent for an id that owes nothing. -/
theorem Inv.unsent {es : List (Event ι ν)} {s : Desk ι ν} {id : ι} (h : Inv es s) (hid : s.owed id = none) (v : ν) :
    ¬ Since (· = .upload id v) (Event.Proves id) es := fun hs => by
  simp [h.sent id v hs] at hid

section Steps
variable {es : List (Event ι ν)} {s s' : Desk ι ν} {id : ι} {v : ν}

theorem Inv.step_found (h : Inv es s) (hid : s.owed id = some v) (hempty : s.ids = []) :
    Inv (es ++ [.doom id]) s where
  nodup := h.nodup
  owed := h.owed
  fresh t ht hf v hs := h.fresh t ht hf v ((since_other (by simp) (by simp)).1 hs)
  sent id' v' hs := h.sent id' v' ((since_other (by simp) (by simp)).1 hs)
  doomed id' hd := by
    by_cases he : id' = id
    · subst he
      simp [hid, hempty]
    · exact h.doomed id' (by simpa [he] using hd)

theorem Inv.step_upload {l r : List (Ticket ι ν)} (h : Inv es s) (hout : s.out = l ++ ⟨id, v, false⟩ :: r) :
    Inv (es ++ [.upload id v]) { s with out := l ++ ⟨id, v, true⟩ :: r } := by
  have hmem : (⟨id, v, false⟩ : Ticket ι ν) ∈ s.out := by simp [hout]
  have hids : ({ s with out := l ++ ⟨id, v, true⟩ :: r } : Desk ι ν).ids = s.ids := by simp [ids, hout]
  have howed : s.owed id = some v := h.owed _ hmem
  -- the used ticket is the only one of its id
  have hother : ∀ t ∈ l ++ r, t ∈ s.out ∧ t.id ≠ id := fun t ht => by
    refine ⟨?_, ?_⟩
    · rcases List.mem_append.1 ht with ht | ht <;> simp [hout, ht]
    · have hnd := h.nodup
      simp only [ids, hout, List.map_append, List.map_cons] at hnd
      have hnd := (List.nodup_append.1 hnd).1
      rw [List.nodup_middle, List.nodup_cons] at hnd
      intro he
      exact hnd.1 (by rw [← List.map_append]; exact he ▸ List.mem_map_of_mem ht)
  have hcases : ∀ t ∈ l ++ ⟨id, v, true⟩ :: r, t = ⟨id, v, true⟩ ∨ t ∈ l ++ r := fun t ht => by
    simpa [or_left_comm] using ht
  refine ⟨hids ▸ h.nodup, fun t ht => ?_, fun t ht hf v' hs => ?_, fun id' v' hs => ?_, fun id' hd => ?_⟩
  · rcases hcases t ht with rfl | ht
    · exact howed
    · exact h.owed t (hother t ht).1
  · rcases hcases t ht with rfl | ht
    · cases hf
    · have hne := (hother t ht).2
      exact h.fresh t (hother t ht).1 hf v' ((since_other (by simp [hne.symm]) (by simp)).1 hs)
  · rcases since_snoc.1 hs with he | ⟨hs, -⟩
    · cases he
      exact howed
    · exact h.sent id' v' hs
  · rw [hids]
    exact h.doomed id' (by simpa using hd)

/-- A proof for an id whose ticket is back, accepted or not. -/
theorem Inv.step_prove (h : Inv es s) (hback : id ∈ s.back) {owed : ι → Option ν}
    (hother : ∀ id', id' ≠ id → owed id' = s.owed id') : Inv (es ++ [.prove id v]) { s with owed := owed } := by
  have hne : ∀ t ∈ s.out, t.id ≠ id := fun t ht he => by
    have hdis := (List.nodup_append.1 h.nodup).2.2
    exact hdis t.id (List.mem_map_of_mem ht) id hback he
  refine ⟨h.nodup, fun t ht => ?_, fun t ht hf v' hs => ?_, fun id' v' hs => ?_, fun id' hd => ?_⟩
  · exact (hother t.id (hne t ht)).trans (h.owed t ht)
  · rcases since_snoc.1 hs with he | ⟨hs, -⟩
    · cases he
    · exact h.fresh t ht hf v' hs
  · rcases since_snoc.1 hs with he | ⟨hs, hno⟩
    · cases he
    · have hne : id' ≠ id := fun he => hno ⟨v, by rw [he]⟩
      exact (hother id' hne).trans (h.sent id' v' hs)
  · have hd : .doom id' ∈ es := by simpa using hd
    have hne : id' ≠ id := fun he => (h.doomed id' hd).2 (he ▸ by simp [ids, hback])
    exact ⟨by simpa only [hother id' hne] using (h.doomed id' hd).1, (h.doomed id' hd).2⟩

variable [DecidableEq ι]

theorem owed_update {x : Option ν} {id' : ι} (hne : id' ≠ id) :
    Function.update s.owed id x id' = s.owed id' := Function.update_of_ne hne x s.owed

theorem Inv.begin (h : Inv es s) (hid : s.owed id = none) (hfree : id ∉ s.ids) :
    Inv es { s with owed := Function.update s.owed id (some v), out := ⟨id, v, false⟩ :: s.out } where
  nodup := List.nodup_cons.2 ⟨hfree, h.nodup⟩
  owed t ht := by
    rcases List.mem_cons.1 ht with rfl | ht
    · simp
    · have hne : t.id ≠ id := fun he => by simp [← he, h.owed t ht] at hid
      exact (owed_update hne).trans (h.owed t ht)
  fresh t ht hf := by
    rcases List.mem_cons.1 ht with rfl | ht
    · exact h.unsent hid
    · exact h.fresh t ht hf
  sent id' v' hs := by
    have hne : id' ≠ id := fun he => h.unsent hid v' (he ▸ hs)
    exact (owed_update hne).trans (h.sent id' v' hs)
  doomed id' hd := by
    have hne : id' ≠ id := fun he => (h.doomed id' hd).1 (he ▸ hid)
    refine ⟨by simpa only [owed_update hne] using (h.doomed id' hd).1, ?_⟩
    simp only [ids, List.map_cons, List.cons_append, List.mem_cons, not_or]
    exact ⟨hne, (h.doomed id' hd).2⟩

theorem Inv.step_doomed (h : Inv es s) (hid : s.owed id = none) (hfree : id ∉ s.ids) :
    Inv (es ++ [.doom id]) { s with owed := Function.update s.owed id (some v) } where
  nodup := h.nodup
  owed t ht := by
    have hne : t.id ≠ id := fun he => by simp [← he, h.owed t ht] at hid
    exact (owed_update hne).trans (h.owed t ht)
  fresh t ht hf v hs := h.fresh t ht hf v ((since_other (by simp) (by simp)).1 hs)
  sent id' v' hs := by
    have hs := (since_other (by simp) (by simp)).1 hs
    have hne : id' ≠ id := fun he => h.unsent hid v' (he ▸ hs)
    exact (owed_update hne).trans (h.sent id' v' hs)
  doomed id' hd := by
    by_cases he : id' = id
    · subst he
      exact ⟨by simp, hfree⟩
    · have hd : .doom id' ∈ es := by simpa [he] using hd
      exact ⟨by simpa only [owed_update he] using (h.doomed id' hd).1, (h.doomed id' hd).2⟩

theorem Inv.step {e : Event ι ν} (h : Inv es s) (hs : Step s e s') : Inv (es ++ [e]) s' := by
  cases hs with
  | stay => exact h.other
  | begin hid hfree => exact h.other.begin hid hfree
  | doomed hid hfree => exact h.step_doomed hid hfree
  | found hid hempty => exact h.step_found hid hempty
  | upload hout => exact h.step_upload hout
  | @spend t l r hout =>
    have hids : ({ s with out := l ++ { t with sent := true } :: r } : Desk ι ν).ids = s.ids := by simp [ids, hout]
    refine h.other.fewer rfl (hids ▸ h.nodup) (fun id hid => hids ▸ hid) fun u hu => ?_
    rcases List.mem_append.1 hu with hu | hu
    · exact .inl (by simp [hout, hu])
    · rcases List.mem_cons.1 hu with rfl | hu
      · exact .inr ⟨rfl, t.sent, by simp [hout]⟩
      · exact .inl (by simp [hout, hu])
  | @giveBack t l r hout =>
    have hperm : (({ s with out := l ++ r, back := s.back ++ [t.id] } : Desk ι ν).ids).Perm s.ids := by
      simp only [ids, hout, List.map_append, List.map_cons]
      rw [← List.append_assoc]
      exact List.perm_append_singleton _ _ |>.trans (List.perm_middle.symm.append_right s.back)
    refine h.other.fewer rfl (hperm.nodup_iff.2 h.nodup) (fun id hid => hperm.mem_iff.1 hid) fun u hu => ?_
    refine .inl ?_
    rcases List.mem_append.1 hu with hu | hu <;> simp [hout, hu]
  | @settle back hsub =>
    have hids : ({ s with back := back } : Desk ι ν).ids.Sublist s.ids := List.Sublist.append_left hsub _
    exact h.other.fewer rfl (hids.nodup h.nodup) (fun id hid => hids.subset hid) fun t ht => .inl ht
  | prove hback => exact h.step_prove hback fun id' hne => owed_update hne
  | proveInVain hback => exact h.step_prove hback fun _ _ => rfl
  | crash => exact h.other.fewer rfl List.nodup_nil (by simp [ids]) (by simp)

theorem run_inv (h : Run system {} es s) : Inv es s :=
  h.history (I := Inv) .init fun _ _ _ _ _ hI hstep => hI.step hstep

/-- The ticket an upload uses was not used since the last proof of its id. -/
theorem Inv.unsent_of_upload (h : Inv es s) (hs : Step s (.upload id v) s') (v' : ν) :
    ¬ Since (· = .upload id v') (Event.Proves id) es := by
  cases hs with
  | upload hout => exact h.fresh ⟨id, v, false⟩ (by simp [hout]) rfl v'

theorem Inv.not_doomed_of_upload (h : Inv es s) (hs : Step s (.upload id v) s') : .doom id ∉ es := fun hd => by
  cases hs with
  | upload hout => exact (h.doomed id hd).2 (by simp [ids, hout])

/-! ## Whole runs -/

/-- Until its attempt is proved unsent, an upload is the last thing that happened to its account. -/
theorem since_upload {before mid : List (Event ι ν)} (h : Run system {} (before ++ .upload id v :: mid) s)
    (hmid : .prove id v ∉ mid) : Since (· = .upload id v) (Event.Proves id) (before ++ .upload id v :: mid) := by
  induction mid using List.reverseRecOn generalizing s with
  | nil => exact since_snoc.2 (.inl rfl)
  | append_singleton mid e ih =>
    rw [← List.cons_append, ← List.append_assoc] at h ⊢
    obtain ⟨s₁, h₁, h₂⟩ := h.split
    obtain ⟨s₂, hstep, -⟩ := h₂.cons_inv
    have hsince := ih h₁ (fun hp => hmid (by simp [hp]))
    refine since_snoc.2 (.inr ⟨hsince, ?_⟩)
    rintro ⟨v', rfl⟩
    have howed := (run_inv h₁).sent id v hsince
    cases hstep with
    | prove _ howed' | proveInVain _ howed' =>
      rw [howed] at howed'
      cases howed'
      exact hmid (by simp)

/-- Between two uploads of an id, the attempt of the first was proved unsent. -/
theorem no_second_upload {before mid after : List (Event ι ν)} {v' : ν}
    (h : Run system {} (before ++ .upload id v :: (mid ++ .upload id v' :: after)) s) : .prove id v ∈ mid := by
  rw [← List.cons_append, ← List.append_assoc] at h
  obtain ⟨s₁, h₁, h₂⟩ := h.split
  obtain ⟨s₂, hstep, -⟩ := h₂.cons_inv
  by_contra hmid
  exact (run_inv h₁).unsent_of_upload hstep v (since_upload h₁ hmid)

theorem doomed_never_uploaded {before after : List (Event ι ν)}
    (h : Run system {} (before ++ .doom id :: after) s) (v : ν) : .upload id v ∉ after := fun hmem => by
  obtain ⟨mid, rest, rfl⟩ := List.append_of_mem hmem
  rw [← List.cons_append, ← List.append_assoc] at h
  obtain ⟨s₁, h₁, h₂⟩ := h.split
  obtain ⟨s₂, hstep, -⟩ := h₂.cons_inv
  exact (run_inv h₁).not_doomed_of_upload hstep (by simp)

def Event.isUpload (id : ι) : Event ι ν → Bool
  | .upload i _ => i = id
  | _ => false

def Event.isProof (id : ι) : Event ι ν → Bool
  | .prove i _ => i = id
  | _ => false

/-- The uploads of an id are at most one more than its proofs, and no more than them unless it was
uploaded since the last one. -/
theorem uploads_le_of_run (h : Run system {} es s) (id : ι) :
    es.countP (Event.isUpload id) ≤ es.countP (Event.isProof id) + 1 ∧
      ((∀ v, ¬ Since (· = .upload id v) (Event.Proves id) es) →
        es.countP (Event.isUpload id) ≤ es.countP (Event.isProof id)) := by
  refine h.history (I := fun es _ => es.countP (Event.isUpload id) ≤ es.countP (Event.isProof id) + 1 ∧
      ((∀ v, ¬ Since (· = .upload id v) (Event.Proves id) es) →
        es.countP (Event.isUpload id) ≤ es.countP (Event.isProof id))) ⟨by simp, by simp⟩ ?_
  rintro s es e s' hrun ⟨hle, hunsent⟩ hstep
  rw [List.countP_append, List.countP_append]
  -- only uploads and proofs of `id` count
  have hquiet : (∀ v, e ≠ .upload id v) → (∀ v, e ≠ .prove id v) →
      [e].countP (Event.isUpload id) = 0 ∧ [e].countP (Event.isProof id) = 0 := fun hu hp => by
    cases e with
    | upload i v => simpa [Event.isUpload, Event.isProof] using fun he => hu v (by rw [he])
    | prove i v => simpa [Event.isUpload, Event.isProof] using fun he => hp v (by rw [he])
    | doom | other => exact ⟨rfl, rfl⟩
  by_cases hu : ∃ v, e = .upload id v
  · obtain ⟨v, rfl⟩ := hu
    have hle' := hunsent ((run_inv hrun).unsent_of_upload hstep)
    refine ⟨?_, fun hno => (hno v (since_snoc.2 (.inl rfl))).elim⟩
    simp only [List.countP_singleton, Event.isUpload, Event.isProof, decide_true, if_true, Bool.false_eq_true, if_false]
    omega
  · by_cases hp : ∃ v, e = .prove id v
    · obtain ⟨v, rfl⟩ := hp
      simp only [List.countP_singleton, Event.isUpload, Event.isProof, decide_true, if_true, Bool.false_eq_true, if_false]
      omega
    · simp only [not_exists] at hu hp
      obtain ⟨h₁, h₂⟩ := hquiet hu hp
      rw [h₁, h₂]
      refine ⟨hle, fun hno => hunsent fun v hs => hno v ((since_other hu hp).2 hs)⟩

end Steps

end Desk

end MS.Spec
