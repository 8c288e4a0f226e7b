import Mailstrix.Proof.Cape.Payload

/-!
# The spool of a running store

What holds of the directory whatever part of the pending operations a power failure keeps, row by row
(`SpoolInv`), and that every step of a running store keeps it (`upStep_inv`): the payload of a row that
may still have to be sent is there in every image, and no image has more entries than recovery reads.
-/

namespace MS.Cape

open Framework

variable {d : Dir} {o : DirOp} {n : Name} {l : Lock} {i : Inode}

/-! ## Directories -/

/-- The files of a directory: each has one name, and it is the name of the job it was created for. -/
structure Tidy (d : Dir) : Prop where
  named : ∀ e ∈ d.rows, e.inode.id = e.name.id
  inodes : (d.rows.map Entry.inode).Nodup

theorem Tidy.erase (h : Tidy d) (n : Name) : Tidy (d.erase n) where
  named e he := h.named e (Table.mem_erase.1 he).1
  inodes := h.inodes.sublist (List.filter_sublist.map _)

theorem Tidy.put (h : Tidy d) {e : Entry} (he : e.inode.id = e.name.id)
    (hfree : ∀ e' ∈ d.rows, e'.name ≠ e.name → e'.inode ≠ e.inode) : Tidy (d.put e) where
  named e' he' := by
    rcases Table.mem_put.1 he' with ⟨he', -⟩ | rfl
    · exact h.named e' he'
    · exact he
  inodes := by
    simp only [Table.put, List.map_append, List.map_singleton]
    rw [List.nodup_append]
    refine ⟨(h.erase e.name).inodes, List.nodup_singleton _, fun i hi i' hi' => ?_⟩
    obtain ⟨e', he', rfl⟩ := List.mem_map.1 hi
    rw [List.mem_singleton.1 hi']
    obtain ⟨hmem, hne⟩ := Table.mem_erase.1 he'
    exact hfree e' hmem hne

/-- The job whose names an operation changes. -/
def DirOp.id : DirOp → JobID
  | .create id _ => id
  | .rename id _ => id
  | .unlink n => n.id

def DirOp.creates : DirOp → Option Inode
  | .create _ i => some i
  | _ => none

theorem apply_get? (d : Dir) (h : n.id ≠ o.id) : (DirOp.apply d o).get? n = d.get? n := by
  cases o with
  | create id i =>
    have hne : (⟨id, .tmp⟩ : Name) ≠ n := fun he => h (he ▸ rfl)
    simp only [DirOp.apply, Table.get?_put, if_neg hne]
  | rename id i =>
    have hne : ∀ ext, (⟨id, ext⟩ : Name) ≠ n := fun ext he => h (he ▸ rfl)
    simp only [DirOp.apply, Table.get?_put, Table.get?_erase, if_neg (hne .tmp), if_neg (hne .blob)]
  | unlink m =>
    have hne : m ≠ n := fun he => h (he ▸ rfl)
    simp only [DirOp.apply, Table.get?_erase, if_neg hne]

/-! ## Images -/

namespace Spool

variable {s s' : Spool}

/-- The files created since the directory was last synced. -/
def created (s : Spool) : List Inode := s.dir.pending.filterMap DirOp.creates

/-- The files some image of the directory may name. -/
def known (s : Spool) : List Inode := s.dir.base.rows.map Entry.inode ++ s.created

def push (s : Spool) (o : DirOp) : Spool := { s with dir := s.dir.push o }

theorem image_live : s.Image s.live := WriteBack.image_view

theorem live_push (o : DirOp) : (s.push o).live = DirOp.apply s.live o := WriteBack.view_push

theorem image_push :
    (s.push o).Image d ↔ s.Image d ∨ ∃ d', s.Image d' ∧ d = DirOp.apply d' o := WriteBack.image_push

theorem image_sync : s.sync.Image d ↔ d = s.live := WriteBack.image_nil

theorem created_push (o : DirOp) : (s.push o).created = s.created ++ o.creates.toList := by
  simp only [created, push, WriteBack.push, List.filterMap_append]
  cases ho : o.creates <;> simp [ho]

theorem known_push (o : DirOp) : (s.push o).known = s.known ++ o.creates.toList := by
  simp only [known, created_push, List.append_assoc]
  rfl

/-- The two spools agree about one job, in what the process sees and in what a failure may leave. -/
structure Same (id : JobID) (s s' : Spool) : Prop where
  live : ∀ ext, s'.live.get? ⟨id, ext⟩ = s.live.get? ⟨id, ext⟩
  image : ∀ d', s'.Image d' → ∃ d, s.Image d ∧ ∀ ext, d'.get? ⟨id, ext⟩ = d.get? ⟨id, ext⟩
  files : ∀ i : Inode, i.id = id → s'.files i = s.files i
  created : id ∈ s'.created.map Inode.id → id ∈ s.created.map Inode.id

theorem Same.refl (id : JobID) (s : Spool) : Same id s s :=
  ⟨fun _ => rfl, fun d' h => ⟨d', h, fun _ => rfl⟩, fun _ _ => rfl, fun h => h⟩

theorem same_push {id : JobID} (h : id ≠ o.id) (hc : ∀ i, o.creates = some i → i.id = o.id) :
    Same id s (s.push o) where
  live ext := by rw [live_push, apply_get? _ h]
  image d' hd' := by
    rcases image_push.1 hd' with hd' | ⟨d, hd, rfl⟩
    · exact ⟨d', hd', fun _ => rfl⟩
    · exact ⟨d, hd, fun ext => apply_get? _ h⟩
  files _ _ := rfl
  created hid := by
    rw [created_push, List.map_append, List.mem_append] at hid
    refine hid.resolve_right fun hid => ?_
    obtain ⟨i, hi, rfl⟩ := List.mem_map.1 hid
    rw [Option.mem_toList] at hi
    exact h (hc i hi)

theorem same_files {id : JobID} {f : Inode → File} (h : ∀ i : Inode, i.id = id → f i = s.files i) :
    Same id s { s with files := f } := ⟨fun _ => rfl, fun d' hd' => ⟨d', hd', fun _ => rfl⟩, h, fun hid => hid⟩

theorem same_create {id id' : JobID} (h : id' ≠ id) : Same id' s (s.create id) := by
  have hpush : Same id' s (s.push (.create id ⟨id, s.serial⟩)) := same_push h fun i hi => by cases hi; rfl
  refine ⟨hpush.live, hpush.image, fun i hi => Function.update_of_ne ?_ _ _, hpush.created⟩
  rintro rfl
  exact h hi.symm

theorem same_sync (id : JobID) : Same id s s.sync where
  live _ := rfl
  image d' hd' := by
    rw [image_sync.1 hd']
    exact ⟨s.live, image_live, fun _ => rfl⟩
  files _ _ := rfl
  created hid := by cases hid

theorem removeStoreFile_cases (n : Name) : s.removeStoreFile n = (true, s.push (.unlink n)) ∨
    s.removeStoreFile n = (false, s) ∧ s.live.get? n = none := by
  unfold removeStoreFile
  split_ifs with h
  · exact .inl rfl
  · exact .inr ⟨rfl, by simpa using h⟩

theorem live_removeStoreFile (n m : Name) :
    (s.removeStoreFile n).2.live.get? m = if n = m then none else s.live.get? m := by
  rcases removeStoreFile_cases (s := s) n with h | ⟨h, hnone⟩
  · rw [h, live_push, DirOp.apply, Table.get?_erase]
  · rw [h]
    split_ifs with he
    · exact he ▸ hnone
    · rfl

theorem same_remove {id : JobID} (h : id ≠ n.id) : Same id s (s.removeStoreFile n).2 := by
  rcases removeStoreFile_cases (s := s) n with he | ⟨he, -⟩
  · rw [he]
    exact same_push h fun i hi => by cases hi
  · rw [he]
    exact .refl id s

end Spool

/-! ## Payloads -/

/-- A synced file of this size, which is one a store accepts. -/
structure File.Payload (f : File) (size : Int) : Prop where
  synced : f.synced = true
  length : (f.data.length : Int) = size
  pos : 1 ≤ size
  bound : size ≤ maxAttachmentLimit

/-- Every image of the directory has the payload of the job. -/
def Spool.Holds (s : Spool) (id : JobID) (size : Int) : Prop :=
  ∃ i : Inode, i.id = id ∧ (∀ d, s.Image d → d.get? ⟨id, .blob⟩ = some ⟨⟨id, .blob⟩, i⟩) ∧
    (s.files i).Payload size

theorem Spool.Same.holds {s s' : Spool} {id : JobID} {size : Int} (h : Spool.Same id s s') (hs : s.Holds id size) :
    s'.Holds id size := by
  obtain ⟨i, hi, himage, hfile⟩ := hs
  refine ⟨i, hi, fun d' hd' => ?_, by rwa [h.files i hi]⟩
  obtain ⟨d, hd, he⟩ := h.image d' hd'
  rw [he, himage d hd]

/-- The row of an upload that is not published. -/
def Staging (t : Table Job.id) (id : JobID) : Prop := ∃ j, t.get? id = some j ∧ j.state = .staging

/-- The spool and the rows fit together. -/
structure SpoolInv (t : Table Job.id) (s : Spool) : Prop where
  tidy : ∀ d, s.Image d → Tidy d ∧ ∀ e ∈ d.rows, e.inode ∈ s.known
  fresh : ∀ i ∈ s.known, i.serial < s.serial
  base : s.dir.base.rows.length ≤ 10000
  created : (s.created.map Inode.id).Nodup
  staged : ∀ i ∈ s.created, Staging t i.id
  live : ∀ n e, s.live.get? n = some e → ∃ j, t.get? n.id = some j ∧ (n.ext = .tmp → j.state = .staging)
  single : ∀ id, s.live.get? ⟨id, .tmp⟩ = none ∨ s.live.get? ⟨id, .blob⟩ = none
  kept : ∀ id j, t.get? id = some j → kept j.state = true → s.Holds id j.payloadBytes

section
variable {t t' : Table Job.id} {s : Spool}

theorem Staging.not_kept {id : JobID} (h : Staging t id) {j : Job} (hj : t.get? id = some j) :
    kept j.state = false := by
  obtain ⟨j', hj', hs⟩ := h
  rw [hj] at hj'
  cases hj'
  rw [hs]
  rfl

/-- The files of jobs that need none may change. -/
theorem SpoolInv.files (h : SpoolInv t s) {f : Inode → File} {n : Nat} (hn : s.serial ≤ n)
    (hf : ∀ (i : Inode) j, t.get? i.id = some j → MS.Cape.kept j.state = true → f i = s.files i) :
    SpoolInv t { s with files := f, serial := n } where
  tidy := h.tidy
  fresh i hi := (h.fresh i hi).trans_le hn
  base := h.base
  created := h.created
  staged := h.staged
  live := h.live
  single := h.single
  kept id j hj hk := by
    refine (Spool.same_files fun i hi => ?_).holds (h.kept id j hj hk)
    exact hf i j (hi ▸ hj) hk

/-- A directory operation for a job whose payload is not needed. -/
theorem SpoolInv.push (h : SpoolInv t s) (hrow : ∀ j, t.get? o.id = some j → MS.Cape.kept j.state = false)
    (htidy : ∀ d, s.Image d → Tidy (DirOp.apply d o) ∧
      ∀ e ∈ (DirOp.apply d o).rows, e.inode ∈ s.known ++ o.creates.toList) (hnew : ∀ i, o.creates = some i →
      i.id = o.id ∧ i.serial < s.serial ∧ Staging t i.id ∧ i.id ∉ s.created.map Inode.id)
    (hlive : ∀ ext e, (DirOp.apply s.live o).get? ⟨o.id, ext⟩ = some e →
      ∃ j, t.get? o.id = some j ∧ (ext = .tmp → j.state = .staging))
    (hsingle : (DirOp.apply s.live o).get? ⟨o.id, .tmp⟩ = none ∨
      (DirOp.apply s.live o).get? ⟨o.id, .blob⟩ = none) : SpoolInv t (s.push o) where
  tidy d hd := by
    rw [Spool.known_push]
    rcases Spool.image_push.1 hd with hd | ⟨d', hd', rfl⟩
    · exact ⟨(h.tidy d hd).1, fun e he => List.mem_append_left _ ((h.tidy d hd).2 e he)⟩
    · exact htidy d' hd'
  fresh i hi := by
    rw [Spool.known_push, List.mem_append, Option.mem_toList] at hi
    rcases hi with hi | hi
    · exact h.fresh i hi
    · exact (hnew i hi).2.1
  base := h.base
  created := by
    rw [Spool.created_push, List.map_append]
    cases ho : o.creates with
    | none => simpa using h.created
    | some i =>
      rw [List.nodup_append]
      refine ⟨h.created, by simp, fun a ha b hb => ?_⟩
      simp only [Option.toList_some, List.map_singleton, List.mem_singleton] at hb
      rw [hb]
      exact fun he => (hnew i ho).2.2.2 (he ▸ ha)
  staged i hi := by
    rw [Spool.created_push, List.mem_append, Option.mem_toList] at hi
    rcases hi with hi | hi
    · exact h.staged i hi
    · exact (hnew i hi).2.2.1
  live n e he := by
    rw [Spool.live_push] at he
    by_cases hn : n.id = o.id
    · rw [hn]
      exact hlive n.ext e (by rwa [← hn])
    · rw [apply_get? _ hn] at he
      exact h.live n e he
  single id := by
    rw [Spool.live_push]
    by_cases hid : id = o.id
    · rwa [hid]
    · rw [apply_get? _ (show (⟨id, .tmp⟩ : Name).id ≠ o.id from hid),
        apply_get? _ (show (⟨id, .blob⟩ : Name).id ≠ o.id from hid)]
      exact h.single id
  kept id j hj hk := by
    have hne : id ≠ o.id := by
      rintro rfl
      simp [hrow j hj] at hk
    exact (Spool.same_push hne fun i hi => (hnew i hi).1).holds (h.kept id j hj hk)

theorem SpoolInv.unlink (h : SpoolInv t s) (hrow : ∀ j, t.get? n.id = some j → MS.Cape.kept j.state = false) :
    SpoolInv t (s.push (.unlink n)) := by
  have hsub : ∀ m e, (s.live.erase n).get? m = some e → s.live.get? m = some e := fun m e he => by
    rw [Table.get?_erase] at he
    split_ifs at he
    exact he
  refine h.push hrow (fun d hd => ⟨(h.tidy d hd).1.erase n, fun e he => ?_⟩) (fun i hi => by cases hi)
    (fun ext e he => h.live _ e (hsub _ e he)) ?_
  · exact List.mem_append_left _ ((h.tidy d hd).2 e (Table.mem_erase.1 he).1)
  · simp only [DirOp.apply, DirOp.id, Table.get?_erase]
    rcases h.single n.id with hs | hs
    · exact .inl (by rw [hs]; simp)
    · exact .inr (by rw [hs]; simp)

theorem SpoolInv.remove (h : SpoolInv t s) (hrow : ∀ j, t.get? n.id = some j → MS.Cape.kept j.state = false) :
    SpoolInv t (s.removeStoreFile n).2 := by
  rcases Spool.removeStoreFile_cases (s := s) n with he | ⟨he, -⟩
  · rw [he]
    exact h.unlink hrow
  · rwa [he]

theorem SpoolInv.create (h : SpoolInv t s) {id : JobID} (hrow : Staging t id)
    (hblob : s.live.get? ⟨id, .blob⟩ = none) (hnew : id ∉ s.created.map Inode.id) : SpoolInv t (s.create id) := by
  have hfiles : SpoolInv t { s with files := Function.update s.files ⟨id, s.serial⟩ {}, serial := s.serial + 1 } := by
    refine h.files (Nat.le_succ _) fun i j hj hk => Function.update_of_ne ?_ _ _
    rintro rfl
    simp [hrow.not_kept hj] at hk
  refine SpoolInv.push hfiles (fun j hj => hrow.not_kept hj) (fun d hd => ?_) (fun i hi => ?_) (fun ext e he => ?_) ?_
  · obtain ⟨htidy, hknown⟩ := h.tidy d hd
    refine ⟨htidy.put rfl fun e he _ hi => ?_, fun e he => ?_⟩
    · have hlt := h.fresh e.inode (hknown e he)
      rw [hi] at hlt
      exact hlt.false
    · rcases Table.mem_put.1 he with ⟨he, -⟩ | rfl
      · exact List.mem_append_left _ (hknown e he)
      · exact List.mem_append_right _ List.mem_cons_self
  · cases hi
    exact ⟨rfl, Nat.lt_succ_self _, hrow, hnew⟩
  · obtain ⟨j, hj, hs⟩ := hrow
    exact ⟨j, hj, fun _ => hs⟩
  · refine .inr ?_
    have hne : (⟨id, .tmp⟩ : Name) ≠ ⟨id, .blob⟩ := nofun
    change (s.live.put ⟨⟨id, .tmp⟩, ⟨id, s.serial⟩⟩).get? ⟨id, .blob⟩ = none
    rw [Table.get?_put, if_neg hne, hblob]

theorem SpoolInv.rename (h : SpoolInv t s) {id : JobID} {e : Entry} (hrow : Staging t id)
    (he : s.live.get? ⟨id, .tmp⟩ = some e) : SpoolInv t (s.rename id e.inode) := by
  have hname := Table.key_of_get? he
  have hmem : e ∈ s.live.rows := Table.mem_of_get? he
  have hid : e.inode.id = id := by rw [(h.tidy _ Spool.image_live).1.named e hmem, hname]
  refine SpoolInv.push h (fun j hj => hrow.not_kept hj) (fun d hd => ?_) (fun i hi => ?_) (fun ext e' he' => ?_) ?_
  · obtain ⟨htidy, hknown⟩ := h.tidy d hd
    refine ⟨(htidy.erase _).put hid fun e' he' hne hi => ?_, fun e' he' => List.mem_append_left _ ?_⟩
    · -- An entry with the renamed inode is one of this job, and both of its names are being replaced.
      obtain ⟨he', htmp⟩ := Table.mem_erase.1 he'
      have hid' : e'.name.id = id := by rw [← htidy.named e' he', hi, hid]
      obtain ⟨⟨id', ext⟩, i'⟩ := e'
      cases hid'
      cases ext
      · exact htmp rfl
      · exact hne rfl
    · rcases Table.mem_put.1 he' with ⟨he', -⟩ | rfl
      · exact hknown e' (Table.mem_erase.1 he').1
      · exact (h.tidy _ Spool.image_live).2 e hmem
  · cases hi
  · obtain ⟨j, hj, hs⟩ := hrow
    exact ⟨j, hj, fun _ => hs⟩
  · refine .inl ?_
    have hne : (⟨id, .blob⟩ : Name) ≠ ⟨id, .tmp⟩ := nofun
    change ((s.live.erase ⟨id, .tmp⟩).put ⟨⟨id, .blob⟩, e.inode⟩).get? ⟨id, .tmp⟩ = none
    rw [Table.get?_put, if_neg hne, Table.get?_erase, if_pos rfl]

/-- A directory with one entry for each of its jobs, all of which have rows, is no longer than the table. -/
theorem length_dir (hrow : ∀ n e, d.get? n = some e → t.get? n.id ≠ none)
    (hsingle : ∀ id, d.get? ⟨id, .tmp⟩ = none ∨ d.get? ⟨id, .blob⟩ = none) : d.rows.length ≤ t.rows.length := by
  have hinj : ∀ e ∈ d.rows, ∀ e' ∈ d.rows, e.name.id = e'.name.id → e = e' := by
    intro e he e' he' hid
    have hg := Table.mem_rows.1 he
    have hg' := Table.mem_rows.1 he'
    obtain ⟨⟨id, ext⟩, i⟩ := e
    obtain ⟨⟨id', ext'⟩, i'⟩ := e'
    cases hid
    have hs := hsingle id
    cases ext <;> cases ext' <;> simp_all
  have hnd : (d.rows.map fun e => e.name.id).Nodup := d.nodup.of_map.map_on hinj
  have hsub : (d.rows.map fun e => e.name.id) ⊆ t.rows.map Job.id := by
    intro id hid
    obtain ⟨e, he, rfl⟩ := List.mem_map.1 hid
    obtain ⟨j, hj⟩ := Option.ne_none_iff_exists'.1 (hrow e.name e (Table.mem_rows.1 he))
    exact List.mem_map.2 ⟨j, Table.mem_of_get? hj, Table.key_of_get? hj⟩
  simpa using (List.subperm_of_subset hnd hsub).length_le

theorem SpoolInv.sync (h : SpoolInv t s) (ht : t.rows.length ≤ 10000) : SpoolInv t s.sync where
  tidy d hd := by
    rw [Spool.image_sync.1 hd]
    refine ⟨(h.tidy _ Spool.image_live).1, fun e he => List.mem_append_left _ ?_⟩
    exact List.mem_map_of_mem he
  fresh i hi := by
    have hi : i ∈ s.live.rows.map Entry.inode ++ [] := hi
    rw [List.append_nil] at hi
    obtain ⟨e, he, rfl⟩ := List.mem_map.1 hi
    exact h.fresh _ ((h.tidy _ Spool.image_live).2 e he)
  base := by
    refine (length_dir (fun n e he => ?_) h.single).trans ht
    obtain ⟨j, hj, -⟩ := h.live n e he
    simp [hj]
  created := List.nodup_nil
  staged i hi := by cases hi
  live := h.live
  single := h.single
  kept id j hj hk := (Spool.same_sync id).holds (h.kept id j hj hk)

/-- The rows change while the spool does not. -/
theorem SpoolInv.rows (h : SpoolInv t s) (hstaged : ∀ i ∈ s.created, Staging t i.id → Staging t' i.id)
    (hlive : ∀ n e j, s.live.get? n = some e → t.get? n.id = some j →
      ∃ j', t'.get? n.id = some j' ∧ (n.ext = .tmp → j.state = .staging → j'.state = .staging))
    (hkept : ∀ id j', t'.get? id = some j' → MS.Cape.kept j'.state = true →
      (∃ j, t.get? id = some j ∧ MS.Cape.kept j.state = true ∧ j'.payloadBytes = j.payloadBytes) ∨
        s.Holds id j'.payloadBytes) : SpoolInv t' s where
  tidy := h.tidy
  fresh := h.fresh
  base := h.base
  created := h.created
  staged i hi := hstaged i hi (h.staged i hi)
  live n e he := by
    obtain ⟨j, hj, hs⟩ := h.live n e he
    obtain ⟨j', hj', hs'⟩ := hlive n e j he hj
    exact ⟨j', hj', fun hn => hs' hn (hs hn)⟩
  single := h.single
  kept id j' hj' hk := by
    rcases hkept id j' hj' hk with ⟨j, hj, hkj, hp⟩ | hh
    · rw [hp]
      exact h.kept id j hj hkj
    · exact hh

end

/-! ## Writers and the holder of the mutex -/

/-- The row needs no payload any more. -/
def Dropped (t : Table Job.id) (id : JobID) : Prop := ∃ j, t.get? id = some j ∧ cleanupStates j.state = true

theorem Staging.not_dropped {t : Table Job.id} {id : JobID} (h : Staging t id) : ¬ Dropped t id := by
  rintro ⟨j, hj, hd⟩
  obtain ⟨j', hj', hs⟩ := h
  rw [hj] at hj'
  cases hj'
  exact (cleanupStates_iff.1 hd).2 hs

theorem Dropped.not_kept {t : Table Job.id} {id : JobID} (h : Dropped t id) {j : Job} (hj : t.get? id = some j) :
    kept j.state = false := by
  obtain ⟨j', hj', hd⟩ := h
  rw [hj] at hj'
  cases hj'
  exact (cleanupStates_iff.1 hd).1

def Phase.Inv (t : Table Job.id) (s : Spool) (id : JobID) : Phase → Prop
  | .staged => Staging t id ∧ s.live.get? ⟨id, .tmp⟩ = none ∧ s.live.get? ⟨id, .blob⟩ = none ∧
      id ∉ s.created.map Inode.id
  | .writing i size => Staging t id ∧ i.id = id ∧ s.live.get? ⟨id, .tmp⟩ = some ⟨⟨id, .tmp⟩, i⟩ ∧
      (s.files i).data.length = size ∧ (size : Int) ≤ maxAttachmentLimit
  | .synced i size => Staging t id ∧ i.id = id ∧ s.live.get? ⟨id, .tmp⟩ = some ⟨⟨id, .tmp⟩, i⟩ ∧
      (s.files i).Payload size
  | .renamed i size => Staging t id ∧ i.id = id ∧ s.live.get? ⟨id, .blob⟩ = some ⟨⟨id, .blob⟩, i⟩ ∧
      (s.files i).Payload size
  | .durable _ size => Staging t id ∧ s.Holds id size ∧ id ∉ s.created.map Inode.id
  | .stopped => True

theorem Phase.Inv.transport {t t' : Table Job.id} {s s' : Spool} {id : JobID} {ph : Phase} (h : ph.Inv t s id)
    (ht : Staging t id → Staging t' id) (hs : Spool.Same id s s') : ph.Inv t' s' id := by
  cases ph with
  | staged =>
    obtain ⟨hst, htmp, hblob, hnew⟩ := h
    exact ⟨ht hst, by rw [hs.live, htmp], by rw [hs.live, hblob], fun hid => hnew (hs.created hid)⟩
  | writing i size =>
    obtain ⟨hst, hi, htmp, hlen, hmax⟩ := h
    exact ⟨ht hst, hi, by rw [hs.live, htmp], by rw [hs.files i hi, hlen], hmax⟩
  | synced i size =>
    obtain ⟨hst, hi, htmp, hpay⟩ := h
    exact ⟨ht hst, hi, by rw [hs.live, htmp], by rwa [hs.files i hi]⟩
  | renamed i size =>
    obtain ⟨hst, hi, hblob, hpay⟩ := h
    exact ⟨ht hst, hi, by rw [hs.live, hblob], by rwa [hs.files i hi]⟩
  | durable i size => exact ⟨ht h.1, hs.holds h.2.1, fun hid => h.2.2 (hs.created hid)⟩
  | stopped => trivial

def CleanStep.Inv (s : Spool) (id : JobID) : CleanStep → Prop
  | .tmp => True
  | .blob => s.live.get? ⟨id, .tmp⟩ = none
  | .sync => s.live.get? ⟨id, .tmp⟩ = none ∧ s.live.get? ⟨id, .blob⟩ = none
  | .commit => (s.live.get? ⟨id, .tmp⟩ = none ∧ s.live.get? ⟨id, .blob⟩ = none) ∧ id ∉ s.created.map Inode.id

theorem CleanStep.Inv.transport {s s' : Spool} {id : JobID} {step : CleanStep} (h : step.Inv s id)
    (hs : Spool.Same id s s') : step.Inv s' id := by
  cases step with
  | tmp => trivial
  | blob => exact (hs.live _).trans h
  | sync => exact ⟨(hs.live _).trans h.1, (hs.live _).trans h.2⟩
  | commit => exact ⟨⟨(hs.live _).trans h.1.1, (hs.live _).trans h.1.2⟩, fun hid => h.2 (hs.created hid)⟩

/-- The rows the second transaction of `Maintain` works on. -/
def maintained (s : Store) : List JobID :=
  (nextMaintenanceBatch s.db cleanupStates s.mem.maintenanceCleanupCursor).1.map Job.id

theorem dropped_of_maintained {s : Store} {id : JobID} (h : id ∈ maintained s) : Dropped s.db.jobs id := by
  obtain ⟨j, hj, rfl⟩ := List.mem_map.1 h
  obtain ⟨c, hc⟩ := nextMaintenanceBatch_eq s.db cleanupStates s.mem.maintenanceCleanupCursor
  rw [hc] at hj
  exact ⟨j, mem_batchAfter hj⟩

def Lock.Inv (w : Spooled) : Lock → Prop
  | .free => True
  | .cleaning id step => Staging w.store.db.jobs id ∧ w.writers id = none ∧ step.Inv w.spool id
  | .removing todo _ none => ∀ id ∈ todo, Dropped w.store.db.jobs id
  | .removing todo _ (some _) => ∃ gone, maintained w.store = gone ++ todo ∧
      ∀ id ∈ gone, w.spool.live.get? ⟨id, .blob⟩ = none

/-- The invariant of a running store. -/
structure Spooled.Inv (cfg : StoreConfig) (w : Spooled) : Prop where
  wf : w.store.WF
  short : w.store.Short
  quota : (w.store.db.jobs.rows.length : Int) ≤ cfg.maxJobs
  spool : SpoolInv w.store.db.jobs w.spool
  writers : ∀ id ph, w.writers id = some ph → ph.Inv w.store.db.jobs w.spool id
  lock : w.lock.Inv w

/-- The mutex holder's facts survive what others do. -/
theorem Lock.Inv.transport {w w' : Spooled} (h : l.Inv w) (hstore : w'.store = w.store)
    (hwriters : ∀ id, w.writers id = none → w'.writers id = none)
    (hsame : ∀ id, Staging w.store.db.jobs id ∧ w.writers id = none ∨ Dropped w.store.db.jobs id →
      Spool.Same id w.spool w'.spool) : l.Inv w' := by
  match l, h with
  | .free, _ => trivial
  | .cleaning id step, ⟨hst, hw, hstep⟩ =>
    exact ⟨by rwa [hstore], hwriters id hw, hstep.transport (hsame id (.inl ⟨hst, hw⟩))⟩
  | .removing todo _ none, h =>
    intro id hid
    rw [hstore]
    exact h id hid
  | .removing todo _ (some _), ⟨gone, hgone, hlive⟩ =>
    refine ⟨gone, by rw [hstore, hgone], fun id hid => ?_⟩
    have hdrop : Dropped w.store.db.jobs id := dropped_of_maintained (hgone ▸ List.mem_append_left _ hid)
    rw [(hsame id (.inr hdrop)).live, hlive id hid]

section
variable {cfg : StoreConfig} {codec : Codec} {w : Spooled} {id : JobID}

theorem Spooled.Inv.count (h : w.Inv cfg) : w.store.db.jobs.rows.length ≤ 10000 := by
  have := h.quota
  have := cfg.valid.maxJobs.2
  omega

theorem Spooled.write_cases {P : JobID → Phase → Prop} {ph' : Option Phase} (hnew : ∀ ph, ph' = some ph → P id ph)
    (hold : ∀ id' ph, id' ≠ id → w.writers id' = some ph → P id' ph) :
    ∀ id' ph, (w.write id ph').writers id' = some ph → P id' ph := by
  intro id' ph hid'
  by_cases he : id' = id
  · subst he
    exact hnew ph (by simpa [Spooled.write] using hid')
  · exact hold id' ph he (by simpa [Spooled.write, he] using hid')

/-- A step of the writer of `id`. -/
theorem Spooled.Inv.writer (h : w.Inv cfg) {s' : Spool} {ph' : Option Phase} (hw : w.writers id ≠ none)
    (hst : Staging w.store.db.jobs id) (hspool : SpoolInv w.store.db.jobs s')
    (hsame : ∀ id', id' ≠ id → Spool.Same id' w.spool s')
    (hph : ∀ ph, ph' = some ph → ph.Inv w.store.db.jobs s' id) :
    ({ w with spool := s' }.write id ph').Inv cfg where
  wf := h.wf
  short := h.short
  quota := h.quota
  spool := hspool
  writers := Spooled.write_cases hph fun id' ph he hid' =>
    (h.writers id' ph hid').transport (fun hs => hs) (hsame id' he)
  lock := by
    refine h.lock.transport rfl (fun id' hid' => ?_) fun id' hid' => hsame id' ?_
    · have hne : id' ≠ id := fun he => hw (he ▸ hid')
      simpa [Spooled.write, hne] using hid'
    · rintro rfl
      rcases hid' with ⟨-, hnone⟩ | hd
      · exact hw hnone
      · exact hst.not_dropped hd

/-- A writer's phase changes and nothing else. -/
theorem Spooled.Inv.phase (h : w.Inv cfg) {ph' : Option Phase} (hw : w.writers id ≠ none)
    (hph : ∀ ph, ph' = some ph → ph.Inv w.store.db.jobs w.spool id) : (w.write id ph').Inv cfg where
  wf := h.wf
  short := h.short
  quota := h.quota
  spool := h.spool
  writers := Spooled.write_cases hph fun id' ph _ => h.writers id' ph
  lock := by
    refine h.lock.transport rfl (fun id' hid' => ?_) fun id' _ => .refl id' _
    have hne : id' ≠ id := fun he => hw (he ▸ hid')
    simpa [Spooled.write, hne] using hid'

/-- The mutex holder changes the spool of a job that has no writer at work. -/
theorem Spooled.Inv.holder (h : w.Inv cfg) {s' : Spool} {l' : Lock} (hspool : SpoolInv w.store.db.jobs s')
    (hsame : ∀ id ph, w.writers id = some ph → ph ≠ .stopped → Spool.Same id w.spool s')
    (hlock : l'.Inv { w with spool := s', lock := l' }) : Spooled.Inv cfg { w with spool := s', lock := l' } where
  wf := h.wf
  short := h.short
  quota := h.quota
  spool := hspool
  writers id ph hid := by
    by_cases hph : ph = .stopped
    · subst hph
      trivial
    · exact (h.writers id ph hid).transport (fun hs => hs) (hsame id ph hid hph)
  lock := hlock

theorem Phase.Inv.staging {t : Table Job.id} {s : Spool} {ph : Phase} (h : ph.Inv t s id) (hph : ph ≠ .stopped) :
    Staging t id := by
  cases ph with
  | stopped => exact absurd rfl hph
  | _ => exact h.1

end

/-! ## Committed transactions -/

section
variable {t t' : Table Job.id} {s : Spool} {id : JobID}

theorem Staging.calm (h : Staging t id) (hc : Option.Rel Job.Calm (t.get? id) (t'.get? id)) : Staging t' id := by
  obtain ⟨j, hj, hs⟩ := h
  rw [hj] at hc
  generalize hx : t'.get? id = x at hc
  cases hc with
  | some hcalm => exact ⟨_, hx, hcalm.staging.2 hs⟩

theorem Dropped.calm (h : Dropped t id) (hc : Option.Rel Job.Calm (t.get? id) (t'.get? id)) : Dropped t' id := by
  obtain ⟨j, hj, hs⟩ := h
  rw [hj] at hc
  generalize hx : t'.get? id = x at hc
  cases hc with
  | some hcalm => exact ⟨_, hx, hcalm.dropped hs⟩

theorem SpoolInv.calm (h : SpoolInv t s) (hc : ∀ id, Option.Rel Job.Calm (t.get? id) (t'.get? id)) :
    SpoolInv t' s := by
  refine h.rows (fun i _ hst => hst.calm (hc i.id)) (fun n e j _ hj => ?_) fun id j' hj' hk => .inl ?_
  · have hn := hc n.id
    rw [hj] at hn
    generalize hx : t'.get? n.id = x at hn
    cases hn with
    | some hcalm => exact ⟨_, hx ▸ rfl, fun _ hs => hcalm.staging.2 hs⟩
  · have hid := hc id
    rw [hj'] at hid
    generalize hx : t.get? id = x at hid
    cases hid with
    | some hcalm => exact ⟨_, rfl, hcalm.kept hk⟩

theorem length_le_of_calm (hc : ∀ id, Option.Rel Job.Calm (t.get? id) (t'.get? id)) :
    t'.rows.length ≤ t.rows.length := by
  refine Table.length_le fun j' hj' hnone => ?_
  have hid := hc j'.id
  rw [Table.mem_rows.1 hj', hnone] at hid
  cases hid

/-- A job without a row has no files, and none is being created for it. -/
theorem SpoolInv.no_files (h : SpoolInv t s) (hid : t.get? id = none) :
    (∀ ext, s.live.get? ⟨id, ext⟩ = none) ∧ id ∉ s.created.map Inode.id := by
  constructor
  · intro ext
    by_contra hne
    obtain ⟨e, he⟩ := Option.ne_none_iff_exists'.1 hne
    obtain ⟨j, hj, -⟩ := h.live _ e he
    exact absurd (hid.symm.trans hj) nofun
  · intro hmem
    obtain ⟨i, hi, rfl⟩ := List.mem_map.1 hmem
    obtain ⟨j, hj, -⟩ := h.staged i hi
    exact absurd (hid.symm.trans hj) nofun

/-- The row of a published upload needs the payload its writer has made durable. -/
theorem SpoolInv.publish (h : SpoolInv t s) {size : Int} (hholds : s.Holds id size)
    (hnew : id ∉ s.created.map Inode.id)
    (hrows : ∀ id', t'.get? id' = t.get? id' ∨ id' = id ∧ ∃ j', t'.get? id = some j' ∧ j'.payloadBytes = size) :
    SpoolInv t' s := by
  have htmp : s.live.get? ⟨id, .tmp⟩ = none := by
    obtain ⟨i, -, himage, -⟩ := hholds
    refine (h.single id).resolve_right fun hnone => ?_
    exact absurd (hnone.symm.trans (himage _ Spool.image_live)) nofun
  refine h.rows (fun i hi hst => ?_) (fun n e j he hj => ?_) fun id' j' hj' hk => ?_
  · have hne : i.id ≠ id := fun heq => hnew (heq ▸ List.mem_map_of_mem hi)
    obtain ⟨j, hj, hs⟩ := hst
    exact ⟨j, ((hrows i.id).resolve_right fun h => hne h.1).trans hj, hs⟩
  · rcases hrows n.id with heq | ⟨heq, j', hj', -⟩
    · exact ⟨j, heq.trans hj, fun _ hs => hs⟩
    · refine ⟨j', heq ▸ hj', fun hext _ => ?_⟩
      obtain ⟨nid, ext⟩ := n
      cases heq
      cases hext
      exact absurd (htmp.symm.trans he) nofun
  · rcases hrows id' with heq | ⟨rfl, j₁, hj₁, hp⟩
    · exact .inl ⟨j', heq.symm.trans hj', hk, rfl⟩
    · rw [hj'] at hj₁
      cases hj₁
      exact .inr (hp ▸ hholds)

/-- Rows that need no payload and have no file may go. -/
theorem SpoolInv.forget (h : SpoolInv t s)
    (hrows : ∀ id, Option.Rel Job.Calm (t.get? id) (t'.get? id) ∨
      t'.get? id = none ∧ (∀ ext, s.live.get? ⟨id, ext⟩ = none) ∧ id ∉ s.created.map Inode.id) :
    SpoolInv t' s := by
  refine h.rows (fun i hi hst => ?_) (fun n e j he hj => ?_) fun id' j' hj' hk => .inl ?_
  · rcases hrows i.id with hc | ⟨-, -, hnew⟩
    · exact hst.calm hc
    · exact absurd (List.mem_map_of_mem hi) hnew
  · rcases hrows n.id with hc | ⟨-, hnone, -⟩
    · rw [hj] at hc
      generalize hx : t'.get? n.id = x at hc
      cases hc with
      | some hcalm => exact ⟨_, hx ▸ rfl, fun _ hs => hcalm.staging.2 hs⟩
    · exact absurd ((hnone n.ext).symm.trans he) nofun
  · rcases hrows id' with hc | ⟨hnone, -⟩
    · rw [hj'] at hc
      generalize hx : t.get? id' = x at hc
      cases hc with
      | some hcalm => exact ⟨_, rfl, hcalm.kept hk⟩
    · exact absurd (hnone.symm.trans hj') nofun

end

section
variable {cfg : StoreConfig} {codec : Codec} {w : Spooled} {id : JobID} {s : Store} {r : Option Ret}

/-- A transaction after which the mutex holder may have something left to do. -/
theorem Spooled.Inv.commit (h : w.Inv cfg) {op : StoreOp} (hc : Commits cfg codec op w.store r s)
    (hpub : ∀ id v size digest, op = .publish id v size digest → validVerdict v = true ∧ identifier digest 64 = true)
    (hquota : (s.db.jobs.rows.length : Int) ≤ cfg.maxJobs) (hspool : SpoolInv s.db.jobs w.spool)
    (hst : ∀ id ph, w.writers id = some ph → Staging w.store.db.jobs id → Staging s.db.jobs id)
    (hlock : l.Inv { w with store := s, lock := l }) : Spooled.Inv cfg { w with store := s, lock := l } where
  wf := hc.wf h.wf
  short := hc.short h.short hpub
  quota := hquota
  spool := hspool
  writers id ph hid := (h.writers id ph hid).transport (hst id ph hid) (.refl id _)
  lock := hlock

/-- A call whose transaction stands alone. -/
theorem Spooled.Inv.call (h : w.Inv cfg) {op : StoreOp} (hop : plain op = true) (hc : Commits cfg codec op w.store r s)
    (hlock : (∀ id, Option.Rel Job.Calm (w.store.db.jobs.get? id) (s.db.jobs.get? id)) →
      l.Inv { w with store := s, lock := l }) : Spooled.Inv cfg { w with store := s, lock := l } := by
  obtain ⟨env, s₁, ret, -, hexec, hdb, -⟩ := hc.exec
  have hcalm : ∀ id, Option.Rel Job.Calm (w.store.db.jobs.get? id) (s.db.jobs.get? id) := by
    rw [hdb]
    exact exec_calm h.wf hop hexec
  refine h.commit hc ?_ ?_ (h.spool.calm hcalm) (fun id _ _ hst => hst.calm (hcalm id)) (hlock hcalm)
  · rintro _ _ _ _ rfl
    cases hop
  · have := length_le_of_calm hcalm
    have := h.quota
    omega

theorem Spooled.Inv.reserve (h : w.Inv cfg) (hlock : w.lock = .free) {q : EnqueueRequest} {c : Nat}
    (hc : Commits cfg codec (.reserve q id c) w.store r s) :
    ({ w with store := s }.write id (r.map fun _ => .staged)).Inv cfg := by
  obtain ⟨env, s₁, ret, -, hexec, hdb, -⟩ := hc.exec
  obtain ⟨j, hins, -, rfl, hs, -, hlt⟩ := exec_reserve hexec
  rw [← hdb] at hins
  have hnone := Table.get?_of_insert hins
  have hget := Table.get?_insert hins
  have hother : ∀ id', id' ≠ j.id → s.db.jobs.get? id' = w.store.db.jobs.get? id' := fun id' hne => by
    rw [hget, if_neg hne.symm]
  have hst : ∀ id', Staging w.store.db.jobs id' → Staging s.db.jobs id' := by
    rintro id' ⟨j', hj', hs'⟩
    have hne : id' ≠ j.id := by
      rintro rfl
      rw [hnone] at hj'
      cases hj'
    exact ⟨j', (hother id' hne).trans hj', hs'⟩
  have hfree := h.spool.no_files hnone
  have hspool : SpoolInv s.db.jobs w.spool := by
    refine h.spool.rows (fun i _ hi => hst i.id hi) (fun n e j' he hj' => ?_) fun id' j' hj' hk => .inl ?_
    · have hne : n.id ≠ j.id := by
        intro heq
        rw [heq, hnone] at hj'
        cases hj'
      exact ⟨j', (hother n.id hne).trans hj', fun _ hs => hs⟩
    · have hne : id' ≠ j.id := by
        rintro rfl
        rw [hget, if_pos rfl] at hj'
        cases hj'
        simp [hs, kept] at hk
      exact ⟨j', (hother id' hne).symm.trans hj', hk, rfl⟩
  refine ⟨hc.wf h.wf, hc.short h.short (by simp), ?_, hspool,
    write_cases (fun ph hph => ?_) fun id' ph _ hid' => (h.writers id' ph hid').transport (hst id') (.refl id' _), ?_⟩
  · have := Table.length_insert hins
    change (s.db.jobs.rows.length : Int) ≤ _
    omega
  · obtain ⟨_, -, rfl⟩ := Option.map_eq_some_iff.1 hph
    exact ⟨⟨j, (hget j.id).trans (if_pos rfl), hs⟩, hfree.1 .tmp, hfree.1 .blob, hfree.2⟩
  · change w.lock.Inv _
    rw [hlock]
    trivial

theorem Spooled.Inv.publish (h : w.Inv cfg) (hlock : w.lock = .free) {size : Nat} {v digest : String}
    (hw : w.writers id = some (.durable i size)) (hv : validVerdict v = true) (hd : identifier digest 64 = true)
    (hc : Commits cfg codec (.publish id v size digest) w.store r s) :
    ({ w with store := s }.write id (afterPublish r)).Inv cfg := by
  obtain ⟨env, s₁, ret, -, hexec, hdb, -⟩ := hc.exec
  obtain ⟨-, hholds, hnew⟩ := h.writers id _ hw
  have hrows := exec_publish_rows hexec
  rw [← hdb] at hrows
  refine ⟨hc.wf h.wf, hc.short h.short ?_, ?_, h.spool.publish hholds hnew hrows,
    write_cases (fun ph hph => ?_) fun id' ph he hid' => ?_, ?_⟩
  · intro _ _ _ _ he
    cases he
    exact ⟨hv, hd⟩
  · have hle : s.db.jobs.rows.length ≤ w.store.db.jobs.rows.length := by
      refine Table.length_le fun j' hj' hnone => ?_
      rcases exec_rows hexec j'.id with he | hstep
      · rw [← hdb] at he
        exact absurd ((Table.mem_rows.1 hj').symm.trans (he.trans hnone)) nofun
      · rw [hnone, ← hdb, Table.mem_rows.1 hj'] at hstep
        obtain ⟨_, _, _, _, _, hop, -⟩ := rowStep_insert hstep
        cases hop
    have := h.quota
    change (s.db.jobs.rows.length : Int) ≤ _
    omega
  · unfold afterPublish at hph
    split at hph
    · split_ifs at hph
      cases hph
      trivial
    · cases hph
      trivial
  · refine (h.writers id' ph hid').transport (fun hst => ?_) (.refl id' _)
    obtain ⟨j, hj, hs⟩ := hst
    exact ⟨j, ((hrows id').resolve_right fun hr => he hr.1).trans hj, hs⟩
  · change w.lock.Inv _
    rw [hlock]
    trivial

theorem Spooled.Inv.cleanCommit (h : w.Inv cfg) (hlock : w.lock = .cleaning id .commit)
    (hc : Commits cfg codec (.cleanupStaging id) w.store r s) :
    Spooled.Inv cfg { w with store := s, lock := .free } := by
  obtain ⟨env, s₁, ret, -, hexec, hdb, -⟩ := hc.exec
  have hrows := exec_cleanup_rows hexec
  rw [← hdb] at hrows
  have hl := h.lock
  rw [hlock] at hl
  obtain ⟨-, hw, ⟨htmp, hblob⟩, hnew⟩ := hl
  have hother : ∀ id', id' ≠ id → s.db.jobs.get? id' = w.store.db.jobs.get? id' := fun id' hne => by
    rw [hrows, Table.get?_erase, if_neg hne.symm]
  refine h.commit hc nofun ?_ (h.spool.forget fun id' => ?_) (fun id' ph hph hst => ?_) trivial
  · have hle : s.db.jobs.rows.length ≤ w.store.db.jobs.rows.length := by
      rw [hrows]
      exact List.length_filter_le _ _
    have := h.quota
    omega
  · by_cases he : id' = id
    · subst he
      refine .inr ⟨by rw [hrows, Table.get?_erase, if_pos rfl], fun ext => ?_, hnew⟩
      cases ext
      · exact htmp
      · exact hblob
    · rw [hother id' he]
      exact .inl (calm_refl _)
  · have hne : id' ≠ id := by
      rintro rfl
      rw [hw] at hph
      cases hph
    obtain ⟨j, hj, hs⟩ := hst
    exact ⟨j, (hother id' hne).trans hj, hs⟩

/-- Every row the transaction may erase has lost its payload before. -/
theorem Spooled.Inv.maintainCommit (h : w.Inv cfg) {now : Stamp} (hlock : w.lock = .removing [] false (some now))
    (hc : Commits cfg codec (.maintainCleanup now) w.store r s) :
    Spooled.Inv cfg { w with store := s, lock := .free } := by
  obtain ⟨env, s₁, ret, -, hexec, hdb, -⟩ := hc.exec
  have hl := h.lock
  rw [hlock] at hl
  obtain ⟨gone, hgone, hblob⟩ := hl
  rw [List.append_nil] at hgone
  have hrows : ∀ id', Option.Rel Job.Calm (w.store.db.jobs.get? id') (s.db.jobs.get? id') ∨
      s.db.jobs.get? id' = none ∧ Dropped w.store.db.jobs id' ∧ id' ∈ gone := by
    intro id'
    rw [hdb]
    by_cases hid : id' ∈ maintained w.store
    · rcases exec_rows hexec id' with he | hstep
      · rw [he]
        exact .inl (calm_refl _)
      · obtain ⟨j, hj, hd⟩ := dropped_of_maintained hid
        rw [hj] at hstep ⊢
        cases hx : s₁.db.jobs.get? id' with
        | none => exact .inr ⟨rfl, ⟨j, hj, hd⟩, hgone ▸ hid⟩
        | some j' =>
          rw [hx] at hstep
          refine .inl (.some (rowStep_calm (h.wf.rows id' j hj) (fun _ _ _ _ he => ?_) hstep))
          cases he
    · rw [exec_maintain_rows hexec hid]
      exact .inl (calm_refl _)
  refine h.commit hc nofun ?_ (h.spool.forget fun id' => ?_) (fun id' ph hph hst => ?_) trivial
  · have hle : s.db.jobs.rows.length ≤ w.store.db.jobs.rows.length := by
      refine Table.length_le fun j' hj' hnone => ?_
      rcases hrows j'.id with hcalm | ⟨hn, -⟩
      · rw [Table.mem_rows.1 hj', hnone] at hcalm
        cases hcalm
      · exact absurd ((Table.mem_rows.1 hj').symm.trans hn) nofun
    have := h.quota
    omega
  · refine (hrows id').imp_right fun ⟨hn, hd, hid⟩ => ⟨hn, fun ext => ?_, fun hmem => ?_⟩
    · cases ext with
      | tmp =>
        by_contra hne
        obtain ⟨e, he⟩ := Option.ne_none_iff_exists'.1 hne
        obtain ⟨j, hj, hs⟩ := h.spool.live _ e he
        have hst : Staging w.store.db.jobs id' := ⟨j, hj, hs rfl⟩
        exact hst.not_dropped hd
      | blob => exact hblob id' hid
    · obtain ⟨i, hi, rfl⟩ := List.mem_map.1 hmem
      exact (h.spool.staged i hi).not_dropped hd
  · rcases hrows id' with hcalm | ⟨-, hd, -⟩
    · exact hst.calm hcalm
    · exact absurd hd hst.not_dropped

/-! ## Every step -/

theorem update_files_of_ne {s : Spool} {f : File} {id : JobID} (h : i.id ≠ id) :
    ∀ i' : Inode, i'.id = id → Function.update s.files i f i' = s.files i' := by
  intro i' hi'
  refine Function.update_of_ne ?_ _ _
  rintro rfl
  exact h hi'

theorem Spooled.Inv.writerFile (h : w.Inv cfg) {f : File} {ph' : Phase} (hw : w.writers id ≠ none)
    (hst : Staging w.store.db.jobs id) (hi : i.id = id)
    (hph : ph'.Inv w.store.db.jobs { w.spool with files := Function.update w.spool.files i f } id) :
    ({ w with spool := { w.spool with files := Function.update w.spool.files i f } }.write id (some ph')).Inv cfg := by
  refine h.writer hw hst (h.spool.files le_rfl fun i' j hj hk => ?_) (fun id' hne => ?_) fun ph he => ?_
  · refine Function.update_of_ne ?_ _ _
    rintro rfl
    rw [hi] at hj
    simp [hst.not_kept hj] at hk
  · exact Spool.same_files (update_files_of_ne (hi ▸ hne.symm))
  · cases he
    exact hph

theorem Spooled.Inv.setLock (h : w.Inv cfg) (hl : l.Inv { w with lock := l }) :
    Spooled.Inv cfg { w with lock := l } := ⟨h.wf, h.short, h.quota, h.spool, h.writers, hl⟩

/-- `cleanupStaging` unlinks a name. -/
theorem Spooled.Inv.clean (h : w.Inv cfg) {step step' : CleanStep} {ext : Ext} (hl : w.lock = .cleaning id step)
    (hstep : step.Inv w.spool id → step'.Inv (w.spool.removeStoreFile ⟨id, ext⟩).2 id) :
    Spooled.Inv cfg
      { w with spool := (w.spool.removeStoreFile ⟨id, ext⟩).2, lock := .cleaning id step' } := by
  have hlock := h.lock
  rw [hl] at hlock
  obtain ⟨hst, hw, hs⟩ := hlock
  refine h.holder (h.spool.remove fun j hj => hst.not_kept hj) (fun id' ph hid' _ => ?_) ⟨hst, hw, hstep hs⟩
  refine Spool.same_remove fun he => ?_
  cases he
  rw [hw] at hid'
  cases hid'

theorem upStep_inv {w' : Spooled} {e : SpoolEvent} (h : w.Inv cfg) (hstep : UpStep cfg codec w e w') :
    w'.Inv cfg := by
  cases hstep with
  | @call op r s hl hop hc =>
    refine h.call hop hc fun _ id hid => ?_
    obtain ⟨env, s₁, ret, -, hexec, -, hr | hr⟩ := hc.exec
    · obtain ⟨rfl, rfl⟩ := hr
      exact exec_removals hexec hid
    · rw [hr.1] at hid
      simp [removals] at hid
  | @callback key ev r s todo unsynced hl hc =>
    have hlock := h.lock
    rw [hl] at hlock
    have hcall := h.call (l := w.lock) rfl hc fun hcalm => by
      rw [hl]
      exact fun id hid => (hlock id hid).calm (hcalm id)
    exact hcall
  | reserve hl hc => exact h.reserve hl hc
  | @create id hw htmp =>
    obtain ⟨hst, -, hblob, hnew⟩ := h.writers id _ hw
    refine h.writer (by simp [hw]) hst (h.spool.create hst hblob hnew) (fun id' hne => Spool.same_create hne)
      fun ph he => ?_
    cases he
    refine ⟨hst, rfl, ?_, by simp [Spool.create], by decide⟩
    change (w.spool.push (.create id ⟨id, w.spool.serial⟩)).live.get? ⟨id, .tmp⟩ = _
    rw [Spool.live_push, DirOp.apply, Table.get?_put, if_pos rfl]
  | @write id i size bytes hw hmax =>
    obtain ⟨hst, hi, htmp, hlen, -⟩ := h.writers id _ hw
    refine h.writerFile (by simp [hw]) hst hi ⟨hst, hi, htmp, by simp [hlen], ?_⟩
    have := cfg.valid.maxAttachment.2
    push_cast
    omega
  | @syncFile id i size hw hne =>
    obtain ⟨hst, hi, htmp, hlen, hmax⟩ := h.writers id _ hw
    refine h.writerFile (by simp [hw]) hst hi ⟨hst, hi, htmp, ?_⟩
    exact ⟨by simp, by simp [hlen], by omega, hmax⟩
  | @rename id i size e hw he hblob =>
    obtain ⟨hst, hi, htmp, hpay⟩ := h.writers id _ hw
    rw [htmp] at he
    cases he
    refine h.writer (by simp [hw]) hst (h.spool.rename hst htmp) (fun id' hne => ?_) fun ph he => ?_
    · exact Spool.same_push hne fun i hi => by cases hi
    · cases he
      refine ⟨hst, hi, ?_, hpay⟩
      change (w.spool.push (.rename id i)).live.get? ⟨id, .blob⟩ = _
      rw [Spool.live_push, DirOp.apply, Table.get?_put, if_pos rfl]
  | @syncRenamed id i size hw =>
    obtain ⟨hst, hi, hblob, hpay⟩ := h.writers id _ hw
    refine h.writer (by simp [hw]) hst (h.spool.sync h.count) (fun id' _ => Spool.same_sync id') fun ph he => ?_
    cases he
    refine ⟨hst, ⟨i, hi, fun d hd => ?_, hpay⟩, (by rintro ⟨⟩)⟩
    rw [Spool.image_sync.1 hd, hblob]
  | publish hl hw hv hd hc => exact h.publish hl hw hv hd hc
  | stop hw =>
    refine h.phase (by simp [hw]) fun ph he => ?_
    cases he
    trivial
  | leave hw => exact h.phase (by simp [hw]) (by simp)
  | @clean id j hl hw hj hs =>
    have hphase : (w.write id none).Inv cfg := h.phase (by simp [hw]) (by simp)
    exact hphase.setLock ⟨⟨j, hj, hs⟩, by simp [Spooled.write], trivial⟩
  | cleanTmp hl =>
    refine h.clean hl fun _ => ?_
    simp only [CleanStep.Inv, Spool.live_removeStoreFile, if_true]
  | cleanBlob hl =>
    refine h.clean hl fun htmp => ?_
    simp only [CleanStep.Inv, Spool.live_removeStoreFile, if_true, and_true]
    rw [if_neg (by simp)]
    exact htmp
  | @cleanSync id hl =>
    have hlock := h.lock
    rw [hl] at hlock
    obtain ⟨hst, hw, hs⟩ := hlock
    exact h.holder (h.spool.sync h.count) (fun id' _ _ _ => Spool.same_sync id') ⟨hst, hw, hs, (by rintro ⟨⟩)⟩
  | cleanCommit hl hc => exact h.cleanCommit hl hc
  | maintain hl => exact h.setLock ⟨[], rfl, (by simp)⟩
  | @removeFile id todo now hl =>
    have hlock := h.lock
    rw [hl] at hlock
    have hdrop : Dropped w.store.db.jobs id := by
      cases now with
      | none => exact hlock id List.mem_cons_self
      | some _ =>
        obtain ⟨gone, hgone, -⟩ := hlock
        exact dropped_of_maintained (by simp [hgone])
    refine h.holder (h.spool.remove fun j hj => hdrop.not_kept hj) (fun id' ph hid' hph => ?_) ?_
    · refine Spool.same_remove fun he => ?_
      cases he
      exact ((h.writers id ph hid').staging hph).not_dropped hdrop
    · cases now with
      | none => exact fun id' hid' => hlock id' (List.mem_cons_of_mem _ hid')
      | some _ =>
        obtain ⟨gone, hgone, hblob⟩ := hlock
        refine ⟨gone ++ [id], by simpa using hgone, fun id' hid' => ?_⟩
        rw [Spool.live_removeStoreFile]
        split_ifs with he
        · rfl
        · rcases List.mem_append.1 hid' with hid' | hid'
          · exact hblob id' hid'
          · exact absurd (by rw [List.mem_singleton.1 hid']) he
  | @removeSync todo now hl =>
    have hlock := h.lock
    rw [hl] at hlock
    refine h.holder (h.spool.sync h.count) (fun id' _ _ _ => Spool.same_sync id') ?_
    cases now with
    | none => exact hlock
    | some _ => exact hlock
  | maintainCommit hl hc => exact h.maintainCommit hl hc
  | unlock => exact h.setLock trivial

end

end MS.Cape
