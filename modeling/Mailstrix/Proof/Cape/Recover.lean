import Mailstrix.Proof.Cape.Spool

/-!
# Recovery

* `spool_crash_consistent`: after any run of the store and any power failures, also failures of
  recovery itself, recovery returns, and then the spool holds exactly the payloads of the rows that
  wait to be sent.
-/

namespace MS.Cape

open Framework
open Framework.Durable (Correct correct_act correct_pure)

variable {n : Name} {env : Env} {j : Job} {jobs : List Job}

/-! ## Power failures -/

/-- The invariant of a disk: what recovery needs, in every image of the directory. -/
structure Disk.Inv (cfg : StoreConfig) (d : Disk) : Prop where
  rows : ∀ id j, d.db.jobs.get? id = some j → j.WF ∧ j.Short
  quota : (d.db.jobs.rows.length : Int) ≤ cfg.maxJobs
  image : ∀ x, d.spool.Image x → Tidy x ∧ x.rows.length ≤ 20000 ∧ ∀ e ∈ x.rows, e.inode.serial < d.spool.serial
  kept : ∀ id j, d.db.jobs.get? id = some j → kept j.state = true → d.spool.Holds id j.payloadBytes

section
variable {cfg : StoreConfig} {codec : Codec} {d d' : Disk} {s s' : Spool} {id : JobID}

theorem Spool.Crash.image_of (h : s.Crash s') {x : Dir} (hx : s'.Image x) : s.Image x := by
  have hdir : s'.dir = ⟨s'.dir.base, []⟩ := by rw [← h.settled]
  rw [Spool.Image, hdir] at hx
  rw [WriteBack.image_nil.1 hx]
  exact h.image

theorem Spool.Crash.holds (h : s.Crash s') {size : Int} (hs : s.Holds id size) : s'.Holds id size := by
  obtain ⟨i, hi, himage, hpay⟩ := hs
  refine ⟨i, hi, fun x hx => himage x (h.image_of hx), ?_⟩
  rwa [h.kept i hpay.synced]

theorem Disk.Inv.crash (h : d.Inv cfg) (hc : d.Crash d') : d'.Inv cfg where
  rows := by rw [hc.db]; exact h.rows
  quota := by rw [hc.db]; exact h.quota
  image x hx := by
    rw [hc.spool.serial]
    exact h.image x (hc.spool.image_of hx)
  kept id j hj hk := by
    rw [hc.db] at hj
    exact hc.spool.holds (h.kept id j hj hk)

/-- Every image of a running store's directory is short: at most one entry for each row at the last
sync, and one for each upload since. -/
theorem Spooled.Inv.disk {w : Spooled} (h : w.Inv cfg) : w.disk.Inv cfg where
  rows id j hj := ⟨h.wf.rows id j hj, h.short.rows id j hj⟩
  quota := h.quota
  image x hx := by
    obtain ⟨htidy, hknown⟩ := h.spool.tidy x hx
    refine ⟨htidy, ?_, fun e he => h.spool.fresh _ (hknown e he)⟩
    have hsub : x.rows.map Entry.inode ⊆ w.spool.known := by
      intro i hi
      obtain ⟨e, he, rfl⟩ := List.mem_map.1 hi
      exact hknown e he
    have hx := (List.subperm_of_subset htidy.inodes hsub).length_le
    have hids : w.spool.created.map Inode.id ⊆ w.store.db.jobs.rows.map Job.id := by
      intro id hid
      obtain ⟨i, hi, rfl⟩ := List.mem_map.1 hid
      obtain ⟨j, hj, -⟩ := h.spool.staged i hi
      exact List.mem_map.2 ⟨j, Table.mem_of_get? hj, Table.key_of_get? hj⟩
    have hcreated := (List.subperm_of_subset h.spool.created hids).length_le
    simp only [Spool.known, List.length_map, List.length_append] at hx hcreated
    have := h.count
    have := h.spool.base
    omega
  kept := h.spool.kept

/-! ## The steps of recovery -/

theorem Disk.Inv.count (h : d.Inv cfg) : d.db.jobs.rows.length ≤ 10000 := by
  have := h.quota
  have := cfg.valid.maxJobs.2
  omega

theorem Spool.Holds.unlink {size : Int} (h : s.Holds id size) (hn : n ≠ ⟨id, .blob⟩) :
    (s.push (.unlink n)).Holds id size := by
  obtain ⟨i, hi, himage, hpay⟩ := h
  refine ⟨i, hi, fun x hx => ?_, hpay⟩
  rcases Spool.image_push.1 hx with hx | ⟨y, hy, rfl⟩
  · exact himage x hx
  · rw [DirOp.apply, Table.get?_erase, if_neg hn, himage y hy]

/-- Any file but a payload that is needed may be removed. -/
theorem Disk.Inv.remove (h : d.Inv cfg)
    (hn : ∀ j, n.ext = .blob → d.db.jobs.get? n.id = some j → MS.Cape.kept j.state = false) :
    Disk.Inv cfg { d with spool := (d.spool.removeStoreFile n).2 } := by
  rcases Spool.removeStoreFile_cases (s := d.spool) n with he | ⟨he, -⟩
  · rw [he]
    refine ⟨h.rows, h.quota, fun x hx => ?_, fun id j hj hk => (h.kept id j hj hk).unlink ?_⟩
    · rcases Spool.image_push.1 hx with hx | ⟨y, hy, rfl⟩
      · exact h.image x hx
      · obtain ⟨htidy, hlen, hserial⟩ := h.image y hy
        refine ⟨htidy.erase n, (List.length_filter_le _ _).trans hlen, fun e he => ?_⟩
        exact hserial e (Table.mem_erase.1 he).1
    · rintro rfl
      simp [hn j rfl hj] at hk
  · rw [he]
    exact h

theorem Disk.Inv.sync (h : d.Inv cfg) : Disk.Inv cfg { d with spool := d.spool.sync } where
  rows := h.rows
  quota := h.quota
  image x hx := by
    rw [Spool.image_sync.1 hx]
    exact h.image _ Spool.image_live
  kept id j hj hk := (Spool.same_sync id).holds (h.kept id j hj hk)

section
variable {α : Type} {C : Disk → Prop}

theorem correct_require {p : Disk → Prop} [DecidablePred p] {Q : Unit → Disk → Prop} (hC : C d) (hp : p d)
    (hQ : Q () d) : Correct C (require p) d Q :=
  correct_act hC (bind_ok.2 ⟨(), check_ok.2 hp, rfl⟩) hQ

theorem correct_onSpool {f : Spool → α × Spool} {Q : α → Disk → Prop} (hC : C d)
    (hQ : Q (f d.spool).1 { d with spool := (f d.spool).2 }) : Correct C (onSpool f) d Q :=
  correct_act hC rfl hQ

theorem correct_transaction {f : Db → Except Err (Db × α)} {Q : α → Disk → Prop} {db : Db} {a : α} (hC : C d)
    (hf : f d.db = .ok (db, a)) (hQ : Q a { d with db := db }) : Correct C (transaction f) d Q :=
  correct_act hC (bind_ok.2 ⟨_, hf, rfl⟩) hQ

end

theorem recoverStaging_correct (h : d.Inv cfg) (hst : Staging d.db.jobs id) :
    Correct (Disk.Inv cfg) (recoverStaging id) d fun _ d' => d'.Inv cfg ∧ d'.db.jobs = d.db.jobs.erase id := by
  obtain ⟨j, hj, hs⟩ := hst
  have hkeep : ∀ j', d.db.jobs.get? id = some j' → kept j'.state = false := fun j' hj' => by
    rw [hj] at hj'
    cases hj'
    rw [hs]
    rfl
  have h₁ : Disk.Inv cfg _ := h.remove (n := ⟨id, .tmp⟩) fun _ he => by cases he
  have h₂ : Disk.Inv cfg _ := h₁.remove (n := ⟨id, .blob⟩) fun j' _ hj' => hkeep j' hj'
  have h₃ := h₂.sync
  unfold recoverStaging
  refine Correct.bind (correct_require h (by simp [hj, hs]) ?_)
  refine Correct.bind (correct_onSpool h ?_)
  refine Correct.bind (correct_onSpool h₁ ?_)
  refine Correct.bind (correct_onSpool h₂ ?_)
  have herase : cleanupStaging d.db id = .ok { d.db with jobs := d.db.jobs.erase id } := by
    simp only [cleanupStaging, bind_ok, check_ok, need_ok, pure_ok, exists_const, and_true]
    exact ⟨j, hj, hs⟩
  refine correct_transaction h₃ (bind_ok.2 ⟨_, herase, rfl⟩) ⟨?_, rfl⟩
  · have hget : ∀ id' j', (d.db.jobs.erase id).get? id' = some j' → d.db.jobs.get? id' = some j' := by
      intro id' j' hj'
      rw [Table.get?_erase] at hj'
      split_ifs at hj'
      exact hj'
    refine ⟨fun id' j' hj' => h.rows id' j' (hget id' j' hj'), ?_, h₃.image, fun id' j' hj' hk => ?_⟩
    · have hle : (d.db.jobs.erase id).rows.length ≤ d.db.jobs.rows.length := List.length_filter_le _ _
      have := h.quota
      change ((d.db.jobs.erase id).rows.length : Int) ≤ _
      omega
    · exact h₃.kept id' j' (hget id' j' hj') hk

theorem recoverSubmitting_run (henv : env.encodes = codec.encodes) (h : d.Inv cfg) (hj : d.db.jobs.get? j.id = some j)
    (hs : j.state = .submitting) :
    recoverSubmitting env d.db j.id =
      .ok ({ d.db with jobs := d.db.jobs.set (interruptedJob j) }, interruptedJob j) := by
  obtain ⟨hwf, hshort⟩ := h.rows j.id j hj
  have henc : env.encodes (interruptedJob j) = true := by
    rw [henv]
    exact codec.compact _ (hshort.interrupted hwf hs)
  have hput : putJob env d.db (interruptedJob j) j = .ok { d.db with jobs := d.db.jobs.set (interruptedJob j) } :=
    putJob_ok.2 ⟨henc, j, hj, ⟨rfl, rfl, rfl⟩, rfl⟩
  simp only [recoverSubmitting, bind_ok, check_ok, need_ok, pure_ok, exists_const]
  exact ⟨j, hj, hs, _, hput, rfl⟩

/-- Rows change to rows that need no other payload. -/
theorem Disk.Inv.setRow (h : d.Inv cfg) {j' : Job} (hj : d.db.jobs.get? j.id = some j) (hid : j'.id = j.id)
    (hwf : j'.WF ∧ j'.Short) (hk : MS.Cape.kept j.state = true) (hp : j'.payloadBytes = j.payloadBytes) :
    Disk.Inv cfg { d with db := { d.db with jobs := d.db.jobs.set j' } } := by
  have hget : ∀ id, (d.db.jobs.set j').get? id = if j.id = id then some j' else d.db.jobs.get? id := by
    intro id
    rw [Table.get?_set, hid]
    split_ifs with he
    · subst he
      rw [hj]
      rfl
    · rfl
  refine ⟨fun id k hk' => ?_, ?_, h.image, fun id k hk' hkept => ?_⟩
  · have hk' : (d.db.jobs.set j').get? id = some k := hk'
    rw [hget] at hk'
    split_ifs at hk'
    · cases hk'
      exact hwf
    · exact h.rows id k hk'
  · have hlen : (d.db.jobs.set j').rows.length = d.db.jobs.rows.length := List.length_map _
    change ((d.db.jobs.set j').rows.length : Int) ≤ _
    rw [hlen]
    exact h.quota
  · have hk' : (d.db.jobs.set j').get? id = some k := hk'
    rw [hget] at hk'
    split_ifs at hk' with he
    · cases hk'
      subst he
      rw [hp]
      exact h.kept j.id j hj hk
    · exact h.kept id k hk' hkept

/-- No attempt and no upload is in progress. -/
def Job.AtRest (j : Job) : Prop := j.state ≠ .staging ∧ j.state ≠ .submitting

theorem reconcileRecoveryJob_correct (henv : env.encodes = codec.encodes) (h : d.Inv cfg)
    (hj : d.db.jobs.get? j.id = some j) :
    Correct (Disk.Inv cfg) (reconcileRecoveryJob env j) d fun x d' =>
      d'.Inv cfg ∧ (∀ id, d'.db.jobs.get? id = if j.id = id then x else d.db.jobs.get? id) ∧
        ∀ j', x = some j' → j'.id = j.id ∧ j'.AtRest := by
  have hsame : ∀ id, d.db.jobs.get? id = if j.id = id then some j else d.db.jobs.get? id := by
    intro id
    split_ifs with he
    · rw [← he, hj]
    · rfl
  unfold reconcileRecoveryJob
  split_ifs with hst hsub hdrop
  · refine Correct.bind ((recoverStaging_correct h ⟨j, hj, hst⟩).imp fun _ d' hd' => ?_)
    refine correct_pure ⟨hd'.1, fun id => ?_, fun _ he => by cases he⟩
    rw [hd'.2, Table.get?_erase]
  · refine Correct.bind (correct_transaction h (recoverSubmitting_run henv h hj hsub) ?_)
    obtain ⟨hwf, hshort⟩ := h.rows j.id j hj
    have hinv : Disk.Inv cfg { d with db := { d.db with jobs := d.db.jobs.set (interruptedJob j) } } :=
      h.setRow hj rfl ⟨hwf.interrupted hsub, hshort.of_key rfl hshort.staticVerdict hshort.times⟩ (by rw [hsub]; rfl) rfl
    refine correct_pure ⟨hinv, fun id => ?_, fun j' he => ?_⟩
    · have hid : (interruptedJob j).id = j.id := rfl
      change (d.db.jobs.set (interruptedJob j)).get? id = _
      rw [Table.get?_set, hid]
      split_ifs with he
      · rw [← he, hj]
        rfl
      · rfl
    · cases he
      exact ⟨rfl, by simp [interruptedJob, Job.AtRest]⟩
  · have hinv : Disk.Inv cfg _ := h.remove (n := ⟨j.id, .blob⟩) fun j' _ hj' => by
      rw [hj] at hj'
      cases hj'
      exact (cleanupStates_iff.1 hdrop).1
    refine Correct.bind (correct_onSpool h (correct_pure ⟨hinv, hsame, fun j' he => ?_⟩))
    cases he
    exact ⟨rfl, hst, hsub⟩
  · refine correct_pure ⟨h, hsame, fun j' he => ?_⟩
    cases he
    exact ⟨rfl, hst, hsub⟩

/-- The rows a loop over `js` leaves are the ones it returns. -/
theorem reconcileRecoveryJobs_correct (henv : env.encodes = codec.encodes) :
    ∀ (js : List Job) (d : Disk), d.Inv cfg → (js.map Job.id).Nodup →
      (∀ j ∈ js, d.db.jobs.get? j.id = some j) →
      Correct (Disk.Inv cfg) (reconcileRecoveryJobs env js) d fun out d' =>
        d'.Inv cfg ∧ (∀ id, id ∉ js.map Job.id → d'.db.jobs.get? id = d.db.jobs.get? id) ∧
        (∀ id, id ∈ js.map Job.id → d'.db.jobs.get? id = out.find? fun j => j.id = id) ∧
        ∀ j ∈ out, j.id ∈ js.map Job.id ∧ d'.db.jobs.get? j.id = some j ∧ j.AtRest
  | [], d, h, _, _ => correct_pure ⟨h, fun _ _ => rfl, nofun, fun _ hj => by cases hj⟩
  | j :: js, d, h, hnd, hrows => by
    rw [List.map_cons, List.nodup_cons] at hnd
    unfold reconcileRecoveryJobs
    refine Correct.bind ((reconcileRecoveryJob_correct henv h (hrows j List.mem_cons_self)).imp fun x d₁ hd₁ => ?_)
    obtain ⟨h₁, hget, hx⟩ := hd₁
    have hne : ∀ id ∈ js.map Job.id, j.id ≠ id := fun id hid he => hnd.1 (he ▸ hid)
    have hrest : ∀ j' ∈ js, d₁.db.jobs.get? j'.id = some j' := fun j' hj' => by
      rw [hget, if_neg (hne _ (List.mem_map_of_mem hj'))]
      exact hrows j' (List.mem_cons_of_mem _ hj')
    refine Correct.bind ((reconcileRecoveryJobs_correct henv js d₁ h₁ hnd.2 hrest).imp fun out d₂ hd₂ => ?_)
    obtain ⟨h₂, hout, hin, hmem⟩ := hd₂
    have hrow : d₂.db.jobs.get? j.id = x := by rw [hout j.id hnd.1, hget, if_pos rfl]
    refine correct_pure ⟨h₂, fun id hid => ?_, fun id hid => ?_, fun j' hj' => ?_⟩
    · rw [List.map_cons, List.mem_cons, not_or] at hid
      rw [hout id hid.2, hget, if_neg (Ne.symm hid.1)]
    · by_cases he : j.id = id
      · subst he
        rw [hrow, List.find?_append]
        cases x with
        | none =>
          have hnone : (out.find? fun j' => j'.id = j.id) = none := by
            refine List.find?_eq_none.2 fun j' hj' => ?_
            have := hne _ (hmem j' hj').1
            simpa using this.symm
          simp [hnone]
        | some j' => simp [(hx j' rfl).1]
      · have hid : id ∈ js.map Job.id := (List.mem_cons.1 hid).resolve_left (Ne.symm he)
        rw [hin id hid, List.find?_append]
        cases x with
        | none => simp
        | some j' => simp [(hx j' rfl).1, he]
    · rcases List.mem_append.1 hj' with hj' | hj'
      · rw [Option.mem_toList] at hj'
        cases hj'
        obtain ⟨hid, hrest⟩ := hx j' rfl
        exact ⟨by simp [hid], by rw [hid, hrow], hrest⟩
      · obtain ⟨hid, hg, hrest⟩ := hmem j' hj'
        exact ⟨List.mem_cons_of_mem _ hid, hg, hrest⟩

/-- The file is the payload of a row that waits to be sent. -/
def Wanted (t : Table Job.id) (n : Name) : Prop := n.ext = .blob ∧ ∃ j, t.get? n.id = some j ∧ awaits j = true

theorem kept_of_awaits (h : awaits j = true) : kept j.state = true := by
  simp only [awaits, Bool.or_eq_true, decide_eq_true_eq] at h
  rcases h with h | h <;> simp [kept, h]

theorem awaits_of_kept (h : kept j.state = true) (hr : j.AtRest) : awaits j = true := by
  simp only [kept, Bool.or_eq_true, decide_eq_true_eq] at h
  rcases h with (h | h) | h
  · simp [awaits, h]
  · exact absurd h hr.2
  · simp [awaits, h]

theorem nlink_eq_one {e : Entry} (h : Tidy s.live) (he : e ∈ s.live.rows) : s.nlink e.inode = 1 := by
  have hcount := List.count_eq_one_of_mem h.inodes (List.mem_map_of_mem he)
  rw [List.count, List.countP_map, List.countP_eq_length_filter] at hcount
  exact hcount

/-- What the directory pass has reached: every file left is wanted or still to come. -/
structure Listing (cfg : StoreConfig) (d : Disk) (jobs : List Job) (names : List Name) : Prop where
  inv : d.Inv cfg
  jobs : ∀ id, (jobs.find? fun j => j.id = id) = d.db.jobs.get? id
  rest : ∀ id j, d.db.jobs.get? id = some j → j.AtRest
  nodup : names.Nodup
  present : ∀ n ∈ names, d.spool.live.get? n ≠ none
  others : ∀ n, d.spool.live.get? n ≠ none → n ∈ names ∨ Wanted d.db.jobs n

theorem reconcileRecoveryEntry_correct {count : Nat} {ns : List Name} (h : Listing cfg d jobs (n :: ns))
    (hcount : count ≤ 20000) :
    Correct (Disk.Inv cfg) (reconcileRecoveryEntry jobs count n) d fun x d' =>
      Listing cfg d' jobs ns ∧ d'.db = d.db ∧ (Wanted d.db.jobs n → x = some n.id) := by
  obtain ⟨hn, hnd⟩ := List.nodup_cons.1 h.nodup
  obtain ⟨e, he⟩ := Option.ne_none_iff_exists'.1 (h.present n List.mem_cons_self)
  have hopen : d.spool.openStoreFile n = .ok (d.spool.files e.inode) := by
    simp only [Spool.openStoreFile, bind_ok, check_ok, need_ok, pure_ok, exists_const]
    exact ⟨e, he, nlink_eq_one (h.inv.image _ Spool.image_live).1 (Table.mem_of_get? he), rfl⟩
  unfold reconcileRecoveryEntry
  refine Correct.bind (correct_require h.inv hcount ?_)
  refine Correct.bind (correct_act h.inv (bind_ok.2 ⟨_, hopen, rfl⟩) ?_)
  rw [h.jobs]
  split
  · rename_i j hj
    obtain ⟨hj, hw⟩ := Option.filter_eq_some_iff.1 hj
    simp only [Bool.and_eq_true, decide_eq_true_eq] at hw
    obtain ⟨i, hi, himage, hpay⟩ := h.inv.kept n.id j hj (kept_of_awaits hw.2)
    have hname : (⟨n.id, .blob⟩ : Name) = n := by
      rw [← hw.1]
    have hinode : e.inode = i := by
      have hlive := himage _ Spool.image_live
      rw [hname, he] at hlive
      cases hlive
      rfl
    rw [hinode]
    refine Correct.bind (correct_require h.inv ⟨hpay.length, hpay.pos, hpay.bound⟩ ?_)
    refine correct_pure ⟨⟨h.inv, h.jobs, h.rest, hnd, ?_, fun m hm => ?_⟩, rfl, fun _ => rfl⟩
    · exact fun m hm => h.present m (List.mem_cons_of_mem _ hm)
    · rcases h.others m hm with hm | hm
      · rcases List.mem_cons.1 hm with rfl | hm
        · exact .inr ⟨hw.1, j, hj, hw.2⟩
        · exact .inl hm
      · exact .inr hm
  · rename_i hnone
    have hunwanted : ¬ Wanted d.db.jobs n := by
      rintro ⟨hext, j, hj, hw⟩
      rw [hj] at hnone
      simp [Option.filter, hext, hw] at hnone
    have hinv : Disk.Inv cfg _ := h.inv.remove (n := n) fun j hext hj => by
      by_contra hk
      rw [Bool.not_eq_false] at hk
      exact hunwanted ⟨hext, j, hj, awaits_of_kept hk (h.rest n.id j hj)⟩
    refine Correct.bind (correct_onSpool h.inv (correct_pure
      ⟨⟨hinv, h.jobs, h.rest, hnd, fun m hm => ?_, fun m hm => ?_⟩, rfl, fun hw => absurd hw hunwanted⟩))
    · have hne : n ≠ m := fun heq => hn (heq ▸ hm)
      rw [Spool.live_removeStoreFile, if_neg hne]
      exact h.present m (List.mem_cons_of_mem _ hm)
    · rw [Spool.live_removeStoreFile] at hm
      split_ifs at hm with hne
      · exact absurd rfl hm
      · rcases h.others m hm with hm | hm
        · exact .inl ((List.mem_cons.1 hm).resolve_left (Ne.symm hne))
        · exact .inr hm

theorem reconcileRecoveryEntries_correct : ∀ (ns : List Name) (count : Nat) (d : Disk),
    Listing cfg d jobs ns → count + ns.length ≤ 20000 →
    Correct (Disk.Inv cfg) (reconcileRecoveryEntries jobs count ns) d fun seen d' =>
      Listing cfg d' jobs [] ∧ d'.db = d.db ∧ ∀ n ∈ ns, Wanted d.db.jobs n → n.id ∈ seen
  | [], _, d, h, _ => correct_pure ⟨h, rfl, fun _ hn => by cases hn⟩
  | n :: ns, count, d, h, hcount => by
    rw [List.length_cons] at hcount
    unfold reconcileRecoveryEntries
    refine Correct.bind ((reconcileRecoveryEntry_correct h (by omega)).imp fun x d₁ hd₁ => ?_)
    obtain ⟨h₁, hdb, hx⟩ := hd₁
    refine Correct.bind ((reconcileRecoveryEntries_correct ns (count + 1) d₁ h₁ (by omega)).imp fun seen d₂ hd₂ => ?_)
    obtain ⟨h₂, hdb₂, hseen⟩ := hd₂
    refine correct_pure ⟨h₂, hdb₂.trans hdb, fun m hm hw => ?_⟩
    rcases List.mem_cons.1 hm with rfl | hm
    · simp [hx hw]
    · exact List.mem_append_right _ (hseen m hm (hdb ▸ hw))

/-- The state recovery leaves: nothing in progress, everything synced, and in the directory the payload
of each row that waits to be sent, of the recorded size, and nothing else. -/
structure Disk.Settled (d : Disk) : Prop where
  rows : ∀ j ∈ d.db.jobs.rows, j.state ≠ .staging ∧ j.state ≠ .submitting
  synced : d.spool.dir.pending = []
  names : ∀ n, n ∈ d.spool.live.rows.map Entry.name ↔ ∃ j ∈ d.db.jobs.rows,
    (j.state = .queued ∨ j.state = .submitUncertain) ∧ n = ⟨j.id, .blob⟩
  sizes : ∀ e ∈ d.spool.live.rows, ∀ j ∈ d.db.jobs.rows, e.name.id = j.id →
    ((d.spool.files e.inode).data.length : Int) = j.payloadBytes

theorem awaits_iff : awaits j = true ↔ j.state = .queued ∨ j.state = .submitUncertain := by
  simp [awaits]

/-- At the end of the pass the directory is as it should be. -/
theorem Listing.settled (h : Listing cfg d jobs []) : Disk.Settled { d with spool := d.spool.sync } := by
  have hwanted : ∀ e ∈ d.spool.live.rows, Wanted d.db.jobs e.name := fun e he => by
    have hne : d.spool.live.get? e.name ≠ none := by simp [Table.mem_rows.1 he]
    exact (h.others _ hne).resolve_left fun hm => by cases hm
  refine ⟨fun j hj => h.rest j.id j (Table.mem_rows.1 hj), rfl, fun n => ⟨fun hn => ?_, ?_⟩, fun e he j hj hid => ?_⟩
  · obtain ⟨e, he, rfl⟩ := List.mem_map.1 hn
    obtain ⟨hext, j, hj, hw⟩ := hwanted e he
    refine ⟨j, Table.mem_of_get? hj, awaits_iff.1 hw, ?_⟩
    rw [Table.key_of_get? hj, ← hext]
  · rintro ⟨j, hj, hw, rfl⟩
    obtain ⟨i, -, himage, -⟩ := h.inv.kept j.id j (Table.mem_rows.1 hj) (kept_of_awaits (awaits_iff.2 hw))
    exact List.mem_map.2 ⟨_, Table.mem_of_get? (himage _ Spool.image_live), rfl⟩
  · have hg := Table.mem_rows.1 he
    obtain ⟨hext, j', hj', hw⟩ := hwanted e he
    rw [hid, Table.mem_rows.1 hj] at hj'
    cases hj'
    obtain ⟨i, -, himage, hpay⟩ := h.inv.kept j.id j (Table.mem_rows.1 hj) (kept_of_awaits hw)
    have hlive := himage _ Spool.image_live
    have hname : (⟨j.id, .blob⟩ : Name) = e.name := by rw [← hid, ← hext]
    rw [hname] at hlive
    have hlive : some e = some (⟨e.name, i⟩ : Entry) := hg.symm.trans hlive
    have hinode : e.inode = i := by
      rw [Option.some.injEq] at hlive
      rw [hlive]
    rw [hinode]
    exact hpay.length

/-! ## Recovery as a whole -/

theorem reconcileRecoverySpool_correct {order : Order} (h : d.Inv cfg)
    (hjobs : ∀ id, (jobs.find? fun j => j.id = id) = d.db.jobs.get? id)
    (hrest : ∀ id j, d.db.jobs.get? id = some j → j.AtRest) :
    Correct (Disk.Inv cfg) (reconcileRecoverySpool order jobs) d fun seen d' =>
      d'.Inv cfg ∧ d'.Settled ∧ d'.db = d.db ∧ ∀ id j, d.db.jobs.get? id = some j → awaits j = true → id ∈ seen := by
  have hperm := order.entries_perm d.spool.live.rows
  have hmem : ∀ n, n ∈ (order.entries d.spool.live.rows).map Entry.name ↔ d.spool.live.get? n ≠ none := by
    intro n
    rw [(hperm.map Entry.name).mem_iff, ← not_iff_not, not_not, Table.get?_eq_none]
  have hlist : Listing cfg d jobs ((order.entries d.spool.live.rows).map Entry.name) := by
    refine ⟨h, hjobs, hrest, ?_, fun n hn => (hmem n).1 hn, fun n hn => .inl ((hmem n).2 hn)⟩
    exact (hperm.map Entry.name).nodup_iff.2 d.spool.live.nodup
  have hlen : 0 + ((order.entries d.spool.live.rows).map Entry.name).length ≤ 20000 := by
    rw [List.length_map, hperm.length_eq, Nat.zero_add]
    exact (h.image _ Spool.image_live).2.1
  unfold reconcileRecoverySpool
  refine Correct.bind (correct_onSpool h ?_)
  refine Correct.bind ((reconcileRecoveryEntries_correct _ 0 d hlist hlen).imp fun seen d₁ hd₁ => ?_)
  obtain ⟨h₁, hdb, hseen⟩ := hd₁
  refine Correct.bind (correct_onSpool h₁.inv (correct_pure ⟨h₁.inv.sync, h₁.settled, hdb, fun id j hj hw => ?_⟩))
  refine hseen ⟨id, .blob⟩ ((hmem _).2 ?_) ⟨rfl, j, hj, hw⟩
  obtain ⟨i, -, himage, -⟩ := h.kept id j hj (kept_of_awaits hw)
  simp [himage _ Spool.image_live]

theorem recover_correct {order : Order} (henv : env.encodes = codec.encodes) (h : d.Inv cfg) :
    Correct (Disk.Inv cfg) (recover env order) d fun _ d' => d'.Inv cfg ∧ d'.Settled := by
  have hperm := order.jobs_perm d.db.jobs.rows
  have hids := hperm.map Job.id
  unfold recover loadRecoveryJobs
  refine Correct.bind (Correct.bind (correct_require h h.count (correct_transaction h rfl ?_)))
  refine Correct.bind ((reconcileRecoveryJobs_correct henv (order.jobs d.db.jobs.rows) d h ?_ ?_).imp
    fun jobs d₁ hd₁ => ?_)
  · exact hids.nodup_iff.2 d.db.jobs.nodup
  · exact fun j hj => Table.mem_rows.1 (hperm.mem_iff.1 hj)
  obtain ⟨h₁, hout, hin, hmem⟩ := hd₁
  have hfind : ∀ id, (jobs.find? fun j => j.id = id) = d₁.db.jobs.get? id := by
    intro id
    by_cases hid : id ∈ (order.jobs d.db.jobs.rows).map Job.id
    · exact (hin id hid).symm
    · have hnone : d.db.jobs.get? id = none := Table.get?_eq_none.2 (hids.mem_iff.not.1 hid)
      rw [hout id hid, hnone]
      refine List.find?_eq_none.2 fun j hj => ?_
      have hne : j.id ≠ id := fun he => hid (he ▸ (hmem j hj).1)
      simpa using hne
  have hrest : ∀ id j, d₁.db.jobs.get? id = some j → j.AtRest := by
    intro id j hj
    rw [← hfind] at hj
    exact (hmem j (List.mem_of_find?_eq_some hj)).2.2
  refine Correct.bind ((reconcileRecoverySpool_correct h₁ hfind hrest).imp fun seen d₂ hd₂ => ?_)
  obtain ⟨h₂, hsettled, -, hseen⟩ := hd₂
  exact correct_require h₂ (fun j hj hw => hseen j.id j (hmem j hj).2.1 hw) ⟨h₂, hsettled⟩

/-- A settled disk can be put to use. -/
theorem Disk.Settled.reopen (h : d.Settled) (hinv : d.Inv cfg) :
    Spooled.Inv cfg { store := ⟨d.db, {}⟩, spool := d.spool } := by
  have hdir : d.spool.dir = ⟨d.spool.dir.base, []⟩ := by rw [← h.synced]
  have hlive : d.spool.live = d.spool.dir.base := by rw [Spool.live, hdir]; rfl
  have hcreated : d.spool.created = [] := by rw [Spool.created, hdir]; rfl
  have himage : ∀ x, d.spool.Image x → x = d.spool.live := fun x hx => by
    rw [Spool.Image, hdir] at hx
    rw [WriteBack.image_nil.1 hx, hlive]
  have hname : ∀ n e, d.spool.live.get? n = some e → n.ext = .blob ∧ d.db.jobs.get? n.id ≠ none := by
    intro n e he
    have hn : n ∈ d.spool.live.rows.map Entry.name :=
      List.mem_map.2 ⟨e, Table.mem_of_get? he, Table.key_of_get? he⟩
    obtain ⟨j, hj, -, rfl⟩ := (h.names n).1 hn
    exact ⟨rfl, by simp [Table.mem_rows.1 hj]⟩
  have hsingle : ∀ id, d.spool.live.get? ⟨id, .tmp⟩ = none := by
    intro id
    by_contra hne
    obtain ⟨e, he⟩ := Option.ne_none_iff_exists'.1 hne
    cases (hname _ e he).1
  obtain ⟨htidy, -, hserial⟩ := hinv.image _ Spool.image_live
  refine ⟨⟨fun id j hj => (hinv.rows id j hj).1, fun w hw => by cases hw⟩,
    ⟨fun id j hj => (hinv.rows id j hj).2, fun w hw => by cases hw⟩, hinv.quota, ?_, fun _ _ hw => (by cases hw), trivial⟩
  refine ⟨fun x hx => ?_, fun i hi => ?_, ?_, ?_, ?_, fun n e he => ?_, fun id => .inl (hsingle id), hinv.kept⟩
  · rw [himage x hx]
    refine ⟨htidy, fun e he => List.mem_append_left _ ?_⟩
    rw [← hlive]
    exact List.mem_map_of_mem he
  · rw [Spool.known, hcreated, ← hlive, List.append_nil] at hi
    obtain ⟨e, he, rfl⟩ := List.mem_map.1 hi
    exact hserial e he
  · rw [← hlive]
    exact (length_dir (fun n e he => (hname n e he).2) fun id => .inl (hsingle id)).trans hinv.count
  · rw [hcreated]
    exact List.nodup_nil
  · rw [hcreated]
    exact fun i hi => by cases hi
  · obtain ⟨hext, hrow⟩ := hname n e he
    obtain ⟨j, hj⟩ := Option.ne_none_iff_exists'.1 hrow
    refine ⟨j, hj, fun htmp => ?_⟩
    rw [hext] at htmp
    cases htmp

end

/-! ## Every run -/

def Machine.Inv (cfg : StoreConfig) : Machine → Prop
  | .up w => w.Inv cfg
  | .down d => d.Inv cfg

theorem machineStep_inv {cfg : StoreConfig} {codec : Codec} {m m' : Machine} {e : SpoolEvent} (h : m.Inv cfg)
    (hstep : MachineStep cfg codec m e m') : m'.Inv cfg := by
  cases hstep with
  | run hstep => exact upStep_inv h hstep
  | crash hc => exact (Spooled.Inv.disk h).crash hc
  | crashAgain henv ht hc => exact ((recover_correct henv h).1 _ ht).crash hc
  | @reopen env order d _ henv hok =>
    have hrec : Correct (Disk.Inv cfg) (recover env order) d _ := recover_correct henv h
    obtain ⟨-, _, d', hd', hinv, hsettled⟩ := hrec
    rw [hok] at hd'
    cases hd'
    exact hsettled.reopen hinv

theorem empty_inv (cfg : StoreConfig) : Disk.Inv cfg {} where
  rows id j hj := by cases hj
  quota := by
    have := cfg.valid.maxJobs.1
    change ((0 : Nat) : Int) ≤ _
    omega
  image x hx := by
    rw [WriteBack.image_nil.1 hx]
    exact ⟨⟨fun e he => (by cases he), List.nodup_nil⟩, Nat.zero_le _, fun e he => by cases he⟩
  kept id j hj := by cases hj

/-- Whatever the store did and wherever the machine failed, in recovery too, recovery from the disk that
is left returns without an error, and settles it. -/
theorem spool_crash_consistent {cfg : StoreConfig} {codec : Codec} {es : List SpoolEvent} {d : Disk}
    (hrun : Run (spoolSystem cfg codec) (.down {}) es (.down d)) {env : Env} (henv : env.encodes = codec.encodes)
    (order : Order) : ∃ d', (recover env order d).2 = .ok ((), d') ∧ d'.Settled := by
  have hinv : Machine.Inv cfg (.down d) := by
    refine Reachable.invariant (I := Machine.Inv cfg) (fun m hm => ?_)
      (fun m e m' hm hstep => machineStep_inv hm hstep) ⟨_, es, rfl, hrun⟩
    cases hm
    exact empty_inv cfg
  have hrec : Correct (Disk.Inv cfg) (recover env order) d _ := recover_correct henv hinv
  obtain ⟨-, _, d', hd', -, hsettled⟩ := hrec
  exact ⟨d', hd', hsettled⟩

/-! ## A machine to look at -/

def sampleCodec : Codec := ⟨fun _ => true, fun _ _ => rfl⟩

def sampleOrder : Order := ⟨fun l => l, fun _ => .refl _, fun l => l, fun _ => .refl _⟩

def sampleDigest : String := "0123456789abcdef0123456789abcdef0123456789abcdef0123456789abcdef"

def sampleReserve : StoreOp := .reserve sampleRequest 7 1

def samplePublish : StoreOp := .publish 7 "clean" 3 sampleDigest

/-- The running store, its one writer in this phase. -/
def sampleUp (ops : List StoreOp) (spool : Spool) (phase : Option Phase) : Spooled :=
  { store := sampleStore ops, spool := spool, writers := Function.update (fun _ => none) 7 phase }

theorem sampleUp_write (ops : List StoreOp) (spool : Spool) (phase phase' : Option Phase) :
    (sampleUp ops spool phase).write 7 phase' = sampleUp ops spool phase' := by
  simp only [sampleUp, Spooled.write, Function.update_idem]

/-- The payload under its final name. -/
def sampleRenamed : Spool := (((({} : Spool).create 7).write ⟨7, 0⟩ [1, 2, 3]).syncFile ⟨7, 0⟩).rename 7 ⟨7, 0⟩

/-- Three bytes are uploaded and published. -/
theorem sample_published : ∃ es phase, Run (spoolSystem sampleConfig sampleCodec) (.down {}) es
    (.up (sampleUp [sampleReserve, samplePublish] sampleRenamed.sync phase)) := by
  have h₀ : MachineStep sampleConfig sampleCodec (.down {}) .reopen (.up {}) :=
    @MachineStep.reopen _ _ sampleEnv sampleOrder {} {} rfl rfl
  have hreserve : ∃ r, Commits sampleConfig sampleCodec sampleReserve {} (some r) (sampleStore [sampleReserve]) :=
    ⟨_, @Commits.done _ _ _ _ sampleEnv _ _ rfl rfl⟩
  have hpublish : ∃ r, Commits sampleConfig sampleCodec samplePublish (sampleStore [sampleReserve])
      (some r) (sampleStore [sampleReserve, samplePublish]) := ⟨_, @Commits.done _ _ _ _ sampleEnv _ _ rfl rfl⟩
  obtain ⟨r, hreserve⟩ := hreserve
  obtain ⟨r', hpublish⟩ := hpublish
  let i : Inode := ⟨7, 0⟩
  let s₂ := ({} : Spool).create 7
  let s₃ := s₂.write i [1, 2, 3]
  let s₄ := s₃.syncFile i
  have h₁ : UpStep sampleConfig sampleCodec {} (.call sampleReserve) (sampleUp [sampleReserve] {} (some .staged)) :=
    @UpStep.reserve _ _ {} sampleRequest 7 1 (some r) _ rfl hreserve
  have h₂ : UpStep sampleConfig sampleCodec (sampleUp [sampleReserve] {} (some .staged)) (.ingress 7)
      ((sampleUp [sampleReserve] s₂ (some .staged)).write 7 (some (.writing i 0))) := .create rfl rfl
  rw [sampleUp_write] at h₂
  have h₃ : UpStep sampleConfig sampleCodec (sampleUp [sampleReserve] s₂ (some (.writing i 0))) (.ingress 7)
      ((sampleUp [sampleReserve] s₃ (some (.writing i 0))).write 7 (some (.writing i 3))) := .write rfl (by decide)
  rw [sampleUp_write] at h₃
  have h₄ : UpStep sampleConfig sampleCodec (sampleUp [sampleReserve] s₃ (some (.writing i 3))) (.ingress 7)
      ((sampleUp [sampleReserve] s₄ (some (.writing i 3))).write 7 (some (.synced i 3))) := .syncFile rfl (by decide)
  rw [sampleUp_write] at h₄
  have h₅ : UpStep sampleConfig sampleCodec (sampleUp [sampleReserve] s₄ (some (.synced i 3))) (.ingress 7)
      ((sampleUp [sampleReserve] sampleRenamed (some (.synced i 3))).write 7 (some (.renamed i 3))) :=
    @UpStep.rename _ _ _ _ _ _ ⟨⟨7, .tmp⟩, i⟩ rfl rfl rfl
  rw [sampleUp_write] at h₅
  have h₆ : UpStep sampleConfig sampleCodec (sampleUp [sampleReserve] sampleRenamed (some (.renamed i 3))) (.ingress 7)
      ((sampleUp [sampleReserve] sampleRenamed.sync (some (.renamed i 3))).write 7 (some (.durable i 3))) := .syncRenamed rfl
  rw [sampleUp_write] at h₆
  have h₇ : UpStep sampleConfig sampleCodec (sampleUp [sampleReserve] sampleRenamed.sync (some (.durable i 3)))
      (.call samplePublish) ((sampleUp [sampleReserve, samplePublish] sampleRenamed.sync (some (.durable i 3))).write 7
        (afterPublish (some r'))) := .publish rfl rfl rfl rfl hpublish
  rw [sampleUp_write] at h₇
  have hgo : ∀ {es w e w'}, Run (spoolSystem sampleConfig sampleCodec) (.down {}) es (.up w) →
      UpStep sampleConfig sampleCodec w e w' →
      Run (spoolSystem sampleConfig sampleCodec) (.down {}) (es ++ [e]) (.up w') :=
    fun hrun hstep => hrun.snoc (MachineStep.run hstep)
  exact ⟨_, _, hgo (hgo (hgo (hgo (hgo (hgo (hgo (.single h₀) h₁) h₂) h₃) h₄) h₅) h₆) h₇⟩

/-- The power fails after the publication. -/
theorem spool_crash_consistent_published : ∃ es d, Run (spoolSystem sampleConfig sampleCodec) (.down {}) es (.down d) ∧
    (d.db.jobs.get? 7).map (·.state) = some .queued ∧
    ∃ d', (recover sampleEnv sampleOrder d).2 = .ok ((), d') ∧ d'.Settled := by
  obtain ⟨es, phase, hup⟩ := sample_published
  let d : Disk := ⟨(sampleStore [sampleReserve, samplePublish]).db,
    { sampleRenamed.sync with files := fun i => { sampleRenamed.files i with synced := true } }⟩
  have hcrash : (sampleUp [sampleReserve, samplePublish] sampleRenamed.sync phase).disk.Crash d := by
    have hfile : ∀ f : File, f.synced = true → { f with synced := true } = f := by
      rintro ⟨data, synced⟩ rfl
      rfl
    exact ⟨rfl, Spool.image_live, rfl, fun i hi => hfile _ hi, fun _ => rfl, rfl⟩
  have hrun : Run (spoolSystem sampleConfig sampleCodec) (.down {}) _ (.down d) := hup.snoc (MachineStep.crash hcrash)
  exact ⟨_, d, hrun, rfl, spool_crash_consistent hrun rfl sampleOrder⟩

end MS.Cape
