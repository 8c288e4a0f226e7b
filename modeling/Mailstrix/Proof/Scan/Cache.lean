import Mailstrix.Impl.Scan.Cache
import Mailstrix.Spec.Scan.Recency

/-!
# The local verdict cache

The list and the index of the cache hold the same keys, and its byte counter is the weight of what it
holds.  `lru_refines_recency`: over any calls the contents are those of the bounded recency list, the
loop that evicts ends, and no saturating operation saturates.
-/

namespace MS.Cache

open Framework Spec

variable {a b t el : Nat} {key : Bytes} {now : Int} {call : CacheCall}

/-! ## Saturating arithmetic -/

theorem saturatingAdd_exact (h : saturatingAdd a b < maxUint64) : saturatingAdd a b = a + b := by
  unfold saturatingAdd at h ⊢
  split_ifs at h ⊢
  · omega
  · rfl

theorem saturatingAdd_le (h : a + b ≤ maxUint64) : saturatingAdd a b = a + b :=
  if_neg (by omega)

theorem saturatingMul_exact (h : saturatingMul a b < maxUint64) : saturatingMul a b = a * b := by
  unfold saturatingMul at h ⊢
  split_ifs at h ⊢
  · omega
  · rfl

/-- A count whose steps are exact below the largest value is exact below it. -/
theorem foldl_exact {α : Type} {g : Nat → α → Nat} {f : α → Nat} (hg : ∀ t x, g t x < maxUint64 → g t x = t + f x)
    {xs : List α} (h : xs.foldl g t < maxUint64) : xs.foldl g t = t + (xs.map f).sum := by
  induction xs generalizing t with
  | nil => simp
  | cons x xs ih =>
    rw [List.foldl_cons] at h ⊢
    have hrest := ih h
    have ht := hg t x (by omega)
    rw [hrest, ht, List.map_cons, List.sum_cons]
    omega

section Sizes

variable (L : Layout)

/-- What a `Meta` map is charged for. -/
def infoBytes (info : List (Bytes × Bytes)) : Nat :=
  L.metaHeaderBytes + (if info = [] then 0 else ((metaBuckets info.length 64 1).getD 0) * L.metaBucketBytes) +
    (info.map fun kv => kv.1.length + kv.2.length).sum

/-- What a match is charged for. -/
def RetainedMatch.bytes (m : RetainedMatch) : Nat :=
  m.rule.length + m.ns.length + m.tags.cap * L.stringSlotBytes + (m.tags.backing.map List.length).sum +
    (m.info.map (infoBytes L)).getD 0

/-- What an entry is charged for, in plain arithmetic. -/
def exactBytes (key : Bytes) (ms : Slice RetainedMatch) : Nat :=
  L.entryFixedBytes + key.length + ms.cap * L.matchBytes + (ms.backing.map (RetainedMatch.bytes L)).sum

/-- The names and tags of a match, counted on top of `t`. -/
def addNames (t : Nat) (m : RetainedMatch) : Nat :=
  m.tags.backing.foldl (fun t tag => saturatingAdd t tag.length)
    (saturatingAdd (saturatingAdd (saturatingAdd t m.rule.length) m.ns.length)
      (saturatingMul m.tags.cap L.stringSlotBytes))

theorem addNames_exact {m : RetainedMatch} (h : addNames L t m < maxUint64) :
    addNames L t m = t + (m.rule.length + m.ns.length + m.tags.cap * L.stringSlotBytes +
      (m.tags.backing.map List.length).sum) := by
  have h₄ := foldl_exact (f := List.length) (fun t (tag : Bytes) ht => saturatingAdd_exact ht) h
  have h₃ := saturatingAdd_exact (a := saturatingAdd (saturatingAdd t m.rule.length) m.ns.length)
    (b := saturatingMul m.tags.cap L.stringSlotBytes) (by unfold addNames at h; omega)
  have hm := saturatingMul_exact (a := m.tags.cap) (b := L.stringSlotBytes) (by unfold addNames at h; omega)
  have h₂ := saturatingAdd_exact (a := saturatingAdd t m.rule.length) (b := m.ns.length)
    (by unfold addNames at h; omega)
  have h₁ := saturatingAdd_exact (a := t) (b := m.rule.length) (by unfold addNames at h; omega)
  unfold addNames
  omega

/-- The pairs of a map, counted on top of `t`. -/
theorem foldl_pairs_exact (info : List (Bytes × Bytes))
    (h : info.foldl (fun t kv => saturatingAdd (saturatingAdd t kv.1.length) kv.2.length) t < maxUint64) :
    info.foldl (fun t kv => saturatingAdd (saturatingAdd t kv.1.length) kv.2.length) t =
      t + (info.map fun kv => kv.1.length + kv.2.length).sum := by
  refine foldl_exact (fun t kv ht => ?_) h
  have h₂ := saturatingAdd_exact ht
  have h₁ := saturatingAdd_exact (a := t) (b := kv.1.length) (by omega)
  omega

theorem addMatch_exact {t' : Nat} {m : RetainedMatch} (h : addMatch L t m = some t') (hlt : t' < maxUint64) :
    t' = t + m.bytes L := by
  have hnames := addNames_exact L (t := t) (m := m)
  unfold RetainedMatch.bytes
  cases hinfo : m.info with
  | none =>
    simp only [addMatch, hinfo, Option.pure_def, Option.some.injEq] at h
    have ht : addNames L t m = t' := h
    rw [Option.map_none, Option.getD_none]
    omega
  | some info =>
    simp only [addMatch, hinfo, Option.pure_def, Option.bind_eq_bind] at h
    obtain ⟨t₁, h₁, h₂⟩ := Option.bind_eq_some_iff.1 h
    have hpairs := foldl_pairs_exact info (t := t₁) (by rwa [Option.some.inj h₂])
    rw [Option.some.inj h₂] at hpairs
    have hbuckets : t₁ < maxUint64 → t₁ = saturatingAdd (addNames L t m) L.metaHeaderBytes +
        (if info = [] then 0 else ((metaBuckets info.length 64 1).getD 0) * L.metaBucketBytes) := by
      intro hlt₁
      cases info with
      | nil => exact (Option.some.inj h₁).symm
      | cons kv info =>
        rw [addBuckets, if_pos (by simp)] at h₁
        obtain ⟨b, hb, ht₁⟩ := Option.map_eq_some_iff.1 h₁
        rw [if_neg (by simp), hb, Option.getD_some]
        have hadd := saturatingAdd_exact (ht₁.symm ▸ hlt₁)
        have hmul := saturatingMul_exact (a := b) (b := L.metaBucketBytes) (by omega)
        rw [← ht₁, hadd, hmul]
        rfl
    have hb := hbuckets (by omega)
    have hhead := saturatingAdd_exact (a := addNames L t m) (b := L.metaHeaderBytes) (by omega)
    rw [Option.map_some, Option.getD_some, infoBytes]
    omega

theorem foldlM_addMatch {ms : List RetainedMatch} {t' : Nat} (h : ms.foldlM (addMatch L) t = some t')
    (hlt : t' < maxUint64) : t' = t + (ms.map (RetainedMatch.bytes L)).sum := by
  induction ms generalizing t with
  | nil =>
    cases h
    simp
  | cons m ms ih =>
    rw [List.foldlM_cons] at h
    obtain ⟨t₁, h₁, h₂⟩ := Option.bind_eq_some_iff.1 h
    have hrest := ih h₂
    have ht := addMatch_exact L h₁ (by omega)
    rw [List.map_cons, List.sum_cons]
    omega

/-- A size below the largest count is no estimate. -/
theorem cacheEntryRetainedBytes_exact {ms : Slice RetainedMatch} (h : cacheEntryRetainedBytes L key ms < maxUint64) :
    cacheEntryRetainedBytes L key ms = exactBytes L key ms := by
  unfold cacheEntryRetainedBytes at h ⊢
  cases hf : ms.backing.foldlM (addMatch L) (saturatingAdd (saturatingAdd L.entryFixedBytes key.length)
      (saturatingMul ms.cap L.matchBytes)) with
  | none =>
    simp only [hf, Option.getD_none] at h
    omega
  | some t =>
    simp only [hf, Option.getD_some] at h ⊢
    have ht := foldlM_addMatch L hf h
    have h₁ := saturatingAdd_exact (a := saturatingAdd L.entryFixedBytes key.length)
      (b := saturatingMul ms.cap L.matchBytes) (by omega)
    have h₂ := saturatingAdd_exact (a := L.entryFixedBytes) (b := key.length) (by omega)
    have h₃ := saturatingMul_exact (a := ms.cap) (b := L.matchBytes) (by omega)
    rw [exactBytes]
    omega

end Sizes

/-! ## The list and its index -/

def Entry.item (e : Entry) : Item Bytes (Stored (Slice RetainedMatch)) := ⟨e.key, ⟨e.hits, e.expires⟩, e.size⟩

namespace LruCache

/-- The entries, most recently used first. -/
def contents (c : LruCache) : List (Item Bytes (Stored (Slice RetainedMatch))) := c.ll.map fun p => (c.heap p).item

/-- The index points at the elements of the list, each under its key, and the counter is their weight. -/
structure Linked (c : LruCache) : Prop where
  nodup : c.ll.Nodup
  alloc : ∀ p ∈ c.ll, p < c.next
  index : ∀ k p, c.items.get? k = some ⟨k, p⟩ ↔ p ∈ c.ll ∧ (c.heap p).key = k
  bytes : c.bytes = Recency.weight c.contents

variable {c c' : LruCache}

theorem Linked.key_inj (h : c.Linked) {p q : Nat} (hp : p ∈ c.ll) (hq : q ∈ c.ll)
    (hk : (c.heap p).key = (c.heap q).key) : p = q := by
  have h₁ := (h.index _ p).2 ⟨hp, rfl⟩
  have h₂ := (h.index _ q).2 ⟨hq, rfl⟩
  rw [hk, h₂] at h₁
  cases h₁
  rfl

theorem Linked.keys_nodup (h : c.Linked) : (c.contents.map Item.key).Nodup := by
  rw [contents, List.map_map]
  exact h.nodup.map_on fun p hp q hq hk => h.key_inj hp hq hk

theorem Linked.indexed (h : c.Linked) {k : Bytes} {i : Indexed} (hi : c.items.get? k = some i) :
    i.el ∈ c.ll ∧ (c.heap i.el).key = k := by
  have hk : i.key = k := Table.key_of_get? hi
  subst hk
  exact (h.index i.key i.el).1 hi

theorem Linked.get?_contents (h : c.Linked) (k : Bytes) :
    Recency.get? c.contents k = (c.items.get? k).map fun i => (c.heap i.el).item := by
  cases hi : c.items.get? k with
  | none =>
    refine List.find?_eq_none.2 fun x hx => ?_
    obtain ⟨p, hp, rfl⟩ := List.mem_map.1 hx
    intro hk
    have hk : (c.heap p).key = k := of_decide_eq_true hk
    rw [(h.index k p).2 ⟨hp, hk⟩] at hi
    cases hi
  | some i =>
    obtain ⟨hel, hk⟩ := h.indexed hi
    have hmem : (c.heap i.el).item ∈ c.contents := List.mem_map_of_mem (f := fun p => (c.heap p).item) hel
    have hget := Recency.get?_of_mem h.keys_nodup hmem
    rw [Option.map_some, ← hget]
    exact congrArg _ hk.symm

/-- Taking an element out of the list takes its key out of the contents. -/
theorem Linked.map_filter (h : c.Linked) (hel : el ∈ c.ll) :
    (c.ll.filter fun p => p ≠ el).map (fun p => (c.heap p).item) = Recency.erase c.contents (c.heap el).key := by
  rw [contents, Recency.erase, List.filter_map]
  refine congrArg _ (List.filter_congr fun p hp => ?_)
  refine decide_eq_decide.2 (not_congr ⟨fun he => by rw [he]; rfl, fun hk => h.key_inj hp hel hk⟩)

theorem debit_weight (h : c.Linked) (hel : el ∈ c.ll) :
    debit c.bytes (c.heap el).size = Recency.weight (Recency.erase c.contents (c.heap el).key) := by
  have hmem : (c.heap el).item ∈ c.contents := List.mem_map_of_mem (f := fun p => (c.heap p).item) hel
  have hw : Recency.weight c.contents = (c.heap el).size + Recency.weight (Recency.erase c.contents (c.heap el).key) :=
    Recency.weight_erase h.keys_nodup hmem
  rw [debit, h.bytes, if_neg (by omega)]
  omega

theorem removeElement_linked (h : c.Linked) (hel : el ∈ c.ll) :
    (c.removeElement (some el)).Linked ∧
      (c.removeElement (some el)).contents = Recency.erase c.contents (c.heap el).key := by
  have hcont : (c.removeElement (some el)).contents = Recency.erase c.contents (c.heap el).key := h.map_filter hel
  refine ⟨⟨h.nodup.filter _, fun p hp => h.alloc p (List.mem_filter.1 hp).1, fun k p => ?_, ?_⟩, hcont⟩
  · have hget : (c.removeElement (some el)).items.get? k = if (c.heap el).key = k then none else c.items.get? k :=
      Table.get?_erase ..
    have hmem : p ∈ (c.removeElement (some el)).ll ↔ p ∈ c.ll ∧ p ≠ el := by
      simp only [removeElement, List.mem_filter, decide_eq_true_eq]
    rw [hget, hmem]
    split_ifs with hk
    · refine ⟨by simp, fun hother => ?_⟩
      exact absurd (h.key_inj hother.1.1 hel (hother.2.trans hk.symm)) hother.1.2
    · rw [h.index]
      refine ⟨fun hfound => ⟨⟨hfound.1, ?_⟩, hfound.2⟩, fun hkept => ⟨hkept.1.1, hkept.2⟩⟩
      rintro rfl
      exact hk hfound.2
  · rw [hcont]
    exact debit_weight h hel

/-- The last element goes: the least recently used one. -/
theorem removeElement_last (h : c.Linked) (hel : c.ll.getLast? = some el) :
    (c.removeElement (some el)).Linked ∧ (c.removeElement (some el)).contents = c.contents.dropLast := by
  have hmem : el ∈ c.ll := List.mem_of_getLast? hel
  refine ⟨(removeElement_linked h hmem).1, ?_⟩
  obtain ⟨init, hll⟩ := List.getLast?_eq_some_iff.1 hel
  have hnd := h.nodup
  rw [hll, List.nodup_append] at hnd
  have hinit : (c.ll.filter fun p => p ≠ el) = init := by
    rw [hll, List.filter_append, List.filter_eq_self.2 fun p hp => decide_eq_true (hnd.2.2 p hp el (by simp))]
    simp
  have hcont : (c.removeElement (some el)).contents = init.map fun p => (c.heap p).item := congrArg _ hinit
  rw [hcont, contents, hll, List.map_append, List.map_singleton, List.dropLast_concat]

theorem mem_moveToFront {ll : List Nat} {p : Nat} (hel : el ∈ ll) : p ∈ moveToFront ll el ↔ p ∈ ll := by
  simp only [moveToFront, List.mem_cons, List.mem_filter, decide_eq_true_eq]
  constructor
  · rintro (rfl | ⟨hp, -⟩)
    · exact hel
    · exact hp
  · intro hp
    by_cases hpe : p = el
    · exact .inl hpe
    · exact .inr ⟨hp, hpe⟩

theorem nodup_moveToFront {ll : List Nat} (h : ll.Nodup) : (moveToFront ll el).Nodup :=
  List.nodup_cons.2 ⟨fun hp => of_decide_eq_true (List.mem_filter.1 hp).2 rfl, h.filter _⟩

/-- Moving an element to the front moves its item there. -/
theorem moveToFront_linked (h : c.Linked) (hel : el ∈ c.ll) :
    ({ c with ll := moveToFront c.ll el } : LruCache).Linked ∧
      ({ c with ll := moveToFront c.ll el } : LruCache).contents = Recency.push c.contents (c.heap el).item := by
  have hcont : ({ c with ll := moveToFront c.ll el } : LruCache).contents =
      Recency.push c.contents (c.heap el).item := congrArg (List.cons _) (h.map_filter hel)
  have hitem : (c.heap el).item ∈ c.contents := List.mem_map_of_mem (f := fun p => (c.heap p).item) hel
  refine ⟨⟨nodup_moveToFront h.nodup, fun p hp => h.alloc p ((mem_moveToFront hel).1 hp), fun k p => ?_, ?_⟩, hcont⟩
  · rw [h.index]
    exact and_congr_left' (mem_moveToFront hel).symm
  · rw [hcont, Recency.push, Recency.weight_cons]
    exact h.bytes.trans (Recency.weight_erase h.keys_nodup hitem)

/-- A value is replaced in place, and its key moves to the front. -/
theorem replace_linked (h : c.Linked) (hel : el ∈ c.ll) (hits : Slice RetainedMatch) {size : Nat} (now : Int)
    (hroom : c.bytes + size ≤ maxUint64) :
    (c.replace el hits size now).Linked ∧ (c.replace el hits size now).contents =
      Recency.push c.contents ⟨(c.heap el).key, ⟨hits, now + c.ttl⟩, size⟩ := by
  have hother : ∀ p, p ≠ el → (c.replace el hits size now).heap p = c.heap p := fun p hp =>
    Function.update_of_ne hp ..
  have hself : (c.replace el hits size now).heap el =
      { c.heap el with hits := hits, expires := now + c.ttl, size := size } := Function.update_self ..
  have hkey : ∀ p, ((c.replace el hits size now).heap p).key = (c.heap p).key := by
    intro p
    by_cases hp : p = el
    · rw [hp, hself]
    · rw [hother p hp]
  have hcont : (c.replace el hits size now).contents =
      Recency.push c.contents ⟨(c.heap el).key, ⟨hits, now + c.ttl⟩, size⟩ := by
    have hrest : (c.ll.filter fun p => p ≠ el).map (fun p => ((c.replace el hits size now).heap p).item) =
        (c.ll.filter fun p => p ≠ el).map fun p => (c.heap p).item := by
      refine List.map_congr_left fun p hp => ?_
      rw [hother p (of_decide_eq_true (List.mem_filter.1 hp).2)]
    rw [contents]
    refine (List.map_cons ..).trans ?_
    rw [hself, hrest, h.map_filter hel]
    rfl
  refine ⟨⟨nodup_moveToFront h.nodup, fun p hp => h.alloc p ((mem_moveToFront hel).1 hp), fun k p => ?_, ?_⟩, hcont⟩
  · rw [hkey]
    exact (h.index k p).trans (and_congr_left' (mem_moveToFront hel).symm)
  · have hdebit := debit_weight h hel
    have hle : debit c.bytes (c.heap el).size ≤ c.bytes := by
      unfold debit
      split_ifs <;> omega
    have hbytes : (c.replace el hits size now).bytes = debit c.bytes (c.heap el).size + size :=
      saturatingAdd_le (by omega)
    rw [hbytes, hcont, hdebit, Recency.push, Recency.weight_cons, Nat.add_comm]

/-- A new key goes to the front. -/
theorem pushFront_linked (h : c.Linked) (hnew : c.items.get? key = none) (hits : Slice RetainedMatch) {size : Nat}
    (now : Int) (hroom : c.bytes + size ≤ maxUint64) :
    (c.pushFront key hits size now).Linked ∧ (c.pushFront key hits size now).contents =
      Recency.push c.contents ⟨key, ⟨hits, now + c.ttl⟩, size⟩ := by
  have hfresh : ∀ p ∈ c.ll, p ≠ c.next := fun p hp => Nat.ne_of_lt (h.alloc p hp)
  have hother : ∀ p ∈ c.ll, (c.pushFront key hits size now).heap p = c.heap p := fun p hp =>
    Function.update_of_ne (hfresh p hp) ..
  have hself : (c.pushFront key hits size now).heap c.next =
      { key := key, hits := hits, expires := now + c.ttl, size := size } := Function.update_self ..
  have hnokey : ∀ p ∈ c.ll, (c.heap p).key ≠ key := by
    intro p hp hk
    rw [(h.index key p).2 ⟨hp, hk⟩] at hnew
    cases hnew
  have herase : Recency.erase c.contents key = c.contents := by
    refine List.filter_eq_self.2 fun x hx => decide_eq_true ?_
    obtain ⟨p, hp, rfl⟩ := List.mem_map.1 hx
    exact hnokey p hp
  have hcont : (c.pushFront key hits size now).contents =
      Recency.push c.contents ⟨key, ⟨hits, now + c.ttl⟩, size⟩ := by
    have hrest : c.ll.map (fun p => ((c.pushFront key hits size now).heap p).item) = c.contents :=
      List.map_congr_left fun p hp => by rw [hother p hp]
    rw [contents]
    refine (List.map_cons ..).trans ?_
    rw [hself, hrest, Recency.push, herase]
    rfl
  refine ⟨⟨?_, fun p hp => ?_, fun k p => ?_, ?_⟩, hcont⟩
  · exact List.nodup_cons.2 ⟨fun hp => hfresh _ hp rfl, h.nodup⟩
  · change p < c.next + 1
    rcases List.mem_cons.1 hp with rfl | hp
    · omega
    · have hlt := h.alloc p hp
      omega
  · have hget : (c.pushFront key hits size now).items.get? k = if key = k then some ⟨key, c.next⟩ else c.items.get? k :=
      Table.get?_put ..
    have hmem : p ∈ (c.pushFront key hits size now).ll ↔ p = c.next ∨ p ∈ c.ll := List.mem_cons
    rw [hget, hmem]
    split_ifs with hk
    · subst hk
      refine ⟨fun he => ?_, ?_⟩
      · cases he
        exact ⟨.inl rfl, by rw [hself]⟩
      · rintro ⟨rfl | hp, hpk⟩
        · rfl
        · rw [hother p hp] at hpk
          exact absurd hpk (hnokey p hp)
    · rw [h.index]
      refine ⟨fun hold => ⟨.inr hold.1, by rw [hother p hold.1, hold.2]⟩, ?_⟩
      rintro ⟨rfl | hp, hpk⟩
      · rw [hself] at hpk
        exact absurd hpk hk
      · exact ⟨hp, by rw [← hpk, hother p hp]⟩
  · have hbytes : (c.pushFront key hits size now).bytes = c.bytes + size := saturatingAdd_le hroom
    rw [hbytes, hcont, Recency.push, Recency.weight_cons, herase, h.bytes, Nat.add_comm]

/-! ## Eviction -/

/-- The loop goes on exactly while the contents do not fit. -/
theorem Linked.fits_iff (h : c.Linked) :
    ¬ Recency.Fits c.maxBytes c.max c.contents ↔ c.bytes > c.maxBytes ∨ c.ll.length > c.max := by
  rw [Recency.Fits, ← h.bytes, contents, List.length_map]
  omega

/-- What one round does. -/
theorem evict_round (h : c.Linked) (hover : ¬ Recency.Fits c.maxBytes c.max c.contents) (byteCause : Bool) :
    ((c.removeElement c.ll.getLast?).recordEviction byteCause).Linked ∧
      ((c.removeElement c.ll.getLast?).recordEviction byteCause).contents = c.contents.dropLast ∧
      ((c.removeElement c.ll.getLast?).recordEviction byteCause).ll.length < c.ll.length := by
  cases hel : c.ll.getLast? with
  | none =>
    -- an empty list weighs nothing
    have hnil : c.contents = [] := by
      rw [contents, List.getLast?_eq_none_iff.1 hel]
      rfl
    rw [hnil] at hover
    exact absurd ⟨Nat.zero_le _, Nat.zero_le _⟩ hover
  | some el =>
    obtain ⟨hl, hc⟩ := removeElement_last h hel
    refine ⟨⟨hl.nodup, hl.alloc, hl.index, hl.bytes⟩, hc, ?_⟩
    have hlen := congrArg List.length hc
    rw [contents, contents, List.length_map, List.length_dropLast, List.length_map] at hlen
    have hpos : 0 < c.ll.length := List.length_pos_of_mem (List.mem_of_getLast? hel)
    have hlen' : ((c.removeElement (some el)).recordEviction byteCause).ll.length = c.ll.length - 1 := hlen
    omega

/-- The settings of a cache, which no call changes. -/
def Settings (c : LruCache) : Int × Nat × Nat := (c.ttl, c.max, c.maxBytes)

theorem settings_removeElement (c : LruCache) (el : Option Nat) : (c.removeElement el).Settings = c.Settings := by
  cases el <;> rfl

theorem evict_spec (fuel : Nat) (h : c.Linked) (he : evict fuel c = some c') :
    c'.Linked ∧ c'.contents = Recency.trim c.maxBytes c.max c.contents ∧ c'.Settings = c.Settings := by
  induction fuel generalizing c with
  | zero => cases he
  | succ fuel ih =>
    rw [evict] at he
    split_ifs at he with hover
    · rw [← h.fits_iff] at hover
      obtain ⟨hl, hc, -⟩ := evict_round h hover (c.bytes > c.maxBytes)
      obtain ⟨hl', hc', hs⟩ := ih hl he
      have hset : ((c.removeElement c.ll.getLast?).recordEviction (c.bytes > c.maxBytes)).Settings = c.Settings :=
        settings_removeElement c _
      refine ⟨hl', ?_, hs.trans hset⟩
      simp only [Settings, Prod.mk.injEq] at hset
      rw [hc', hc, hset.2.1, hset.2.2, ← Recency.trim_dropLast hover]
    · cases he
      rw [← h.fits_iff, not_not] at hover
      exact ⟨h, (Recency.trim_of_fits hover).symm, rfl⟩

/-- One round an element, and one to see that there is nothing left to do. -/
theorem evict_ends (fuel : Nat) (h : c.Linked) (hf : c.ll.length < fuel) : ∃ c', evict fuel c = some c' := by
  induction fuel generalizing c with
  | zero => omega
  | succ fuel ih =>
    rw [evict]
    split_ifs with hover
    · obtain ⟨hl, -, hlen⟩ := evict_round h (h.fits_iff.2 hover) (c.bytes > c.maxBytes)
      exact ih hl (by omega)
    · exact ⟨c, rfl⟩

/-! ## Calls -/

theorem get_spec (h : c.Linked) {r : Option (Slice RetainedMatch)} (he : c.get key now = (c', r)) :
    c'.Linked ∧ fetch c.contents key now = (c'.contents, r) ∧ c'.Settings = c.Settings := by
  rw [fetch, h.get?_contents]
  unfold get at he
  cases hi : c.items.get? key with
  | none =>
    simp only [hi] at he
    cases he
    exact ⟨h, rfl, rfl⟩
  | some i =>
    obtain ⟨hel, hk⟩ := h.indexed hi
    simp only [hi] at he
    simp only [Option.map_some]
    split_ifs at he with hlive
    · obtain ⟨hl, hc⟩ := moveToFront_linked h hel
      cases he
      rw [if_pos (show now < (c.heap i.el).item.value.expires from hlive), hc]
      exact ⟨hl, rfl, rfl⟩
    · obtain ⟨hl, hc⟩ := removeElement_linked h hel
      cases he
      rw [if_neg (show ¬ now < (c.heap i.el).item.value.expires from hlive), hc, hk]
      exact ⟨hl, rfl, settings_removeElement ..⟩

theorem get_hit (h : c.Linked) : (c.get key now).2 = (fetch c.contents key now).2 := by
  obtain ⟨-, hc, -⟩ := get_spec h (show c.get key now = ((c.get key now).1, (c.get key now).2) from rfl)
  rw [hc]

theorem refuse_spec (h : c.Linked) (key : Bytes) :
    (c.refuse key).Linked ∧ (c.refuse key).contents = Recency.erase c.contents key ∧
      (c.refuse key).Settings = c.Settings := by
  unfold refuse
  simp only
  cases hi : c.items.get? key with
  | none =>
    refine ⟨⟨h.nodup, h.alloc, h.index, h.bytes⟩, ?_, rfl⟩
    have hnone : Recency.get? c.contents key = none := by
      rw [h.get?_contents, hi]
      rfl
    have hsame : Recency.erase c.contents key = c.contents := List.filter_eq_self.2 fun x hx =>
      decide_eq_true fun hk => List.find?_eq_none.1 hnone x hx (decide_eq_true hk)
    exact hsame.symm
  | some i =>
    obtain ⟨hel, hk⟩ := h.indexed hi
    obtain ⟨hl, hc⟩ := removeElement_linked h hel
    refine ⟨⟨hl.nodup, hl.alloc, hl.index, hl.bytes⟩, ?_, rfl⟩
    rw [← hk]
    exact hc

/-- A value that fits by itself is put in front before the loop runs. -/
theorem putLocal_eq (L : Layout) (h : c.Linked) (hmax : c.maxBytes < 2 ^ 63) (hfits : c.bytes ≤ c.maxBytes) (fuel : Nat)
    {hits : Slice RetainedMatch} (now : Int) (hsize : cacheEntryRetainedBytes L key hits ≤ c.maxBytes) :
    ∃ c₁, c.putLocal L fuel key hits now = evict fuel c₁ ∧ c₁.Linked ∧ c₁.Settings = c.Settings ∧
      c₁.ll.length ≤ c.ll.length + 1 ∧
      c₁.contents = Recency.push c.contents ⟨key, ⟨hits, now + c.ttl⟩, cacheEntryRetainedBytes L key hits⟩ := by
  have hroom : c.bytes + cacheEntryRetainedBytes L key hits ≤ maxUint64 := by
    unfold maxUint64
    omega
  unfold putLocal
  simp only [if_neg (show ¬ cacheEntryRetainedBytes L key hits > c.maxBytes by omega)]
  cases hi : c.items.get? key with
  | none =>
    obtain ⟨hl, hc⟩ := pushFront_linked h hi hits now hroom
    exact ⟨_, rfl, hl, rfl, Nat.le_refl _, hc⟩
  | some i =>
    obtain ⟨hel, hk⟩ := h.indexed hi
    obtain ⟨hl, hc⟩ := replace_linked h hel hits now hroom
    refine ⟨_, rfl, hl, rfl, ?_, hk ▸ hc⟩
    exact Nat.succ_le_succ (List.length_filter_le ..)

theorem putLocal_spec (L : Layout) (h : c.Linked) (hmax : c.maxBytes < 2 ^ 63) (hfits : c.bytes ≤ c.maxBytes)
    {fuel : Nat} {hits : Slice RetainedMatch} (he : c.putLocal L fuel key hits now = some c') :
    c'.Linked ∧ c'.Settings = c.Settings ∧ c'.contents =
      store c.maxBytes c.max c.contents ⟨key, ⟨hits, now + c.ttl⟩, cacheEntryRetainedBytes L key hits⟩ := by
  by_cases hsize : cacheEntryRetainedBytes L key hits ≤ c.maxBytes
  · obtain ⟨c₁, heq, hl₁, hs₁, -, hc₁⟩ := putLocal_eq L h hmax hfits fuel now hsize
    rw [heq] at he
    obtain ⟨hl, hc, hs⟩ := evict_spec fuel hl₁ he
    refine ⟨hl, hs.trans hs₁, ?_⟩
    simp only [Settings, Prod.mk.injEq] at hs₁
    rw [hc, hs₁.2.1, hs₁.2.2, hc₁, store, if_neg (by simpa using hsize)]
  · unfold putLocal at he
    simp only [if_pos (Nat.lt_of_not_le hsize)] at he
    cases he
    obtain ⟨hl, hc, hs⟩ := refuse_spec h key
    rw [store, if_pos (Nat.lt_of_not_le hsize)]
    exact ⟨hl, hs, hc⟩

theorem putLocal_ends (L : Layout) (h : c.Linked) (hmax : c.maxBytes < 2 ^ 63) (hfits : c.bytes ≤ c.maxBytes)
    {fuel : Nat} (hf : c.ll.length + 1 < fuel) (key : Bytes) (hits : Slice RetainedMatch) (now : Int) :
    ∃ c', c.putLocal L fuel key hits now = some c' := by
  by_cases hsize : cacheEntryRetainedBytes L key hits ≤ c.maxBytes
  · obtain ⟨c₁, heq, hl₁, -, hlen, -⟩ := putLocal_eq L h hmax hfits fuel now hsize
    rw [heq]
    exact evict_ends fuel hl₁ (by omega)
  · unfold putLocal
    simp only [if_pos (Nat.lt_of_not_le hsize)]
    exact ⟨_, rfl⟩

end LruCache

/-! ## Runs -/

/-- The call of the abstract machine that a call stands for. -/
def CacheCall.abs (L : Layout) (ttl : Int) : CacheCall → Call Bytes (Slice RetainedMatch)
  | .get key now result => .get key now result
  | .put key hits now => .put key hits (cacheEntryRetainedBytes L key hits) (now + ttl)
  | .flush => .flush

/-- The last `Put` of the key put this value, at this time. -/
def LatestPut (calls : List CacheCall) (key : Bytes) (hits : Slice RetainedMatch) (now : Int) : Prop :=
  Since (fun call => call = .put key hits now) (fun call => ∃ hits' now', call = .put key hits' now') calls

/-- What every run of calls keeps. -/
structure Kept (L : Layout) (c₀ : LruCache) (calls : List CacheCall) (c : LruCache) : Prop where
  linked : c.Linked
  fits : Recency.Fits c₀.maxBytes c₀.max c.contents
  settings : c.Settings = c₀.Settings
  refines : Run (recencySystem c₀.maxBytes c₀.max) [] (calls.map (CacheCall.abs L c₀.ttl)) c.contents
  latest : ∀ x ∈ c.contents, ∃ now, LatestPut calls x.key x.value.value now ∧ x.value.expires = now + c₀.ttl ∧
    x.weight = cacheEntryRetainedBytes L x.key x.value.value ∧ x.weight ≤ c₀.maxBytes

theorem newCache_spec {cfg : CacheConfig} {c : LruCache} (h : newCache cfg = some c) :
    (c.maxBytes < 2 ^ 63 ∧ 0 < c.max) ∧ c.ll = [] ∧ c.items = ∅ ∧ c.bytes = 0 := by
  unfold newCache at h
  have hb := cfg.int64
  by_cases httl : cfg.cacheTTL ≤ 0
  · simp only [if_pos httl] at h
    cases h
  · simp only [if_neg httl, Option.some.injEq] at h
    subst h
    refine ⟨⟨?_, ?_⟩, rfl, rfl, rfl⟩ <;> simp only [defaultCacheMaxBytes]
    · split_ifs <;> omega
    · split_ifs <;> omega

theorem LruCache.Linked.of_empty {c : LruCache} (hll : c.ll = []) (hitems : c.items = ∅) (hbytes : c.bytes = 0) :
    c.Linked := by
  refine ⟨?_, fun p hp => ?_, fun k p => ?_, ?_⟩
  · simp [hll]
  · simp [hll] at hp
  · simp [hll, hitems]
  · simp [hbytes, contents, hll]

section

variable {L : Layout} {cfg : CacheConfig} {c₀ c c' : LruCache} {calls : List CacheCall}

theorem Kept.bytes_le (h : Kept L c₀ calls c) : c.bytes ≤ c.maxBytes := by
  have hs := h.settings
  simp only [LruCache.Settings, Prod.mk.injEq] at hs
  rw [h.linked.bytes, hs.2.2]
  exact h.fits.1

/-- One call is one call of the abstract machine. -/
theorem Kept.simulates (h : Kept L c₀ calls c) (hmax : c₀.maxBytes < 2 ^ 63)
    (hstep : (cacheSystem L cfg).step c call c') :
    c'.Linked ∧ c'.Settings = c₀.Settings ∧
      (recencySystem c₀.maxBytes c₀.max).step c.contents (call.abs L c₀.ttl) c'.contents := by
  have hs := h.settings
  simp only [LruCache.Settings, Prod.mk.injEq] at hs
  cases call with
  | get key now result =>
    obtain ⟨hl, hc, hset⟩ := LruCache.get_spec h.linked hstep
    exact ⟨hl, hset.trans h.settings, hc⟩
  | put key hits now =>
    obtain ⟨fuel, hput⟩ := hstep
    obtain ⟨hl, hset, hc⟩ := LruCache.putLocal_spec L h.linked (hs.2.2 ▸ hmax) h.bytes_le hput
    rw [hs.1, hs.2.1, hs.2.2] at hc
    exact ⟨hl, hset.trans h.settings, hc⟩
  | flush =>
    have hc : c' = c.flush := hstep
    rw [hc]
    exact ⟨.of_empty rfl rfl rfl, h.settings, rfl⟩

theorem abs_ne_put {ttl : Int} (h : ∀ v weight expires, call.abs L ttl ≠ .put key v weight expires) :
    ¬ ∃ hits now, call = .put key hits now := by
  rintro ⟨hits, now, rfl⟩
  exact h _ _ _ rfl

/-- The bounds hold after a call of the abstract machine. -/
theorem fits_step {w n : Nat} {xs xs' : List (Item Bytes (Stored (Slice RetainedMatch)))}
    {call : Call Bytes (Slice RetainedMatch)} (hfits : Recency.Fits w n xs) (hnd : (xs.map Item.key).Nodup)
    (h : (recencySystem w n).step xs call xs') : Recency.Fits w n xs' := by
  cases call with
  | get key now result =>
    have h : fetch xs key now = (xs', result) := h
    unfold fetch at h
    split at h
    · cases h
      exact hfits
    · rename_i x hx
      split_ifs at h
      · cases h
        exact Recency.fits_push hfits hnd (List.mem_of_find?_eq_some hx)
      · cases h
        exact Recency.fits_erase hfits key
  | put key value weight expires =>
    have h : xs' = store w n xs ⟨key, ⟨value, expires⟩, weight⟩ := h
    rw [h, store]
    split_ifs
    · exact Recency.fits_erase hfits key
    · exact Recency.trim_fits ..
  | flush =>
    have h : xs' = [] := h
    rw [h]
    exact ⟨Nat.zero_le _, Nat.zero_le _⟩

theorem Kept.step (h : Kept L c₀ calls c) (hmax : c₀.maxBytes < 2 ^ 63) (hstep : (cacheSystem L cfg).step c call c') :
    Kept L c₀ (calls ++ [call]) c' := by
  obtain ⟨hl, hset, habs⟩ := h.simulates hmax hstep
  refine ⟨hl, fits_step h.fits h.linked.keys_nodup habs, hset, ?_, fun x hx => ?_⟩
  · rw [List.map_append, List.map_singleton]
    exact .snoc h.refines habs
  · rcases mem_of_step habs hx with ⟨hold, hno⟩ | ⟨hput, hw⟩
    · obtain ⟨now, hlast, hrest⟩ := h.latest x hold
      exact ⟨now, since_snoc.2 (.inr ⟨hlast, abs_ne_put hno⟩), hrest⟩
    · cases call with
      | put key hits now =>
        simp only [CacheCall.abs, Call.put.injEq] at hput
        obtain ⟨hk, hv, hweight, hexp⟩ := hput
        refine ⟨now, since_snoc.2 (.inl ?_), hexp.symm, ?_, hw⟩
        · rw [hk, hv]
        · rw [← hweight, hk, hv]
      | get | flush => cases hput

theorem run_kept (h₀ : newCache cfg = some c₀) (hrun : Run (cacheSystem L cfg) c₀ calls c) : Kept L c₀ calls c := by
  obtain ⟨⟨hmax, -⟩, hll, hitems, hbytes⟩ := newCache_spec h₀
  have hnil : c₀.contents = [] := by rw [LruCache.contents, hll, List.map_nil]
  refine Run.history (I := Kept L c₀) ?_ (fun s es e s' _ hk hstep => hk.step hmax hstep) hrun
  refine ⟨.of_empty hll hitems hbytes, ?_, rfl, ?_, fun x hx => ?_⟩
  · rw [hnil]
    exact ⟨Nat.zero_le _, Nat.zero_le _⟩
  · rw [hnil]
    exact .nil
  · rw [hnil] at hx
    cases hx

end

/-- The cache without a Redis layer.  After any calls, its index and its list hold the same keys, once
each; the counter is the sum of the entries' sizes, each of them exact, and the bounds hold; the
contents are those of the bounded recency list after the same calls.  From there, a value that fits by
itself is in front when its `Put` returns, and a larger one takes only the old value of its key away;
a `Get` that hits returns what the last `Put` of the key put, and one hits wherever an entry is there
and has not expired.  Every `Put` returns: its loop has at most one round an entry. -/
theorem lru_refines_recency (L : Layout) {cfg : CacheConfig} {c₀ c : LruCache} {calls : List CacheCall}
    (h₀ : newCache cfg = some c₀) (hrun : Run (cacheSystem L cfg) c₀ calls c) :
    ((∀ key, c.items.get? key ≠ none ↔ key ∈ c.contents.map Item.key) ∧ (c.contents.map Item.key).Nodup ∧
      ∀ key i, c.items.get? key = some i → i.el ∈ c.ll ∧ (c.heap i.el).key = key) ∧
    (c.bytes = (c.ll.map fun p => (c.heap p).size).sum ∧
      (∀ p ∈ c.ll, (c.heap p).size = exactBytes L (c.heap p).key (c.heap p).hits) ∧
      c.bytes ≤ c₀.maxBytes ∧ c.ll.length ≤ c₀.max) ∧
    Run (recencySystem c₀.maxBytes c₀.max) [] (calls.map (CacheCall.abs L c₀.ttl)) c.contents ∧
    (∀ fuel key hits now c', c.putLocal L fuel key hits now = some c' →
      (cacheEntryRetainedBytes L key hits ≤ c₀.maxBytes →
        c'.contents.head? = some ⟨key, ⟨hits, now + c₀.ttl⟩, cacheEntryRetainedBytes L key hits⟩) ∧
      (c₀.maxBytes < cacheEntryRetainedBytes L key hits →
        c'.contents = c.contents.filter fun x => x.key ≠ key)) ∧
    (∀ key now hits, (c.get key now).2 = some hits → ∃ put, LatestPut calls key hits put ∧ now < put + c₀.ttl) ∧
    (∀ x ∈ c.contents, ∀ now < x.value.expires, (c.get x.key now).2 = some x.value.value) ∧
    ∀ fuel key hits now, c.ll.length + 1 < fuel → ∃ c', c.putLocal L fuel key hits now = some c' := by
  have hk := run_kept h₀ hrun
  obtain ⟨⟨hmax, hpos⟩, -⟩ := newCache_spec h₀
  have hs := hk.settings
  simp only [LruCache.Settings, Prod.mk.injEq] at hs
  obtain ⟨httl, hcount, hbytes⟩ := hs
  have hmax' : c.maxBytes < 2 ^ 63 := hbytes ▸ hmax
  refine ⟨⟨fun key => ?_, hk.linked.keys_nodup, fun key i => hk.linked.indexed⟩, ⟨?_, fun p hp => ?_, ?_, ?_⟩,
    hk.refines, ?_, ?_, ?_, ?_⟩
  · have hget := hk.linked.get?_contents key
    constructor
    · intro hne
      obtain ⟨i, hi⟩ := Option.ne_none_iff_exists'.1 hne
      obtain ⟨hel, hkey⟩ := hk.linked.indexed hi
      exact List.mem_map.2 ⟨_, List.mem_map_of_mem (f := fun p => (c.heap p).item) hel, hkey⟩
    · intro hmem hnone
      obtain ⟨x, hx, rfl⟩ := List.mem_map.1 hmem
      rw [Recency.get?_of_mem hk.linked.keys_nodup hx, hnone] at hget
      cases hget
  · rw [hk.linked.bytes, Recency.weight, LruCache.contents, List.map_map]
    rfl
  · obtain ⟨now, -, -, hw, hle⟩ := hk.latest _ (List.mem_map_of_mem (f := fun p => (c.heap p).item) hp)
    have hsize : (c.heap p).size = cacheEntryRetainedBytes L (c.heap p).key (c.heap p).hits := hw
    have hle : (c.heap p).size ≤ c₀.maxBytes := hle
    rw [hsize]
    refine cacheEntryRetainedBytes_exact L ?_
    unfold maxUint64
    omega
  · rw [← hbytes]
    exact hk.bytes_le
  · have hlen := hk.fits.2
    rwa [LruCache.contents, List.length_map] at hlen
  · intro fuel key hits now c' hput
    obtain ⟨-, -, hc⟩ := LruCache.putLocal_spec L hk.linked hmax' hk.bytes_le hput
    rw [httl, hcount, hbytes] at hc
    refine ⟨fun hsize => ?_, fun hsize => ?_⟩
    · rw [hc]
      exact head_store hpos _ hsize
    · rw [hc, store, if_pos hsize]
      rfl
  · intro key now hits hget
    rw [LruCache.get_hit hk.linked] at hget
    obtain ⟨x, hx, hlive, rfl⟩ := fetch_hit.1 hget
    obtain ⟨put, hlast, hexp, -⟩ := hk.latest x (List.mem_of_find?_eq_some hx)
    have hkey : x.key = key := by simpa using List.find?_some hx
    rw [hkey] at hlast
    exact ⟨put, hlast, hexp ▸ hlive⟩
  · intro x hx now hlive
    rw [LruCache.get_hit hk.linked]
    exact fetch_hit.2 ⟨x, Recency.get?_of_mem hk.linked.keys_nodup hx, hlive, rfl⟩
  · intro fuel key hits now hf
    exact LruCache.putLocal_ends L hk.linked hmax' hk.bytes_le hf key hits now

/-- A cache of one entry, for a minute. -/
def sampleCacheConfig : CacheConfig := ⟨60 * Scan.second, 1, 1000, by decide⟩

def sampleFresh : LruCache := { ttl := 60 * Scan.second, max := 1, maxBytes := 1000 }

/-- After `Put`s of two keys. -/
def samplePut : LruCache :=
  ((sampleFresh.putLocal {} 3 [1] {} 0).bind fun c => c.putLocal {} 3 [2] { backing := [{ rule := [65] }] } 0).getD sampleFresh

/-- The second key drives out the first. -/
theorem lru_refines_recency_full : newCache sampleCacheConfig = some sampleFresh ∧
    Run (cacheSystem {} sampleCacheConfig) sampleFresh
      [.put [1] {} 0, .put [2] { backing := [{ rule := [65] }] } 0] samplePut ∧
    samplePut.bytes = 202 ∧ samplePut.bytes ≤ 1000 ∧ samplePut.ll.length ≤ 1 ∧ samplePut.items.get? [1] = none := by
  have h₀ : newCache sampleCacheConfig = some sampleFresh := rfl
  have hrun : Run (cacheSystem {} sampleCacheConfig) sampleFresh
      ([] ++ [.put [1] {} 0] ++ [.put [2] { backing := [{ rule := [65] }] } 0]) samplePut :=
    .snoc (.snoc .nil ⟨3, rfl⟩) ⟨3, rfl⟩
  obtain ⟨⟨hindex, -⟩, ⟨-, -, hbytes, hlen⟩, -⟩ := lru_refines_recency {} h₀ hrun
  exact ⟨h₀, hrun, rfl, hbytes, hlen, not_not.1 fun hne => absurd ((hindex [1]).1 hne) (by decide)⟩

end MS.Cache
