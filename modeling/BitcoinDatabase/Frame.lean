import BitcoinDatabase.Refinement

/-!
What each writer changes. On a sound shape store writes the new row and one bucket, update
writes the value of the chain's first record of the key and keeps every link and key, and
unlink writes one link: the bucket, when the removed record heads it, or else the next link
of the record before it. With the record size the constructor gives the manager, rows
overlap, and every writer reaches into rows it does not own.
-/

namespace BitcoinDatabase
namespace RecordHashTable

open RecordRow

variable {s : Shape} {t t' : Table}

/-- What a store that leaves `t'` has written: the new row's key, link and value and the
key's bucket, and no byte outside the new row. -/
structure StoreWrites (s : Shape) (t : Table) (key : Key s.keySize) (write : List UInt8)
    (t' : Table) : Prop where
  count_eq : t'.count = t.count + 1
  header_eq : t'.header = Function.update t.header (bucketIndex s key) t.count
  memory_frame : ∀ x, x < t.count * s.recordSize ∨
    t.count * s.recordSize + RecordRow.size s s.valueSize ≤ x → t'.memory x = t.memory x
  rows_kept : ∀ j < t.count, keyAt s t' j = keyAt s t j ∧ nextAt s t' j = nextAt s t j ∧
    valueAt s t' j = valueAt s t j
  key_eq : keyAt s t' t.count = key.bytes
  next_eq : nextAt s t' t.count = t.header (bucketIndex s key)
  value_eq : readBytes t'.memory (t.count * s.recordSize + s.prefixSize) write.length = write

/-- On a sound shape, store from a reachable state writes the new row and its bucket only,
and links the new row to the bucket's previous first record. -/
theorem store_writes_new_row (hs : s.Sound) (h : Reachable s t) (key : Key s.keySize)
    {write : List UInt8} (hw : write.length ≤ s.valueSize) :
    ∃ t', store s t key write = pure (t.count, t') ∧ StoreWrites s t key write t' := by
  have hv : t.header (bucketIndex s key) ≤ s.notFound := by
    rcases (h.linked hs).header (bucketIndex s key) with hn | ⟨hlt, -⟩ <;> have := h.count_le <;> omega
  obtain ⟨t', hst⟩ : ∃ t', store s t key write = pure (t.count, t') := ⟨_, store_eq key write⟩
  obtain ⟨-, hcount, hheader⟩ := store_count hst
  have same : ∀ j < t.count, SameRecord s t.memory t'.memory j := fun j hj =>
    store_sameRecord hst hs hw (by omega)
  refine ⟨t', hst, hcount, hheader, fun x hx => ?_, fun j hj => ⟨keyAt_congr hs (same j hj),
    nextAt_congr hs (same j hj), valueAt_congr hs (same j hj)⟩, store_keyAt hst,
    store_nextAt hst hs hv, ?_⟩ <;> rw [store_eq] at hst <;> cases hst <;> have := hs.linkSize_eq
  · have := key.length_eq
    dsimp only
    simp only [RecordRow.size] at hx
    rw [writeBytes_apply_outside (by simp; omega), writeBytes_apply_outside (by omega),
      writeBytes_apply_outside (by omega)]
  · simp only [Shape.prefixSize]
    rw [readBytes_writeBytes_of_disjoint (.inr (by rw [length_toLittleEndian]; omega)),
      ← Nat.add_assoc, readBytes_writeBytes_self]

theorem second_store_links_first :
    ∃ t t', runOps (rowSized 4 4 100 2) (create (rowSized 4 4 100 2) fun _ => 0)
        [.store ⟨[222, 173, 190, 239], rfl⟩ [42, 24]] = pure t ∧
      Reachable (rowSized 4 4 100 2) t ∧
      store (rowSized 4 4 100 2) t ⟨[122, 173, 190, 239], rfl⟩ [44, 45] = pure (1, t') ∧
      t.header (bucketIndex (rowSized 4 4 100 2) ⟨[122, 173, 190, 239], rfl⟩) = 0 ∧
      StoreWrites (rowSized 4 4 100 2) t ⟨[122, 173, 190, 239], rfl⟩ [44, 45] t' := by
  have hr := @Reachable.runOps (rowSized 4 4 100 2) _ _
    [.store ⟨[222, 173, 190, 239], rfl⟩ [42, 24]] (.create fun _ => 0) (by simp [Op.Fits, rowSized,
      recordHashTable]) rfl (by decide)
  obtain ⟨t', hst, hw⟩ := store_writes_new_row (rowSized_sound 4 4 100 2) hr
    ⟨[122, 173, 190, 239], rfl⟩ (show [44, 45].length ≤ 2 from le_rfl)
  exact ⟨_, t', rfl, hr, hst, rfl, hw⟩

/-- With the record size the constructor gives the manager, the second store writes its key
over the first record's key. -/
theorem second_store_overwrites_first_key :
    ∃ t t', runOps (recordHashTable 4 4 4 100 2) (create (recordHashTable 4 4 4 100 2) fun _ => 0)
        [.store ⟨[222, 173, 190, 239], rfl⟩ [42, 24]] = pure t ∧
      Reachable (recordHashTable 4 4 4 100 2) t ∧
      store (recordHashTable 4 4 4 100 2) t ⟨[186, 173, 190, 239], rfl⟩ [44, 45] = pure (1, t') ∧
      keyAt (recordHashTable 4 4 4 100 2) t' 0 = [222, 173, 186, 173] ∧
      keyAt (recordHashTable 4 4 4 100 2) t 0 = [222, 173, 190, 239] ∧
      (recordHashTable 4 4 4 100 2).recordSize <
        RecordRow.size (recordHashTable 4 4 4 100 2) (recordHashTable 4 4 4 100 2).valueSize :=
  ⟨_, _, rfl, .step (.store _ _) (.create _) le_rfl rfl (by decide), rfl, by decide, by decide,
    by decide⟩

/-- What an update that returns `(r, t')` has done. The count, the buckets and every key and
next link are as before. Either the writer's bytes went to the value of `r`, the chain's first
record of the key, and no other byte was written; or no record of the chain has the key, and
update returned not_found and wrote nothing. -/
structure UpdateWrites (s : Shape) (t : Table) (key : Key s.keySize) (write : List UInt8)
    (r : Nat) (t' : Table) : Prop where
  count_eq : t'.count = t.count
  header_eq : t'.header = t.header
  keys_kept : ∀ j, keyAt s t' j = keyAt s t j
  links_kept : ∀ j, nextAt s t' j = nextAt s t j
  target : (∃ pre post, Chain s t (readBucketValue s t key) (pre ++ r :: post) ∧
      (∀ j ∈ pre, keyAt s t j ≠ key.bytes) ∧ keyAt s t r = key.bytes ∧
      (∀ x, x < r * s.recordSize + s.prefixSize ∨
          r * s.recordSize + s.prefixSize + write.length ≤ x → t'.memory x = t.memory x) ∧
      readBytes t'.memory (r * s.recordSize + s.prefixSize) write.length = write) ∨
    (∃ l, Chain s t (readBucketValue s t key) l ∧ ∀ j ∈ l, keyAt s t j ≠ key.bytes) ∧
      r = s.notFound ∧ t' = t

/-- On a sound shape, update from a reachable state with a writer of at most value_size bytes
writes the value of the chain's first record of the key only, and keeps the topology. -/
theorem update_keeps_topology (hs : s.Sound) (h : Reachable s t) (key : Key s.keySize)
    {write : List UInt8} (hw : write.length ≤ s.valueSize) :
    ∃ r t', update s t key write = pure (r, t') ∧ UpdateWrites s t key write r t' := by
  have hL := h.linked hs
  obtain ⟨l, hl, -, -, -⟩ := hL.bucket_chain key
  rw [hL.update_eq hl]
  cases hj : l.find? fun j => keyAt s t j == key.bytes with
  | none =>
      refine ⟨_, _, rfl, rfl, rfl, fun _ => rfl, fun _ => rfl,
        .inr ⟨⟨l, hl, fun j hj' => ?_⟩, rfl, rfl⟩⟩
      simpa using List.find?_eq_none.1 hj j hj'
  | some j =>
      obtain ⟨hk, pre, post, rfl, hpre⟩ := List.find?_eq_some.1 hj
      exact ⟨_, _, rfl, rfl, rfl, fun _ => keyAt_writeValue hs hw, fun _ => nextAt_writeValue hs hw,
        .inl ⟨pre, post, hl, fun i hi => by simpa using hpre i hi, by simpa using hk,
          fun _ hx => writeBytes_apply_outside hx, readBytes_writeBytes_self _ _ _⟩⟩

theorem update_after_two_stores :
    ∃ t, runOps (rowSized 4 4 100 2) (create (rowSized 4 4 100 2) fun _ => 0)
        [.store ⟨[222, 173, 190, 239], rfl⟩ [42, 24], .store ⟨[190, 239, 255, 255], rfl⟩ [44, 45]] =
        pure t ∧
      Reachable (rowSized 4 4 100 2) t ∧
      ∃ r t', update (rowSized 4 4 100 2) t ⟨[222, 173, 190, 239], rfl⟩ [7, 7] = pure (r, t') ∧
        UpdateWrites (rowSized 4 4 100 2) t ⟨[222, 173, 190, 239], rfl⟩ [7, 7] r t' := by
  have hr := @Reachable.runOps (rowSized 4 4 100 2) _ _
    [.store ⟨[222, 173, 190, 239], rfl⟩ [42, 24], .store ⟨[190, 239, 255, 255], rfl⟩ [44, 45]]
    (.create fun _ => 0) (by simp [Op.Fits, rowSized, recordHashTable]) rfl (by decide)
  exact ⟨_, rfl, hr, update_keeps_topology (rowSized_sound 4 4 100 2) hr _ (by decide)⟩

/-- With the record size the constructor gives the manager, the first record's value lies
over the second record's next link: an update of the first record's key relinks the second
record from not_found to a record the manager never allocated. -/
theorem update_overwrites_next_link :
    ∃ t t', runOps (recordHashTable 4 4 4 100 2) (create (recordHashTable 4 4 4 100 2) fun _ => 0)
        [.store ⟨[222, 173, 190, 239], rfl⟩ [42, 24], .store ⟨[190, 239, 255, 255], rfl⟩ [44, 45]] =
        pure t ∧
      Reachable (recordHashTable 4 4 4 100 2) t ∧
      update (recordHashTable 4 4 4 100 2) t ⟨[222, 173, 190, 239], rfl⟩ [42, 24] = pure (0, t') ∧
      nextAt (recordHashTable 4 4 4 100 2) t 1 = (recordHashTable 4 4 4 100 2).notFound ∧
      nextAt (recordHashTable 4 4 4 100 2) t' 1 = 405471231 ∧ t'.count = 2 := by
  refine ⟨_, _, rfl, @Reachable.runOps _ _ _ [.store ⟨[222, 173, 190, 239], rfl⟩ [42, 24],
    .store ⟨[190, 239, 255, 255], rfl⟩ [44, 45]] (.create _) ?_ rfl (by decide),
    update_of_head 0 (by decide) (by decide) (by decide) (by decide) _, by decide, by decide, rfl⟩
  simp [Op.Fits, recordHashTable]

/-- The one write of an unlink that takes out `m`, the first record of the key after the
records `pre`: the bucket when `m` heads it, or else the next link of the last of `pre`. -/
inductive UnlinkWrite (s : Shape) (t : Table) (key : Key s.keySize) : List Nat → Nat → Table → Prop
  | head {m : Nat} : UnlinkWrite s t key [] m (link s t key (nextAt s t m))
  | relink {pre : List Nat} {m p : Nat} :
      pre.getLast? = some p → UnlinkWrite s t key pre m (writeNext s t p (nextAt s t m))

/-- What an unlink that returns `(r, t')` has done: nothing, or one link write that takes the
chain's first record of the key out of the walk and keeps every record after it. -/
def UnlinkEffect (s : Shape) (t : Table) (key : Key s.keySize) (r : Bool) (t' : Table) : Prop :=
  r = false ∧ t' = t ∨
    r = true ∧ ∃ pre m post, Chain s t (readBucketValue s t key) (pre ++ m :: post) ∧
      (∀ j ∈ pre, keyAt s t j ≠ key.bytes) ∧ keyAt s t m = key.bytes ∧
      UnlinkWrite s t key pre m t' ∧ Chain s t' (readBucketValue s t' key) (pre ++ post)

/-- On a sound shape an unlink that returns from a reachable state writes one link or
nothing. -/
theorem unlink_writes_one_link (hs : s.Sound) (h : Reachable s t) {key : Key s.keySize} {r : Bool}
    (hu : unlink s t key = pure (r, t')) : UnlinkEffect s t key r t' := by
  have hL := h.linked hs
  obtain ⟨l, hl, -, -, -⟩ := hL.bucket_chain key
  rcases eq_or_ne l [] with rfl | hne
  · rw [unlink_of_empty key hl.nil_inv hL.count_le] at hu
    cases hu
  rcases hL.unlink_cases hl hne with ⟨-, he⟩ | ⟨post, rfl, hk, he⟩ |
      ⟨pre, m, post, rfl, hpre, hm, he⟩ <;> rw [he] at hu <;> cases hu
  · exact .inl ⟨rfl, rfl⟩
  · obtain ⟨_, hpe, -, hpost⟩ := hl.cons_inv (List.cons_ne_nil _ _)
    obtain ⟨-, rfl⟩ := List.cons.inj hpe
    refine .inr ⟨rfl, [], _, post, hl, by simp, hk, .head, ?_⟩
    show Chain s _ (Function.update t.header (bucketIndex s key) _ (bucketIndex s key)) post
    rw [Function.update_same]
    exact hpost.frame le_rfl fun _ _ => rfl
  · exact .inr ⟨rfl, _ :: pre, m, post, hl, hpre, hm,
      .relink (List.getLast?_eq_getLast _ (List.cons_ne_nil _ _)), hl.bypass_last hs hL⟩

theorem middle_unlink_relinks :
    ∃ t t', runOps (rowSized 4 4 100 2) (create (rowSized 4 4 100 2) fun _ => 0)
        [.store ⟨[222, 173, 190, 239], rfl⟩ [42, 24], .store ⟨[122, 173, 190, 239], rfl⟩ [44, 45],
          .store ⟨[22, 173, 190, 239], rfl⟩ [46, 47]] = pure t ∧
      Reachable (rowSized 4 4 100 2) t ∧
      UnlinkEffect (rowSized 4 4 100 2) t ⟨[122, 173, 190, 239], rfl⟩ true t' := by
  have hr := @Reachable.runOps (rowSized 4 4 100 2) _ _
    [.store ⟨[222, 173, 190, 239], rfl⟩ [42, 24], .store ⟨[122, 173, 190, 239], rfl⟩ [44, 45],
      .store ⟨[22, 173, 190, 239], rfl⟩ [46, 47]] (.create fun _ => 0)
    (by simp [Op.Fits, rowSized, recordHashTable]) rfl (by decide)
  exact ⟨_, _, rfl, hr, unlink_writes_one_link (rowSized_sound 4 4 100 2) hr
    (unlink_of_second 2 1 (by decide) (by decide) (by decide) (by decide) (by decide) (by decide)
      (by decide))⟩

/-- With the record size the constructor gives the manager, unlinking the middle of three
records of one bucket relinks the last record's next field, which lies inside the removed
record's value. -/
theorem unlink_overwrites_removed_value :
    ∃ t t', runOps (recordHashTable 4 4 4 100 8) (create (recordHashTable 4 4 4 100 8) fun _ => 0)
        [.store ⟨[222, 173, 190, 239], rfl⟩ [1, 2, 3, 4, 5, 6, 7, 8],
          .store ⟨[122, 173, 190, 239], rfl⟩ [1, 2, 3, 4, 5, 6, 7, 8],
          .store ⟨[22, 173, 190, 239], rfl⟩ [1, 2, 3, 4, 5, 6, 7, 8]] = pure t ∧
      Reachable (recordHashTable 4 4 4 100 8) t ∧
      unlink (recordHashTable 4 4 4 100 8) t ⟨[122, 173, 190, 239], rfl⟩ = pure (true, t') ∧
      valueAt (recordHashTable 4 4 4 100 8) t 1 = [22, 173, 190, 239, 1, 0, 0, 0] ∧
      valueAt (recordHashTable 4 4 4 100 8) t' 1 = [22, 173, 190, 239, 0, 0, 0, 0] := by
  refine ⟨_, _, rfl, @Reachable.runOps _ _ _ [.store ⟨[222, 173, 190, 239], rfl⟩ [1, 2, 3, 4, 5, 6, 7, 8],
    .store ⟨[122, 173, 190, 239], rfl⟩ [1, 2, 3, 4, 5, 6, 7, 8],
    .store ⟨[22, 173, 190, 239], rfl⟩ [1, 2, 3, 4, 5, 6, 7, 8]] (.create _) ?_ rfl (by decide),
    unlink_of_second 2 1 (by decide) (by decide) (by decide) (by decide) (by decide) (by decide)
      (by decide), by decide, by decide⟩
  simp [Op.Fits, recordHashTable]

end RecordHashTable
end BitcoinDatabase
