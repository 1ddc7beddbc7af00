import BitcoinDatabase.Invariant

/-!
The chain walks of find, offset, update and unlink end. Each loop is given one step more than
there are records. On a sound shape every walk of a reachable state visits strictly decreasing
records and fits in that, so no loop runs out. With the record size the constructor gives the
manager, a later record's key lies over an earlier record's next link, so a record can be made
to link to itself, and a walk that reaches it never ends, whatever the number of steps allowed.
-/

namespace BitcoinDatabase
namespace RecordHashTable

open RecordRow

variable {s : Shape} {t : Table} {key : Key s.keySize}

/-- Records a walk for `key` never leaves: each is allocated, is not the sentinel, holds
another key, and links to a record of the set. -/
def Trap (s : Shape) (t : Table) (key : Key s.keySize) (sentinel : Nat) (C : Nat → Prop) : Prop :=
  ∀ j, C j → j ≠ sentinel ∧ j < t.count ∧ keyAt s t j ≠ key.bytes ∧ C (nextAt s t j)

theorem trap_self {sentinel j : Nat} (hj : j ≠ sentinel) (hc : j < t.count)
    (hk : keyAt s t j ≠ key.bytes) (hn : nextAt s t j = j) : Trap s t key sentinel (· = j) := by
  rintro _ rfl
  exact ⟨hj, hc, hk, hn⟩

section Trap

variable {C : Nat → Prop}

theorem Trap.seek_loops {sentinel : Nat} (h : Trap s t key sentinel C) (fuel : Nat) :
    ∀ j, C j → seek s t key sentinel fuel j = throw .loops := by
  induction fuel with
  | zero =>
      intro j hj
      rw [seek, if_neg (h j hj).1]
  | succ fuel ih =>
      intro j hj
      obtain ⟨hs, hc, hk, hn⟩ := h j hj
      rw [seek_step _ hs, compare_of_lt hc]
      simp [hk, nextIndex_of_lt hc, ih _ hn]

theorem Trap.unlinkLoop_loops (h : Trap s t key s.notFound C) (fuel : Nat) :
    ∀ previous j, C j → unlinkLoop s t key fuel previous j = throw .loops := by
  induction fuel with
  | zero =>
      intro previous j hj
      rw [unlinkLoop, if_neg (h j hj).1]
  | succ fuel ih =>
      intro previous j hj
      obtain ⟨hs, hc, hk, hn⟩ := h j hj
      rw [unlinkLoop_step _ hs, compare_of_lt hc]
      simp [hk, nextIndex_of_lt hc, ih _ _ hn]

/-- A bucket that starts in a trap: no number of steps ends its walk, and find, offset, update
and unlink all run out of the steps they are given. -/
theorem Trap.walks (h : Trap s t key s.notFound C) (hb : C (readBucketValue s t key)) :
    (∀ fuel, seek s t key s.notFound fuel (readBucketValue s t key) = throw .loops) ∧
      find s t key = throw .loops ∧ offset s t key = throw .loops ∧
      (∀ write, update s t key write = throw .loops) ∧ unlink s t key = throw .loops := by
  obtain ⟨-, hc, hk, hn⟩ := h _ hb
  refine ⟨fun fuel => h.seek_loops fuel _ hb, ?_, ?_, fun write => ?_,
    by simp [unlink_eq, compare_of_lt hc, hk, nextIndex_of_lt hc, h.unlinkLoop_loops _ _ _ hn]⟩ <;>
    simp only [find, offset, update, HashTableHeader.empty, h.seek_loops _ _ hb] <;> rfl

end Trap

/-- With the record size the constructor gives the manager, the third record's key is written
over the first record's next link. A key of zero bytes links the first record to itself, and
the walk of the first key's bucket, whose first record now holds other key bytes, never ends. -/
theorem zero_key_traps_walks :
    ∃ t, runOps (recordHashTable 4 4 4 100 2) (create (recordHashTable 4 4 4 100 2) fun _ => 0)
        [.store ⟨[222, 173, 190, 239], rfl⟩ [42, 24], .store ⟨[186, 173, 190, 239], rfl⟩ [44, 45],
          .store ⟨[0, 0, 0, 0], rfl⟩ [46, 47]] = pure t ∧
      Reachable (recordHashTable 4 4 4 100 2) t ∧
      readBucketValue (recordHashTable 4 4 4 100 2) t ⟨[222, 173, 190, 239], rfl⟩ = 0 ∧
      nextAt (recordHashTable 4 4 4 100 2) t 0 = 0 ∧
      (∀ fuel, seek (recordHashTable 4 4 4 100 2) t ⟨[222, 173, 190, 239], rfl⟩
          (recordHashTable 4 4 4 100 2).notFound fuel
          (readBucketValue (recordHashTable 4 4 4 100 2) t ⟨[222, 173, 190, 239], rfl⟩) =
        throw .loops) ∧
      find (recordHashTable 4 4 4 100 2) t ⟨[222, 173, 190, 239], rfl⟩ = throw .loops ∧
      offset (recordHashTable 4 4 4 100 2) t ⟨[222, 173, 190, 239], rfl⟩ = throw .loops ∧
      (∀ write, update (recordHashTable 4 4 4 100 2) t ⟨[222, 173, 190, 239], rfl⟩ write =
        throw .loops) ∧
      unlink (recordHashTable 4 4 4 100 2) t ⟨[222, 173, 190, 239], rfl⟩ = throw .loops := by
  refine ⟨_, rfl, @Reachable.runOps _ _ _ [.store ⟨[222, 173, 190, 239], rfl⟩ [42, 24],
    .store ⟨[186, 173, 190, 239], rfl⟩ [44, 45], .store ⟨[0, 0, 0, 0], rfl⟩ [46, 47]]
    (.create _) (by simp [Op.Fits, recordHashTable]) rfl (by decide), by decide, by decide,
    (trap_self (j := 0) (by decide) (by decide) (by decide) (by decide)).walks (by decide)⟩

/-- On a sound shape every walk of a reachable state visits strictly decreasing records, at most
as many as are allocated, so each loop ends within the count + 1 steps it is given: find,
offset and update return, and unlink ends in a result or, on an empty bucket, in its read of
record not_found, never in a walk that runs out. -/
theorem reachable_walks_end (hs : s.Sound) (h : Reachable s t) (key : Key s.keySize) :
    ∃ l, Chain s t (readBucketValue s t key) l ∧ l.Pairwise (· > ·) ∧ l.length ≤ t.count ∧
      (∀ fuel, l.length ≤ fuel → seek s t key s.notFound fuel (readBucketValue s t key) =
        pure (l.find? fun j => keyAt s t j == key.bytes)) ∧
      (∃ r, find s t key = pure r) ∧ (∃ r, offset s t key = pure r) ∧
      (∀ write, ∃ r, update s t key write = pure r) ∧
      (l ≠ [] ∧ (∃ r, unlink s t key = pure r) ∨
        l = [] ∧ unlink s t key = throw (.unallocated s.notFound)) := by
  have hL := h.linked hs
  obtain ⟨l, hl, hp, -, hlen⟩ := hL.bucket_chain key
  refine ⟨l, hl, hp, hlen, fun fuel hf => hl.seek key hL.count_le hf, ⟨_, hL.find_eq hl⟩,
    ⟨_, hL.offset_eq hl⟩, fun write => ⟨_, hL.update_eq hl write⟩, ?_⟩
  rcases eq_or_ne l [] with rfl | hne
  · exact .inr ⟨rfl, unlink_of_empty key hl.nil_inv hL.count_le⟩
  · refine .inl ⟨hne, ?_⟩
    rcases hL.unlink_cases hl hne with ⟨-, he⟩ | ⟨-, -, -, he⟩ | ⟨_, _, _, -, -, -, he⟩ <;>
      exact ⟨_, he⟩

theorem two_stores_walks_end :
    ∃ t, runOps (rowSized 4 4 100 2) (create (rowSized 4 4 100 2) fun _ => 0)
        [.store ⟨[222, 173, 190, 239], rfl⟩ [42, 24], .store ⟨[122, 173, 190, 239], rfl⟩ [44, 45]] =
        pure t ∧
      Reachable (rowSized 4 4 100 2) t ∧
      ∃ l, Chain (rowSized 4 4 100 2) t
          (readBucketValue (rowSized 4 4 100 2) t ⟨[222, 173, 190, 239], rfl⟩) l ∧
        l.Pairwise (· > ·) ∧ l.length ≤ t.count ∧
        (∀ fuel, l.length ≤ fuel → seek (rowSized 4 4 100 2) t ⟨[222, 173, 190, 239], rfl⟩
            (rowSized 4 4 100 2).notFound fuel
            (readBucketValue (rowSized 4 4 100 2) t ⟨[222, 173, 190, 239], rfl⟩) =
          pure (l.find? fun j => keyAt (rowSized 4 4 100 2) t j == [222, 173, 190, 239])) ∧
        (∃ r, find (rowSized 4 4 100 2) t ⟨[222, 173, 190, 239], rfl⟩ = pure r) ∧
        (∃ r, offset (rowSized 4 4 100 2) t ⟨[222, 173, 190, 239], rfl⟩ = pure r) ∧
        (∀ write, ∃ r, update (rowSized 4 4 100 2) t ⟨[222, 173, 190, 239], rfl⟩ write = pure r) ∧
        (l ≠ [] ∧ (∃ r, unlink (rowSized 4 4 100 2) t ⟨[222, 173, 190, 239], rfl⟩ = pure r) ∨
          l = [] ∧ unlink (rowSized 4 4 100 2) t ⟨[222, 173, 190, 239], rfl⟩ =
            throw (.unallocated (rowSized 4 4 100 2).notFound)) := by
  have hr := @Reachable.runOps (rowSized 4 4 100 2) _ _
    [.store ⟨[222, 173, 190, 239], rfl⟩ [42, 24], .store ⟨[122, 173, 190, 239], rfl⟩ [44, 45]]
    (.create fun _ => 0) (by simp [Op.Fits, rowSized, recordHashTable]) rfl (by decide)
  exact ⟨_, rfl, hr, reachable_walks_end (rowSized_sound 4 4 100 2) hr _⟩

end RecordHashTable
end BitcoinDatabase
