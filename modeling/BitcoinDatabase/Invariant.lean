import BitcoinDatabase.Chain

/-!
The operations keep chain well-formedness on sound shapes. A write that store,
update or unlink makes stays inside one record, and records of a sound shape do
not overlap, so every other record keeps its bytes; within the record written,
each write touches one field. From that, store, update and unlink keep `Linked`,
and every reachable state of a sound shape is well formed.
-/

namespace BitcoinDatabase
namespace RecordHashTable

open RecordRow

def SameRecord (s : Shape) (memory memory' : Memory) (index : Nat) : Prop :=
  ∀ x, index * s.recordSize ≤ x → x < index * s.recordSize + s.recordSize → memory' x = memory x

theorem records_disjoint {j n : Nat} (size : Nat) (h : j ≠ n) :
    j * size + size ≤ n * size ∨ n * size + size ≤ j * size := by
  rcases Nat.lt_or_gt_of_ne h with h | h
  · exact .inl (by simpa [Nat.succ_mul] using Nat.mul_le_mul_right size h)
  · exact .inr (by simpa [Nat.succ_mul] using Nat.mul_le_mul_right size h)

theorem sameRecord_writeBytes {memory : Memory} {j n a : Nat} {bytes : List UInt8} (hj : j ≠ n)
    (h₁ : n * s.recordSize ≤ a) (h₂ : a + bytes.length ≤ n * s.recordSize + s.recordSize) :
    SameRecord s memory (writeBytes memory a bytes) j := by
  intro x hx₁ hx₂
  have := records_disjoint s.recordSize hj
  exact writeBytes_apply_outside (by omega)

section Populate

variable {s : Shape} {t t' : Table} {index : Nat} {key : Key s.keySize} {write : List UInt8}

theorem populate_lt (h : populate s t index key write = pure t') : index < t.count := by
  by_contra hi
  rw [populate_of_le (by omega)] at h
  cases h

theorem populate_fields (h : populate s t index key write = pure t') :
    t'.count = t.count ∧ t'.header = t.header ∧ keyAt s t' index = key.bytes := by
  rw [populate_of_lt (populate_lt h)] at h
  cases h
  refine ⟨rfl, rfl, ?_⟩
  simp only [keyAt]
  rw [readBytes_writeBytes_of_disjoint (.inl (by omega)),
    readBytes_writeBytes_of_length key.length_eq]

theorem populate_sameRecord (hs : s.Sound) (hw : write.length ≤ s.valueSize)
    (h : populate s t index key write = pure t') {j : Nat} (hj : j ≠ index) :
    SameRecord s t.memory t'.memory j := by
  rw [populate_of_lt (populate_lt h)] at h
  cases h
  have := hs.prefix_le
  have := hs.linkSize_eq
  have := key.length_eq
  intro x hx₁ hx₂
  dsimp only
  rw [sameRecord_writeBytes hj (by omega) (by omega) x hx₁ hx₂,
    sameRecord_writeBytes hj le_rfl (by omega) x hx₁ hx₂]

end Populate

section Sound

variable {s : Shape} (hs : s.Sound) {t t' : Table}
include hs

theorem keyAt_congr {j : Nat} (h : SameRecord s t.memory t'.memory j) :
    keyAt s t' j = keyAt s t j :=
  readBytes_congr fun x hx₁ hx₂ => h x hx₁ (by have := hs.prefix_le; omega)

theorem nextAt_congr {j : Nat} (h : SameRecord s t.memory t'.memory j) :
    nextAt s t' j = nextAt s t j := by
  unfold nextAt
  rw [readBytes_congr fun x hx₁ hx₂ => h x (by omega) (by have := hs.prefix_le; omega)]

theorem valueAt_congr {j : Nat} (h : SameRecord s t.memory t'.memory j) :
    valueAt s t' j = valueAt s t j := by
  have := hs.prefix_le
  have := hs.linkSize_eq
  exact readBytes_congr fun x hx₁ hx₂ => h x (by omega) (by simp [Shape.prefixSize] at hx₂; omega)

theorem home_congr {j : Nat} (h : SameRecord s t.memory t'.memory j) :
    home s t' j = home s t j := by
  rw [home, home, keyAt_congr hs h]

/-- A link below capacity survives its write as array_index and its read as LinkType. -/
theorem link_round_trip {v : Nat} (hv : v ≤ s.notFound) :
    fromLittleEndian (toLittleEndian arrayIndexSize v) % 256 ^ s.linkSize = v := by
  have := s.notFound_lt
  rw [fromLittleEndian_toLittleEndian, ← hs.linkSize_eq, Nat.mod_mod, Nat.mod_eq_of_lt (by omega)]

end Sound

/-! One store: three writes inside the new record. -/

section Store

variable {s : Shape} {t t' : Table} {key : Key s.keySize} {write : List UInt8} {i : Nat}
  (h : store s t key write = pure (i, t'))
include h

theorem store_count : i = t.count ∧ t'.count = t.count + 1 ∧
    t'.header = Function.update t.header (bucketIndex s key) t.count := by
  rw [store_eq] at h
  cases h
  exact ⟨rfl, rfl, rfl⟩

theorem store_sameRecord (hs : s.Sound) (hw : write.length ≤ s.valueSize) {j : Nat}
    (hj : j ≠ t.count) : SameRecord s t.memory t'.memory j := by
  rw [store_eq] at h
  cases h
  have := hs.prefix_le
  have := hs.linkSize_eq
  have := key.length_eq
  intro x hx₁ hx₂
  dsimp only
  rw [sameRecord_writeBytes hj (by omega) (by simp; omega) x hx₁ hx₂,
    sameRecord_writeBytes hj (by omega) (by omega) x hx₁ hx₂,
    sameRecord_writeBytes hj le_rfl (by omega) x hx₁ hx₂]

theorem store_nextAt (hs : s.Sound) (hv : t.header (bucketIndex s key) ≤ s.notFound) :
    nextAt s t' t.count = t.header (bucketIndex s key) := by
  rw [store_eq] at h
  cases h
  simp only [nextAt]
  rw [readBytes_writeBytes_of_length (length_toLittleEndian _ _), link_round_trip hs hv]

theorem store_valueAt (hs : s.Sound) (hw : write.length = s.valueSize) :
    valueAt s t' t.count = write := by
  rw [store_eq] at h
  cases h
  have := hs.linkSize_eq
  simp only [valueAt, Shape.prefixSize]
  rw [readBytes_writeBytes_of_disjoint (by simp [arrayIndexSize] at *; omega), ← Nat.add_assoc,
    readBytes_writeBytes_of_length hw]

theorem store_home : home s t' t.count = bucketIndex s key := by
  rw [home, store_keyAt h, bucketIndex]

end Store

section Writes

variable {s : Shape} (hs : s.Sound) {t : Table} {i j : Nat}
include hs

section Value

variable {write : List UInt8} (hw : write.length ≤ s.valueSize)
include hw

theorem sameRecord_writeValue (hj : j ≠ i) :
    SameRecord s t.memory (writeValue s t i write).memory j := by
  have := hs.prefix_le
  have := hs.linkSize_eq
  exact sameRecord_writeBytes hj (by simp [Shape.prefixSize]) (by simp [Shape.prefixSize]; omega)

theorem keyAt_writeValue : keyAt s (writeValue s t i write) j = keyAt s t j := by
  rcases eq_or_ne j i with rfl | hj
  · simp only [keyAt, writeValue]
    exact readBytes_writeBytes_of_disjoint (.inl (by simp [Shape.prefixSize]))
  · exact keyAt_congr hs (sameRecord_writeValue hs hw hj)

theorem nextAt_writeValue : nextAt s (writeValue s t i write) j = nextAt s t j := by
  rcases eq_or_ne j i with rfl | hj
  · have := hs.linkSize_eq
    unfold nextAt
    rw [writeValue, readBytes_writeBytes_of_disjoint (.inl (by simp [Shape.prefixSize]; omega))]
  · exact nextAt_congr hs (sameRecord_writeValue hs hw hj)

theorem valueAt_writeValue_of_ne (hj : j ≠ i) :
    valueAt s (writeValue s t i write) j = valueAt s t j :=
  valueAt_congr hs (sameRecord_writeValue hs hw hj)

end Value

omit hs in
theorem valueAt_writeValue {write : List UInt8} (hw : write.length = s.valueSize) :
    valueAt s (writeValue s t i write) i = write :=
  readBytes_writeBytes_of_length hw

theorem sameRecord_writeNext {v : Nat} (hj : j ≠ i) :
    SameRecord s t.memory (writeNext s t i v).memory j := by
  have := hs.prefix_le
  exact sameRecord_writeBytes hj (by omega) (by simp; omega)

theorem keyAt_writeNext {v : Nat} : keyAt s (writeNext s t i v) j = keyAt s t j := by
  rcases eq_or_ne j i with rfl | hj
  · simp only [keyAt, writeNext]
    exact readBytes_writeBytes_of_disjoint (.inl le_rfl)
  · exact keyAt_congr hs (sameRecord_writeNext hs hj)

theorem valueAt_writeNext {v : Nat} : valueAt s (writeNext s t i v) j = valueAt s t j := by
  rcases eq_or_ne j i with rfl | hj
  · have := hs.linkSize_eq
    simp only [valueAt, writeNext]
    exact readBytes_writeBytes_of_disjoint (.inr (by simp [Shape.prefixSize, arrayIndexSize] at *; omega))
  · exact valueAt_congr hs (sameRecord_writeNext hs hj)

theorem nextAt_writeNext_of_ne {v : Nat} (hj : j ≠ i) :
    nextAt s (writeNext s t i v) j = nextAt s t j :=
  nextAt_congr hs (sameRecord_writeNext hs hj)

theorem nextAt_writeNext {v : Nat} (hv : v ≤ s.notFound) : nextAt s (writeNext s t i v) i = v := by
  rw [nextAt_writeNext_self, link_round_trip hs hv]

theorem home_writeNext {v : Nat} : home s (writeNext s t i v) j = home s t j := by
  rw [home, home, keyAt_writeNext hs]

end Writes

/-! Each operation keeps `Linked` on a sound shape. -/

section Preservation

variable {s : Shape} {t t' : Table}

theorem linked_create (memory : Memory) : Linked s (create s memory) :=
  ⟨Nat.zero_le _, fun _ => .inl rfl, fun _ h => absurd h (Nat.not_lt_zero _)⟩

/-- `Linked` reads the count, the buckets, and the key and next link of allocated records
only. -/
theorem Linked.of_fields (h : Linked s t) (hc : t'.count = t.count) (hh : t'.header = t.header)
    (hk : ∀ j < t.count, keyAt s t' j = keyAt s t j)
    (hn : ∀ j < t.count, nextAt s t' j = nextAt s t j) : Linked s t' := by
  have hhome : ∀ j < t.count, home s t' j = home s t j := fun j hj => by simp only [home, hk j hj]
  refine ⟨hc ▸ h.count_le, fun b => ?_, fun j hj => ?_⟩
  · rw [hh, hc]
    rcases h.header b with hb | ⟨hlt, hb⟩
    · exact .inl hb
    · exact .inr ⟨hlt, (hhome _ hlt).trans hb⟩
  · rw [hc] at hj
    rw [hn j hj, hhome j hj]
    rcases h.next j hj with hn' | ⟨hlt, hb⟩
    · exact .inl hn'
    · exact .inr ⟨hlt, (hhome _ (hlt.trans hj)).trans hb⟩

theorem Linked.store (hs : s.Sound) (h : Linked s t) {key : Key s.keySize} {write : List UInt8}
    {i : Nat} (hst : store s t key write = pure (i, t')) (hw : write.length ≤ s.valueSize)
    (hc : t.count < s.notFound) : Linked s t' := by
  obtain ⟨-, hcount, hheader⟩ := store_count hst
  have same : ∀ j < t.count, SameRecord s t.memory t'.memory j :=
    fun j hj => store_sameRecord hst hs hw (by omega)
  have hold : ∀ {j}, j = s.notFound ∨ j < t.count ∧ home s t j = home s t j → j ≤ s.notFound :=
    fun hj => by have := h.count_le; omega
  refine ⟨by omega, fun b => ?_, fun j hj => ?_⟩
  · rw [hheader]
    by_cases hb : b = bucketIndex s key
    · subst hb
      simpa using .inr ⟨by omega, store_home hst⟩
    · rw [Function.update_noteq hb]
      rcases h.header b with hn | ⟨hlt, hh⟩
      · exact .inl hn
      · exact .inr ⟨by omega, (home_congr hs (same _ hlt)).trans hh⟩
  · rcases Nat.lt_or_ge j t.count with hj' | hj'
    · rw [nextAt_congr hs (same j hj'), home_congr hs (same j hj')]
      rcases h.next j hj' with hn | ⟨hlt, hh⟩
      · exact .inl hn
      · exact .inr ⟨hlt, (home_congr hs (same _ (hlt.trans hj'))).trans hh⟩
    · obtain rfl : j = t.count := by omega
      have hv : t.header (bucketIndex s key) ≤ s.notFound := by
        rcases h.header (bucketIndex s key) with hn | ⟨hlt, -⟩ <;> have := h.count_le <;> omega
      rw [store_nextAt hst hs hv, store_home hst]
      rcases h.header (bucketIndex s key) with hn | ⟨hlt, hh⟩
      · exact .inl hn
      · exact .inr ⟨hlt, (home_congr hs (same _ hlt)).trans hh⟩

theorem Linked.update (hs : s.Sound) (h : Linked s t) {key : Key s.keySize}
    {write : List UInt8} {r : Nat} (hu : update s t key write = pure (r, t'))
    (hw : write.length ≤ s.valueSize) : Linked s t' := by
  obtain ⟨l, hl, -⟩ := h.bucket_chain key
  rw [h.update_eq hl] at hu
  split at hu <;> cases hu
  · exact h.of_fields rfl rfl (fun _ _ => keyAt_writeValue hs hw) (fun _ _ => nextAt_writeValue hs hw)
  · exact h

theorem Linked.link_next (h : Linked s t) {key : Key s.keySize} {j : Nat} (hj : j < t.count)
    (hh : home s t j = bucketIndex s key) : Linked s (link s t key (nextAt s t j)) := by
  refine ⟨h.count_le, fun b => ?_, h.next⟩
  simp only [link, HashTableHeader.write]
  by_cases hb : b = bucketIndex s key
  · subst hb
    rw [Function.update_same]
    rcases h.next _ hj with hn | ⟨hlt, hh'⟩
    · exact .inl hn
    · exact .inr ⟨hlt.trans hj, hh'.trans hh⟩
  · rw [Function.update_noteq hb]
    exact h.header b

theorem Linked.relink (hs : s.Sound) (h : Linked s t) {p m : Nat} (hm : m < t.count)
    (hpm : m < p) (hhm : home s t m = home s t p) :
    Linked s (writeNext s t p (nextAt s t m)) := by
  have hhome : ∀ j, home s (writeNext s t p (nextAt s t m)) j = home s t j :=
    fun _ => home_writeNext hs
  refine ⟨h.count_le, fun b => ?_, fun j hj => ?_⟩
  · simpa only [writeNext_header, writeNext_count, hhome] using h.header b
  · rw [hhome]
    by_cases hj' : j = p
    · subst hj'
      have hv : nextAt s t m ≤ s.notFound := by
        rcases h.next m hm with hn | ⟨hlt, -⟩ <;> have := h.count_le <;> omega
      rw [nextAt_writeNext hs hv, hhome, ← hhm]
      rcases h.next m hm with hn | ⟨hlt, hh⟩
      · exact .inl hn
      · exact .inr ⟨hlt.trans hpm, hh⟩
    · rw [nextAt_writeNext_of_ne hs hj', hhome]
      exact h.next j hj

theorem Linked.unlink (hs : s.Sound) (h : Linked s t) {key : Key s.keySize} {r : Bool}
    (hu : unlink s t key = pure (r, t')) : Linked s t' := by
  obtain ⟨l, hl, hp, hhome, -⟩ := h.bucket_chain key
  rcases eq_or_ne l [] with rfl | hne
  · rw [unlink_of_empty key hl.nil_inv h.count_le] at hu
    cases hu
  rcases h.unlink_cases hl hne with ⟨-, he⟩ | ⟨post, rfl, -, he⟩ | ⟨pre, m, post, rfl, -, -, he⟩ <;>
    rw [he] at hu <;> cases hu
  · exact h
  · exact h.link_next (hl.lt_count _ (List.mem_cons_self _ _)) (hhome _ (List.mem_cons_self _ _))
  · have hpl := List.getLast_mem (List.cons_ne_nil (readBucketValue s t key) pre)
    exact h.relink hs (hl.lt_count m (by simp))
      (List.pairwise_append.1 hp |>.2.2 _ hpl m (List.mem_cons_self _ _))
      ((hhome m (by simp)).trans (hhome _ (List.mem_append_left _ hpl)).symm)

/-- Every state a sound shape reaches keeps chain well-formedness record by record. -/
theorem Reachable.linked (hs : s.Sound) (h : Reachable s t) : Linked s t := by
  induction h with
  | create memory => exact linked_create memory
  | step op _ hfit hrun hc ih =>
      cases op with
      | store key write =>
          obtain ⟨⟨i, t''⟩, hst, he⟩ := bind_eq_pure hrun
          cases he
          exact ih.store hs hst hfit (by rw [(store_count hst).2.1] at hc; omega)
      | update key write =>
          obtain ⟨⟨r, t''⟩, hu, he⟩ := bind_eq_pure hrun
          cases he
          exact ih.update hs hu hfit
      | unlink key =>
          obtain ⟨⟨r, t''⟩, hu, he⟩ := bind_eq_pure hrun
          cases he
          exact ih.unlink hs hu

/-- On a sound shape every reachable state's chains are well formed. -/
theorem reachable_chainsWellFormed (hs : s.Sound) (h : Reachable s t) : ChainsWellFormed s t :=
  (h.linked hs).chainsWellFormed

theorem colliding_stores_wellFormed :
    ∃ t, Reachable (rowSized 4 4 100 2) t ∧ t.count = 2 ∧ ChainsWellFormed (rowSized 4 4 100 2) t := by
  have h₀ : Reachable (rowSized 4 4 100 2) _ := .create fun _ => 0
  have h₁ := Reachable.step (.store ⟨[222, 173, 190, 239], rfl⟩ [42, 24]) h₀ le_rfl rfl (by decide)
  have h₂ := Reachable.step (.store ⟨[122, 173, 190, 239], rfl⟩ [44, 45]) h₁ le_rfl rfl (by decide)
  exact ⟨_, h₂, rfl, reachable_chainsWellFormed (rowSized_sound 4 4 100 2) h₂⟩

end Preservation

end RecordHashTable
end BitcoinDatabase
