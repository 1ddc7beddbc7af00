import BitcoinDatabase.RecordHashTable

/-!
The cell format on its own: one row created, linked, and relinked any number of
times. The next link is written and read as array_index, so the row keeps its
fields apart and reads back what was written exactly when LinkType is as wide as
array_index; a wider LinkType's not_found reads back as the all-ones array_index.
-/

namespace BitcoinDatabase
namespace RecordRow

variable {s : Shape} {t : Table}

theorem writeNext_writeNext (index next next' : Nat) :
    writeNext s (writeNext s t index next) index next' = writeNext s t index next' := by
  simp only [writeNext]
  rw [writeBytes_writeBytes_of_le (by simp)]

theorem foldlM_writeNextIndex {index : Nat} (h : index < t.count) (links : List Nat) :
    links.foldlM (fun t next => writeNextIndex s t index next) t =
      pure (links.foldl (fun t next => writeNext s t index next) t) := by
  induction links generalizing t with
  | nil => rfl
  | cons next links ih =>
      rw [List.foldlM_cons, writeNextIndex_of_lt h, pure_bind, ih (by simpa using h)]
      rfl

theorem foldl_writeNext (index next : Nat) (links : List Nat) :
    links.foldl (fun t next => writeNext s t index next) (writeNext s t index next) =
      writeNext s t index ((next :: links).getLast (List.cons_ne_nil _ _)) := by
  induction links generalizing next with
  | nil => rfl
  | cons next' links ih =>
      rw [List.foldl_cons, writeNext_writeNext, ih, List.getLast_cons (List.cons_ne_nil _ _)]

end RecordRow

namespace CellFormat

open RecordRow

variable {s : Shape} {t : Table}

/-- A row's life: record_row::create, then link, then write_next_index with each further
link, all on the row just created. -/
def cellRun (s : Shape) (t : Table) (key : Key s.keySize) (write : List UInt8) (first : Nat)
    (links : List Nat) : Except Fault (Nat × Table) := do
  let (index, t) ← RecordRow.create s t key write
  let t ← RecordRow.link s t index first
  let t ← links.foldlM (fun t next => writeNextIndex s t index next) t
  return (index, t)

def created (s : Shape) (t : Table) (key : Key s.keySize) (write : List UInt8) : Table :=
  { t with
    count := t.count + 1,
    memory := writeBytes (writeBytes t.memory (t.count * s.recordSize) key.bytes)
      (t.count * s.recordSize + s.keySize + s.linkSize) write }

/-- A row's life never faults: it is the create followed by one write of the last link. -/
theorem cellRun_eq (key : Key s.keySize) (write : List UInt8) (first : Nat) (links : List Nat) :
    cellRun s t key write first links = pure (t.count,
      writeNext s (created s t key write) t.count
        ((first :: links).getLast (List.cons_ne_nil _ _))) := by
  have hcreate : RecordRow.create s t key write = pure (t.count, created s t key write) :=
    create_eq key write
  have hc : t.count < (created s t key write).count := Nat.lt_succ_self _
  simp only [cellRun, hcreate, link, pure_bind, writeNextIndex_of_lt hc,
    foldlM_writeNextIndex (t := writeNext s (created s t key write) t.count first) hc, map_pure,
    foldl_writeNext]

/-- The cell format round-trips when LinkType is as wide as array_index: after create, link
and any relinks, compare holds of the stored key only, next_index is the last link written,
data holds the writer's bytes, and the links wrote nothing outside the link field. -/
theorem cell_round_trip (hl : s.linkSize = arrayIndexSize) (key : Key s.keySize)
    {write : List UInt8} (hw : write.length = s.valueSize) (first : Nat) (links : List Nat)
    (hn : ∀ n ∈ first :: links, n < 256 ^ s.linkSize) :
    ∃ t', cellRun s t key write first links = pure (t.count, t') ∧
      (∀ key', compare s t' t.count key' = pure (decide (key' = key))) ∧
      nextIndex s t' t.count = pure ((first :: links).getLast (List.cons_ne_nil _ _)) ∧
      (∃ address, data s t' t.count = pure address ∧
        readBytes t'.memory address s.valueSize = write) ∧
      ∀ x, x < t.count * s.recordSize + s.keySize ∨
          t.count * s.recordSize + s.keySize + s.linkSize ≤ x →
        t'.memory x = (created s t key write).memory x := by
  set last := (first :: links).getLast (List.cons_ne_nil _ _)
  have hlast : last < 256 ^ s.linkSize := hn _ (List.getLast_mem _)
  have hc : t.count < (writeNext s (created s t key write) t.count last).count := Nat.lt_succ_self _
  have hkey : keyAt s (writeNext s (created s t key write) t.count last) t.count = key.bytes := by
    simp only [keyAt, writeNext, created]
    rw [readBytes_writeBytes_of_disjoint (.inl le_rfl),
      readBytes_writeBytes_of_disjoint (.inl (by omega)), readBytes_writeBytes_of_length key.length_eq]
  refine ⟨_, cellRun_eq key write first links, fun key' => ?_, ?_, ⟨_, data_of_lt hc, ?_⟩, ?_⟩
  · rw [compare_of_lt hc, hkey]
    by_cases h : key' = key
    · simp [h]
    · rw [beq_eq_false_iff_ne.2 fun e => h (Key.bytes_inj.1 e).symm]
      simp [h]
  · rw [nextIndex_of_lt hc, nextAt_writeNext_self, fromLittleEndian_toLittleEndian, ← hl,
      Nat.mod_mod, Nat.mod_eq_of_lt hlast]
  · simp only [writeNext, created, Shape.prefixSize]
    rw [readBytes_writeBytes_of_disjoint (.inr (by simp only [length_toLittleEndian, hl]; omega)),
      ← Nat.add_assoc, readBytes_writeBytes_of_length hw]
  · intro x hx
    exact writeBytes_apply_outside (by simpa [hl] using hx)

theorem one_relink_round_trip :
    ∃ t', cellRun (recordHashTable 4 4 4 100 2)
        (RecordHashTable.create (recordHashTable 4 4 4 100 2) fun _ => 0)
        ⟨[222, 173, 190, 239], rfl⟩ [42, 24] 4294967295 [7] = pure (0, t') ∧
      (∀ key', compare (recordHashTable 4 4 4 100 2) t' 0 key' =
        pure (decide (key' = ⟨[222, 173, 190, 239], rfl⟩))) ∧
      nextIndex (recordHashTable 4 4 4 100 2) t' 0 = pure 7 ∧
      (∃ address, data (recordHashTable 4 4 4 100 2) t' 0 = pure address ∧
        readBytes t'.memory address 2 = [42, 24]) ∧
      ∀ x, x < 4 ∨ 8 ≤ x → t'.memory x =
        (created (recordHashTable 4 4 4 100 2)
          (RecordHashTable.create (recordHashTable 4 4 4 100 2) fun _ => 0)
          ⟨[222, 173, 190, 239], rfl⟩ [42, 24]).memory x :=
  cell_round_trip rfl _ rfl _ _ (by decide)

/-- With LinkType wider than array_index, a link of not_found reads back as the all-ones
array_index, which is below not_found, so a walk takes it for a record. -/
theorem wide_link_reads_short (hl : arrayIndexSize < s.linkSize) (key : Key s.keySize)
    (write : List UInt8) :
    ∃ t', cellRun s t key write s.notFound [] = pure (t.count, t') ∧
      nextIndex s t' t.count = pure (256 ^ arrayIndexSize - 1) ∧
      256 ^ arrayIndexSize - 1 < s.notFound := by
  have hpow : 256 ^ arrayIndexSize < 256 ^ s.linkSize := Nat.pow_lt_pow_right (by decide) hl
  have hsplit : 256 ^ s.linkSize = 256 ^ arrayIndexSize * 256 ^ (s.linkSize - arrayIndexSize) := by
    rw [← Nat.pow_add, Nat.add_sub_cancel' hl.le]
  have hpos : 0 < 256 ^ (s.linkSize - arrayIndexSize) := Nat.pos_pow_of_pos _ (by decide)
  have hlow : s.notFound % 256 ^ arrayIndexSize = 256 ^ arrayIndexSize - 1 := by
    rw [Shape.notFound, hsplit]
    simp only [arrayIndexSize] at *
    omega
  have hc : t.count < (writeNext s (created s t key write) t.count s.notFound).count := Nat.lt_succ_self _
  refine ⟨_, cellRun_eq key write _ [], ?_, by rw [Shape.notFound]; omega⟩
  show nextIndex s (writeNext s (created s t key write) t.count s.notFound) t.count = _
  rw [nextIndex_of_lt hc, nextAt_writeNext_self, fromLittleEndian_toLittleEndian, hlow,
    Nat.mod_eq_of_lt (by omega)]

theorem uint64_link_reads_short :
    ∃ t', cellRun (recordHashTable 4 4 8 100 2)
        (RecordHashTable.create (recordHashTable 4 4 8 100 2) fun _ => 0)
        ⟨[222, 173, 190, 239], rfl⟩ [42, 24] (recordHashTable 4 4 8 100 2).notFound [] = pure (0, t') ∧
      nextIndex (recordHashTable 4 4 8 100 2) t' 0 = pure 4294967295 ∧
      4294967295 < (recordHashTable 4 4 8 100 2).notFound :=
  wide_link_reads_short (by decide) _ _

end CellFormat
end BitcoinDatabase
