import BitcoinDatabase.RecordRow

/-!
The operations of record_hash_table over the header and the record manager.
find, offset and update walk a chain with the same loop, so they share `seek`
and differ in the sentinel they stop at and in what they do with the row found.
unlink keeps its own loop, which carries the previous row. A walk is given one
more step than there are records: a walk that needs more has visited some
record twice and, the chain being fixed during the walk, would never end.
-/

namespace BitcoinDatabase
namespace RecordHashTable

variable (s : Shape) (t : Table)

def bucketIndex (key : Key s.keySize) : Nat :=
  s.remainder key.bytes s.buckets

def readBucketValue (key : Key s.keySize) : Nat :=
  HashTableHeader.read t (bucketIndex s key)

def link (key : Key s.keySize) (begin : Nat) : Table :=
  HashTableHeader.write t (bucketIndex s key) begin

@[simp] theorem readBucketValue_link (key : Key s.keySize) (begin : Nat) :
    readBucketValue s (link s t key begin) key = begin := by
  simp [readBucketValue, link, HashTableHeader.read, HashTableHeader.write]

/-- store: create the record outside the critical section, then link it in front of
the bucket's first record and make it the bucket's first. -/
def store (key : Key s.keySize) (write : List UInt8) : Except Fault (Nat × Table) := do
  let (index, t) ← RecordRow.create s t key write
  let t ← RecordRow.link s t index (readBucketValue s t key)
  return (index, link s t key index)

/-- The loop of find, offset and update: from `current`, the first row whose key
compares equal, stopping at `sentinel`. -/
def seek (key : Key s.keySize) (sentinel : Nat) : Nat → Nat → Except Fault (Option Nat)
  | fuel, current =>
    if current = sentinel then pure none
    else match fuel with
      | 0 => throw .loops
      | fuel + 1 => do
        if ← RecordRow.compare s t current key then return some current
        seek key sentinel fuel (← RecordRow.nextIndex s t current)

def find (key : Key s.keySize) : Except Fault (Option Nat) := do
  match ← seek s t key s.notFound (t.count + 1) (readBucketValue s t key) with
  | some index => return some (← RecordRow.data s t index)
  | none => return none

/-- offset: the row offset of the first record with the key, as LinkType, or not_found.
Its loop stops at header_.empty. -/
def offset (key : Key s.keySize) : Except Fault Nat := do
  match ← seek s t key (HashTableHeader.empty s) (t.count + 1) (readBucketValue s t key) with
  | some index => return RecordRow.offset s index % 256 ^ s.linkSize
  | none => return s.notFound

def update (key : Key s.keySize) (write : List UInt8) : Except Fault (Nat × Table) := do
  match ← seek s t key s.notFound (t.count + 1) (readBucketValue s t key) with
  | some index =>
    let address ← RecordRow.data s t index
    return (index, { t with memory := writeBytes t.memory address write })
  | none => return (s.notFound, t)

/-- The loop of unlink: `previous` is the row whose next link led to `current`. -/
def unlinkLoop (key : Key s.keySize) : Nat → Nat → Nat → Except Fault (Bool × Table)
  | fuel, previous, current =>
    if current = s.notFound then pure (false, t)
    else match fuel with
      | 0 => throw .loops
      | fuel + 1 => do
        if ← RecordRow.compare s t current key then
          let next ← RecordRow.nextIndex s t current
          return (true, ← RecordRow.writeNextIndex s t previous next)
        unlinkLoop key fuel current (← RecordRow.nextIndex s t current)

/-- unlink: the bucket's first row is compared before any test for not_found; a match
there relinks the bucket, a later match relinks the previous row. -/
def unlink (key : Key s.keySize) : Except Fault (Bool × Table) := do
  let previous := readBucketValue s t key
  if ← RecordRow.compare s t previous key then
    let next ← RecordRow.nextIndex s t previous
    return (true, link s t key next)
  let current ← RecordRow.nextIndex s t previous
  unlinkLoop s t key (t.count + 1) previous current

section Spec

variable {s t}

/-- store never faults: it links the record it has just created in front of the bucket. -/
theorem store_eq (key : Key s.keySize) (write : List UInt8) :
    store s t key write = pure (t.count,
      { header := Function.update t.header (bucketIndex s key) t.count
        memory := writeBytes (writeBytes (writeBytes t.memory (t.count * s.recordSize) key.bytes)
            (t.count * s.recordSize + s.keySize + s.linkSize) write)
          (t.count * s.recordSize + s.keySize)
          (toLittleEndian arrayIndexSize (t.header (bucketIndex s key)))
        count := t.count + 1 }) := by
  simp [store, RecordRow.create_eq, RecordRow.link,
    RecordRow.writeNextIndex_of_lt, RecordRow.writeNext, readBucketValue, link,
    HashTableHeader.read, HashTableHeader.write]

theorem seek_sentinel (key : Key s.keySize) (sentinel fuel : Nat) :
    seek s t key sentinel fuel sentinel = pure none := by
  cases fuel <;> simp [seek]

theorem store_keyAt {key : Key s.keySize} {write : List UInt8} {i : Nat} {t' : Table}
    (h : store s t key write = pure (i, t')) : RecordRow.keyAt s t' t.count = key.bytes := by
  rw [store_eq] at h
  cases h
  simp only [RecordRow.keyAt]
  rw [readBytes_writeBytes_of_disjoint (by omega), readBytes_writeBytes_of_disjoint (by omega),
    readBytes_writeBytes_of_length key.length_eq]

/-- store allocates one record, at the count from before the call, holding the key, and
publishes that count with no test against not_found: at a count of not_found it writes
not_found into the bucket, and find of the key then returns null. -/
theorem store_publishes_count (key : Key s.keySize) (write : List UInt8) :
    ∃ t', store s t key write = pure (t.count, t') ∧ t'.count = t.count + 1 ∧
      RecordRow.keyAt s t' t.count = key.bytes ∧
      HashTableHeader.read t' (bucketIndex s key) = t.count ∧
      (t.count = s.notFound → find s t' key = pure none) := by
  refine ⟨_, store_eq key write, rfl, store_keyAt (store_eq key write),
    by simp [HashTableHeader.read], fun h => ?_⟩
  simp [find, readBucketValue, HashTableHeader.read, h, seek_sentinel]

theorem seek_step {key : Key s.keySize} {sentinel current : Nat} (fuel : Nat)
    (h : current ≠ sentinel) :
    seek s t key sentinel (fuel + 1) current =
      (RecordRow.compare s t current key >>= fun found =>
        if found then pure (some current)
        else RecordRow.nextIndex s t current >>= seek s t key sentinel fuel) := by
  rw [seek, if_neg h]
  rfl

theorem unlinkLoop_notFound (key : Key s.keySize) (fuel previous : Nat) :
    unlinkLoop s t key fuel previous s.notFound = pure (false, t) := by
  cases fuel <;> simp [unlinkLoop]

theorem unlinkLoop_step {key : Key s.keySize} {previous current : Nat} (fuel : Nat)
    (h : current ≠ s.notFound) :
    unlinkLoop s t key (fuel + 1) previous current =
      (RecordRow.compare s t current key >>= fun found =>
        if found then
          RecordRow.nextIndex s t current >>= fun next =>
            (fun t' => (true, t')) <$> RecordRow.writeNextIndex s t previous next
        else RecordRow.nextIndex s t current >>= unlinkLoop s t key fuel current) := by
  rw [unlinkLoop, if_neg h]
  rfl

theorem unlink_eq (key : Key s.keySize) :
    unlink s t key =
      (RecordRow.compare s t (readBucketValue s t key) key >>= fun found =>
        if found then
          RecordRow.nextIndex s t (readBucketValue s t key) >>= fun next =>
            pure (true, link s t key next)
        else RecordRow.nextIndex s t (readBucketValue s t key) >>=
          unlinkLoop s t key (t.count + 1) (readBucketValue s t key)) :=
  rfl

/-- unlink compares the bucket's first row before it tests for not_found: on an empty
bucket it reads record not_found, which no table below capacity has allocated. -/
theorem unlink_of_empty (key : Key s.keySize) (h : t.header (bucketIndex s key) = s.notFound)
    (hc : t.count ≤ s.notFound) :
    unlink s t key = throw (.unallocated s.notFound) := by
  simp only [unlink, readBucketValue, HashTableHeader.read, h, RecordRow.compare_of_le hc]
  rfl

theorem unlink_create_reads_notFound (s : Shape) (memory : Memory) (key : Key s.keySize) :
    unlink s (create s memory) key = throw (.unallocated s.notFound) :=
  unlink_of_empty key rfl (Nat.zero_le _)

theorem find_of_head {key : Key s.keySize} (b : Nat) (hb : readBucketValue s t key = b)
    (hbc : b < t.count) (hbn : b ≠ s.notFound) (hk : RecordRow.keyAt s t b = key.bytes) :
    find s t key = pure (some (b * s.recordSize + s.prefixSize)) := by
  subst hb
  simp [find, seek_step _ hbn, RecordRow.compare_of_lt hbc, hk, RecordRow.data_of_lt hbc]

theorem offset_of_head {key : Key s.keySize} (b : Nat) (hb : readBucketValue s t key = b)
    (hbc : b < t.count) (hbn : b ≠ s.notFound) (hk : RecordRow.keyAt s t b = key.bytes) :
    offset s t key = pure (RecordRow.offset s b % 256 ^ s.linkSize) := by
  subst hb
  simp [offset, HashTableHeader.empty, seek_step _ hbn, RecordRow.compare_of_lt hbc, hk]

theorem update_of_head {key : Key s.keySize} (b : Nat) (hb : readBucketValue s t key = b)
    (hbc : b < t.count) (hbn : b ≠ s.notFound) (hk : RecordRow.keyAt s t b = key.bytes)
    (write : List UInt8) :
    update s t key write = pure (b, RecordRow.writeValue s t b write) := by
  subst hb
  simp [update, seek_step _ hbn, RecordRow.compare_of_lt hbc, hk, RecordRow.data_of_lt hbc,
    RecordRow.writeValue]

theorem unlink_of_head {key : Key s.keySize} (b : Nat) (hb : readBucketValue s t key = b)
    (hbc : b < t.count) (hk : RecordRow.keyAt s t b = key.bytes) :
    unlink s t key = pure (true, link s t key (RecordRow.nextAt s t b)) := by
  subst hb
  simp [unlink_eq, RecordRow.compare_of_lt hbc, hk, RecordRow.nextIndex_of_lt hbc]

theorem unlink_of_second {key : Key s.keySize} (b m : Nat) (hb : readBucketValue s t key = b)
    (hbc : b < t.count) (hkb : RecordRow.keyAt s t b ≠ key.bytes) (hm : RecordRow.nextAt s t b = m)
    (hmc : m < t.count) (hmn : m ≠ s.notFound) (hkm : RecordRow.keyAt s t m = key.bytes) :
    unlink s t key = pure (true, RecordRow.writeNext s t b (RecordRow.nextAt s t m)) := by
  subst hb hm
  have hkb' : (RecordRow.keyAt s t (readBucketValue s t key) == key.bytes) = false := by simpa using hkb
  rw [unlink_eq, RecordRow.compare_of_lt hbc]
  simp only [hkb', RecordRow.nextIndex_of_lt hbc, pure_bind, Bool.false_eq_true, if_false]
  rw [unlinkLoop_step _ hmn, RecordRow.compare_of_lt hmc]
  simp [hkm, RecordRow.nextIndex_of_lt hmc, RecordRow.writeNextIndex_of_lt hbc]

end Spec

end RecordHashTable
end BitcoinDatabase
