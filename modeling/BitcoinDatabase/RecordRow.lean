import BitcoinDatabase.Layout

/-!
The cell format of record_row: `[ key | next | value ]` at the address the
manager gives for the row's index. Every access goes through raw_data, so a row
at an index the manager has not allocated faults on its first read or write.
The next link is written and read as array_index whatever LinkType is.
-/

namespace BitcoinDatabase
namespace RecordRow

variable (s : Shape) (t : Table)

/-- record_row::raw_data: the record's address, moved on by `bytes`. -/
def rawData (index bytes : Nat) : Except Fault Nat := do
  return (← RecordManager.get s t index) + bytes

/-- record_row::create: allocate one record, write the key, skip the link, run the
writer. -/
def create (key : Key s.keySize) (write : List UInt8) : Except Fault (Nat × Table) := do
  let (index, t) := RecordManager.newRecords t 1
  let address ← rawData s t index keyStart
  let memory := writeBytes t.memory address key.bytes
  let memory := writeBytes memory (address + s.keySize + s.linkSize) write
  return (index, { t with memory })

/-- The row writes of record_row::create at the record `index` that manager_.new_records has
handed it: the key, the link skipped, then the writer. -/
def populate (index : Nat) (key : Key s.keySize) (write : List UInt8) : Except Fault Table := do
  let address ← rawData s t index keyStart
  let memory := writeBytes t.memory address key.bytes
  let memory := writeBytes memory (address + s.keySize + s.linkSize) write
  return { t with memory }

def writeNextIndex (index next : Nat) : Except Fault Table := do
  let address ← rawData s t index s.keySize
  return { t with memory := writeBytes t.memory address (toLittleEndian arrayIndexSize next) }

def link (index next : Nat) : Except Fault Table :=
  writeNextIndex s t index next

/-- record_row::compare: std::equal of the key and the record's first bytes. -/
def compare (index : Nat) (key : Key s.keySize) : Except Fault Bool := do
  let address ← rawData s t index keyStart
  return readBytes t.memory address s.keySize == key.bytes

def data (index : Nat) : Except Fault Nat :=
  rawData s t index s.prefixSize

/-- record_row::offset: the row's index plus prefix_size; it reads nothing. -/
def offset (index : Nat) : Nat :=
  index + s.prefixSize

/-- record_row::next_index: the array_index at the next field, returned as LinkType. -/
def nextIndex (index : Nat) : Except Fault Nat := do
  let address ← rawData s t index s.keySize
  return fromLittleEndian (readBytes t.memory address arrayIndexSize) % 256 ^ s.linkSize

/-! The fields of a record as the row reads them. -/

def keyAt (index : Nat) : List UInt8 :=
  readBytes t.memory (index * s.recordSize) s.keySize

def nextAt (index : Nat) : Nat :=
  fromLittleEndian (readBytes t.memory (index * s.recordSize + s.keySize) arrayIndexSize) %
    256 ^ s.linkSize

def valueAt (index : Nat) : List UInt8 :=
  readBytes t.memory (index * s.recordSize + s.prefixSize) s.valueSize

def writeValue (index : Nat) (write : List UInt8) : Table :=
  { t with memory := writeBytes t.memory (index * s.recordSize + s.prefixSize) write }

def writeNext (index next : Nat) : Table :=
  { t with
    memory := writeBytes t.memory (index * s.recordSize + s.keySize)
      (toLittleEndian arrayIndexSize next) }

@[simp] theorem writeValue_count (index : Nat) (write : List UInt8) :
    (writeValue s t index write).count = t.count := rfl

@[simp] theorem writeValue_header (index : Nat) (write : List UInt8) :
    (writeValue s t index write).header = t.header := rfl

@[simp] theorem writeNext_count (index next : Nat) : (writeNext s t index next).count = t.count :=
  rfl

@[simp] theorem writeNext_header (index next : Nat) :
    (writeNext s t index next).header = t.header := rfl

/-- next_index reads the link write_next_index wrote, as array_index cut to LinkType. -/
theorem nextAt_writeNext_self (index next : Nat) :
    nextAt s (writeNext s t index next) index =
      fromLittleEndian (toLittleEndian arrayIndexSize next) % 256 ^ s.linkSize := by
  simp only [nextAt, writeNext]
  rw [readBytes_writeBytes_of_length (length_toLittleEndian _ _)]

section Spec

variable {s t} {index : Nat}

theorem rawData_of_lt (h : index < t.count) (bytes : Nat) :
    rawData s t index bytes = pure (index * s.recordSize + bytes) := by
  simp [rawData, RecordManager.get_of_lt h]

theorem rawData_of_le (h : t.count ≤ index) (bytes : Nat) :
    rawData s t index bytes = throw (.unallocated index) := by
  simp only [rawData, RecordManager.get_of_le h]
  rfl

theorem compare_of_lt (h : index < t.count) (key : Key s.keySize) :
    compare s t index key = pure (keyAt s t index == key.bytes) := by
  simp [compare, rawData_of_lt h, keyAt, keyStart]

theorem compare_of_le (h : t.count ≤ index) (key : Key s.keySize) :
    compare s t index key = throw (.unallocated index) := by
  simp only [compare, rawData_of_le h]
  rfl

theorem nextIndex_of_lt (h : index < t.count) :
    nextIndex s t index = pure (nextAt s t index) := by
  simp [nextIndex, rawData_of_lt h, nextAt]

theorem data_of_lt (h : index < t.count) :
    data s t index = pure (index * s.recordSize + s.prefixSize) :=
  rawData_of_lt h _

theorem writeNextIndex_of_lt (h : index < t.count) (next : Nat) :
    writeNextIndex s t index next = pure (writeNext s t index next) := by
  simp [writeNextIndex, rawData_of_lt h, writeNext]

theorem writeNextIndex_of_le (h : t.count ≤ index) (next : Nat) :
    writeNextIndex s t index next = throw (.unallocated index) := by
  simp only [writeNextIndex, rawData_of_le h]
  rfl

/-- create always succeeds: the record it writes is the one it has just allocated. -/
theorem create_eq (key : Key s.keySize) (write : List UInt8) :
    create s t key write = pure (t.count, { t with
      count := t.count + 1,
      memory := writeBytes (writeBytes t.memory (t.count * s.recordSize) key.bytes)
        (t.count * s.recordSize + s.keySize + s.linkSize) write }) := by
  have h : rawData s { t with count := t.count + 1 } t.count keyStart =
      pure (t.count * s.recordSize) := rawData_of_lt (Nat.lt_succ_self _) _
  simp [create, RecordManager.newRecords, h]

theorem populate_of_lt (h : index < t.count) (key : Key s.keySize) (write : List UInt8) :
    populate s t index key write = pure { t with
      memory := writeBytes (writeBytes t.memory (index * s.recordSize) key.bytes)
        (index * s.recordSize + s.keySize + s.linkSize) write } := by
  simp [populate, rawData_of_lt h, keyStart]

theorem populate_of_le (h : t.count ≤ index) (key : Key s.keySize) (write : List UInt8) :
    populate s t index key write = throw (.unallocated index) := by
  simp only [populate, rawData_of_le h]
  rfl

theorem create_eq_populate (key : Key s.keySize) (write : List UInt8) :
    create s t key write = populate s (RecordManager.newRecords t 1).2 t.count key write >>=
      fun t' => pure (t.count, t') := by
  rw [create_eq, RecordManager.newRecords,
    populate_of_lt (t := { t with count := t.count + 1 }) (Nat.lt_succ_self _)]
  rfl

end Spec

end RecordRow
end BitcoinDatabase
