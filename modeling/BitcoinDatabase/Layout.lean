import BitcoinDatabase.Bytes

/-!
The shape of one instantiation of record_hash_table<KeyType, IndexType,
LinkType> and the state it keeps in its file: the bucket array of the
hash_table_header, and the record manager's count and record bytes. The
header and the manager are outside the repository's sources; they are modelled
from the spec, as single-bucket reads and writes and as a bump allocator whose
records are addressed by index times record size.
-/

namespace BitcoinDatabase

/-- A key of KeyType, a std::array of `width` bytes. -/
structure Key (width : Nat) where
  bytes : List UInt8
  length_eq : bytes.length = width
  deriving DecidableEq

theorem Key.bytes_inj {width : Nat} {key key' : Key width} : key.bytes = key'.bytes ↔ key = key' := by
  cases key
  cases key'
  simp

/-- The static parameters of a table: the widths of KeyType and LinkType, the bucket
count, the value size a writer fills, the record size the manager addresses records by,
and the header's remainder function. -/
structure Shape where
  keySize : Nat
  linkSize : Nat
  buckets : Nat
  valueSize : Nat
  recordSize : Nat
  remainder : List UInt8 → Nat → Nat

namespace Shape

variable (s : Shape)

/-- not_found: all ones of LinkType. -/
def notFound : Nat := 256 ^ s.linkSize - 1

/-- record_row::prefix_size, the key and the next link before the value. -/
def prefixSize : Nat := s.keySize + s.linkSize

theorem notFound_lt : s.notFound < 256 ^ s.linkSize := by
  have := Nat.pos_pow_of_pos s.linkSize (show 0 < 256 by decide)
  unfold notFound
  omega

end Shape

/-- The width of array_index (uint32_t), the type the rows read and write next links as. -/
def arrayIndexSize : Nat := 4

namespace RecordRow

def keyStart : Nat := 0

def size (s : Shape) (valueSize : Nat) : Nat := s.keySize + s.linkSize + valueSize

end RecordRow

/-- The shapes on which the row format and the record manager agree: a row of
record_row::size(value_size) bytes fits in the record the manager addresses, and LinkType
is as wide as the array_index the row reads and writes its next link as. -/
structure Shape.Sound (s : Shape) : Prop where
  size_le : RecordRow.size s s.valueSize ≤ s.recordSize
  linkSize_eq : s.linkSize = arrayIndexSize

theorem Shape.Sound.prefix_le {s : Shape} (hs : s.Sound) :
    s.keySize + arrayIndexSize + s.valueSize ≤ s.recordSize := by
  have := hs.size_le
  rwa [RecordRow.size, hs.linkSize_eq] at this

namespace HashTableHeader

/-- Modelled from the spec: hash_table_header::remainder, whose source is not in the
repository. The key's first sizeof(IndexType) bytes are read little-endian, modulo the
bucket count. -/
def remainder (indexSize : Nat) (key : List UInt8) (buckets : Nat) : Nat :=
  fromLittleEndian (key.take indexSize) % buckets

end HashTableHeader

/-- The record_hash_table constructor: header_(file, buckets) and
manager_(file, header size, value_size), so the manager's record size is value_size. -/
def recordHashTable (keySize indexSize linkSize buckets valueSize : Nat) : Shape where
  keySize := keySize
  linkSize := linkSize
  buckets := buckets
  valueSize := valueSize
  recordSize := valueSize
  remainder := HashTableHeader.remainder indexSize

/-- The constructor as it would be with the manager's record size record_row::size(value_size)
in place of value_size: the shape on which the row format and the manager agree. -/
def rowSized (keySize indexSize buckets valueSize : Nat) : Shape :=
  { recordHashTable keySize indexSize arrayIndexSize buckets valueSize with
    recordSize := keySize + arrayIndexSize + valueSize }

theorem rowSized_sound (keySize indexSize buckets valueSize : Nat) :
    (rowSized keySize indexSize buckets valueSize).Sound :=
  ⟨le_rfl, rfl⟩

inductive Fault where
  /-- manager_.get at a record index the manager has not allocated -/
  | unallocated (index : Nat)
  /-- a chain walk that comes back to a record it has left, and so never ends -/
  | loops
  deriving DecidableEq, Repr

theorem bind_eq_pure {α β : Type} {x : Except Fault α} {f : α → Except Fault β} {b : β}
    (h : x >>= f = pure b) : ∃ a, x = pure a ∧ f a = pure b := by
  cases x with
  | error e => cases h
  | ok a => exact ⟨a, rfl, h⟩

/-- The table's file: the buckets of the header, the record bytes, and the number of
records the manager has allocated. -/
structure Table where
  header : Nat → Nat
  memory : Memory
  count : Nat

namespace RecordManager

/-- Modelled from the spec: record_manager::get, whose source is not in the repository.
A record the manager has allocated is at its index times the record size; any other link
is invalid. -/
def get (s : Shape) (t : Table) (index : Nat) : Except Fault Nat :=
  if index < t.count then pure (index * s.recordSize) else throw (.unallocated index)

/-- Modelled from the spec: record_manager::new_records, whose source is not in the
repository. It reserves `count` records and returns the index of the first. -/
def newRecords (t : Table) (count : Nat) : Nat × Table :=
  (t.count, { t with count := t.count + count })

theorem get_of_lt {s : Shape} {t : Table} {index : Nat} (h : index < t.count) :
    get s t index = pure (index * s.recordSize) := if_pos h

theorem get_of_le {s : Shape} {t : Table} {index : Nat} (h : t.count ≤ index) :
    get s t index = throw (.unallocated index) := if_neg (by omega)

end RecordManager

namespace HashTableHeader

/-- Modelled from the spec: hash_table_header::empty, the link of an empty bucket. -/
def empty (s : Shape) : Nat := s.notFound

/-- Modelled from the spec: hash_table_header::read of one bucket. -/
def read (t : Table) (index : Nat) : Nat := t.header index

/-- Modelled from the spec: hash_table_header::write of one bucket. -/
def write (t : Table) (index value : Nat) : Table :=
  { t with header := Function.update t.header index value }

end HashTableHeader

/-- record_hash_table::create: every bucket empty and no records; the file's bytes are
whatever they were. -/
def RecordHashTable.create (s : Shape) (memory : Memory) : Table where
  header := fun _ => HashTableHeader.empty s
  memory := memory
  count := 0

end BitcoinDatabase
