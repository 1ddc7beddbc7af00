import BitcoinDatabase.Concurrent.Reader

/-!
Readers against one writer. The writer runs store, update and unlink one call after another
and the readers run find. store is split at its shared writes: record_row::create, then
record_row::link of the bucket's first record, then the bucket write that publishes the new
record. update and unlink each write once, at the end of a walk only they make, and readers
write nothing, so each of them is one step. Every reader carries the tables it has seen
since its bucket read, a record of the run that no step reads.

On a sound shape every reader's walk keeps a first record of its key that a sequential find
returns in one of those tables: readers are linearizable, never fault, and visit only records
the writer has finished. A reader can still follow the link of an unlinked record to a record
that has been unlinked since.
-/

namespace BitcoinDatabase
namespace Concurrent

open RecordHashTable RecordRow

/-- Where the one writer is: between calls, or inside store after record_row::create or after
record_row::link, with the bucket not yet linked to the new record. -/
inductive Writer (width : Nat) where
  | idle
  | created (key : Key width) (index : Nat)
  | linked (key : Key width) (index : Nat)

/-- One writer thread and the reader threads, each reader with the tables it has seen since its
bucket read, newest first. -/
structure System (s : Shape) where
  table : Table
  writer : Writer s.keySize
  readers : List (Reader s.keySize × List Table)

namespace System

variable {s : Shape}

/-- The table as readers can reach it: the record a store has allocated and not yet linked into
its bucket is left out. -/
def visible (sys : System s) : Table :=
  match sys.writer with
  | .idle => sys.table
  | _ => { sys.table with count := sys.table.count - 1 }

/-- The writer steps to `writer`, leaving `table`; every walking reader sees the new table. -/
def write (sys : System s) (writer : Writer s.keySize) (table : Table) : System s where
  table := table
  writer := writer
  readers := sys.readers.map fun entry =>
    (entry.1, if entry.1.walking then table :: entry.2 else entry.2)

def read (sys : System s) (n : Nat) (r : Reader s.keySize) (seen : List Table) : System s :=
  { sys with
    readers := sys.readers.set n (r.step s sys.table, match r with
      | .start _ => [sys.table]
      | _ => seen) }

def init (t : Table) (keys : List (Key s.keySize)) : System s where
  table := t
  writer := .idle
  readers := keys.map fun key => (.start key, [])

theorem visible_memory (sys : System s) : sys.visible.memory = sys.table.memory := by
  unfold visible
  split <;> rfl

theorem visible_header (sys : System s) : sys.visible.header = sys.table.header := by
  unfold visible
  split <;> rfl

theorem visible_idle {sys : System s} (h : sys.writer = .idle) : sys.visible = sys.table := by
  simp only [visible, h]

theorem visible_busy {sys : System s} (h : sys.writer ≠ .idle) :
    sys.visible = { sys.table with count := sys.table.count - 1 } := by
  unfold visible
  split
  · contradiction
  · rfl

theorem visible_count_le (sys : System s) : sys.visible.count ≤ sys.table.count := by
  unfold visible
  split
  · exact le_rfl
  · exact Nat.sub_le _ _

end System

inductive Step (s : Shape) : System s → System s → Prop
  | read {sys : System s} {n : Nat} {r : Reader s.keySize} {seen : List Table} :
      sys.readers[n]? = some (r, seen) → Step s sys (sys.read n r seen)
  | create {sys : System s} {key : Key s.keySize} {write : List UInt8} {index : Nat} {t : Table} :
      sys.writer = .idle → write.length ≤ s.valueSize →
      RecordRow.create s sys.table key write = pure (index, t) → t.count ≤ s.notFound →
      Step s sys (sys.write (.created key index) t)
  | link {sys : System s} {key : Key s.keySize} {index : Nat} {t : Table} :
      sys.writer = .created key index →
      RecordRow.link s sys.table index (readBucketValue s sys.table key) = pure t →
      Step s sys (sys.write (.linked key index) t)
  | publish {sys : System s} {key : Key s.keySize} {index : Nat} :
      sys.writer = .linked key index →
      Step s sys (sys.write .idle (RecordHashTable.link s sys.table key index))
  | update {sys : System s} {key : Key s.keySize} {write : List UInt8} {r : Nat} {t : Table} :
      sys.writer = .idle → write.length ≤ s.valueSize →
      RecordHashTable.update s sys.table key write = pure (r, t) → Step s sys (sys.write .idle t)
  | unlink {sys : System s} {key : Key s.keySize} {r : Bool} {t : Table} :
      sys.writer = .idle → RecordHashTable.unlink s sys.table key = pure (r, t) →
      Step s sys (sys.write .idle t)

/-- The writer's record inside a store: the last one allocated, keyed, and once linked, pointing
at its bucket's first record. -/
def Writer.Holds (s : Shape) (t : Table) : Writer s.keySize → Prop
  | .idle => True
  | .created key index => index + 1 = t.count ∧ keyAt s t index = key.bytes
  | .linked key index => index + 1 = t.count ∧ keyAt s t index = key.bytes ∧
      nextAt s t index = t.header (bucketIndex s key)

/-- Some table the reader has seen, below capacity, answers find of `key` with the value of
record `answer`. -/
def Answered (s : Shape) (seen : List Table) (key : Key s.keySize) (answer : Option Nat) : Prop :=
  ∃ T ∈ seen, T.count ≤ s.notFound ∧
    find s T key = pure (answer.map fun j => j * s.recordSize + s.prefixSize)

/-- The records of `l` were in the key's bucket chain when the reader read its bucket. -/
def Reached (s : Shape) (seen : List Table) (key : Key s.keySize) (l : List Nat) : Prop :=
  ∃ T l₀, seen.getLast? = some T ∧ Chain s T (readBucketValue s T key) l₀ ∧ ∀ j ∈ l, j ∈ l₀

/-- What a reader knows, with walks read in `v`: a walking reader's walk from its current link
has as first record of its key an answer of some table it has seen, and every record of it was
in the key's bucket chain at its bucket read; a returned reader returned such an answer. -/
def Tracks (s : Shape) (v : Table) (seen : List Table) : Reader s.keySize → Prop
  | .start _ => True
  | .compare key current => ∃ l, Chain s v current l ∧ Answered s seen key (firstOf s v key l) ∧
      Reached s seen key l
  | .advance key current => ∃ rest, Chain s v current (current :: rest) ∧
      keyAt s v current ≠ key.bytes ∧ Answered s seen key (firstOf s v key rest) ∧
      Reached s seen key (current :: rest)
  | .found key index => Answered s seen key (some index) ∧ Reached s seen key [index]
  | .missed key => Answered s seen key none
  | .faulted _ _ => False

structure Inv (s : Shape) (sys : System s) : Prop where
  count_le : sys.table.count ≤ s.notFound
  linked : Linked s sys.visible
  writer : sys.writer.Holds s sys.table
  readers : ∀ entry ∈ sys.readers, Tracks s sys.visible entry.2 entry.1

section Tracking

variable {s : Shape} {seen : List Table} {key : Key s.keySize}

theorem Answered.cons {answer : Option Nat} (T : Table) (h : Answered s seen key answer) :
    Answered s (T :: seen) key answer := by
  obtain ⟨T', hT, h⟩ := h
  exact ⟨T', List.mem_cons_of_mem _ hT, h⟩

theorem Reached.mono {l l' : List Nat} (h : Reached s seen key l) (hsub : ∀ j ∈ l', j ∈ l) :
    Reached s seen key l' := by
  obtain ⟨T, l₀, hT, hc, hl⟩ := h
  exact ⟨T, l₀, hT, hc, fun j hj => hl j (hsub j hj)⟩

theorem Reached.cons {l : List Nat} (T : Table) (h : Reached s seen key l) :
    Reached s (T :: seen) key l := by
  obtain ⟨T', l₀, hT, hc, hl⟩ := h
  cases seen with
  | nil => cases hT
  | cons T₀ seen => exact ⟨T', l₀, by rwa [List.getLast?_cons_cons], hc, hl⟩

variable {v t : Table}

/-- A reader's read keeps what it knows: its walk moves on by one record, and its bucket read
starts a walk whose first record is find's answer in the table it reads. -/
theorem Tracks.read (hL : Linked s v) (hm : v.memory = t.memory) (hh : v.header = t.header)
    (hvt : v.count ≤ t.count) (ht : t.count ≤ s.notFound) :
    ∀ {r : Reader s.keySize}, Tracks s v seen r →
      Tracks s v (match r with | .start _ => [t] | _ => seen) (r.step s t)
  | .start key, _ => by
      obtain ⟨l, hl, -, -, -⟩ := hL.bucket_chain key
      have hb : readBucketValue s v key = readBucketValue s t key := by
        simp only [readBucketValue, HashTableHeader.read, hh]
      rw [hb] at hl
      have hlt : Chain s t (readBucketValue s t key) l :=
        hl.frame hvt fun j _ => nextAt_of_memory hm.symm j
      refine ⟨l, hl, ⟨t, List.mem_singleton_self _, ht, ?_⟩, ⟨t, l, rfl, hlt, fun _ hj => hj⟩⟩
      rw [firstOf_congr fun j _ => keyAt_of_memory hm j]
      exact hlt.find_eq ht ((hlt.length_le ht).step)
  | .compare key current, ⟨l, hl, ha, hr⟩ => by
      by_cases hc : current = s.notFound
      · subst hc
        rw [hl.eq_nil_of_notFound hL.count_le] at ha
        simpa [Reader.step] using ha
      obtain ⟨rest, rfl, hlt, hrest⟩ := hl.cons_inv fun he => hc (he ▸ hl).nil_inv
      show Tracks s v seen (Reader.step s t (.compare key current))
      rw [Reader.step_compare_of_lt (by omega) hc, ← keyAt_of_memory hm]
      split
      · rename_i hk
        exact ⟨by rwa [firstOf_cons_of_eq hk] at ha, hr.mono fun j hj => by simp_all⟩
      · rename_i hk
        exact ⟨rest, hl, hk, by rwa [firstOf_cons_of_ne hk] at ha, hr⟩
  | .advance key current, ⟨rest, hl, hk, ha, hr⟩ => by
      obtain ⟨_, he, hlt, hrest⟩ := hl.cons_inv (List.cons_ne_nil _ _)
      obtain ⟨-, rfl⟩ := List.cons.inj he
      show Tracks s v seen (Reader.step s t (.advance key current))
      rw [Reader.step_advance_of_lt (by omega), ← nextAt_of_memory hm]
      exact ⟨_, hrest, ha, hr.mono fun j hj => List.mem_cons_of_mem _ hj⟩
  | .found _ _, h | .missed _, h => h
  | .faulted _ _, h => h.elim

/-- A writer step from `v` to `v'`, leaving `t'`, keeps the walks readers make: each walk of `v`
becomes a walk of `v'` through some of its records, with their keys, and with the same first
record of every key, or a first record that find answers in `t'`. -/
def KeepsWalks (s : Shape) (v v' t' : Table) : Prop :=
  ∀ c l, Chain s v c l → ∃ l', Chain s v' c l' ∧ (∀ j ∈ l', j ∈ l ∧ keyAt s v' j = keyAt s v j) ∧
    ∀ key : Key s.keySize, firstOf s v' key l' = firstOf s v key l ∨
      t'.count ≤ s.notFound ∧
        find s t' key = pure ((firstOf s v' key l').map fun j => j * s.recordSize + s.prefixSize)

variable {v' t' : Table}

theorem keepsWalks_of_records (hc : v.count ≤ v'.count)
    (hn : ∀ j < v.count, nextAt s v' j = nextAt s v j)
    (hk : ∀ j < v.count, keyAt s v' j = keyAt s v j) : KeepsWalks s v v' t' := fun _ l hl =>
  ⟨l, hl.frame hc fun j hj => hn j (hl.lt_count j hj),
    fun j hj => ⟨hj, hk j (hl.lt_count j hj)⟩,
    fun _ => .inl (firstOf_congr fun j hj => hk j (hl.lt_count j hj))⟩

theorem Tracks.write (hw : KeepsWalks s v v' t') (hvc : v.count ≤ s.notFound) :
    ∀ {r : Reader s.keySize}, Tracks s v seen r →
      Tracks s v' (if r.walking then t' :: seen else seen) r
  | .start _, _ => trivial
  | .compare key current, ⟨l, hl, ha, hr⟩ => by
      obtain ⟨l', hl', hsub, hfirst⟩ := hw current l hl
      refine ⟨l', hl', ?_, (hr.mono fun j hj => (hsub j hj).1).cons t'⟩
      rcases hfirst key with he | ⟨hc, he⟩
      · exact he ▸ ha.cons t'
      · exact ⟨t', List.mem_cons_self _ _, hc, he⟩
  | .advance key current, ⟨rest, hl, hk, ha, hr⟩ => by
      obtain ⟨l', hl', hsub, hfirst⟩ := hw current _ hl
      have hlt := hl.lt_count current (List.mem_cons_self _ _)
      obtain ⟨rest', rfl, -, -⟩ := hl'.cons_inv fun he => by
        have := (he ▸ hl').nil_inv
        omega
      have hk' : keyAt s v' current ≠ key.bytes := (hsub current (List.mem_cons_self _ _)).2 ▸ hk
      refine ⟨rest', hl', hk', ?_, (hr.mono fun j hj => (hsub j hj).1).cons t'⟩
      rcases hfirst key with he | ⟨hc, he⟩
      · rw [firstOf_cons_of_ne hk', firstOf_cons_of_ne hk] at he
        exact he ▸ ha.cons t'
      · rw [firstOf_cons_of_ne hk'] at he
        exact ⟨t', List.mem_cons_self _ _, hc, he⟩
  | .found _ _, h | .missed _, h => h
  | .faulted _ _, h => h.elim

end Tracking

/-! The writer's steps keep the walks. -/

section Writes

variable {s : Shape} {t t' : Table}

theorem create_sameRecord (hs : s.Sound) {key : Key s.keySize} {write : List UInt8} {index : Nat}
    (hw : write.length ≤ s.valueSize) (h : RecordRow.create s t key write = pure (index, t'))
    {j : Nat} (hj : j ≠ t.count) : SameRecord s t.memory t'.memory j := by
  rw [create_eq_populate] at h
  obtain ⟨t'', hp, he⟩ := bind_eq_pure h
  cases he
  exact populate_sameRecord hs hw hp hj

theorem create_fields {key : Key s.keySize} {write : List UInt8} {index : Nat}
    (h : RecordRow.create s t key write = pure (index, t')) :
    index = t.count ∧ t'.count = t.count + 1 ∧ t'.header = t.header ∧
      keyAt s t' t.count = key.bytes := by
  rw [create_eq_populate] at h
  obtain ⟨t'', hp, he⟩ := bind_eq_pure h
  cases he
  exact ⟨rfl, populate_fields hp⟩

theorem keepsWalks_update (hs : s.Sound) (h : Linked s t) {key : Key s.keySize}
    {write : List UInt8} {r : Nat} (hw : write.length ≤ s.valueSize)
    (hu : update s t key write = pure (r, t')) : KeepsWalks s t t' t' := by
  obtain ⟨l, hl, -⟩ := h.bucket_chain key
  rw [h.update_eq hl] at hu
  split at hu <;> cases hu
  · exact keepsWalks_of_records le_rfl (fun _ _ => nextAt_writeValue hs hw)
      (fun _ _ => keyAt_writeValue hs hw)
  · exact keepsWalks_of_records le_rfl (fun _ _ => rfl) (fun _ _ => rfl)

theorem firstOf_bypass {key : Key s.keySize} {p m : Nat} (hm : keyAt s t m = key.bytes)
    (A B : List Nat) (K : Key s.keySize) :
    firstOf s t K (A ++ p :: B) = firstOf s t K (A ++ p :: m :: B) ∨
      K = key ∧ firstOf s t K (A ++ p :: B) = firstOf s t K B := by
  have hsplit : ∀ rest, A ++ p :: rest = (A ++ [p]) ++ rest := by simp
  rw [hsplit B, hsplit (m :: B), firstOf_append (A ++ [p]) B, firstOf_append (A ++ [p]) (m :: B)]
  by_cases hK : keyAt s t m = K.bytes
  · obtain rfl : K = key := Key.bytes_inj.1 (hK.symm.trans hm)
    cases firstOf s t K (A ++ [p]) with
    | some x => exact .inl rfl
    | none => exact .inr ⟨rfl, rfl⟩
  · exact .inl (by rw [firstOf_cons_of_ne hK])

/-- Relinking the predecessor of the bucket's first record of a key past it keeps every walk: a
walk through the predecessor loses the removed record, and if that was the walk's first record
of the key, the walk's new first record is find's answer after the relink. -/
theorem keepsWalks_relink (hs : s.Sound) (h : Linked s t) {key : Key s.keySize}
    {pre post : List Nat} {m : Nat}
    (hlb : Chain s t (readBucketValue s t key) (readBucketValue s t key :: pre ++ m :: post))
    (hpre : ∀ j ∈ readBucketValue s t key :: pre, keyAt s t j ≠ key.bytes)
    (hm : keyAt s t m = key.bytes) :
    KeepsWalks s t
      (writeNext s t ((readBucketValue s t key :: pre).getLast (List.cons_ne_nil _ _)) (nextAt s t m))
      (writeNext s t ((readBucketValue s t key :: pre).getLast (List.cons_ne_nil _ _))
        (nextAt s t m)) := by
  obtain ⟨p, hpdef⟩ : ∃ p, (readBucketValue s t key :: pre).getLast (List.cons_ne_nil _ _) = p :=
    ⟨_, rfl⟩
  rw [hpdef]
  have hc := h.count_le
  have hm' : m < t.count := hlb.lt_count m (by simp)
  have hv : nextAt s t m ≤ s.notFound := by
    rcases h.next m hm' with hn | ⟨hlt, -⟩ <;> omega
  have hsplit := @cons_append_eq_dropLast (readBucketValue s t key) pre (m :: post)
  rw [hpdef] at hsplit
  have hpm : nextAt s t p = m := (hsplit ▸ hlb).nextAt_eq_of_append
  have hpost : Chain s t (nextAt s t m) post := hlb.suffix
  have hnew : Chain s (writeNext s t p (nextAt s t m)) (readBucketValue s t key)
      (readBucketValue s t key :: pre ++ post) := hpdef ▸ hlb.bypass_last hs h
  have hkeys : ∀ j, keyAt s (writeNext s t p (nextAt s t m)) j = keyAt s t j :=
    fun _ => keyAt_writeNext hs
  intro c l hl
  by_cases hpl : p ∉ l
  · exact ⟨l, hl.frame le_rfl fun j hj => nextAt_writeNext_of_ne hs fun e => hpl (e ▸ hj),
      fun j hj => ⟨hj, hkeys j⟩, fun _ => .inl (firstOf_congr fun j _ => hkeys j)⟩
  obtain ⟨A, B, rfl, hB⟩ := hl.split (not_not.1 hpl)
  rw [hpm] at hB
  obtain ⟨B', rfl, -, hB'⟩ := hB.cons_inv fun he => by
    have := (he ▸ hB).nil_inv
    omega
  obtain rfl := hB'.unique hc hpost
  have hsub : List.Sublist (A ++ p :: B') (A ++ p :: m :: B') :=
    ((List.sublist_cons_self m B').cons₂ p).append_left A
  refine ⟨A ++ p :: B', hl.bypass hs (hl.nodup hc) hv, fun j hj => ⟨hsub.subset hj, hkeys j⟩,
    fun K => ?_⟩
  rw [firstOf_congr fun j _ => hkeys j]
  rcases firstOf_bypass hm A B' K with he | ⟨rfl, he⟩
  · exact .inl he
  · refine .inr ⟨hc, ?_⟩
    have hc' : (writeNext s t p (nextAt s t m)).count ≤ s.notFound := hc
    have hf := hnew.find_eq hc' (hnew.length_le hc').step
    change find s _ K = pure ((firstOf s _ K _).map _) at hf
    rw [hf, he, firstOf_congr fun j _ => hkeys j, firstOf_append, firstOf_eq_none hpre]
    rfl

theorem keepsWalks_unlink (hs : s.Sound) (h : Linked s t) {key : Key s.keySize} {r : Bool}
    (hu : unlink s t key = pure (r, t')) : KeepsWalks s t t' t' := by
  obtain ⟨lb, hlb, -, -, -⟩ := h.bucket_chain key
  rcases eq_or_ne lb [] with rfl | hne
  · rw [unlink_of_empty key hlb.nil_inv h.count_le] at hu
    cases hu
  rcases h.unlink_cases hlb hne with ⟨-, he⟩ | ⟨post, rfl, -, he⟩ |
      ⟨pre, m, post, rfl, hpre, hm, he⟩ <;> rw [he] at hu <;> cases hu
  · exact keepsWalks_of_records le_rfl (fun _ _ => rfl) (fun _ _ => rfl)
  · exact keepsWalks_of_records le_rfl (fun _ _ => rfl) (fun _ _ => rfl)
  · exact keepsWalks_relink hs h hlb hpre hm

/-- Publishing the writer's record keeps `Linked`: the bucket now starts at the record, whose
next link is the bucket's previous first record. -/
theorem linked_publish {key : Key s.keySize} {index : Nat}
    (h : Linked s { t with count := t.count - 1 }) (hc : t.count ≤ s.notFound)
    (hidx : index + 1 = t.count) (hkey : keyAt s t index = key.bytes)
    (hnext : nextAt s t index = t.header (bucketIndex s key)) :
    Linked s (RecordHashTable.link s t key index) := by
  have hhome : home s (RecordHashTable.link s t key index) index = bucketIndex s key := by
    show s.remainder (keyAt s t index) s.buckets = _
    rw [hkey]
    rfl
  refine ⟨hc, fun b => ?_, fun j hj => ?_⟩
  · simp only [RecordHashTable.link, HashTableHeader.write]
    by_cases hb : b = bucketIndex s key
    · subst hb
      rw [Function.update_same]
      exact .inr ⟨by omega, hhome⟩
    · rw [Function.update_noteq hb]
      rcases h.header b with hn | ⟨hlt, hh⟩
      · exact .inl hn
      · exact .inr ⟨by dsimp only at hlt; omega, hh⟩
  · change j < t.count at hj
    rcases Nat.lt_or_ge j index with hj' | hj'
    · exact h.next j (by simp; omega)
    · obtain rfl : j = index := by omega
      rw [hhome, show nextAt s (RecordHashTable.link s t key j) j = nextAt s t j from rfl, hnext]
      rcases h.header (bucketIndex s key) with hn | ⟨hlt, hh⟩
      · exact .inl hn
      · exact .inr ⟨by dsimp only at hlt; omega, hh⟩

end Writes

/-! The invariant holds along every run. -/

section Run

variable {s : Shape} {sys sys' : System s}

theorem Inv.init (hs : s.Sound) {t : Table} (ht : Reachable s t) (keys : List (Key s.keySize)) :
    Inv s (System.init t keys) := by
  refine ⟨ht.count_le, ht.linked hs, trivial, fun entry he => ?_⟩
  obtain ⟨key, -, rfl⟩ := List.mem_map.1 he
  trivial

theorem Inv.readers_write (h : Inv s sys) {w : Writer s.keySize} {t' : Table}
    (hw : KeepsWalks s sys.visible (sys.write w t').visible t') :
    ∀ entry ∈ (sys.write w t').readers, Tracks s (sys.write w t').visible entry.2 entry.1 := by
  intro entry he
  obtain ⟨e, he', rfl⟩ := List.mem_map.1 he
  exact (h.readers e he').write hw h.linked.count_le

theorem Inv.holds (h : Inv s sys) {w : Writer s.keySize} (hw : sys.writer = w) :
    w.Holds s sys.table :=
  hw ▸ h.writer

theorem Inv.read (h : Inv s sys) {n : Nat} {r : Reader s.keySize} {seen : List Table}
    (hn : sys.readers[n]? = some (r, seen)) : Inv s (sys.read n r seen) := by
  refine ⟨h.count_le, h.linked, h.writer, fun entry he => ?_⟩
  rcases List.mem_or_eq_of_mem_set he with he | rfl
  · exact h.readers entry he
  · exact (h.readers _ (List.getElem?_mem hn)).read h.linked sys.visible_memory
      sys.visible_header sys.visible_count_le h.count_le

theorem Inv.idle (h : Inv s sys) (hidle : sys.writer = .idle) {t : Table} (hL : Linked s t)
    (hw : KeepsWalks s sys.table t t) : Inv s (sys.write .idle t) :=
  ⟨hL.count_le, hL, trivial, h.readers_write (by rw [sys.visible_idle hidle]; exact hw)⟩

theorem Inv.create (hs : s.Sound) (h : Inv s sys) {key : Key s.keySize} {write : List UInt8}
    {index : Nat} {t : Table} (hidle : sys.writer = .idle) (hw : write.length ≤ s.valueSize)
    (hc : RecordRow.create s sys.table key write = pure (index, t)) (hcount : t.count ≤ s.notFound) :
    Inv s (sys.write (.created key index) t) := by
  obtain ⟨rfl, htc, hth, hkey⟩ := create_fields hc
  have same : ∀ j < sys.table.count, SameRecord s sys.table.memory t.memory j :=
    fun j hj => create_sameRecord hs hw hc (by omega)
  have hL := sys.visible_idle hidle ▸ h.linked
  refine ⟨hcount, ?_, ⟨htc.symm, hkey⟩, h.readers_write ?_⟩
  · show Linked s { t with count := t.count - 1 }
    exact hL.of_fields (by simp [htc]) hth (fun j hj => keyAt_congr hs (same j hj))
      (fun j hj => nextAt_congr hs (same j hj))
  · rw [sys.visible_idle hidle]
    exact keepsWalks_of_records (by show sys.table.count ≤ t.count - 1; omega)
      (fun j hj => nextAt_congr hs (same j hj)) (fun j hj => keyAt_congr hs (same j hj))

theorem Inv.link (hs : s.Sound) (h : Inv s sys) {key : Key s.keySize} {index : Nat} {t : Table}
    (hcr : sys.writer = .created key index)
    (hl : RecordRow.link s sys.table index (readBucketValue s sys.table key) = pure t) :
    Inv s (sys.write (.linked key index) t) := by
  obtain ⟨hidx, hkey⟩ := h.holds hcr
  rw [RecordRow.link, writeNextIndex_of_lt (by omega)] at hl
  cases hl
  have hL := sys.visible_busy (by rw [hcr]; nofun) ▸ h.linked
  have hb : sys.table.header (bucketIndex s key) ≤ s.notFound := by
    rcases hL.header (bucketIndex s key) with hn | ⟨hlt, -⟩
    · exact hn.le
    · have := h.count_le
      dsimp only at hlt
      omega
  have hne : ∀ j < ({ sys.table with count := sys.table.count - 1 } : Table).count, j ≠ index :=
    fun j hj => by dsimp only at hj; omega
  refine ⟨h.count_le, ?_, ⟨hidx, (keyAt_writeNext hs).trans hkey, nextAt_writeNext hs hb⟩,
    h.readers_write ?_⟩
  · show Linked s { writeNext s sys.table index _ with count := sys.table.count - 1 }
    exact hL.of_fields rfl rfl (fun j _ => keyAt_writeNext hs)
      (fun j hj => nextAt_writeNext_of_ne hs (hne j hj))
  · rw [sys.visible_busy (by rw [hcr]; nofun)]
    exact keepsWalks_of_records le_rfl (fun j hj => nextAt_writeNext_of_ne hs (hne j hj))
      (fun j _ => keyAt_writeNext hs)

theorem Inv.publish (h : Inv s sys) {key : Key s.keySize} {index : Nat}
    (hlk : sys.writer = .linked key index) :
    Inv s (sys.write .idle (RecordHashTable.link s sys.table key index)) := by
  obtain ⟨hidx, hkey, hnext⟩ := h.holds hlk
  have hv := sys.visible_busy (by rw [hlk]; nofun)
  refine ⟨h.count_le, linked_publish (hv ▸ h.linked) h.count_le hidx hkey hnext, trivial,
    h.readers_write ?_⟩
  rw [hv]
  exact keepsWalks_of_records (Nat.sub_le _ _) (fun _ _ => rfl) (fun _ _ => rfl)

theorem Inv.step (hs : s.Sound) (h : Inv s sys) (hstep : Step s sys sys') : Inv s sys' := by
  cases hstep with
  | read hn => exact h.read hn
  | create hidle hw hc hcount => exact h.create hs hidle hw hc hcount
  | link hcr hl => exact h.link hs hcr hl
  | publish hlk => exact h.publish hlk
  | update hidle hw hu =>
      have hL := sys.visible_idle hidle ▸ h.linked
      exact h.idle hidle (hL.update hs hu hw) (keepsWalks_update hs hL hw hu)
  | unlink hidle hu =>
      have hL := sys.visible_idle hidle ▸ h.linked
      exact h.idle hidle (hL.unlink hs hu) (keepsWalks_unlink hs hL hu)

theorem Inv.run (hs : s.Sound) (h₀ : Inv s sys) (h : Relation.ReflTransGen (Step s) sys sys') :
    Inv s sys' := by
  induction h with
  | refl => exact h₀
  | tail _ hstep ih => exact ih.step hs hstep

end Run

/-- The writer's three steps of a store, run with no reader step between them, leave the table
record_hash_table::store leaves and return to an idle writer. -/
theorem writer_store_performs_store {s : Shape} {sys : System s} {key : Key s.keySize}
    {write : List UInt8} (hidle : sys.writer = .idle) (hw : write.length ≤ s.valueSize)
    (hc : sys.table.count + 1 ≤ s.notFound) :
    ∃ sys', Relation.ReflTransGen (Step s) sys sys' ∧
      store s sys.table key write = pure (sys.table.count, sys'.table) ∧ sys'.writer = .idle :=
  ⟨_, Relation.ReflTransGen.refl
    |>.tail (Step.create hidle hw (RecordRow.create_eq _ _) hc)
    |>.tail (Step.link rfl (writeNextIndex_of_lt (Nat.lt_succ_self _) _))
    |>.tail (Step.publish rfl), by rw [store_eq]; rfl, rfl⟩

/-- One read of one reader, the writer standing still. -/
def ReaderStep (s : Shape) (sys sys' : System s) : Prop :=
  ∃ n r seen, sys.readers[n]? = some (r, seen) ∧ sys' = sys.read n r seen

section ReaderSteps

variable {s : Shape} {sys sys' : System s}

theorem ReaderStep.step (h : ReaderStep s sys sys') : Step s sys sys' := by
  obtain ⟨n, r, seen, hn, rfl⟩ := h
  exact .read hn

end ReaderSteps

/-- What a reader has done so far in a run: it has not faulted; while it walks, its current link
is not_found or a record the writer has finished, one that was in its key's bucket chain when
it read the bucket; and it has returned what a sequential find returns in one of the tables it
has seen since its bucket read, so null only if no record of the key stayed linked throughout. -/
def ReaderSafe (s : Shape) (sys : System s) : Reader s.keySize × List Table → Prop
  | (.start _, _) => True
  | (.compare key current, seen) | (.advance key current, seen) =>
      current = s.notFound ∨ current < sys.visible.count ∧ Reached s seen key [current]
  | (.found key index, seen) => Answered s seen key (some index) ∧ Reached s seen key [index]
  | (.missed key, seen) => Answered s seen key none ∧
      ¬ ∃ j, ∀ T ∈ seen, ∃ l, Chain s T (readBucketValue s T key) l ∧ j ∈ l ∧
        keyAt s T j = key.bytes
  | (.faulted _ _, _) => False

theorem Inv.readerSafe {s : Shape} {sys : System s} (h : Inv s sys) :
    ∀ entry ∈ sys.readers, ReaderSafe s sys entry := by
  rintro ⟨r, seen⟩ he
  have ht := h.readers _ he
  cases r with
  | start => trivial
  | compare key current =>
      obtain ⟨l, hl, -, hr⟩ := ht
      by_cases hc : current = s.notFound
      · exact .inl hc
      obtain ⟨rest, rfl, hlt, -⟩ := hl.cons_inv fun he => hc (he ▸ hl).nil_inv
      exact .inr ⟨hlt, hr.mono fun j hj => by simp_all⟩
  | advance key current =>
      obtain ⟨rest, hl, -, -, hr⟩ := ht
      exact .inr ⟨hl.lt_count _ (List.mem_cons_self _ _), hr.mono fun j hj => by simp_all⟩
  | found => exact ht
  | missed key =>
      refine ⟨ht, fun ⟨j, hj⟩ => ?_⟩
      obtain ⟨T, hT, hc, hf⟩ := ht
      obtain ⟨l, hl, hjl, hk⟩ := hj T hT
      rw [hl.find_eq hc (hl.length_le hc).step] at hf
      exact firstOf_ne_none hjl hk (Option.map_eq_none'.1 (Except.ok.inj hf))
  | faulted => exact ht

/-- Readers are linearizable against one writer on a sound shape. In every interleaving from a
reachable table, no reader faults; a walking reader's current link is not_found or a record the
writer has finished, one that was in its key's bucket chain when it read the bucket; a reader
that has returned has returned what a sequential find returns in some table between its bucket
read and its last read, and it returns null only if no record of its key stayed linked
throughout. -/
theorem readers_linearizable {s : Shape} (hs : s.Sound) {t : Table} (ht : Reachable s t)
    (keys : List (Key s.keySize)) {sys : System s}
    (h : Relation.ReflTransGen (Step s) (System.init t keys) sys) :
    ∀ entry ∈ sys.readers, ReaderSafe s sys entry :=
  ((Inv.init hs ht keys).run hs h).readerSafe

/-- A reader reads the bucket of a stored key, the writer stores a key of the same bucket around
its compare, and the reader returns the first record. -/
theorem reader_overlapping_store_safe :
    ∃ sys, Relation.ReflTransGen (Step (rowSized 4 4 100 2))
        (System.init (create (rowSized 4 4 100 2) fun _ => 0) [⟨[222, 173, 190, 239], rfl⟩]) sys ∧
      sys.readers.map Prod.fst = [.found ⟨[222, 173, 190, 239], rfl⟩ 0] ∧
      ∀ entry ∈ sys.readers, ReaderSafe (rowSized 4 4 100 2) sys entry := by
  obtain ⟨sys, hrun, hfound⟩ : ∃ sys, Relation.ReflTransGen (Step (rowSized 4 4 100 2))
      (System.init (create (rowSized 4 4 100 2) fun _ => 0) [⟨[222, 173, 190, 239], rfl⟩]) sys ∧
      sys.readers.map Prod.fst = [.found ⟨[222, 173, 190, 239], rfl⟩ 0] :=
    ⟨_, Relation.ReflTransGen.refl
      |>.tail (@Step.create _ _ ⟨[222, 173, 190, 239], rfl⟩ [42, 24] _ _ rfl (by decide) (by rfl)
        (by decide))
      |>.tail (@Step.link _ _ ⟨[222, 173, 190, 239], rfl⟩ _ _ rfl (by rfl))
      |>.tail (@Step.publish _ _ ⟨[222, 173, 190, 239], rfl⟩ _ rfl)
      |>.tail (@Step.read _ _ 0 _ _ (by rfl))
      |>.tail (@Step.create _ _ ⟨[122, 173, 190, 239], rfl⟩ [44, 45] _ _ rfl (by decide) (by rfl)
        (by decide))
      |>.tail (@Step.read _ _ 0 _ _ (by rfl))
      |>.tail (@Step.link _ _ ⟨[122, 173, 190, 239], rfl⟩ _ _ rfl (by rfl))
      |>.tail (@Step.publish _ _ ⟨[122, 173, 190, 239], rfl⟩ _ rfl), by decide⟩
  exact ⟨sys, hrun, hfound, readers_linearizable (rowSized_sound 4 4 100 2) (.create _) _ hrun⟩

/-- A reader of the oldest of three records of one bucket stands on the middle record when the
writer unlinks the middle record and then the oldest. The bucket's chain is then the newest
record alone, and the reader reads the stale next link of the middle record to the oldest,
which it returns. -/
theorem reader_follows_unlinked_link :
    ∃ t sys, Reachable (rowSized 4 4 100 2) t ∧
      Relation.ReflTransGen (Step (rowSized 4 4 100 2))
        (System.init t [⟨[222, 173, 190, 239], rfl⟩]) sys ∧
      sys.readers.map Prod.fst = [.advance ⟨[222, 173, 190, 239], rfl⟩ 1] ∧
      Chain (rowSized 4 4 100 2) sys.table
        (readBucketValue (rowSized 4 4 100 2) sys.table ⟨[222, 173, 190, 239], rfl⟩) [2] ∧
      (Reader.advance ⟨[222, 173, 190, 239], rfl⟩ 1).step (rowSized 4 4 100 2) sys.table =
        .compare ⟨[222, 173, 190, 239], rfl⟩ 0 ∧
      (Reader.compare ⟨[222, 173, 190, 239], rfl⟩ 0).step (rowSized 4 4 100 2) sys.table =
        .found ⟨[222, 173, 190, 239], rfl⟩ 0 := by
  have hr := @Reachable.runOps (rowSized 4 4 100 2) _ _
    [.store ⟨[222, 173, 190, 239], rfl⟩ [42, 24], .store ⟨[122, 173, 190, 239], rfl⟩ [44, 45],
      .store ⟨[22, 173, 190, 239], rfl⟩ [46, 47]] (.create fun _ => 0)
    (by simp [Op.Fits, rowSized, recordHashTable]) rfl (by decide)
  refine ⟨_, _, hr, Relation.ReflTransGen.refl
      |>.tail (@Step.read _ _ 0 _ _ (by rfl)) |>.tail (@Step.read _ _ 0 _ _ (by rfl))
      |>.tail (@Step.read _ _ 0 _ _ (by rfl)) |>.tail (@Step.read _ _ 0 _ _ (by rfl))
      |>.tail (@Step.unlink _ _ ⟨[122, 173, 190, 239], rfl⟩ _ _ (by rfl)
        (unlink_of_second 2 1 (by decide) (by decide) (by decide) (by decide) (by decide)
          (by decide) (by decide)))
      |>.tail (@Step.unlink _ _ ⟨[222, 173, 190, 239], rfl⟩ _ _ (by rfl)
        (unlink_of_second 2 0 (by decide) (by decide) (by decide) (by decide) (by decide)
          (by decide) (by decide))),
    by decide, Chain.single (by decide) (by decide) (by decide), by decide, by decide⟩

end Concurrent
end BitcoinDatabase
