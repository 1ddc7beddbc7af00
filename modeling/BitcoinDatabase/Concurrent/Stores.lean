import BitcoinDatabase.Concurrent.Reader

/-!
Concurrent stores. Store threads run record_hash_table::store: record_row::create, cut at
manager_.new_records, which hands every caller a record of its own, from the row writes after
it, both outside the lock; then the critical section under create_mutex_, the bucket read and
the two link writes, as one step. Reader threads run find, one bucket or next-field read a
step. The log of critical sections, newest first, and each reader's copy of it at its bucket
read are records of the run that no step reads.

On a sound shape below capacity the log holds exactly the stores that have returned, each
bucket's chain is the records its logged critical sections linked, newest first, followed by
its chain before the run, and a find returns the first record of its key in the chain its
bucket read saw: a store whose critical section came before that read, or a later store of
the key.
-/

namespace BitcoinDatabase
namespace Concurrent
namespace Stores

open RecordHashTable RecordRow

/-- Where a store thread is in record_hash_table::store: not started, holding the record
manager_.new_records handed it, having written the row, or returned after its critical
section. -/
inductive Store (width : Nat) where
  | start (key : Key width) (write : List UInt8)
  | allocated (key : Key width) (write : List UInt8) (index : Nat)
  | created (key : Key width) (index : Nat)
  | returned (key : Key width) (index : Nat)

namespace Store

variable {width : Nat}

def key : Store width → Key width
  | .start key _ | .allocated key _ _ | .created key _ | .returned key _ => key

def pending : Store width → Option Nat
  | .allocated _ _ index | .created _ index => some index
  | _ => none

def result : Store width → Option (Key width × Nat)
  | .returned key index => some (key, index)
  | _ => none

end Store

/-- Store threads and reader threads on one table, with the log of critical sections and
each reader's copy of the log at its bucket read. -/
structure System (s : Shape) where
  table : Table
  stores : List (Store s.keySize)
  readers : List (Reader s.keySize × List (Key s.keySize × Nat))
  log : List (Key s.keySize × Nat)

def System.init {s : Shape} (t : Table) (jobs : List (Key s.keySize × List UInt8))
    (keys : List (Key s.keySize)) : System s where
  table := t
  stores := jobs.map fun job => .start job.1 job.2
  readers := keys.map fun key => (.start key, [])
  log := []

/-- The log a reader holds after a read: the log of the moment for its bucket read, the one it
held otherwise. -/
def afterRead {width : Nat} (r : Reader width) (log seen : List (Key width × Nat)) :
    List (Key width × Nat) :=
  match r with
  | .start _ => log
  | _ => seen

inductive Step (s : Shape) : System s → System s → Prop
  | allocate {sys : System s} {n : Nat} {key : Key s.keySize} {write : List UInt8} :
      sys.stores[n]? = some (.start key write) →
      Step s sys { sys with
        table := (RecordManager.newRecords sys.table 1).2
        stores := sys.stores.set n (.allocated key write (RecordManager.newRecords sys.table 1).1) }
  | populate {sys : System s} {n : Nat} {key : Key s.keySize} {write : List UInt8} {index : Nat}
      {t : Table} :
      sys.stores[n]? = some (.allocated key write index) → write.length ≤ s.valueSize →
      RecordRow.populate s sys.table index key write = pure t →
      Step s sys { sys with table := t, stores := sys.stores.set n (.created key index) }
  | critical {sys : System s} {n : Nat} {key : Key s.keySize} {index : Nat} {t : Table} :
      sys.stores[n]? = some (.created key index) →
      RecordRow.link s sys.table index (readBucketValue s sys.table key) = pure t →
      Step s sys { sys with
        table := RecordHashTable.link s t key index
        stores := sys.stores.set n (.returned key index)
        log := (key, index) :: sys.log }
  | read {sys : System s} {n : Nat} {r : Reader s.keySize} {seen : List (Key s.keySize × Nat)} :
      sys.readers[n]? = some (r, seen) →
      Step s sys { sys with
        readers := sys.readers.set n (r.step s sys.table, afterRead r sys.log seen) }

/-- The records the critical sections of `log` linked into bucket `b`, newest first. -/
def linkedIn (s : Shape) (log : List (Key s.keySize × Nat)) (b : Nat) : List Nat :=
  (log.filter fun e => bucketIndex s e.1 == b).map Prod.snd

theorem linkedIn_cons_of_eq {s : Shape} {e : Key s.keySize × Nat} {log : List (Key s.keySize × Nat)}
    {b : Nat} (h : bucketIndex s e.1 = b) : linkedIn s (e :: log) b = e.2 :: linkedIn s log b := by
  simp [linkedIn, h]

theorem linkedIn_cons_of_ne {s : Shape} {e : Key s.keySize × Nat} {log : List (Key s.keySize × Nat)}
    {b : Nat} (h : bucketIndex s e.1 ≠ b) : linkedIn s (e :: log) b = linkedIn s log b := by
  simp [linkedIn, h]

/-- A record linked before the run or by a logged critical section. -/
def Settled {width : Nat} (t₀ : Table) (log : List (Key width × Nat)) (j : Nat) : Prop :=
  j < t₀.count ∨ j ∈ log.map Prod.snd

/-- A step from `t` to `t'` keeps the count from falling and the key and next link of every
settled record. -/
def Keeps (s : Shape) (t₀ : Table) (log : List (Key s.keySize × Nat)) (t t' : Table) : Prop :=
  t.count ≤ t'.count ∧
    ∀ j, Settled t₀ log j → keyAt s t' j = keyAt s t j ∧ nextAt s t' j = nextAt s t j

/-- The chain `c` of the key's bucket when the log was `seen`: the records `seen` linked into
it, then its chain in `t₀`. -/
def Before (s : Shape) (t₀ : Table) (seen : List (Key s.keySize × Nat)) (key : Key s.keySize)
    (c : List Nat) : Prop :=
  ∃ l₀, Chain s t₀ (t₀.header (bucketIndex s key)) l₀ ∧ c = linkedIn s seen (bucketIndex s key) ++ l₀

/-- What a reader knows, `seen` being the log at its bucket read: a walking reader has passed
records of other keys of its bucket's chain then, and walks on along the rest of it; a
returned reader returned the chain's first record of its key. -/
def Tracks (s : Shape) (t₀ t : Table) (seen : List (Key s.keySize × Nat)) :
    Reader s.keySize → Prop
  | .start _ => True
  | .compare key current => ∃ P l, Before s t₀ seen key (P ++ l) ∧ firstOf s t key P = none ∧
      Chain s t current l
  | .advance key current => ∃ P rest, Before s t₀ seen key (P ++ current :: rest) ∧
      firstOf s t key (P ++ [current]) = none ∧ Chain s t current (current :: rest)
  | .found key index => ∃ c, Before s t₀ seen key c ∧ firstOf s t key c = some index
  | .missed key => ∃ c, Before s t₀ seen key c ∧ firstOf s t key c = none
  | .faulted _ _ => False

structure Inv (s : Shape) (t₀ : Table) (sys : System s) : Prop where
  count_le : sys.table.count ≤ s.notFound
  start_le : t₀.count ≤ sys.table.count
  logged : ∀ e ∈ sys.log, t₀.count ≤ e.2 ∧ e.2 < sys.table.count ∧
    keyAt s sys.table e.2 = e.1.bytes
  pending : ∀ st ∈ sys.stores, ∀ i ∈ st.pending, t₀.count ≤ i ∧ i < sys.table.count
  created : ∀ key i, Store.created key i ∈ sys.stores → keyAt s sys.table i = key.bytes
  distinct : (sys.log.map Prod.snd ++ sys.stores.filterMap Store.pending).Nodup
  results : sys.log.Perm (sys.stores.filterMap Store.result)
  chains : ∀ b, ∃ l₀, Chain s t₀ (t₀.header b) l₀ ∧
    Chain s sys.table (sys.table.header b) (linkedIn s sys.log b ++ l₀)
  readers : ∀ entry ∈ sys.readers, entry.2 <:+ sys.log ∧ Tracks s t₀ sys.table entry.2 entry.1

section Lists

variable {α β : Type} {l : List α} {n : Nat} {x : α}

theorem exists_split_of_getElem? (h : l[n]? = some x) :
    ∃ A B, l = A ++ x :: B ∧ ∀ y, l.set n y = A ++ y :: B := by
  obtain ⟨hn, rfl⟩ := List.getElem?_eq_some_iff.1 h
  refine ⟨l.take n, l.drop (n + 1), ?_, fun y => by rw [List.set_eq_take_append_cons_drop, if_pos hn]⟩
  rw [← List.drop_eq_getElem_cons hn, List.take_append_drop]

end Lists

section Walks

variable {s : Shape} {t₀ t t' : Table} {log seen : List (Key s.keySize × Nat)}
  {key : Key s.keySize}

theorem linkedIn_settled {b : Nat} {l₀ : List Nat} (h₀ : Chain s t₀ (t₀.header b) l₀)
    (hseen : seen <:+ log) : ∀ j ∈ linkedIn s seen b ++ l₀, Settled t₀ log j := by
  intro j hj
  rcases List.mem_append.1 hj with hj | hj
  · obtain ⟨e, he, rfl⟩ := List.mem_map.1 hj
    exact .inr (List.mem_map_of_mem _ (hseen.subset (List.mem_of_mem_filter he)))
  · exact .inl (h₀.lt_count j hj)

theorem Before.settled {c : List Nat} (h : Before s t₀ seen key c) (hseen : seen <:+ log) :
    ∀ j ∈ c, Settled t₀ log j := by
  obtain ⟨l₀, h₀, rfl⟩ := h
  exact linkedIn_settled h₀ hseen

theorem Keeps.firstOf_eq {l : List Nat} (hk : Keeps s t₀ log t t')
    (hl : ∀ j ∈ l, Settled t₀ log j) : firstOf s t' key l = firstOf s t key l :=
  firstOf_congr fun j hj => (hk.2 j (hl j hj)).1

theorem Keeps.chain {i : Nat} {l : List Nat} (hk : Keeps s t₀ log t t') (hc : Chain s t i l)
    (hl : ∀ j ∈ l, Settled t₀ log j) : Chain s t' i l :=
  hc.frame hk.1 fun j hj => (hk.2 j (hl j hj)).2

theorem Tracks.keep (hk : Keeps s t₀ log t t') (hseen : seen <:+ log) :
    ∀ {r : Reader s.keySize}, Tracks s t₀ t seen r → Tracks s t₀ t' seen r
  | .start _, _ => trivial
  | .compare _ _, ⟨P, l, hB, hP, hl⟩ => by
      have hj := hB.settled hseen
      refine ⟨P, l, hB, ?_, hk.chain hl fun j hj' => hj j (List.mem_append_right _ hj')⟩
      rw [hk.firstOf_eq fun j hj' => hj j (List.mem_append_left _ hj'), hP]
  | .advance _ current, ⟨P, rest, hB, hP, hl⟩ => by
      have hj := hB.settled hseen
      refine ⟨P, rest, hB, ?_, hk.chain hl fun j hj' => hj j (List.mem_append_right _ hj')⟩
      have hpre : P ++ [current] <+: P ++ current :: rest := ⟨rest, by simp⟩
      rw [hk.firstOf_eq fun j hj' => hj j (hpre.subset hj'), hP]
  | .found _ _, ⟨c, hB, hc⟩ => ⟨c, hB, by rw [hk.firstOf_eq (hB.settled hseen), hc]⟩
  | .missed _, ⟨c, hB, hc⟩ => ⟨c, hB, by rw [hk.firstOf_eq (hB.settled hseen), hc]⟩
  | .faulted _ _, h => h

end Walks

section Steps

variable {s : Shape} {t₀ : Table} {sys sys' : System s}

/-- A reader's read keeps what it knows: its bucket read sees the bucket's chain of the log
then, and each compare and next-field read follows it. -/
theorem Tracks.read (h : Inv s t₀ sys) {seen : List (Key s.keySize × Nat)} :
    ∀ {r : Reader s.keySize}, Tracks s t₀ sys.table seen r →
      Tracks s t₀ sys.table (afterRead r sys.log seen) (r.step s sys.table)
  | .start key, _ => by
      obtain ⟨l₀, h₀, hc⟩ := h.chains (bucketIndex s key)
      exact ⟨[], _, ⟨l₀, h₀, rfl⟩, rfl, hc⟩
  | .compare key current, ⟨P, l, hB, hP, hl⟩ => by
      by_cases hn : current = s.notFound
      · obtain rfl : l = [] := by
          subst hn
          exact hl.eq_nil_of_notFound h.count_le
        have hstep : (Reader.compare key current).step s sys.table = .missed key := if_pos hn
        rw [hstep]
        exact ⟨P, by simpa using hB, hP⟩
      obtain ⟨rest, rfl, hlt, -⟩ := hl.cons_inv fun he => hn (by subst he; exact hl.nil_inv)
      rw [Reader.step_compare_of_lt hlt hn]
      by_cases hk : keyAt s sys.table current = key.bytes
      · rw [if_pos hk]
        exact ⟨_, hB, by rw [firstOf_append, hP, firstOf_cons_of_eq hk]; rfl⟩
      · rw [if_neg hk]
        exact ⟨P, rest, hB, by rw [firstOf_append, hP, firstOf_cons_of_ne hk]; rfl, hl⟩
  | .advance key current, ⟨P, rest, hB, hP, hl⟩ => by
      cases hl with
      | cons hlt hrest =>
          rw [Reader.step_advance_of_lt hlt]
          exact ⟨P ++ [current], rest, by simpa using hB, hP, hrest⟩
  | .found _ _, ht => ht
  | .missed _, ht => ht
  | .faulted _ _, ht => ht

theorem Step.keys (hstep : Step s sys sys') :
    sys'.stores.map Store.key = sys.stores.map Store.key := by
  cases hstep with
  | allocate hn =>
      obtain ⟨A, B, h₁, h₂⟩ := exists_split_of_getElem? hn
      rw [h₂, h₁]
      simp only [List.map_append, List.map_cons, Store.key]
  | populate hn =>
      obtain ⟨A, B, h₁, h₂⟩ := exists_split_of_getElem? hn
      rw [h₂, h₁]
      simp only [List.map_append, List.map_cons, Store.key]
  | critical hn =>
      obtain ⟨A, B, h₁, h₂⟩ := exists_split_of_getElem? hn
      rw [h₂, h₁]
      simp only [List.map_append, List.map_cons, Store.key]
  | read => rfl

theorem link_eq_writeNext {t t' : Table} {index v : Nat}
    (hl : RecordRow.link s t index v = pure t') : index < t.count ∧ t' = writeNext s t index v := by
  rcases Nat.lt_or_ge index t.count with hi | hi
  · rw [RecordRow.link, writeNextIndex_of_lt hi] at hl
    exact ⟨hi, (Except.ok.inj hl).symm⟩
  · rw [RecordRow.link, writeNextIndex_of_le hi] at hl
    cases hl

theorem Step.count_le (hstep : Step s sys sys') : sys.table.count ≤ sys'.table.count := by
  cases hstep with
  | allocate => exact Nat.le_succ _
  | populate _ _ hp => exact (populate_fields hp).1.ge
  | critical _ hl =>
      obtain ⟨-, rfl⟩ := link_eq_writeNext hl
      exact le_rfl
  | read => exact le_rfl

theorem Inv.not_settled (h : Inv s t₀ sys) {st : Store s.keySize} {i : Nat} (hst : st ∈ sys.stores)
    (hi : st.pending = some i) : ¬ Settled t₀ sys.log i := by
  rintro (hlt | hlog)
  · have := (h.pending st hst i hi).1
    omega
  · exact List.disjoint_of_nodup_append h.distinct hlog (List.mem_filterMap.2 ⟨st, hst, hi⟩)

theorem Inv.lt_count (h : Inv s t₀ sys) :
    ∀ i ∈ sys.log.map Prod.snd ++ sys.stores.filterMap Store.pending, i < sys.table.count := by
  intro i hi
  rcases List.mem_append.1 hi with hi | hi
  · obtain ⟨e, he, rfl⟩ := List.mem_map.1 hi
    exact (h.logged e he).2.1
  · obtain ⟨st, hst, hi⟩ := List.mem_filterMap.1 hi
    exact (h.pending st hst i hi).2

theorem pending_ne_of_nodup {w : Nat} {L : List Nat} {A B : List (Store w)} {x st : Store w}
    {i j : Nat} (hd : (L ++ (A ++ x :: B).filterMap Store.pending).Nodup)
    (hx : x.pending = some i) (hst : st ∈ A ++ B) (hj : st.pending = some j) : j ≠ i := by
  rintro rfl
  simp only [List.filterMap_append, List.filterMap_cons, hx] at hd
  rw [← List.append_assoc, List.nodup_middle, List.nodup_cons] at hd
  have hm := List.mem_filterMap.2 ⟨st, hst, hj⟩
  rw [List.filterMap_append] at hm
  rcases List.mem_append.1 hm with hm | hm
  · exact hd.1 (List.mem_append_left _ (List.mem_append_right _ hm))
  · exact hd.1 (List.mem_append_right _ hm)

theorem keeps_allocate (log : List (Key s.keySize × Nat)) (t : Table) :
    Keeps s t₀ log t (RecordManager.newRecords t 1).2 :=
  ⟨Nat.le_succ _, fun _ _ => ⟨rfl, rfl⟩⟩

theorem keeps_populate (hs : s.Sound) {t t' : Table} {index : Nat} {key : Key s.keySize}
    {write : List UInt8} {log : List (Key s.keySize × Nat)} (hw : write.length ≤ s.valueSize)
    (hp : RecordRow.populate s t index key write = pure t') (hi : ¬ Settled t₀ log index) :
    Keeps s t₀ log t t' := by
  refine ⟨(populate_fields hp).1.ge, fun j hj => ?_⟩
  have hsame := populate_sameRecord hs hw hp fun he => hi (he ▸ hj)
  exact ⟨keyAt_congr hs hsame, nextAt_congr hs hsame⟩

theorem keeps_critical (hs : s.Sound) {t : Table} {index v : Nat} {key : Key s.keySize}
    {log : List (Key s.keySize × Nat)} (hi : ¬ Settled t₀ log index) :
    Keeps s t₀ log t (RecordHashTable.link s (writeNext s t index v) key index) :=
  ⟨le_rfl, fun _ hj => ⟨keyAt_writeNext hs, nextAt_writeNext_of_ne hs fun he => hi (he ▸ hj)⟩⟩

theorem chain_critical (hs : s.Sound) {t : Table} {key : Key s.keySize} {index : Nat}
    {l : List Nat} (hc : t.count ≤ s.notFound) (hi : index < t.count)
    (hb : Chain s t (readBucketValue s t key) l) (hil : index ∉ l) :
    Chain s (writeNext s t index (readBucketValue s t key)) index (index :: l) := by
  refine .cons hi ?_
  rw [nextAt_writeNext hs (hb.le_notFound hc)]
  exact hb.frame le_rfl fun j hj => nextAt_writeNext_of_ne hs fun he => hil (he ▸ hj)

section Preservation

variable {n : Nat} {key : Key s.keySize} {write : List UInt8} {index : Nat} {t : Table}

theorem Inv.allocate (h : Inv s t₀ sys) (hn : sys.stores[n]? = some (.start key write))
    (hc : sys.table.count + 1 ≤ s.notFound) :
    Inv s t₀ { sys with
      table := (RecordManager.newRecords sys.table 1).2
      stores := sys.stores.set n (.allocated key write (RecordManager.newRecords sys.table 1).1) } := by
  have hk : Keeps s t₀ sys.log sys.table (RecordManager.newRecords sys.table 1).2 :=
    keeps_allocate sys.log sys.table
  obtain ⟨A, B, h₁, h₂⟩ := exists_split_of_getElem? hn
  have hlt := h.lt_count
  have hd := h.distinct
  have hr := h.results
  rw [h₁] at hlt hd hr
  simp only [List.filterMap_append, List.filterMap_cons, Store.pending, Store.result] at hlt hd hr
  refine ⟨hc, h.start_le.trans hk.1, fun e he => ?_, fun st hst i hi => ?_, fun key' i hst => ?_,
    ?_, ?_, fun b => ?_, fun entry he => ?_⟩
  · obtain ⟨h1, h2, h3⟩ := h.logged e he
    exact ⟨h1, Nat.lt_succ_of_lt h2, h3⟩
  · rcases List.mem_or_eq_of_mem_set hst with hst | rfl
    · exact (h.pending st hst i hi).imp_right Nat.lt_succ_of_lt
    · cases hi
      exact ⟨h.start_le, Nat.lt_succ_self _⟩
  · rcases List.mem_or_eq_of_mem_set hst with hst | hst
    · exact h.created key' i hst
    · cases hst
  · dsimp only
    rw [h₂]
    simp only [List.filterMap_append, List.filterMap_cons, Store.pending]
    rw [← List.append_assoc, List.nodup_middle, List.nodup_cons, List.append_assoc]
    exact ⟨fun hm => lt_irrefl _ (hlt _ hm), hd⟩
  · dsimp only
    rw [h₂]
    simpa only [List.filterMap_append, List.filterMap_cons, Store.result] using hr
  · obtain ⟨l₀, h₀, hb⟩ := h.chains b
    exact ⟨l₀, h₀, hb.frame hk.1 fun _ _ => rfl⟩
  · obtain ⟨hseen, ht⟩ := h.readers entry he
    exact ⟨hseen, ht.keep hk hseen⟩

theorem Inv.populate (hs : s.Sound) (h : Inv s t₀ sys)
    (hn : sys.stores[n]? = some (.allocated key write index)) (hw : write.length ≤ s.valueSize)
    (hp : RecordRow.populate s sys.table index key write = pure t) :
    Inv s t₀ { sys with table := t, stores := sys.stores.set n (.created key index) } := by
  obtain ⟨hc, hh, hkey⟩ := populate_fields hp
  have hst := List.getElem?_mem hn
  have hk := keeps_populate hs hw hp (h.not_settled hst rfl)
  obtain ⟨A, B, h₁, h₂⟩ := exists_split_of_getElem? hn
  have hd := h.distinct
  have hr := h.results
  rw [h₁] at hd hr
  refine ⟨hc ▸ h.count_le, hc ▸ h.start_le, fun e he => ?_, fun st' hst' i hi => ?_,
    fun key' i hst' => ?_, ?_, ?_, fun b => ?_, fun entry he => ?_⟩
  · obtain ⟨h1, h2, h3⟩ := h.logged e he
    exact ⟨h1, hc ▸ h2, (hk.2 e.2 (.inr (List.mem_map_of_mem _ he))).1.trans h3⟩
  · rcases List.mem_or_eq_of_mem_set hst' with hst' | rfl
    · exact hc ▸ h.pending st' hst' i hi
    · exact hc ▸ h.pending _ hst i hi
  · rcases List.mem_or_eq_of_mem_set hst' with hst' | he
    · have hAB : Store.created key' i ∈ A ++ B := by
        rw [h₁] at hst'
        simpa using hst'
      have hne := pending_ne_of_nodup hd rfl hAB rfl
      exact (keyAt_congr hs (populate_sameRecord hs hw hp hne)).trans (h.created key' i hst')
    · cases he
      exact hkey
  · dsimp only
    rw [h₂]
    simpa only [List.filterMap_append, List.filterMap_cons, Store.pending] using hd
  · dsimp only
    rw [h₂]
    simpa only [List.filterMap_append, List.filterMap_cons, Store.result] using hr
  · obtain ⟨l₀, h₀, hb⟩ := h.chains b
    refine ⟨l₀, h₀, ?_⟩
    rw [hh]
    exact hk.chain hb (linkedIn_settled h₀ (List.suffix_refl _))
  · obtain ⟨hseen, ht⟩ := h.readers entry he
    exact ⟨hseen, ht.keep hk hseen⟩

theorem Inv.critical (hs : s.Sound) (h : Inv s t₀ sys) (hn : sys.stores[n]? = some (.created key index))
    (hl : RecordRow.link s sys.table index (readBucketValue s sys.table key) = pure t) :
    Inv s t₀ { sys with
      table := RecordHashTable.link s t key index
      stores := sys.stores.set n (.returned key index)
      log := (key, index) :: sys.log } := by
  obtain ⟨hlt, rfl⟩ := link_eq_writeNext hl
  have hst := List.getElem?_mem hn
  have hi := h.not_settled hst rfl
  have hk : Keeps s t₀ sys.log sys.table (RecordHashTable.link s
      (writeNext s sys.table index (readBucketValue s sys.table key)) key index) :=
    keeps_critical hs hi
  obtain ⟨A, B, h₁, h₂⟩ := exists_split_of_getElem? hn
  have hd := h.distinct
  have hr := h.results
  rw [h₁] at hd hr
  simp only [List.filterMap_append, List.filterMap_cons, Store.pending, Store.result] at hd hr
  refine ⟨h.count_le, h.start_le, fun e he => ?_, fun st' hst' i hi' => ?_,
    fun key' i hst' => ?_, ?_, ?_, fun b => ?_, fun entry he => ?_⟩
  · rcases List.mem_cons.1 he with rfl | he
    · exact ⟨(h.pending _ hst index rfl).1, hlt, (keyAt_writeNext hs).trans (h.created key index hst)⟩
    · obtain ⟨h1, h2, h3⟩ := h.logged e he
      exact ⟨h1, h2, (keyAt_writeNext hs).trans h3⟩
  · rcases List.mem_or_eq_of_mem_set hst' with hst' | rfl
    · exact h.pending st' hst' i hi'
    · cases hi'
  · rcases List.mem_or_eq_of_mem_set hst' with hst' | hst'
    · exact (keyAt_writeNext hs).trans (h.created key' i hst')
    · cases hst'
  · dsimp only
    rw [h₂]
    simp only [List.map_cons, List.cons_append, List.filterMap_append, List.filterMap_cons,
      Store.pending]
    rwa [← List.append_assoc, List.nodup_middle, List.append_assoc] at hd
  · dsimp only
    rw [h₂]
    simp only [List.filterMap_append, List.filterMap_cons, Store.result]
    exact (hr.cons _).trans List.perm_middle.symm
  · obtain ⟨l₀, h₀, hb⟩ := h.chains b
    have hset := linkedIn_settled h₀ (List.suffix_refl sys.log)
    refine ⟨l₀, h₀, ?_⟩
    simp only [RecordHashTable.link, HashTableHeader.write]
    by_cases hkb : bucketIndex s key = b
    · subst hkb
      rw [Function.update_same, linkedIn_cons_of_eq rfl, List.cons_append]
      exact (chain_critical hs h.count_le hlt hb fun hm => hi (hset index hm)).frame le_rfl
        fun _ _ => rfl
    · rw [Function.update_noteq (Ne.symm hkb), linkedIn_cons_of_ne hkb]
      exact hk.chain hb hset
  · obtain ⟨hseen, ht⟩ := h.readers entry he
    exact ⟨hseen.trans (List.suffix_cons _ _), ht.keep hk hseen⟩

theorem Inv.read {r : Reader s.keySize} {seen : List (Key s.keySize × Nat)} (h : Inv s t₀ sys)
    (hn : sys.readers[n]? = some (r, seen)) :
    Inv s t₀ { sys with
      readers := sys.readers.set n (r.step s sys.table, afterRead r sys.log seen) } := by
  refine { h with readers := fun entry he => ?_ }
  rcases List.mem_or_eq_of_mem_set he with he | rfl
  · exact h.readers entry he
  · obtain ⟨hseen, ht⟩ := h.readers _ (List.getElem?_mem hn)
    refine ⟨?_, ht.read h⟩
    cases r <;> first | exact List.suffix_refl _ | exact hseen

end Preservation

theorem Inv.step (hs : s.Sound) (h : Inv s t₀ sys) (hstep : Step s sys sys')
    (hc : sys'.table.count ≤ s.notFound) : Inv s t₀ sys' := by
  cases hstep with
  | allocate hn => exact h.allocate hn hc
  | populate hn hw hp => exact h.populate hs hn hw hp
  | critical hn hl => exact h.critical hs hn hl
  | read hn => exact h.read hn

theorem filterMap_init {β : Type} {f : Store s.keySize → Option β}
    (hf : ∀ key write, f (.start key write) = none) (jobs : List (Key s.keySize × List UInt8)) :
    (jobs.map fun job => Store.start job.1 job.2).filterMap f = [] :=
  List.filterMap_eq_nil_iff.2 fun st hst => by
    obtain ⟨job, -, rfl⟩ := List.mem_map.1 hst
    exact hf _ _

theorem Inv.init (hs : s.Sound) {t : Table} (ht : Reachable s t)
    (jobs : List (Key s.keySize × List UInt8)) (keys : List (Key s.keySize)) :
    Inv s t (System.init t jobs keys) where
  count_le := ht.count_le
  start_le := le_rfl
  logged := fun _ he => nomatch he
  pending := fun st hst i hi => by
    obtain ⟨job, -, rfl⟩ := List.mem_map.1 hst
    cases hi
  created := fun _ _ hst => by
    obtain ⟨job, -, he⟩ := List.mem_map.1 hst
    cases he
  distinct := by
    rw [System.init, filterMap_init (fun _ _ => rfl)]
    exact List.nodup_nil
  results := by
    rw [System.init, filterMap_init (fun _ _ => rfl)]
  chains := fun b =>
    let ⟨l, hl, _⟩ := (ht.linked hs).chain_header b
    ⟨l, hl, hl⟩
  readers := fun _ he => by
    obtain ⟨key, -, rfl⟩ := List.mem_map.1 he
    exact ⟨List.suffix_refl _, trivial⟩

theorem Inv.run (hs : s.Sound) {sys₀ : System s} (h₀ : Inv s t₀ sys₀)
    (h : Relation.ReflTransGen (Step s) sys₀ sys) (hc : sys.table.count ≤ s.notFound) :
    Inv s t₀ sys := by
  induction h with
  | refl => exact h₀
  | tail _ hstep ih => exact (ih (hstep.count_le.trans hc)).step hs hstep hc

theorem keys_of_run {sys₀ : System s} (h : Relation.ReflTransGen (Step s) sys₀ sys) :
    sys.stores.map Store.key = sys₀.stores.map Store.key := by
  induction h with
  | refl => rfl
  | tail _ hstep ih => exact hstep.keys.trans ih

end Steps

section Readers

variable {s : Shape} {t : Table} {key : Key s.keySize} {l₀ : List Nat}

/-- The first record of a key in a bucket's chain of the log `seen`, given any logged store of
the key, is that store's record or the record of a store of the key logged after it. -/
theorem firstOf_linkedIn : ∀ {seen : List (Key s.keySize × Nat)} {i index : Nat},
    (∀ e ∈ seen, keyAt s t e.2 = e.1.bytes) → (key, i) ∈ seen →
      firstOf s t key (linkedIn s seen (bucketIndex s key) ++ l₀) = some index →
      ∃ A B, seen = A ++ (key, i) :: B ∧ (index = i ∨ (key, index) ∈ A)
  | [], _, _, _, hi, _ => nomatch hi
  | e :: seen, i, index, hk, hi, hf => by
      have hke := hk e (List.mem_cons_self _ _)
      by_cases hhit : bucketIndex s e.1 = bucketIndex s key ∧ keyAt s t e.2 = key.bytes
      · rw [linkedIn_cons_of_eq hhit.1, List.cons_append, firstOf_cons_of_eq hhit.2] at hf
        have he : e = (key, index) :=
          Prod.ext (Key.bytes_inj.1 (hke.symm.trans hhit.2)) (Option.some.inj hf)
        by_cases hei : e = (key, i)
        · exact ⟨[], seen, by rw [hei]; rfl, .inl (Prod.ext_iff.1 (he.symm.trans hei)).2⟩
        · obtain ⟨A, B, hAB⟩ := List.append_of_mem ((List.mem_cons.1 hi).resolve_left (Ne.symm hei))
          exact ⟨e :: A, B, by rw [hAB]; rfl, .inr (he ▸ List.mem_cons_self _ _)⟩
      · have hskip : firstOf s t key (linkedIn s (e :: seen) (bucketIndex s key) ++ l₀) =
            firstOf s t key (linkedIn s seen (bucketIndex s key) ++ l₀) := by
          by_cases hb : bucketIndex s e.1 = bucketIndex s key
          · rw [linkedIn_cons_of_eq hb, List.cons_append, firstOf_cons_of_ne fun hk' => hhit ⟨hb, hk'⟩]
          · rw [linkedIn_cons_of_ne hb]
        rcases List.mem_cons.1 hi with rfl | hi
        · exact absurd ⟨rfl, hke⟩ hhit
        · obtain ⟨A, B, rfl, hidx⟩ := firstOf_linkedIn (fun e he => hk e (List.mem_cons_of_mem _ he))
            hi (hskip ▸ hf)
          exact ⟨e :: A, B, rfl, hidx.imp_right (List.mem_cons_of_mem _)⟩

theorem firstOf_linkedIn_ne_none {seen : List (Key s.keySize × Nat)} {i : Nat}
    (hk : ∀ e ∈ seen, keyAt s t e.2 = e.1.bytes) (hi : (key, i) ∈ seen) :
    firstOf s t key (linkedIn s seen (bucketIndex s key) ++ l₀) ≠ none :=
  firstOf_ne_none (List.mem_append_left _ (List.mem_map.2 ⟨(key, i), List.mem_filter.2 ⟨hi, by simp⟩,
    rfl⟩)) (hk _ hi)

end Readers

/-- What a reader has done so far, `seen` being the critical sections before its bucket read:
it has not faulted; it has returned a record of its key and, for every store of its key in
`seen`, that store's record or the record of a store of the key after it; and it has returned
null only if `seen` holds no store of its key. -/
def ReaderSafe (s : Shape) (sys : System s) :
    Reader s.keySize × List (Key s.keySize × Nat) → Prop
  | (.found key index, seen) => keyAt s sys.table index = key.bytes ∧
      ∀ i, (key, i) ∈ seen → ∃ A B, seen = A ++ (key, i) :: B ∧ (index = i ∨ (key, index) ∈ A)
  | (.missed key, seen) => ∀ i, (key, i) ∉ seen
  | (.faulted _ _, _) => False
  | _ => True

theorem Inv.readerSafe {s : Shape} {t₀ : Table} {sys : System s} (h : Inv s t₀ sys) :
    ∀ entry ∈ sys.readers, ReaderSafe s sys entry := by
  rintro ⟨r, seen⟩ he
  obtain ⟨hseen, ht⟩ := h.readers _ he
  have hk : ∀ e ∈ seen, keyAt s sys.table e.2 = e.1.bytes :=
    fun e he => (h.logged e (hseen.subset he)).2.2
  cases r with
  | found key index =>
      obtain ⟨_, ⟨l₀, -, rfl⟩, hf⟩ := ht
      exact ⟨by simpa using List.find?_some hf, fun i hi => firstOf_linkedIn hk hi hf⟩
  | missed key =>
      obtain ⟨_, ⟨l₀, -, rfl⟩, hf⟩ := ht
      exact fun i hi => firstOf_linkedIn_ne_none hk hi hf
  | faulted => exact ht
  | start | compare | advance => trivial

/-- Concurrent stores lose no insert. In every interleaving of store threads and find readers
from a reachable table of a sound shape, ending below capacity: each store thread keeps its
key; the log of critical sections holds exactly the stores that have returned, each with a
record of its own, newer than the table and holding its key; every bucket's chain is the
records its logged critical sections linked, newest first, followed by its chain before the
run, each once; and every reader has done what `ReaderSafe` says. -/
theorem stores_lose_no_insert {s : Shape} (hs : s.Sound) {t : Table} (ht : Reachable s t)
    (jobs : List (Key s.keySize × List UInt8)) (keys : List (Key s.keySize)) {sys : System s}
    (h : Relation.ReflTransGen (Step s) (System.init t jobs keys) sys)
    (hc : sys.table.count ≤ s.notFound) :
    sys.stores.map Store.key = jobs.map Prod.fst ∧
      sys.log.Perm (sys.stores.filterMap Store.result) ∧ (sys.log.map Prod.snd).Nodup ∧
      (∀ e ∈ sys.log, t.count ≤ e.2 ∧ keyAt s sys.table e.2 = e.1.bytes) ∧
      (∀ b, ∃ l₀, Chain s t (t.header b) l₀ ∧
        Chain s sys.table (sys.table.header b) (linkedIn s sys.log b ++ l₀) ∧
        (linkedIn s sys.log b ++ l₀).Nodup) ∧
      ∀ entry ∈ sys.readers, ReaderSafe s sys entry := by
  have hi := (Inv.init hs ht jobs keys).run hs h hc
  refine ⟨?_, hi.results, hi.distinct.of_append_left,
    fun e he => ⟨(hi.logged e he).1, (hi.logged e he).2.2⟩, fun b => ?_, hi.readerSafe⟩
  · rw [keys_of_run h]
    simp [System.init, Function.comp_def, Store.key]
  · obtain ⟨l₀, h₀, hb⟩ := hi.chains b
    exact ⟨l₀, h₀, hb, hb.nodup hc⟩

/-- No store thread faults: below capacity, the row writes of a thread holding a record and the
link write of its critical section land in an allocated record. -/
theorem stores_never_fault {s : Shape} (hs : s.Sound) {t : Table} (ht : Reachable s t)
    (jobs : List (Key s.keySize × List UInt8)) (keys : List (Key s.keySize)) {sys : System s}
    (h : Relation.ReflTransGen (Step s) (System.init t jobs keys) sys)
    (hc : sys.table.count ≤ s.notFound) :
    ∀ st ∈ sys.stores,
      (∀ key write index, st = .allocated key write index →
        ∃ t', RecordRow.populate s sys.table index key write = pure t') ∧
      ∀ key index, st = .created key index →
        ∀ v, ∃ t', RecordRow.link s sys.table index v = pure t' := by
  have hi := (Inv.init hs ht jobs keys).run hs h hc
  refine fun st hst => ⟨fun key write index he => ?_, fun key index he v => ?_⟩ <;> subst he
  · exact ⟨_, populate_of_lt (hi.pending _ hst index rfl).2 key write⟩
  · exact ⟨_, writeNextIndex_of_lt (hi.pending _ hst index rfl).2 v⟩

/-- Readers read finished rows only: below capacity, the current link of a walking reader is
not_found, a record of the table before the run, or the record of a store whose critical
section has completed, which holds that store's key. -/
theorem stores_readers_visit_finished {s : Shape} (hs : s.Sound) {t : Table} (ht : Reachable s t)
    (jobs : List (Key s.keySize × List UInt8)) (keys : List (Key s.keySize)) {sys : System s}
    (h : Relation.ReflTransGen (Step s) (System.init t jobs keys) sys)
    (hc : sys.table.count ≤ s.notFound) :
    ∀ entry ∈ sys.readers, ∀ key current,
      (entry.1 = .compare key current ∨ entry.1 = .advance key current) →
      current = s.notFound ∨ current < t.count ∨
        ∃ e ∈ sys.log, e.2 = current ∧ keyAt s sys.table current = e.1.bytes := by
  have hi := (Inv.init hs ht jobs keys).run hs h hc
  rintro ⟨r, seen⟩ he key current hr
  obtain ⟨hseen, htr⟩ := hi.readers _ he
  have hset : Settled t sys.log current → current < t.count ∨
      ∃ e ∈ sys.log, e.2 = current ∧ keyAt s sys.table current = e.1.bytes := by
    rintro (hlt | hlog)
    · exact .inl hlt
    · obtain ⟨e, he, rfl⟩ := List.mem_map.1 hlog
      exact .inr ⟨e, he, rfl, (hi.logged e he).2.2⟩
  obtain rfl | rfl : r = .compare key current ∨ r = .advance key current := hr
  · obtain ⟨P, l, hB, -, hl⟩ := htr
    rcases l with _ | ⟨j, l⟩
    · exact .inl hl.nil_inv
    · obtain ⟨rest, heq, -⟩ := hl.cons_inv (List.cons_ne_nil _ _)
      obtain ⟨rfl, -⟩ := List.cons.inj heq
      exact .inr (hset (hB.settled hseen _ (by simp)))
  · obtain ⟨P, rest, hB, -, -⟩ := htr
    exact .inr (hset (hB.settled hseen _ (by simp)))

/-- A find of a stored key stands on the key's record after its bucket read. -/
theorem find_stands_on_stored_record :
    ∃ sys, Relation.ReflTransGen (Step (rowSized 4 4 100 2))
        (System.init (create (rowSized 4 4 100 2) fun _ => 0)
          [(⟨[222, 173, 190, 239], rfl⟩, [42, 24])] [⟨[222, 173, 190, 239], rfl⟩]) sys ∧
      sys.readers.map Prod.fst = [.compare ⟨[222, 173, 190, 239], rfl⟩ 0] ∧
      ∀ entry ∈ sys.readers, ∀ key current,
        (entry.1 = .compare key current ∨ entry.1 = .advance key current) →
        current = (rowSized 4 4 100 2).notFound ∨
          current < (create (rowSized 4 4 100 2) fun _ => 0).count ∨
          ∃ e ∈ sys.log, e.2 = current ∧ keyAt (rowSized 4 4 100 2) sys.table current = e.1.bytes := by
  obtain ⟨sys, hrun, hr, hc⟩ : ∃ sys, Relation.ReflTransGen (Step (rowSized 4 4 100 2))
      (System.init (create (rowSized 4 4 100 2) fun _ => 0)
        [(⟨[222, 173, 190, 239], rfl⟩, [42, 24])] [⟨[222, 173, 190, 239], rfl⟩]) sys ∧
      sys.readers.map Prod.fst = [.compare ⟨[222, 173, 190, 239], rfl⟩ 0] ∧
      sys.table.count ≤ (rowSized 4 4 100 2).notFound :=
    ⟨_, Relation.ReflTransGen.refl
      |>.tail (@Step.allocate _ _ 0 _ _ (by rfl))
      |>.tail (@Step.populate _ _ 0 _ _ _ _ (by rfl) (by decide) (by rfl))
      |>.tail (@Step.critical _ _ 0 _ _ _ (by rfl) (by rfl))
      |>.tail (@Step.read _ _ 0 _ _ (by rfl)), by decide, by decide⟩
  exact ⟨sys, hrun, hr,
    stores_readers_visit_finished (rowSized_sound 4 4 100 2) (.create _) _ _ hrun hc⟩

/-- A store thread that runs with no other thread in between performs record_hash_table::store:
its three steps leave the table store leaves, and it returns the index store returns. -/
theorem solo_store_performs_store {s : Shape} {sys : System s} {n : Nat} {key : Key s.keySize}
    {write : List UInt8} (hn : sys.stores[n]? = some (.start key write))
    (hw : write.length ≤ s.valueSize) :
    ∃ sys', Relation.ReflTransGen (Step s) sys sys' ∧
      store s sys.table key write = pure (sys.table.count, sys'.table) ∧
      sys'.stores = sys.stores.set n (.returned key sys.table.count) ∧
      sys'.log = (key, sys.table.count) :: sys.log ∧ sys'.readers = sys.readers := by
  have hlen := (List.getElem?_eq_some_iff.1 hn).1
  refine ⟨_, Relation.ReflTransGen.refl
    |>.tail (Step.allocate hn)
    |>.tail (Step.populate (List.getElem?_set_self (by simpa using hlen)) hw
      (populate_of_lt (Nat.lt_succ_self _) _ _))
    |>.tail (Step.critical (List.getElem?_set_self (by simpa using hlen))
      (writeNextIndex_of_lt (Nat.lt_succ_self _) _)), by rw [store_eq]; rfl, ?_, rfl, rfl⟩
  simp only [List.set_set]
  rfl

/-- Two stores of one bucket interleave their allocations and row writes; a find of the first
key reads the bucket between the two critical sections and returns the first record. -/
theorem two_stores_then_find :
    ∃ sys, Relation.ReflTransGen (Step (rowSized 4 4 100 2))
        (System.init (create (rowSized 4 4 100 2) fun _ => 0)
          [(⟨[222, 173, 190, 239], rfl⟩, [42, 24]), (⟨[122, 173, 190, 239], rfl⟩, [44, 45])]
          [⟨[222, 173, 190, 239], rfl⟩]) sys ∧
      sys.stores.filterMap Store.result =
        [(⟨[222, 173, 190, 239], rfl⟩, 0), (⟨[122, 173, 190, 239], rfl⟩, 1)] ∧
      sys.readers.map Prod.fst = [.found ⟨[222, 173, 190, 239], rfl⟩ 0] ∧
      sys.log.Perm (sys.stores.filterMap Store.result) ∧
      ∀ entry ∈ sys.readers, ReaderSafe (rowSized 4 4 100 2) sys entry := by
  obtain ⟨sys, hrun, hres, hfound, hc⟩ : ∃ sys, Relation.ReflTransGen (Step (rowSized 4 4 100 2))
      (System.init (create (rowSized 4 4 100 2) fun _ => 0)
        [(⟨[222, 173, 190, 239], rfl⟩, [42, 24]), (⟨[122, 173, 190, 239], rfl⟩, [44, 45])]
        [⟨[222, 173, 190, 239], rfl⟩]) sys ∧
      sys.stores.filterMap Store.result =
        [(⟨[222, 173, 190, 239], rfl⟩, 0), (⟨[122, 173, 190, 239], rfl⟩, 1)] ∧
      sys.readers.map Prod.fst = [.found ⟨[222, 173, 190, 239], rfl⟩ 0] ∧
      sys.table.count ≤ (rowSized 4 4 100 2).notFound :=
    ⟨_, Relation.ReflTransGen.refl
      |>.tail (@Step.allocate _ _ 0 _ _ (by rfl))
      |>.tail (@Step.allocate _ _ 1 _ _ (by rfl))
      |>.tail (@Step.populate _ _ 1 _ _ _ _ (by rfl) (by decide) (by rfl))
      |>.tail (@Step.populate _ _ 0 _ _ _ _ (by rfl) (by decide) (by rfl))
      |>.tail (@Step.critical _ _ 0 _ _ _ (by rfl) (by rfl))
      |>.tail (@Step.read _ _ 0 _ _ (by rfl))
      |>.tail (@Step.critical _ _ 1 _ _ _ (by rfl) (by rfl))
      |>.tail (@Step.read _ _ 0 _ _ (by rfl)), by decide, by decide, by decide⟩
  obtain ⟨-, hperm, -, -, -, hsafe⟩ :=
    stores_lose_no_insert (rowSized_sound 4 4 100 2) (.create _) _ _ hrun hc
  exact ⟨sys, hrun, hres, hfound, hperm, hsafe⟩

/-- A store whose record manager_.new_records hands record not_found links not_found into its
bucket: once the store has returned, the bucket is empty, and the record it returned and every
record of the bucket before it are lost. -/
theorem store_at_capacity_empties_bucket :
    ∃ t sys, Reachable (rowSized 4 4 100 2) t ∧
      t.header (bucketIndex (rowSized 4 4 100 2) ⟨[222, 173, 190, 239], rfl⟩) ≠
        (rowSized 4 4 100 2).notFound ∧
      Relation.ReflTransGen (Step (rowSized 4 4 100 2))
        (System.init t [(⟨[222, 173, 190, 239], rfl⟩, [42, 24])] []) sys ∧
      sys.stores = [.returned ⟨[222, 173, 190, 239], rfl⟩ (rowSized 4 4 100 2).notFound] ∧
      sys.table.header (bucketIndex (rowSized 4 4 100 2) ⟨[222, 173, 190, 239], rfl⟩) =
        (rowSized 4 4 100 2).notFound := by
  obtain ⟨t, ht, hc, hh⟩ := reachable_stores (rowSized 4 4 100 2) (fun _ => 0)
    ⟨[222, 173, 190, 239], rfl⟩ [42, 24] (by decide) _ le_rfl
  refine ⟨t, _, ht, by rw [← HashTableHeader.read, hh (by decide)]; decide,
    Relation.ReflTransGen.refl
      |>.tail (@Step.allocate _ _ 0 _ _ (by rfl))
      |>.tail (@Step.populate _ _ 0 _ _ _ _ (by rfl) (by decide)
        (by exact populate_of_lt (Nat.lt_succ_self _) _ _))
      |>.tail (@Step.critical _ _ 0 _ _ _ (by rfl)
        (by exact writeNextIndex_of_lt (Nat.lt_succ_self _) _)),
    by simp [System.init, RecordManager.newRecords, hc], ?_⟩
  simp [RecordHashTable.link, HashTableHeader.write, RecordManager.newRecords, System.init, hc]

end Stores
end Concurrent
end BitcoinDatabase
