import BitcoinDatabase.Run

/-!
Chain well-formedness. `Linked` states it record by record: each bucket holds
not_found or an allocated record of that bucket, and each allocated record's
next link is not_found or an earlier record of its own bucket. `Chain` is the
walk along next links that find, offset, update and unlink make. From `Linked`
the walk from every bucket exists, is unique, visits allocated records of that
bucket in decreasing order and ends at not_found, and `seek` returns its first
match. Whether the operations keep `Linked` depends on the shape; that is the
next module's subject.
-/

namespace BitcoinDatabase
namespace RecordHashTable

open RecordRow

variable (s : Shape) (t : Table)

def home (index : Nat) : Nat :=
  s.remainder (keyAt s t index) s.buckets

/-- Chain well-formedness, record by record. -/
structure Linked : Prop where
  count_le : t.count ≤ s.notFound
  header : ∀ b, t.header b = s.notFound ∨ t.header b < t.count ∧ home s t (t.header b) = b
  next : ∀ i < t.count, nextAt s t i = s.notFound ∨
    nextAt s t i < i ∧ home s t (nextAt s t i) = home s t i

/-- The walk from a link along next links to not_found, visiting allocated rows only. -/
inductive Chain : Nat → List Nat → Prop
  | last : Chain s.notFound []
  | cons {index : Nat} {rest : List Nat} :
      index < t.count → Chain (nextAt s t index) rest → Chain index (index :: rest)

/-- Chain well-formedness as the walks see it: from every bucket the walk visits
allocated records of that bucket in strictly decreasing order and ends at not_found,
and every allocated record's next link is not_found or an earlier record. -/
def ChainsWellFormed : Prop :=
  (∀ b, ∃ l, Chain s t (t.header b) l ∧ l.Pairwise (· > ·) ∧ ∀ j ∈ l, home s t j = b) ∧
  ∀ i < t.count, nextAt s t i = s.notFound ∨ nextAt s t i < i

variable {s t}

theorem Linked.chain_exists (h : Linked s t) (b : Nat) :
    ∀ i, (i = s.notFound ∨ i < t.count ∧ home s t i = b) →
      ∃ l, Chain s t i l ∧ l.Pairwise (· > ·) ∧ ∀ j ∈ l, j ≤ i ∧ home s t j = b := by
  intro i
  induction i using Nat.strong_induction_on with
  | _ i ih =>
    rintro (rfl | ⟨hi, hb⟩)
    · exact ⟨[], .last, .nil, by simp⟩
    obtain ⟨rest, hc, hp, hr⟩ : ∃ rest, Chain s t (nextAt s t i) rest ∧
        rest.Pairwise (· > ·) ∧ ∀ j ∈ rest, j < i ∧ home s t j = b := by
      rcases h.next i hi with hn | ⟨hlt, hh⟩
      · exact ⟨[], hn ▸ .last, .nil, by simp⟩
      · obtain ⟨rest, hc, hp, hr⟩ := ih _ hlt (.inr ⟨hlt.trans hi, hh.trans hb⟩)
        exact ⟨rest, hc, hp, fun j hj => ⟨(hr j hj).1.trans_lt hlt, (hr j hj).2⟩⟩
    refine ⟨i :: rest, .cons hi hc, List.pairwise_cons.2 ⟨fun j hj => (hr j hj).1, hp⟩, ?_⟩
    simp only [List.mem_cons, forall_eq_or_imp]
    exact ⟨⟨le_rfl, hb⟩, fun j hj => ⟨(hr j hj).1.le, (hr j hj).2⟩⟩

theorem Linked.chain_header (h : Linked s t) (b : Nat) :
    ∃ l, Chain s t (t.header b) l ∧ l.Pairwise (· > ·) ∧ ∀ j ∈ l, home s t j = b := by
  obtain ⟨l, hc, hp, hl⟩ := h.chain_exists b _ (h.header b)
  exact ⟨l, hc, hp, fun j hj => (hl j hj).2⟩

theorem Linked.chainsWellFormed (h : Linked s t) : ChainsWellFormed s t :=
  ⟨h.chain_header, fun i hi => (h.next i hi).imp_right And.left⟩

/-- With the record size the constructor gives the manager, the second store's key and
link overwrite the first record's next link: record 0 then links to a record the manager
never allocated. -/
theorem second_store_breaks_chains :
    ∃ t, runOps (recordHashTable 4 4 4 100 2) (create (recordHashTable 4 4 4 100 2) fun _ => 0)
        [.store ⟨[222, 173, 190, 239], rfl⟩ [42, 24], .store ⟨[186, 173, 190, 239], rfl⟩ [44, 45]] =
        pure t ∧
      Reachable (recordHashTable 4 4 4 100 2) t ∧
      nextAt (recordHashTable 4 4 4 100 2) t 0 = 4294963134 ∧
      ¬ ChainsWellFormed (recordHashTable 4 4 4 100 2) t := by
  refine ⟨_, rfl, @Reachable.runOps _ _ _
    [.store ⟨[222, 173, 190, 239], rfl⟩ [42, 24], .store ⟨[186, 173, 190, 239], rfl⟩ [44, 45]]
    (.create _) ?_ rfl (by decide), rfl, fun h => ?_⟩
  · simp [Op.Fits, recordHashTable]
  · have := h.2 0 (by decide)
    revert this
    decide

theorem Chain.lt_count {i : Nat} {l : List Nat} (h : Chain s t i l) : ∀ j ∈ l, j < t.count := by
  induction h with
  | last => simp
  | cons hi _ ih => simpa [hi] using ih

theorem Chain.unique {i : Nat} {l l' : List Nat} (hc : t.count ≤ s.notFound)
    (h : Chain s t i l) (h' : Chain s t i l') : l = l' := by
  induction h generalizing l' with
  | last =>
      cases h' with
      | last => rfl
      | cons hi _ => omega
  | cons hi _ ih =>
      cases h' with
      | last => omega
      | cons _ h' => rw [ih h']

theorem length_le_of_nodup {l : List Nat} {n : Nat} (hp : l.Nodup) (hb : ∀ j ∈ l, j < n) :
    l.length ≤ n := by
  simpa using (List.subperm_of_subset hp fun j hj => List.mem_range.2 (hb j hj)).length_le

theorem length_le_of_pairwise {l : List Nat} {n : Nat} (hp : l.Pairwise (· > ·))
    (hb : ∀ j ∈ l, j < n) : l.length ≤ n :=
  length_le_of_nodup (hp.imp ne_of_gt) hb

/-- On a chain, the shared loop of find, offset and update returns the chain's first
record with the key, given a step for every record of the chain. -/
theorem Chain.seek {i fuel : Nat} {l : List Nat} (key : Key s.keySize)
    (hc : t.count ≤ s.notFound) (h : Chain s t i l) (hf : l.length ≤ fuel) :
    seek s t key s.notFound fuel i = pure (l.find? fun j => keyAt s t j == key.bytes) := by
  induction h generalizing fuel with
  | last => exact seek_sentinel key _ _
  | @cons j rest hj _ ih =>
      obtain ⟨fuel, rfl⟩ : ∃ f, fuel = f + 1 := ⟨fuel - 1, by simp at hf; omega⟩
      rw [seek_step _ (by omega), compare_of_lt hj]
      by_cases hk : (keyAt s t j == key.bytes) = true
      · simp [hk]
      · simp [hk, nextIndex_of_lt hj, ih (by simpa using hf)]

theorem Chain.nil_inv {i : Nat} (h : Chain s t i []) : i = s.notFound := by
  cases h
  rfl

theorem Chain.le_notFound {i : Nat} {l : List Nat} (hc : t.count ≤ s.notFound) (h : Chain s t i l) :
    i ≤ s.notFound := by
  cases h with
  | last => exact le_rfl
  | cons hi _ => omega

theorem Chain.single {i j : Nat} (hi : i = j) (hj : j < t.count) (hn : nextAt s t j = s.notFound) :
    Chain s t i [j] := by
  subst hi
  exact .cons hj (hn ▸ .last)

theorem Chain.cons_inv {i : Nat} {l : List Nat} (h : Chain s t i l) (hne : l ≠ []) :
    ∃ rest, l = i :: rest ∧ i < t.count ∧ Chain s t (nextAt s t i) rest := by
  cases h with
  | last => exact absurd rfl hne
  | cons hi hrest => exact ⟨_, rfl, hi, hrest⟩

theorem Chain.frame {t' : Table} {i : Nat} {l : List Nat} (h : Chain s t i l)
    (hc : t.count ≤ t'.count) (hn : ∀ j ∈ l, nextAt s t' j = nextAt s t j) : Chain s t' i l := by
  induction h with
  | last => exact .last
  | cons hj _ ih =>
      simp only [List.mem_cons, forall_eq_or_imp] at hn
      exact .cons (by omega) (by rw [hn.1]; exact ih hn.2)

theorem Linked.pairwise {i : Nat} {l : List Nat} (h : Linked s t) (hc : Chain s t i l) :
    l.Pairwise (· > ·) := by
  have hi : i = s.notFound ∨ i < t.count ∧ home s t i = home s t i := by
    cases hc with
    | last => exact .inl rfl
    | cons hi _ => exact .inr ⟨hi, rfl⟩
  obtain ⟨l', hc', hp, -⟩ := h.chain_exists _ i hi
  rwa [hc.unique h.count_le hc']

/-- The walk from a key's bucket under `Linked`: a chain of that bucket, within the fuel
every loop is given. -/
theorem Linked.bucket_chain (h : Linked s t) (key : Key s.keySize) :
    ∃ l, Chain s t (readBucketValue s t key) l ∧ l.Pairwise (· > ·) ∧
      (∀ j ∈ l, home s t j = bucketIndex s key) ∧ l.length ≤ t.count := by
  obtain ⟨l, hc, hp, hh⟩ := h.chain_header (bucketIndex s key)
  exact ⟨l, hc, hp, hh, length_le_of_pairwise hp hc.lt_count⟩

theorem Linked.length_le {i : Nat} {l : List Nat} (h : Linked s t) (hc : Chain s t i l) :
    l.length ≤ t.count :=
  length_le_of_pairwise (h.pairwise hc) hc.lt_count

theorem Chain.find_eq {key : Key s.keySize} {l : List Nat} (hc : t.count ≤ s.notFound)
    (hl : Chain s t (readBucketValue s t key) l) (hf : l.length ≤ t.count + 1) :
    find s t key = pure ((l.find? fun j => keyAt s t j == key.bytes).map
      fun j => j * s.recordSize + s.prefixSize) := by
  simp only [find, hl.seek key hc hf]
  cases hj : l.find? fun j => keyAt s t j == key.bytes with
  | none => rfl
  | some j => simp [data_of_lt (hl.lt_count j (List.mem_of_find?_eq_some hj))]

theorem Chain.eq_nil_of_notFound {l : List Nat} (hc : t.count ≤ s.notFound)
    (h : Chain s t s.notFound l) : l = [] := by
  cases h with
  | last => rfl
  | cons hi _ => omega

theorem Chain.split {i p : Nat} {l : List Nat} (h : Chain s t i l) (hp : p ∈ l) :
    ∃ A B, l = A ++ p :: B ∧ Chain s t (nextAt s t p) B := by
  induction h with
  | last => simp at hp
  | @cons j rest _ hrest ih =>
      rcases List.mem_cons.1 hp with rfl | hp
      · exact ⟨[], rest, rfl, hrest⟩
      · obtain ⟨A, B, rfl, hB⟩ := ih hp
        exact ⟨j :: A, B, rfl, hB⟩

theorem Chain.nodup {i : Nat} {l : List Nat} (hc : t.count ≤ s.notFound) (h : Chain s t i l) :
    l.Nodup := by
  induction h with
  | last => exact List.nodup_nil
  | @cons j rest _ hrest ih =>
      refine List.nodup_cons.2 ⟨fun hj => ?_, ih⟩
      obtain ⟨A, B, rfl, hB⟩ := hrest.split hj
      have hlen := congrArg List.length (hrest.unique hc hB)
      simp only [List.length_append, List.length_cons] at hlen
      omega

theorem Chain.length_le {i : Nat} {l : List Nat} (hc : t.count ≤ s.notFound) (h : Chain s t i l) :
    l.length ≤ t.count :=
  length_le_of_nodup (h.nodup hc) h.lt_count

theorem Chain.suffix {i m : Nat} {A B : List Nat} (h : Chain s t i (A ++ m :: B)) :
    Chain s t (nextAt s t m) B := by
  induction A generalizing i with
  | nil =>
      obtain ⟨_, he, -, hr⟩ := h.cons_inv (List.cons_ne_nil _ _)
      obtain ⟨rfl, rfl⟩ := List.cons.inj he
      exact hr
  | cons a A ih =>
      obtain ⟨_, he, -, hr⟩ := h.cons_inv (List.cons_ne_nil _ _)
      obtain ⟨rfl, rfl⟩ := List.cons.inj he
      exact ih hr

theorem Chain.nextAt_eq_of_append {i p m : Nat} {A B : List Nat}
    (h : Chain s t i (A ++ p :: m :: B)) : nextAt s t p = m := by
  obtain ⟨_, he, -, -⟩ := h.suffix.cons_inv (List.cons_ne_nil _ _)
  exact (List.cons.inj he).1.symm

section Walks

variable {key : Key s.keySize} {l : List Nat} (h : Linked s t)
  (hl : Chain s t (readBucketValue s t key) l)
include h hl

theorem Linked.seek_bucket (fuel : Nat) (hf : t.count ≤ fuel) :
    seek s t key s.notFound fuel (readBucketValue s t key) =
      pure (l.find? fun j => keyAt s t j == key.bytes) := by
  obtain ⟨l', hc, -, -, hlen⟩ := h.bucket_chain key
  rw [hl.unique h.count_le hc]
  exact hc.seek key h.count_le (by omega)

theorem Linked.find_eq : find s t key =
    pure ((l.find? fun j => keyAt s t j == key.bytes).map
      fun j => j * s.recordSize + s.prefixSize) :=
  hl.find_eq h.count_le (h.length_le hl).step

theorem Linked.update_eq (write : List UInt8) : update s t key write =
    pure (match l.find? fun j => keyAt s t j == key.bytes with
      | some j => (j, writeValue s t j write)
      | none => (s.notFound, t)) := by
  simp only [update, h.seek_bucket hl _ (Nat.le_succ _)]
  cases hj : l.find? fun j => keyAt s t j == key.bytes with
  | none => rfl
  | some j => simp [data_of_lt (hl.lt_count j (List.mem_of_find?_eq_some hj)), writeValue]

theorem Linked.offset_eq : offset s t key =
    pure (match l.find? fun j => keyAt s t j == key.bytes with
      | some j => RecordRow.offset s j % 256 ^ s.linkSize
      | none => s.notFound) := by
  simp only [offset, HashTableHeader.empty, h.seek_bucket hl _ (Nat.le_succ _)]
  cases l.find? fun j => keyAt s t j == key.bytes <;> rfl

end Walks

/-- The loop of unlink on a chain either finds no record of the key and writes nothing,
or relinks the row before the first record of the key past it. -/
theorem Chain.unlinkLoop_cases {key : Key s.keySize} {current : Nat} {l : List Nat}
    (hc : t.count ≤ s.notFound) (h : Chain s t current l) :
    ∀ {fuel previous : Nat}, l.length ≤ fuel → previous < t.count →
      ((∀ j ∈ l, keyAt s t j ≠ key.bytes) ∧
          unlinkLoop s t key fuel previous current = pure (false, t)) ∨
        ∃ pre m post, l = pre ++ m :: post ∧ (∀ j ∈ pre, keyAt s t j ≠ key.bytes) ∧
          keyAt s t m = key.bytes ∧
          unlinkLoop s t key fuel previous current =
            pure (true, writeNext s t ((previous :: pre).getLast (List.cons_ne_nil _ _))
              (nextAt s t m)) := by
  induction h with
  | last => exact fun _ _ => .inl ⟨by simp, unlinkLoop_notFound key _ _⟩
  | @cons j rest hj _ ih =>
      intro fuel previous hf hp
      obtain ⟨fuel, rfl⟩ : ∃ f, fuel = f + 1 := ⟨fuel - 1, by simp at hf; omega⟩
      rw [unlinkLoop_step _ (by omega), compare_of_lt hj]
      by_cases hk : keyAt s t j = key.bytes
      · refine .inr ⟨[], j, rest, rfl, by simp, hk, ?_⟩
        simp [hk, nextIndex_of_lt hj, writeNextIndex_of_lt hp]
      · have hb : (keyAt s t j == key.bytes) = false := by simpa using hk
        simp only [hb, nextIndex_of_lt hj, pure_bind, Bool.false_eq_true, if_false]
        rcases ih (by simpa using hf) hj with ⟨hr, he⟩ | ⟨pre, m, post, rfl, hpre, hm, he⟩
        · exact .inl ⟨by simpa [hk] using hr, he⟩
        · refine .inr ⟨j :: pre, m, post, rfl, by simpa [hk] using hpre, hm, ?_⟩
          rw [he, List.getLast_cons (List.cons_ne_nil _ _)]

theorem Linked.unlink_cases {key : Key s.keySize} {l : List Nat} (h : Linked s t)
    (hl : Chain s t (readBucketValue s t key) l) (hne : l ≠ []) :
    ((∀ j ∈ l, keyAt s t j ≠ key.bytes) ∧ unlink s t key = pure (false, t)) ∨
    (∃ post, l = readBucketValue s t key :: post ∧ keyAt s t (readBucketValue s t key) = key.bytes ∧
      unlink s t key = pure (true, link s t key (nextAt s t (readBucketValue s t key)))) ∨
    ∃ pre m post, l = readBucketValue s t key :: pre ++ m :: post ∧
      (∀ j ∈ readBucketValue s t key :: pre, keyAt s t j ≠ key.bytes) ∧ keyAt s t m = key.bytes ∧
      unlink s t key = pure (true, writeNext s t
        ((readBucketValue s t key :: pre).getLast (List.cons_ne_nil _ _)) (nextAt s t m)) := by
  obtain ⟨l', hc', -, -, hlen⟩ := h.bucket_chain key
  rw [← hl.unique h.count_le hc'] at hlen
  obtain ⟨rest, rfl, hc, hrest⟩ := hl.cons_inv hne
  rw [unlink_eq, compare_of_lt hc]
  by_cases hk : keyAt s t (readBucketValue s t key) = key.bytes
  · exact .inr (.inl ⟨rest, rfl, hk, by simp [hk, nextIndex_of_lt hc]⟩)
  have hb : (keyAt s t (readBucketValue s t key) == key.bytes) = false := by simpa using hk
  simp only [hb, nextIndex_of_lt hc, pure_bind, Bool.false_eq_true, if_false]
  rcases hrest.unlinkLoop_cases h.count_le (show rest.length ≤ t.count + 1 by simp at hlen; omega) hc with
    ⟨hr, he⟩ | ⟨pre, m, post, rfl, hpre, hm, he⟩
  · exact .inl ⟨by simpa [hk] using hr, he⟩
  · exact .inr (.inr ⟨pre, m, post, rfl, by simpa [hk] using hpre, hm, he⟩)

end RecordHashTable
end BitcoinDatabase
