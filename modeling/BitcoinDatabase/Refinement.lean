import BitcoinDatabase.Invariant
import Mathlib.Data.List.Nodup

/-!
What a record hash table is for: a map from keys to stacks of values, newest
first. store pushes, update overwrites the top, unlink pops and find reads the
top. `Refines` relates a table to such a map through the chains: the stack of a
key is the values of the records with that key along its bucket's chain. On a
sound shape every operation keeps the relation, whatever the keys' buckets.
-/

namespace BitcoinDatabase
namespace RecordHashTable

open RecordRow

/-- Each key's values, newest first. -/
abbrev Stacks (width : Nat) := Key width → List (List UInt8)

namespace Stacks

variable {width : Nat}

def empty : Stacks width := fun _ => []

def store (σ : Stacks width) (key : Key width) (value : List UInt8) : Stacks width :=
  Function.update σ key (value :: σ key)

def update (σ : Stacks width) (key : Key width) (value : List UInt8) : Stacks width :=
  Function.update σ key (match σ key with
    | [] => []
    | _ :: rest => value :: rest)

def unlink (σ : Stacks width) (key : Key width) : Stacks width :=
  Function.update σ key (σ key).tail

/-- The abstract effect of a writer call. -/
def step (σ : Stacks width) : Op width → Stacks width
  | .store key write => σ.store key write
  | .update key write => σ.update key write
  | .unlink key => σ.unlink key

end Stacks

variable {s : Shape} {t t' : Table}

/-- The values of the records with `key` along the walk `l`, first first. -/
def stackOn (s : Shape) (t : Table) (key : Key s.keySize) (l : List Nat) : List (List UInt8) :=
  (l.filter fun j => keyAt s t j == key.bytes).map (valueAt s t)

section StackOn

variable {key : Key s.keySize} {j : Nat} {l : List Nat}

theorem stackOn_cons_of_eq (h : keyAt s t j = key.bytes) :
    stackOn s t key (j :: l) = valueAt s t j :: stackOn s t key l := by
  simp [stackOn, h]

theorem stackOn_cons_of_ne (h : keyAt s t j ≠ key.bytes) :
    stackOn s t key (j :: l) = stackOn s t key l := by
  simp [stackOn, h]

theorem stackOn_append (l₁ l₂ : List Nat) :
    stackOn s t key (l₁ ++ l₂) = stackOn s t key l₁ ++ stackOn s t key l₂ := by
  simp [stackOn]

theorem stackOn_eq_nil : stackOn s t key l = [] ↔ ∀ j ∈ l, keyAt s t j ≠ key.bytes := by
  simp [stackOn]

theorem stackOn_remove_self {A B : List Nat} {m : Nat} (hA : ∀ j ∈ A, keyAt s t j ≠ key.bytes)
    (hm : keyAt s t m = key.bytes) :
    stackOn s t key (A ++ B) = (stackOn s t key (A ++ m :: B)).tail := by
  rw [stackOn_append, stackOn_append, stackOn_eq_nil.2 hA, stackOn_cons_of_eq hm]
  rfl

theorem stackOn_remove_other {key' : Key s.keySize} {A B : List Nat} {m : Nat}
    (hm : keyAt s t m = key.bytes) (hk : key' ≠ key) :
    stackOn s t key' (A ++ B) = stackOn s t key' (A ++ m :: B) := by
  rw [stackOn_append, stackOn_append,
    stackOn_cons_of_ne fun e => hk (Key.bytes_inj.1 (e.symm.trans hm))]

theorem head?_stackOn :
    (stackOn s t key l).head? = (l.find? fun j => keyAt s t j == key.bytes).map (valueAt s t) := by
  simp [stackOn]

theorem stackOn_congr (hk : ∀ j ∈ l, keyAt s t' j = keyAt s t j)
    (hv : ∀ j ∈ l, keyAt s t j = key.bytes → valueAt s t' j = valueAt s t j) :
    stackOn s t' key l = stackOn s t key l := by
  induction l with
  | nil => rfl
  | cons j l ih =>
      simp only [List.mem_cons, forall_eq_or_imp] at hk hv
      by_cases h : keyAt s t j = key.bytes
      · rw [stackOn_cons_of_eq (hk.1.trans h), stackOn_cons_of_eq h, hv.1 h, ih hk.2 hv.2]
      · rw [stackOn_cons_of_ne (hk.1 ▸ h), stackOn_cons_of_ne h, ih hk.2 hv.2]

end StackOn

/-- The table refines the stacks: its chains are well formed, and along each key's
bucket chain the records with the key hold the key's stack. -/
structure Refines (s : Shape) (σ : Stacks s.keySize) (t : Table) : Prop where
  linked : Linked s t
  stack : ∀ key l, Chain s t (readBucketValue s t key) l → stackOn s t key l = σ key

theorem refines_create (memory : Memory) : Refines s Stacks.empty (create s memory) := by
  refine ⟨linked_create memory, fun key l hl => ?_⟩
  rw [hl.unique (Nat.zero_le _) .last]
  rfl

variable {σ : Stacks s.keySize}

theorem Refines.store (hs : s.Sound) (h : Refines s σ t) (key : Key s.keySize)
    {write : List UInt8} (hc : t.count < s.notFound) (hw : write.length = s.valueSize) :
    ∃ t', RecordHashTable.store s t key write = pure (t.count, t') ∧
      Refines s (σ.store key write) t' := by
  obtain ⟨t', hst⟩ : ∃ t', RecordHashTable.store s t key write = pure (t.count, t') :=
    ⟨_, store_eq key write⟩
  refine ⟨t', hst, h.linked.store hs hst hw.le hc, fun key' l' hl' => ?_⟩
  obtain ⟨-, hcount, hheader⟩ := store_count hst
  have same : ∀ j < t.count, SameRecord s t.memory t'.memory j := fun j hj =>
    store_sameRecord hst hs hw.le (by omega)
  obtain ⟨l, hl, -, -, -⟩ := h.linked.bucket_chain key'
  have hold : Chain s t' (readBucketValue s t key') l :=
    hl.frame (by omega) fun j hj => nextAt_congr hs (same j (hl.lt_count j hj))
  have hstack : stackOn s t' key' l = σ key' :=
    (stackOn_congr (fun j hj => keyAt_congr hs (same j (hl.lt_count j hj)))
      (fun j hj _ => valueAt_congr hs (same j (hl.lt_count j hj)))).trans (h.stack key' l hl)
  have hcount' : t'.count ≤ s.notFound := by omega
  by_cases hb : bucketIndex s key' = bucketIndex s key
  · have hv : t.header (bucketIndex s key) ≤ s.notFound := by
      rcases h.linked.header (bucketIndex s key) with hn | ⟨hlt, -⟩ <;>
        have := h.linked.count_le <;> omega
    have hnew : Chain s t' (readBucketValue s t' key') (t.count :: l) := by
      rw [show readBucketValue s t' key' = t.count by
        simp [readBucketValue, HashTableHeader.read, hheader, hb]]
      refine .cons (by omega) ?_
      rw [store_nextAt hst hs hv, ← hb]
      exact hold
    rw [hl'.unique hcount' hnew]
    by_cases hk : key' = key
    · subst hk
      rw [stackOn_cons_of_eq (store_keyAt hst), store_valueAt hst hs hw, hstack]
      simp [Stacks.store]
    · rw [stackOn_cons_of_ne (by rw [store_keyAt hst]; exact fun e => hk (Key.bytes_inj.1 e.symm)),
        hstack]
      simp [Stacks.store, hk]
  · rw [show readBucketValue s t' key' = readBucketValue s t key' by
      simp [readBucketValue, HashTableHeader.read, hheader, hb]] at hl'
    rw [hl'.unique hcount' hold, hstack]
    have hk : key' ≠ key := fun e => hb (e ▸ rfl)
    simp [Stacks.store, hk]

theorem stackOn_writeValue (hs : s.Sound) {key : Key s.keySize} {l : List Nat} {j : Nat}
    {write : List UInt8} (hw : write.length = s.valueSize) (hnd : l.Nodup)
    (hj : l.find? (fun j => keyAt s t j == key.bytes) = some j) :
    stackOn s (writeValue s t j write) key l = write :: (stackOn s t key l).tail := by
  obtain ⟨hk, as, bs, rfl, has⟩ := List.find?_eq_some.1 hj
  have hkj : keyAt s t j = key.bytes := by simpa using hk
  have hjbs : j ∉ bs := (List.nodup_cons.1 (List.nodup_append.1 hnd).2.1).1
  have hpre : stackOn s (writeValue s t j write) key as = stackOn s t key as :=
    stackOn_congr (fun _ _ => keyAt_writeValue hs hw.le)
      fun i hi hki => absurd hki (by simpa using has i hi)
  have hpost : stackOn s (writeValue s t j write) key bs = stackOn s t key bs :=
    stackOn_congr (fun _ _ => keyAt_writeValue hs hw.le)
      fun i hi _ => valueAt_writeValue_of_ne hs hw.le fun e => hjbs (e ▸ hi)
  rw [stackOn_append, stackOn_append, hpre, stackOn_cons_of_eq (by rw [keyAt_writeValue hs hw.le, hkj]),
    stackOn_cons_of_eq hkj, valueAt_writeValue hw, hpost,
    stackOn_eq_nil.2 fun i hi => by simpa using has i hi]
  rfl

theorem Refines.stack_eq_nil (h : Refines s σ t) {key : Key s.keySize} {l : List Nat}
    (hl : Chain s t (readBucketValue s t key) l) :
    σ key = [] ↔ l.find? (fun j => keyAt s t j == key.bytes) = none := by
  rw [← h.stack key l hl, ← List.head?_eq_none_iff, head?_stackOn, Option.map_eq_none']

theorem Refines.overwrite (hs : s.Sound) (h : Refines s σ t) {key : Key s.keySize}
    {write : List UInt8} (hw : write.length = s.valueSize) {l : List Nat} {j : Nat}
    (hl : Chain s t (readBucketValue s t key) l) (hp : l.Pairwise (· > ·))
    (hj : l.find? (fun j => keyAt s t j == key.bytes) = some j) :
    Refines s (σ.update key write) (writeValue s t j write) := by
  have hkj : keyAt s t j = key.bytes := by simpa using List.find?_some hj
  refine ⟨h.linked.of_fields rfl rfl (fun _ _ => keyAt_writeValue hs hw.le)
    (fun _ _ => nextAt_writeValue hs hw.le), fun key' l' hl' => ?_⟩
  obtain ⟨lk, hlk, -, -, -⟩ := h.linked.bucket_chain key'
  obtain rfl : l' = lk :=
    hl'.unique (show (writeValue s t j write).count ≤ s.notFound from h.linked.count_le)
      (hlk.frame le_rfl fun _ _ => nextAt_writeValue hs hw.le)
  by_cases hk : key' = key
  · subst hk
    obtain rfl := hl.unique h.linked.count_le hlk
    obtain ⟨v, rest, hv⟩ := List.exists_cons_of_ne_nil
      ((h.stack_eq_nil hl).not.2 (by rw [hj]; exact Option.some_ne_none j))
    rw [stackOn_writeValue hs hw (hp.imp ne_of_gt) hj, h.stack _ _ hl, hv]
    simp [Stacks.update, hv]
  · rw [stackOn_congr (fun _ _ => keyAt_writeValue hs hw.le)
      fun i _ hki => valueAt_writeValue_of_ne hs hw.le fun e =>
        hk (Key.bytes_inj.1 (hki.symm.trans (e ▸ hkj))), h.stack key' _ hlk]
    simp [Stacks.update, hk]

theorem Refines.update (hs : s.Sound) (h : Refines s σ t) (key : Key s.keySize)
    {write : List UInt8} (hw : write.length = s.valueSize) :
    ∃ r t', RecordHashTable.update s t key write = pure (r, t') ∧ (r = s.notFound ↔ σ key = []) ∧
      Refines s (σ.update key write) t' := by
  obtain ⟨l, hl, hp, -, -⟩ := h.linked.bucket_chain key
  rw [h.linked.update_eq hl]
  cases hj : l.find? fun j => keyAt s t j == key.bytes with
  | none =>
      have hnil : σ key = [] := (h.stack_eq_nil hl).2 hj
      have hσ : σ.update key write = σ := Function.update_eq_self_iff.2 (by rw [hnil])
      exact ⟨_, _, rfl, iff_of_true rfl hnil, by rwa [hσ]⟩
  | some j =>
      have hjl := List.mem_of_find?_eq_some hj
      refine ⟨j, _, rfl, iff_of_false ?_ ?_, h.overwrite hs hw hl hp hj⟩
      · have := h.linked.count_le
        have := hl.lt_count j hjl
        omega
      · rw [h.stack_eq_nil hl, hj]
        exact Option.some_ne_none j

theorem cons_append_eq_dropLast {b : Nat} {pre : List Nat} (rest : List Nat) :
    b :: pre ++ rest = (b :: pre).dropLast ++ (b :: pre).getLast (List.cons_ne_nil b pre) :: rest := by
  conv_lhs => rw [← List.dropLast_concat_getLast (List.cons_ne_nil b pre)]
  rw [List.append_assoc, List.singleton_append]

theorem Chain.bypass (hs : s.Sound) {A post : List Nat} {i p m : Nat}
    (h : Chain s t i (A ++ p :: m :: post)) (hnd : (A ++ p :: m :: post).Nodup)
    (hv : nextAt s t m ≤ s.notFound) :
    Chain s (writeNext s t p (nextAt s t m)) i (A ++ p :: post) := by
  induction A generalizing i with
  | nil =>
      obtain ⟨_, he, hp, hr⟩ := h.cons_inv (List.cons_ne_nil _ _)
      obtain ⟨rfl, rfl⟩ := List.cons.inj he
      obtain ⟨_, he, -, hpost⟩ := hr.cons_inv (List.cons_ne_nil _ _)
      obtain ⟨rfl, rfl⟩ := List.cons.inj he
      have hpr : p ∉ post := fun hj => (List.nodup_cons.1 hnd).1 (List.mem_cons_of_mem _ hj)
      refine .cons hp ?_
      rw [nextAt_writeNext hs hv]
      exact hpost.frame le_rfl fun j hj => nextAt_writeNext_of_ne hs fun e => hpr (e ▸ hj)
  | cons a A ih =>
      obtain ⟨_, he, ha, hr⟩ := h.cons_inv (List.cons_ne_nil _ _)
      obtain ⟨rfl, rfl⟩ := List.cons.inj he
      have hap : a ≠ p := fun e => (List.nodup_cons.1 hnd).1 (by simp [e])
      refine .cons ha ?_
      rw [nextAt_writeNext_of_ne hs hap]
      exact ih hr (List.nodup_cons.1 hnd).2

theorem Chain.bypass_last (hs : s.Sound) (h : Linked s t) {i b m : Nat} {pre post : List Nat}
    (hl : Chain s t i (b :: pre ++ m :: post)) :
    Chain s (writeNext s t ((b :: pre).getLast (List.cons_ne_nil _ _)) (nextAt s t m)) i
      (b :: pre ++ post) := by
  have hm : m < t.count := hl.lt_count m (by simp)
  have hv : nextAt s t m ≤ s.notFound := by
    rcases h.next m hm with hn | ⟨hlt, -⟩ <;> have := h.count_le <;> omega
  have hnd := (h.pairwise hl).imp ne_of_gt
  rw [cons_append_eq_dropLast] at hl hnd ⊢
  exact hl.bypass hs hnd hv

theorem Refines.unlink_of_nil (h : Refines s σ t) {key : Key s.keySize} (hnil : σ key = []) :
    RecordHashTable.unlink s t key = pure (false, t) ∨
      readBucketValue s t key = s.notFound ∧
        RecordHashTable.unlink s t key = throw (.unallocated s.notFound) := by
  obtain ⟨l, hl, -, -, -⟩ := h.linked.bucket_chain key
  have hnone : ∀ j ∈ l, keyAt s t j ≠ key.bytes := stackOn_eq_nil.1 ((h.stack key l hl).trans hnil)
  rcases eq_or_ne l [] with rfl | hne
  · exact .inr ⟨hl.nil_inv, unlink_of_empty key hl.nil_inv h.linked.count_le⟩
  rcases h.linked.unlink_cases hl hne with ⟨-, he⟩ | ⟨post, rfl, hk, -⟩ | ⟨pre, m, post, rfl, -, hm, -⟩
  · exact .inl he
  · exact absurd hk (hnone _ (List.mem_cons_self _ _))
  · exact absurd hm (hnone m (by simp))

theorem readBucketValue_of_bucket {key key' : Key s.keySize}
    (hb : bucketIndex s key' = bucketIndex s key) : readBucketValue s t key' = readBucketValue s t key := by
  rw [readBucketValue, readBucketValue, hb]

theorem Refines.unlink_head (hs : s.Sound) (h : Refines s σ t) {key : Key s.keySize}
    {post : List Nat} (hl : Chain s t (readBucketValue s t key) (readBucketValue s t key :: post))
    (hk : keyAt s t (readBucketValue s t key) = key.bytes)
    (he : RecordHashTable.unlink s t key =
      pure (true, link s t key (nextAt s t (readBucketValue s t key)))) :
    Refines s (σ.unlink key) (link s t key (nextAt s t (readBucketValue s t key))) := by
  refine ⟨h.linked.unlink hs he, fun key' l' hl' => ?_⟩
  obtain ⟨_, hpe, -, hpost⟩ := hl.cons_inv (List.cons_ne_nil _ _)
  obtain ⟨-, rfl⟩ := List.cons.inj hpe
  have hl'' : Chain s t
      (readBucketValue s (link s t key (nextAt s t (readBucketValue s t key))) key') l' :=
    hl'.frame le_rfl fun _ _ => rfl
  change stackOn s t key' l' = _
  by_cases hb : bucketIndex s key' = bucketIndex s key
  · rw [show readBucketValue s (link s t key (nextAt s t (readBucketValue s t key))) key' =
        nextAt s t (readBucketValue s t key) by
      simp [readBucketValue, link, HashTableHeader.read, HashTableHeader.write, hb]] at hl''
    rw [hl''.unique h.linked.count_le hpost]
    have hσ : stackOn s t key' (readBucketValue s t key :: post) = σ key' :=
      h.stack key' _ (by rw [readBucketValue_of_bucket hb]; exact hl)
    by_cases hk' : key' = key
    · subst hk'
      simp [Stacks.unlink, ← hσ, stackOn_cons_of_eq hk]
    · simp [Stacks.unlink, hk', ← hσ,
        stackOn_cons_of_ne fun e => hk' (Key.bytes_inj.1 (e.symm.trans hk))]
  · rw [show readBucketValue s (link s t key (nextAt s t (readBucketValue s t key))) key' =
        readBucketValue s t key' by
      simp [readBucketValue, link, HashTableHeader.read, HashTableHeader.write, hb]] at hl''
    have hk' : key' ≠ key := fun e => hb (e ▸ rfl)
    rw [h.stack key' l' hl'']
    simp [Stacks.unlink, hk']

theorem Refines.unlink_relink (hs : s.Sound) (h : Refines s σ t) {key : Key s.keySize}
    {pre post : List Nat} {m : Nat}
    (hl : Chain s t (readBucketValue s t key) (readBucketValue s t key :: pre ++ m :: post))
    (hhome : ∀ j ∈ readBucketValue s t key :: pre ++ m :: post, home s t j = bucketIndex s key)
    (hpre : ∀ j ∈ readBucketValue s t key :: pre, keyAt s t j ≠ key.bytes)
    (hm : keyAt s t m = key.bytes)
    (he : RecordHashTable.unlink s t key = pure (true, writeNext s t
      ((readBucketValue s t key :: pre).getLast (List.cons_ne_nil _ _)) (nextAt s t m))) :
    Refines s (σ.unlink key) (writeNext s t
      ((readBucketValue s t key :: pre).getLast (List.cons_ne_nil _ _)) (nextAt s t m)) := by
  obtain ⟨p, hpdef⟩ : ∃ p, (readBucketValue s t key :: pre).getLast (List.cons_ne_nil _ _) = p :=
    ⟨_, rfl⟩
  rw [hpdef] at he ⊢
  refine ⟨h.linked.unlink hs he, fun key' l' hl' => ?_⟩
  have hsame : ∀ l, stackOn s (writeNext s t p (nextAt s t m)) key' l = stackOn s t key' l :=
    fun _ => stackOn_congr (fun _ _ => keyAt_writeNext hs) fun _ _ _ => valueAt_writeNext hs
  have hcount : (writeNext s t p (nextAt s t m)).count ≤ s.notFound := h.linked.count_le
  rw [hsame]
  by_cases hb : bucketIndex s key' = bucketIndex s key
  · have hnew : Chain s (writeNext s t p (nextAt s t m)) (readBucketValue s t key)
        (readBucketValue s t key :: pre ++ post) := hpdef ▸ hl.bypass_last hs h.linked
    have hl2 : Chain s (writeNext s t p (nextAt s t m)) (readBucketValue s t key) l' := by
      rw [← readBucketValue_of_bucket hb]
      exact hl'
    rw [hl2.unique hcount hnew]
    have hσ : stackOn s t key' (readBucketValue s t key :: pre ++ m :: post) = σ key' :=
      h.stack key' _ (by rw [readBucketValue_of_bucket hb]; exact hl)
    by_cases hk' : key' = key
    · subst hk'
      rw [stackOn_remove_self hpre hm, hσ]
      simp [Stacks.unlink]
    · rw [stackOn_remove_other hm hk', hσ]
      simp [Stacks.unlink, hk']
  · obtain ⟨lk, hlk, -, hhk, -⟩ := h.linked.bucket_chain key'
    have hpl : p ∈ readBucketValue s t key :: pre ++ m :: post :=
      hpdef ▸ List.mem_append_left _ (List.getLast_mem _)
    have hpk : p ∉ lk := fun hplk => hb ((hhk p hplk).symm.trans (hhome p hpl))
    have hk' : key' ≠ key := fun e => hb (e ▸ rfl)
    rw [hl'.unique hcount (hlk.frame le_rfl fun j hj => nextAt_writeNext_of_ne hs fun e => hpk (e ▸ hj)),
      h.stack key' lk hlk]
    simp [Stacks.unlink, hk']

theorem Refines.unlink (hs : s.Sound) (h : Refines s σ t) (key : Key s.keySize)
    (hne : σ key ≠ []) :
    ∃ t', RecordHashTable.unlink s t key = pure (true, t') ∧ Refines s (σ.unlink key) t' := by
  obtain ⟨l, hl, -, hhome, -⟩ := h.linked.bucket_chain key
  have hstack := h.stack key l hl
  have hl0 : l ≠ [] := by
    rintro rfl
    exact hne hstack.symm
  rcases h.linked.unlink_cases hl hl0 with ⟨hnone, -⟩ | ⟨post, rfl, hk, he⟩ |
      ⟨pre, m, post, rfl, hpre, hm, he⟩
  · exact absurd (hstack ▸ stackOn_eq_nil.2 hnone) hne
  · exact ⟨_, he, h.unlink_head hs hl hk he⟩
  · exact ⟨_, he, h.unlink_relink hs hl hhome hpre hm he⟩

/-! Runs: the table and the stacks step together. -/

def Op.Exact (s : Shape) : Op s.keySize → Prop
  | .store _ write | .update _ write => write.length = s.valueSize
  | .unlink _ => True

/-- The stacks and the table that a run reaches from the empty stacks and a freshly created
table, one writer call at a time: each writer writes exactly value_size bytes, each call
returns, and no allocation reaches not_found. -/
inductive RunsWith (s : Shape) : Stacks s.keySize → Table → Prop
  | create (memory : Memory) : RunsWith s Stacks.empty (create s memory)
  | step {σ : Stacks s.keySize} {t t' : Table} (op : Op s.keySize) : RunsWith s σ t →
      op.Exact s → Op.run s t op = pure t' → t'.count ≤ s.notFound → RunsWith s (σ.step op) t'

theorem RunsWith.refines (hs : s.Sound) (h : RunsWith s σ t) : Refines s σ t := by
  induction h with
  | create memory => exact refines_create memory
  | @step σ t t' op _ hexact hrun hc ih =>
      cases op with
      | store key write =>
          rw [Op.run, store_eq] at hrun
          cases hrun
          obtain ⟨t'', hst, hr⟩ := ih.store hs key (by simp at hc; omega) hexact
          rw [store_eq] at hst
          cases hst
          exact hr
      | update key write =>
          obtain ⟨r, t'', hu, -, hr⟩ := ih.update hs key hexact
          rw [Op.run, hu] at hrun
          cases hrun
          exact hr
      | unlink key =>
          by_cases hnil : σ key = []
          · have hσ : σ.unlink key = σ := Function.update_eq_self_iff.2 (by rw [hnil]; rfl)
            rcases ih.unlink_of_nil hnil with hu | ⟨-, hu⟩ <;> rw [Op.run, hu] at hrun <;> cases hrun
            show Refines s (σ.unlink key) t
            rwa [hσ]
          · obtain ⟨t'', hu, hr⟩ := ih.unlink hs key hnil
            rw [Op.run, hu] at hrun
            cases hrun
            exact hr

/-- What the table answers for `key` agrees with the key's stack: find points to the bytes of
the top and is null on an empty stack, update reports not_found exactly on an empty stack,
and unlink returns true on a non-empty stack, and false with nothing written on an empty
stack whose bucket is not empty. -/
structure Answers (s : Shape) (σ : Stacks s.keySize) (t : Table) (key : Key s.keySize) : Prop where
  find_top : Option.map (fun address => readBytes t.memory address s.valueSize) <$> find s t key =
    pure (σ key).head?
  update_reports : ∀ write : List UInt8, write.length = s.valueSize →
    ∃ r t', update s t key write = pure (r, t') ∧ (r = s.notFound ↔ σ key = [])
  unlink_pops : σ key ≠ [] → ∃ t', unlink s t key = pure (true, t')
  unlink_absent : σ key = [] → readBucketValue s t key ≠ s.notFound →
    unlink s t key = pure (false, t)

theorem Refines.answers (hs : s.Sound) (h : Refines s σ t) (key : Key s.keySize) :
    Answers s σ t key := by
  obtain ⟨l, hl, -, -, -⟩ := h.linked.bucket_chain key
  refine ⟨?_, fun write hw => ?_, fun hne => ?_, fun hnil hb => ?_⟩
  · rw [h.linked.find_eq hl, ← h.stack key l hl, head?_stackOn]
    simp only [map_pure, Option.map_map]
    rfl
  · obtain ⟨r, t', hu, hr, -⟩ := h.update hs key hw
    exact ⟨r, t', hu, hr⟩
  · obtain ⟨t', hu, -⟩ := h.unlink hs key hne
    exact ⟨t', hu⟩
  · exact (h.unlink_of_nil hnil).resolve_right fun he => hb he.1

/-- On a sound shape the table refines the stacks along every run: after each step, find,
update and unlink of every key answer as the key's stack does, whichever keys share a
bucket. -/
theorem runsWith_answers (hs : s.Sound) (h : RunsWith s σ t) (key : Key s.keySize) :
    Answers s σ t key :=
  (h.refines hs).answers hs key

theorem colliding_stores_answer :
    ∃ σ t, RunsWith (rowSized 4 4 100 2) σ t ∧ σ ⟨[222, 173, 190, 239], rfl⟩ = [[42, 24]] ∧
      bucketIndex (rowSized 4 4 100 2) ⟨[222, 173, 190, 239], rfl⟩ =
        bucketIndex (rowSized 4 4 100 2) ⟨[122, 173, 190, 239], rfl⟩ ∧
      Answers (rowSized 4 4 100 2) σ t ⟨[222, 173, 190, 239], rfl⟩ := by
  have h₀ : RunsWith (rowSized 4 4 100 2) _ _ := .create fun _ => 0
  have h₁ := RunsWith.step (.store ⟨[222, 173, 190, 239], rfl⟩ [42, 24]) h₀ rfl rfl (by decide)
  have h₂ := RunsWith.step (.store ⟨[122, 173, 190, 239], rfl⟩ [44, 45]) h₁ rfl rfl (by decide)
  exact ⟨_, _, h₂, by decide, by decide, runsWith_answers (rowSized_sound 4 4 100 2) h₂ _⟩

/-- offset returns record_row::offset, the record's index plus prefix_size: for the second
record of a table that is neither the address of its value, which find returns, nor the
record's index times the row size plus prefix_size. -/
theorem offset_is_index_plus_prefix :
    ∃ t, runOps (recordHashTable 4 4 4 100 2) (create (recordHashTable 4 4 4 100 2) fun _ => 0)
        [.store ⟨[222, 173, 190, 239], rfl⟩ [42, 24], .store ⟨[186, 173, 190, 239], rfl⟩ [44, 45]] =
        pure t ∧
      Reachable (recordHashTable 4 4 4 100 2) t ∧
      find (recordHashTable 4 4 4 100 2) t ⟨[186, 173, 190, 239], rfl⟩ = pure (some 10) ∧
      offset (recordHashTable 4 4 4 100 2) t ⟨[186, 173, 190, 239], rfl⟩ = pure 9 ∧
      1 * RecordRow.size (recordHashTable 4 4 4 100 2) (recordHashTable 4 4 4 100 2).valueSize +
        (recordHashTable 4 4 4 100 2).prefixSize = 18 := by
  refine ⟨_, rfl, @Reachable.runOps _ _ _
    [.store ⟨[222, 173, 190, 239], rfl⟩ [42, 24], .store ⟨[186, 173, 190, 239], rfl⟩ [44, 45]]
    (.create _) ?_ rfl (by decide),
    find_of_head 1 (by decide) (by decide) (by decide) (by decide),
    offset_of_head 1 (by decide) (by decide) (by decide) (by decide), rfl⟩
  simp [Op.Fits, recordHashTable]

/-- Storing one key `n` times from a fresh table, for any `n` up to not_found, is a run. -/
theorem runsWith_stores (s : Shape) (memory : Memory) (key : Key s.keySize) (write : List UInt8)
    (hw : write.length = s.valueSize) :
    ∀ n ≤ s.notFound, ∃ σ t, RunsWith s σ t ∧ t.count = n := by
  intro n
  induction n with
  | zero => exact fun _ => ⟨_, _, .create memory, rfl⟩
  | succ n ih =>
      intro hn
      obtain ⟨σ, t, ht, rfl⟩ := ih (by omega)
      exact ⟨_, _, .step (.store key write) ht hw (congrArg (Prod.snd <$> ·) (store_eq key write))
        (by simpa using hn), rfl⟩

/-- On a row-sized shape, the store that allocates record not_found links not_found into its
bucket: the key's stack holds the value and find of the key is null. -/
theorem lifo_fails_at_capacity :
    ∃ σ t, RunsWith (rowSized 4 4 100 2) σ t ∧ ∃ t',
      store (rowSized 4 4 100 2) t ⟨[222, 173, 190, 239], rfl⟩ [42, 24] =
        pure ((rowSized 4 4 100 2).notFound, t') ∧
      σ.store ⟨[222, 173, 190, 239], rfl⟩ [42, 24] ⟨[222, 173, 190, 239], rfl⟩ ≠ [] ∧
      find (rowSized 4 4 100 2) t' ⟨[222, 173, 190, 239], rfl⟩ = pure none := by
  obtain ⟨σ, t, hrun, hc⟩ := runsWith_stores (rowSized 4 4 100 2) (fun _ => 0)
    ⟨[222, 173, 190, 239], rfl⟩ [42, 24] rfl _ le_rfl
  refine ⟨σ, t, hrun, _, hc ▸ store_eq _ _, by simp [Stacks.store], ?_⟩
  simp [find, readBucketValue, HashTableHeader.read, hc, seek_sentinel]

end RecordHashTable
end BitcoinDatabase
