import BitcoinDatabase.Refinement

/-!
The records the buckets reach, along runs. A record is live when a bucket's walk reaches it:
store makes its new record live, and unlink takes one record off the walks. On a sound shape no
operation writes a record that no walk reaches or makes it live again, so a record unlink takes
out stays allocated, unreachable and with the bytes unlink left it for the rest of every run.
-/

namespace BitcoinDatabase
namespace RecordHashTable

open RecordRow

/-- The records the buckets reach: a bucket's first link, and the next link of a record they
reach, each while it names an allocated record. -/
inductive Live (s : Shape) (t : Table) : Nat → Prop
  | bucket (b : Nat) : t.header b < t.count → Live s t (t.header b)
  | next {j : Nat} : Live s t j → nextAt s t j < t.count → Live s t (nextAt s t j)

variable {s : Shape} {t t' : Table} {j : Nat}

theorem Live.lt_count (h : Live s t j) : j < t.count := by
  cases h <;> assumption

theorem Chain.live_of_head {i : Nat} {l : List Nat} (h : Chain s t i l) :
    (l ≠ [] → Live s t i) → ∀ j ∈ l, Live s t j := by
  induction h with
  | last => simp
  | cons _ hrest ih =>
      intro hi
      have hi := hi (List.cons_ne_nil _ _)
      simp only [List.mem_cons, forall_eq_or_imp]
      refine ⟨hi, ih fun hne => ?_⟩
      obtain ⟨_, -, hlt, -⟩ := hrest.cons_inv hne
      exact hi.next hlt

theorem Chain.live_bucket {b : Nat} {l : List Nat} (h : Chain s t (t.header b) l) :
    ∀ j ∈ l, Live s t j :=
  h.live_of_head fun hne => by
    obtain ⟨_, -, hlt, -⟩ := h.cons_inv hne
    exact .bucket b hlt

theorem Live.mem_walk (hL : Linked s t) (h : Live s t j) :
    ∃ l, Chain s t (t.header (home s t j)) l ∧ j ∈ l := by
  have hc := hL.count_le
  induction h with
  | bucket b hlt =>
      obtain ⟨l, hl, -, -⟩ := hL.chain_header b
      obtain ⟨rest, rfl, -, -⟩ := hl.cons_inv fun he => by
        have := (he ▸ hl).nil_inv
        omega
      rcases hL.header b with hn | ⟨-, hh⟩
      · omega
      · rw [hh]
        exact ⟨_, hl, List.mem_cons_self _ _⟩
  | @next j hj hlt ih =>
      obtain ⟨l, hl, hjl⟩ := ih
      obtain ⟨A, B, rfl, hB⟩ := hl.split hjl
      obtain ⟨B', rfl, -, -⟩ := hB.cons_inv fun he => by
        have := (he ▸ hB).nil_inv
        omega
      rcases hL.next j hj.lt_count with hn | ⟨-, hh⟩
      · omega
      · rw [hh]
        exact ⟨_, hl, by simp⟩

theorem live_iff_of_links (hL : Linked s t) (hc : t.count ≤ t'.count)
    (hc' : t'.count ≤ s.notFound) (hh : ∀ b, t'.header b = t.header b)
    (hn : ∀ i, Live s t i → nextAt s t' i = nextAt s t i) : Live s t' j ↔ Live s t j := by
  constructor
  · intro h
    induction h with
    | bucket b hlt =>
        rw [hh] at hlt ⊢
        rcases hL.header b with he | ⟨hb, -⟩
        · omega
        · exact .bucket b hb
    | @next i _ hlt ih =>
        rw [hn i ih] at hlt ⊢
        rcases hL.next i ih.lt_count with he | ⟨hi, -⟩
        · omega
        · exact ih.next (hi.trans ih.lt_count)
  · intro h
    induction h with
    | bucket b hlt => exact hh b ▸ .bucket b ((hh b).symm ▸ hlt.trans_le hc)
    | @next i hi hlt ih => exact hn i hi ▸ ih.next ((hn i hi).symm ▸ hlt.trans_le hc)

/-- What a step from `t` to `t'` does to the records no walk of `t` reaches: it makes none of
them live, and keeps every byte of each. -/
structure LeavesDead (s : Shape) (t t' : Table) : Prop where
  count_le : t.count ≤ t'.count
  live : ∀ j, Live s t' j → Live s t j ∨ t.count ≤ j
  frozen : ∀ j < t.count, ¬ Live s t j → SameRecord s t.memory t'.memory j

theorem SameRecord.trans {m₁ m₂ m₃ : Memory} (h₁ : SameRecord s m₁ m₂ j)
    (h₂ : SameRecord s m₂ m₃ j) : SameRecord s m₁ m₃ j :=
  fun x hx₁ hx₂ => (h₂ x hx₁ hx₂).trans (h₁ x hx₁ hx₂)

theorem LeavesDead.refl : LeavesDead s t t :=
  ⟨le_rfl, fun _ h => .inl h, fun _ _ _ _ _ _ => rfl⟩

theorem LeavesDead.dead (h : LeavesDead s t t') (hj : j < t.count) (hd : ¬ Live s t j) :
    ¬ Live s t' j := fun hl => (h.live j hl).elim hd (by omega)

theorem LeavesDead.trans {t'' : Table} (h : LeavesDead s t t') (h' : LeavesDead s t' t'') :
    LeavesDead s t t'' := by
  refine ⟨h.count_le.trans h'.count_le, fun j hj => ?_, fun j hj hd =>
    (h.frozen j hj hd).trans (h'.frozen j (hj.trans_le h.count_le) (h.dead hj hd))⟩
  rcases h'.live j hj with hj | hj
  · exact h.live j hj
  · exact .inr (h.count_le.trans hj)

section Steps

variable (hs : s.Sound) (hL : Linked s t)
include hs hL

theorem leavesDead_store {key : Key s.keySize} {write : List UInt8} {i : Nat}
    (hst : store s t key write = pure (i, t')) (hw : write.length ≤ s.valueSize) :
    LeavesDead s t t' := by
  obtain ⟨-, hcount, hheader⟩ := store_count hst
  have same : ∀ j < t.count, SameRecord s t.memory t'.memory j :=
    fun j hj => store_sameRecord hst hs hw (by omega)
  have hv : t.header (bucketIndex s key) ≤ s.notFound := by
    rcases hL.header (bucketIndex s key) with hn | ⟨hlt, -⟩ <;> have := hL.count_le <;> omega
  refine ⟨by omega, fun j hj => ?_, fun j hj _ => same j hj⟩
  induction hj with
  | bucket b =>
      rw [hheader]
      by_cases hb : b = bucketIndex s key
      · subst hb
        exact .inr (by rw [Function.update_same])
      · rw [Function.update_noteq hb]
        exact (Nat.lt_or_ge _ t.count).imp_left (.bucket b)
  | @next j hj _ ih =>
      rcases ih with ih | ih
      · rw [nextAt_congr hs (same j ih.lt_count)]
        exact (Nat.lt_or_ge _ t.count).imp_left ih.next
      · obtain rfl : j = t.count := by have := hj.lt_count; omega
        rw [store_nextAt hst hs hv]
        exact (Nat.lt_or_ge _ t.count).imp_left (.bucket _)

theorem leavesDead_update {key : Key s.keySize} {write : List UInt8} {r : Nat}
    (hu : update s t key write = pure (r, t')) (hw : write.length ≤ s.valueSize) :
    LeavesDead s t t' := by
  obtain ⟨l, hl, -, -, -⟩ := hL.bucket_chain key
  rw [hL.update_eq hl] at hu
  cases hj : l.find? fun j => keyAt s t j == key.bytes with
  | none =>
      rw [hj] at hu
      cases hu
      exact .refl
  | some j =>
      rw [hj] at hu
      obtain ⟨-, rfl⟩ := Prod.mk.inj (Except.ok.inj hu)
      have hjl := hl.live_bucket j (List.mem_of_find?_eq_some hj)
      have hiff : ∀ i, Live s (writeValue s t j write) i ↔ Live s t i := fun i =>
        live_iff_of_links hL le_rfl hL.count_le (fun _ => rfl) fun _ _ => nextAt_writeValue hs hw
      exact ⟨le_rfl, fun i hi => .inl ((hiff i).1 hi),
        fun i _ hd => sameRecord_writeValue hs hw fun e => hd (e ▸ hjl)⟩

theorem leavesDead_unlink {key : Key s.keySize} {r : Bool}
    (hu : unlink s t key = pure (r, t')) : LeavesDead s t t' := by
  obtain ⟨l, hl, -, -, -⟩ := hL.bucket_chain key
  rcases eq_or_ne l [] with rfl | hne
  · rw [unlink_of_empty key hl.nil_inv hL.count_le] at hu
    cases hu
  have hlive := hl.live_bucket
  rcases hL.unlink_cases hl hne with ⟨-, he⟩ | ⟨post, rfl, -, he⟩ |
      ⟨pre, m, post, rfl, -, -, he⟩ <;> rw [he] at hu <;> cases hu
  · exact .refl
  · have hm := hlive _ (List.mem_cons_self _ _)
    refine ⟨le_rfl, fun j hj => .inl ?_, fun _ _ _ _ _ _ => rfl⟩
    induction hj with
    | bucket b hlt =>
        simp only [link, HashTableHeader.write] at hlt ⊢
        by_cases hb : b = bucketIndex s key
        · subst hb
          rw [Function.update_same] at hlt ⊢
          exact hm.next hlt
        · rw [Function.update_noteq hb] at hlt ⊢
          exact .bucket b hlt
    | next _ hlt ih => exact ih.next hlt
  · have hp := hlive _ (List.mem_append_left _
      (List.getLast_mem (List.cons_ne_nil (readBucketValue s t key) pre)))
    have hm := hlive m (by simp)
    have hv : nextAt s t m ≤ s.notFound := by
      have := hm.lt_count
      rcases hL.next m this with hn | ⟨hlt, -⟩ <;> have := hL.count_le <;> omega
    refine ⟨le_rfl, fun j hj => .inl ?_, fun j _ hd => sameRecord_writeNext hs fun e => hd (e ▸ hp)⟩
    induction hj with
    | bucket b hlt => exact .bucket b hlt
    | @next j _ hlt ih =>
        by_cases hj : j = (readBucketValue s t key :: pre).getLast (List.cons_ne_nil _ _)
        · rw [hj, nextAt_writeNext hs hv] at hlt ⊢
          exact hm.next hlt
        · rw [nextAt_writeNext_of_ne hs hj] at hlt ⊢
          exact ih.next hlt

end Steps

theorem LeavesDead.op (hs : s.Sound) (h : Reachable s t) {op : Op s.keySize} (hfit : op.Fits s)
    (hop : Op.run s t op = pure t') : LeavesDead s t t' := by
  have hL := h.linked hs
  rcases Op.run_cases hop with ⟨_, _, _, rfl, hr⟩ | ⟨_, _, _, rfl, hr⟩ | ⟨_, _, rfl, hr⟩
  exacts [leavesDead_store hs hL hr hfit, leavesDead_update hs hL hr hfit,
    leavesDead_unlink hs hL hr]

theorem LeavesDead.run (hs : s.Sound) (h : Reachable s t) {ops : List (Op s.keySize)}
    (hfit : ∀ op ∈ ops, op.Fits s) (hrun : runOps s t ops = pure t') (hc : t'.count ≤ s.notFound) :
    LeavesDead s t t' := by
  induction ops generalizing t with
  | nil =>
      cases hrun
      exact .refl
  | cons op ops ih =>
      obtain ⟨t₁, hop, hrest⟩ := bind_eq_pure hrun
      have hfit₁ := hfit op (List.mem_cons_self _ _)
      exact (LeavesDead.op hs h hfit₁ hop).trans
        (ih (.step op h hfit₁ hop ((runOps_count hrest).trans hc))
          (fun o ho => hfit o (List.mem_cons_of_mem _ ho)) hrest)

/-- On a sound shape, along every run from a reachable state that stays within capacity, every
record the walks reach at the end was reached at the start or allocated since, and a record no
walk reached at the start is reached by none at the end and has kept every byte. -/
theorem unreached_records_stay_frozen (hs : s.Sound) (h : Reachable s t)
    {ops : List (Op s.keySize)} (hfit : ∀ op ∈ ops, op.Fits s) (hrun : runOps s t ops = pure t')
    (hc : t'.count ≤ s.notFound) :
    (∀ j, Live s t' j → Live s t j ∨ t.count ≤ j) ∧
      ∀ j < t.count, ¬ Live s t j → ¬ Live s t' j ∧ SameRecord s t.memory t'.memory j := by
  have hd := LeavesDead.run hs h hfit hrun hc
  exact ⟨hd.live, fun j hj hn => ⟨hd.dead hj hn, hd.frozen j hj hn⟩⟩

theorem unlinked_then_stored_frozen :
    ∃ t t', runOps (rowSized 4 4 100 2) (create (rowSized 4 4 100 2) fun _ => 0)
        [.store ⟨[222, 173, 190, 239], rfl⟩ [42, 24], .unlink ⟨[222, 173, 190, 239], rfl⟩] =
        pure t ∧
      Reachable (rowSized 4 4 100 2) t ∧
      runOps (rowSized 4 4 100 2) t [.store ⟨[222, 173, 190, 239], rfl⟩ [44, 45]] = pure t' ∧
      (∀ j, Live (rowSized 4 4 100 2) t' j → Live (rowSized 4 4 100 2) t j ∨ t.count ≤ j) ∧
      ∀ j < t.count, ¬ Live (rowSized 4 4 100 2) t j →
        ¬ Live (rowSized 4 4 100 2) t' j ∧ SameRecord (rowSized 4 4 100 2) t.memory t'.memory j := by
  have hr := @Reachable.runOps (rowSized 4 4 100 2) _ _
    [.store ⟨[222, 173, 190, 239], rfl⟩ [42, 24], .unlink ⟨[222, 173, 190, 239], rfl⟩]
    (.create fun _ => 0) (by simp [Op.Fits, rowSized, recordHashTable]) rfl (by decide)
  exact ⟨_, _, rfl, hr, rfl, unreached_records_stay_frozen (rowSized_sound 4 4 100 2) hr
    (by simp [Op.Fits, rowSized, recordHashTable])
    (by rfl : runOps _ _ [.store ⟨[222, 173, 190, 239], rfl⟩ [44, 45]] = _) (by decide)⟩

/-- What an unlink that finds the key does on a well-formed table: the first record of the
key's walk that holds the key leaves the walk with every byte it had, the rest of the walk stays
in order, and nothing is freed. -/
theorem unlink_removes (hs : s.Sound) (hL : Linked s t) {key : Key s.keySize} {t₁ : Table}
    (hu : unlink s t key = pure (true, t₁)) :
    ∃ pre m post, Chain s t (readBucketValue s t key) (pre ++ m :: post) ∧
      (∀ j ∈ pre, keyAt s t j ≠ key.bytes) ∧ keyAt s t m = key.bytes ∧
      Chain s t₁ (readBucketValue s t₁ key) (pre ++ post) ∧ home s t₁ m = bucketIndex s key ∧
      SameRecord s t.memory t₁.memory m ∧ t₁.count = t.count := by
  obtain ⟨l, hl, -, hhome, -⟩ := hL.bucket_chain key
  rcases eq_or_ne l [] with rfl | hne
  · rw [unlink_of_empty key hl.nil_inv hL.count_le] at hu
    cases hu
  rcases hL.unlink_cases hl hne with ⟨-, he⟩ | ⟨post, rfl, hk, he⟩ |
      ⟨pre, m, post, rfl, hpre, hm, he⟩ <;> rw [he] at hu <;> cases hu
  · refine ⟨[], _, post, hl, by simp, hk, ?_, hhome _ (List.mem_cons_self _ _), fun _ _ _ => rfl, rfl⟩
    rw [readBucketValue_link]
    exact (Chain.suffix (A := []) hl).frame le_rfl fun _ _ => rfl
  · have hnd := List.nodup_append.1 (hl.nodup hL.count_le)
    refine ⟨_ :: pre, m, post, hl, hpre, hm, hl.bypass_last hs hL,
      (home_writeNext hs).trans (hhome m (by simp)),
      sameRecord_writeNext hs fun e => hnd.2.2 (e ▸ List.getLast_mem _) (List.mem_cons_self m post),
      rfl⟩

theorem unlink_kills (hs : s.Sound) (hL : Linked s t) {key : Key s.keySize} {t₁ : Table}
    (hu : unlink s t key = pure (true, t₁)) :
    ∃ pre m post, Chain s t (readBucketValue s t key) (pre ++ m :: post) ∧
      (∀ j ∈ pre, keyAt s t j ≠ key.bytes) ∧ keyAt s t m = key.bytes ∧ m < t₁.count ∧
      Live s t m ∧ ¬ Live s t₁ m ∧ SameRecord s t.memory t₁.memory m := by
  obtain ⟨pre, m, post, hl, hpre, hm, hl₁, hhome, hsame, hcount⟩ := unlink_removes hs hL hu
  have hL₁ := hL.unlink hs hu
  refine ⟨pre, m, post, hl, hpre, hm, hcount ▸ hl.lt_count m (by simp), hl.live_bucket m (by simp),
    fun hlive => ?_, hsame⟩
  obtain ⟨l, hl', hml⟩ := hlive.mem_walk hL₁
  rw [hhome] at hl'
  rw [hl'.unique hL₁.count_le hl₁] at hml
  exact (List.nodup_cons.1 (List.nodup_middle.1 (hl.nodup hL.count_le))).1 hml

theorem Reachable.of_unlink (hs : s.Sound) (h : Reachable s t) {key : Key s.keySize} {r : Bool}
    {t₁ : Table} (hu : unlink s t key = pure (r, t₁)) : Reachable s t₁ :=
  .step (.unlink key) h trivial (by simp only [Op.run, hu]; rfl) ((h.linked hs).unlink hs hu).count_le

/-- unlink never frees the record it takes out: the first record of the key's walk that holds
the key, live before, stays allocated and reached by no walk for the rest of every run within
capacity, with every byte it had before unlink. -/
theorem unlinked_record_stays_leaked (hs : s.Sound) (h : Reachable s t) {key : Key s.keySize}
    {t₁ : Table} (hu : unlink s t key = pure (true, t₁)) :
    ∃ pre m post, Chain s t (readBucketValue s t key) (pre ++ m :: post) ∧
      (∀ j ∈ pre, keyAt s t j ≠ key.bytes) ∧ keyAt s t m = key.bytes ∧ Live s t m ∧
      ∀ ops t', (∀ op ∈ ops, op.Fits s) → runOps s t₁ ops = pure t' → t'.count ≤ s.notFound →
        m < t'.count ∧ ¬ Live s t' m ∧ SameRecord s t.memory t'.memory m := by
  obtain ⟨pre, m, post, hl, hpre, hm, hmc, hlive, hdead, hsame⟩ := unlink_kills hs (h.linked hs) hu
  refine ⟨pre, m, post, hl, hpre, hm, hlive, fun ops t' hfit hrun hc => ?_⟩
  have hd := LeavesDead.run hs (h.of_unlink hs hu) hfit hrun hc
  exact ⟨hmc.trans_le hd.count_le, hd.dead hmc hdead, hsame.trans (hd.frozen m hmc hdead)⟩

theorem unlinked_colliding_record_leaked :
    ∃ t t₁, runOps (rowSized 4 4 100 2) (create (rowSized 4 4 100 2) fun _ => 0)
        [.store ⟨[222, 173, 190, 239], rfl⟩ [42, 24], .store ⟨[122, 173, 190, 239], rfl⟩ [44, 45]] =
        pure t ∧
      Reachable (rowSized 4 4 100 2) t ∧
      unlink (rowSized 4 4 100 2) t ⟨[222, 173, 190, 239], rfl⟩ = pure (true, t₁) ∧
      ∃ pre m post, Chain (rowSized 4 4 100 2) t
          (readBucketValue (rowSized 4 4 100 2) t ⟨[222, 173, 190, 239], rfl⟩) (pre ++ m :: post) ∧
        (∀ j ∈ pre, keyAt (rowSized 4 4 100 2) t j ≠ [222, 173, 190, 239]) ∧
        keyAt (rowSized 4 4 100 2) t m = [222, 173, 190, 239] ∧ Live (rowSized 4 4 100 2) t m ∧
        ∀ ops t', (∀ op ∈ ops, op.Fits (rowSized 4 4 100 2)) →
          runOps (rowSized 4 4 100 2) t₁ ops = pure t' → t'.count ≤ (rowSized 4 4 100 2).notFound →
          m < t'.count ∧ ¬ Live (rowSized 4 4 100 2) t' m ∧
            SameRecord (rowSized 4 4 100 2) t.memory t'.memory m := by
  have hr := @Reachable.runOps (rowSized 4 4 100 2) _ _
    [.store ⟨[222, 173, 190, 239], rfl⟩ [42, 24], .store ⟨[122, 173, 190, 239], rfl⟩ [44, 45]]
    (.create fun _ => 0) (by simp [Op.Fits, rowSized, recordHashTable]) rfl (by decide)
  exact ⟨_, _, rfl, hr, rfl, unlinked_record_stays_leaked (rowSized_sound 4 4 100 2) hr rfl⟩

theorem Linked.find_live (hL : Linked s t) {key : Key s.keySize} {a : Nat}
    (hf : find s t key = pure (some a)) : ∃ j, Live s t j ∧ a = j * s.recordSize + s.prefixSize := by
  obtain ⟨l, hl, -, -, -⟩ := hL.bucket_chain key
  rw [hL.find_eq hl] at hf
  cases hj : l.find? fun j => keyAt s t j == key.bytes with
  | none =>
      rw [hj] at hf
      cases hf
  | some j =>
      simp only [hj, Option.map_some'] at hf
      exact ⟨j, hl.live_bucket j (List.mem_of_find?_eq_some hj), (Option.some.inj (Except.ok.inj hf)).symm⟩

theorem Linked.update_live (hL : Linked s t) {key : Key s.keySize} {write : List UInt8} {r : Nat}
    {t'' : Table} (hu : RecordHashTable.update s t key write = pure (r, t'')) :
    r = s.notFound ∨ Live s t r := by
  obtain ⟨l, hl, -, -, -⟩ := hL.bucket_chain key
  rw [hL.update_eq hl] at hu
  cases hj : l.find? fun j => keyAt s t j == key.bytes with
  | none =>
      rw [hj] at hu
      exact .inl (Prod.mk.inj (Except.ok.inj hu)).1.symm
  | some j =>
      rw [hj] at hu
      obtain ⟨rfl, -⟩ := Prod.mk.inj (Except.ok.inj hu)
      exact .inr (hl.live_bucket _ (List.mem_of_find?_eq_some hj))

/-- A record unlink takes out is never handed out again: along every later run within capacity,
find of no key returns its value, and update of no key writes it. -/
theorem unlinked_record_never_found (hs : s.Sound) (h : Reachable s t) {key : Key s.keySize}
    {t₁ : Table} (hu : unlink s t key = pure (true, t₁)) :
    ∃ pre m post, Chain s t (readBucketValue s t key) (pre ++ m :: post) ∧
      (∀ j ∈ pre, keyAt s t j ≠ key.bytes) ∧ keyAt s t m = key.bytes ∧
      ∀ ops t', (∀ op ∈ ops, op.Fits s) → runOps s t₁ ops = pure t' → t'.count ≤ s.notFound →
        ∀ key' : Key s.keySize, find s t' key' ≠ pure (some (m * s.recordSize + s.prefixSize)) ∧
          ∀ write r t'', update s t' key' write = pure (r, t'') → r ≠ m := by
  obtain ⟨pre, m, post, hl, hpre, hm, hmc, -, hdead, -⟩ := unlink_kills hs (h.linked hs) hu
  refine ⟨pre, m, post, hl, hpre, hm, fun ops t' hfit hrun hc key' => ?_⟩
  have h₁ := h.of_unlink hs hu
  have hd := (LeavesDead.run hs h₁ hfit hrun hc).dead hmc hdead
  have hL' := (h₁.runOps hfit hrun hc).linked hs
  refine ⟨fun hf => ?_, ?_⟩
  · obtain ⟨j, hj, he⟩ := hL'.find_live hf
    have hpos : 0 < s.recordSize := by have := hs.prefix_le; simp [arrayIndexSize] at this; omega
    obtain rfl : m = j := Nat.eq_of_mul_eq_mul_right hpos (by omega)
    exact hd hj
  · rintro write r t'' hu' rfl
    rcases hL'.update_live hu' with he | hj
    · have := (h₁.linked hs).count_le
      omega
    · exact hd hj

theorem unlinked_colliding_record_never_found :
    ∃ t t₁, runOps (rowSized 4 4 100 2) (create (rowSized 4 4 100 2) fun _ => 0)
        [.store ⟨[222, 173, 190, 239], rfl⟩ [42, 24], .store ⟨[122, 173, 190, 239], rfl⟩ [44, 45]] =
        pure t ∧
      Reachable (rowSized 4 4 100 2) t ∧
      unlink (rowSized 4 4 100 2) t ⟨[222, 173, 190, 239], rfl⟩ = pure (true, t₁) ∧
      ∃ pre m post, Chain (rowSized 4 4 100 2) t
          (readBucketValue (rowSized 4 4 100 2) t ⟨[222, 173, 190, 239], rfl⟩) (pre ++ m :: post) ∧
        (∀ j ∈ pre, keyAt (rowSized 4 4 100 2) t j ≠ [222, 173, 190, 239]) ∧
        keyAt (rowSized 4 4 100 2) t m = [222, 173, 190, 239] ∧
        ∀ ops t', (∀ op ∈ ops, op.Fits (rowSized 4 4 100 2)) →
          runOps (rowSized 4 4 100 2) t₁ ops = pure t' → t'.count ≤ (rowSized 4 4 100 2).notFound →
          ∀ key' : Key 4, find (rowSized 4 4 100 2) t' key' ≠
              pure (some (m * (rowSized 4 4 100 2).recordSize + (rowSized 4 4 100 2).prefixSize)) ∧
            ∀ write r t'', update (rowSized 4 4 100 2) t' key' write = pure (r, t'') → r ≠ m := by
  have hr := @Reachable.runOps (rowSized 4 4 100 2) _ _
    [.store ⟨[222, 173, 190, 239], rfl⟩ [42, 24], .store ⟨[122, 173, 190, 239], rfl⟩ [44, 45]]
    (.create fun _ => 0) (by simp [Op.Fits, rowSized, recordHashTable]) rfl (by decide)
  exact ⟨_, _, rfl, hr, rfl, unlinked_record_never_found (rowSized_sound 4 4 100 2) hr rfl⟩

/-- unlink of the key a store has just stored takes out the record that store made: the buckets
are as before the store, the walks reach the same records, every earlier record keeps its bytes,
and the new record stays allocated. -/
theorem unlink_undoes_store (hs : s.Sound) (h : Reachable s t) (key : Key s.keySize)
    {write : List UInt8} (hw : write.length ≤ s.valueSize) (hc : t.count < s.notFound) :
    ∃ t₁ t₂, store s t key write = pure (t.count, t₁) ∧ unlink s t₁ key = pure (true, t₂) ∧
      t₂.header = t.header ∧ t₂.count = t.count + 1 ∧ (∀ j, Live s t₂ j ↔ Live s t j) ∧
      ∀ j < t.count, SameRecord s t.memory t₂.memory j := by
  have hL := h.linked hs
  obtain ⟨t₁, hst⟩ : ∃ t₁, store s t key write = pure (t.count, t₁) := ⟨_, store_eq key write⟩
  obtain ⟨-, hcount, hheader⟩ := store_count hst
  have hv : t.header (bucketIndex s key) ≤ s.notFound := by
    rcases hL.header (bucketIndex s key) with hn | ⟨hlt, -⟩ <;> omega
  have hu := unlink_of_head t.count (by simp [readBucketValue, HashTableHeader.read, hheader])
    (by omega) (store_keyAt hst)
  rw [store_nextAt hst hs hv] at hu
  have hheader₂ : (link s t₁ key (t.header (bucketIndex s key))).header = t.header := by
    simp [link, HashTableHeader.write, hheader]
  have hsame : ∀ j < t.count, SameRecord s t.memory t₁.memory j :=
    fun j hj => store_sameRecord hst hs hw (by omega)
  refine ⟨t₁, _, hst, hu, hheader₂, hcount, fun j => live_iff_of_links hL (by simp [link,
    HashTableHeader.write, hcount]) (by simp [link, HashTableHeader.write, hcount]; omega)
    (fun b => by rw [hheader₂]) fun i hi => nextAt_congr hs (hsame i hi.lt_count), hsame⟩

theorem unlink_after_store_restores :
    ∃ t, runOps (rowSized 4 4 100 2) (create (rowSized 4 4 100 2) fun _ => 0)
        [.store ⟨[222, 173, 190, 239], rfl⟩ [42, 24]] = pure t ∧
      Reachable (rowSized 4 4 100 2) t ∧
      ∃ t₁ t₂, store (rowSized 4 4 100 2) t ⟨[122, 173, 190, 239], rfl⟩ [44, 45] =
          pure (t.count, t₁) ∧
        unlink (rowSized 4 4 100 2) t₁ ⟨[122, 173, 190, 239], rfl⟩ = pure (true, t₂) ∧
        t₂.header = t.header ∧ t₂.count = t.count + 1 ∧
        (∀ j, Live (rowSized 4 4 100 2) t₂ j ↔ Live (rowSized 4 4 100 2) t j) ∧
        ∀ j < t.count, SameRecord (rowSized 4 4 100 2) t.memory t₂.memory j := by
  have hr := @Reachable.runOps (rowSized 4 4 100 2) _ _ [.store ⟨[222, 173, 190, 239], rfl⟩ [42, 24]]
    (.create fun _ => 0) (by simp [Op.Fits, rowSized, recordHashTable]) rfl (by decide)
  exact ⟨_, rfl, hr, unlink_undoes_store (rowSized_sound 4 4 100 2) hr _
    (by simp [rowSized, recordHashTable]) (by decide)⟩

/-! Operations on other buckets. -/

/-- What a step from `t` to `t'` keeps of bucket `b`: its first link, and every byte of each
record on its walk. -/
structure KeepsBucket (s : Shape) (t t' : Table) (b : Nat) : Prop where
  count_le : t.count ≤ t'.count
  header : t'.header b = t.header b
  records : ∀ l, Chain s t (t.header b) l → ∀ j ∈ l, SameRecord s t.memory t'.memory j

section Buckets

variable {b : Nat}

theorem KeepsBucket.chain (hs : s.Sound) (h : KeepsBucket s t t' b) {l : List Nat}
    (hl : Chain s t (t.header b) l) : Chain s t' (t'.header b) l := by
  rw [h.header]
  exact hl.frame h.count_le fun j hj => nextAt_congr hs (h.records l hl j hj)

theorem KeepsBucket.refl : KeepsBucket s t t b :=
  ⟨le_rfl, rfl, fun _ _ _ _ _ _ _ => rfl⟩

theorem KeepsBucket.trans (hs : s.Sound) {t'' : Table} (h : KeepsBucket s t t' b)
    (h' : KeepsBucket s t' t'' b) : KeepsBucket s t t'' b :=
  ⟨h.count_le.trans h'.count_le, h'.header.trans h.header, fun l hl j hj =>
    (h.records l hl j hj).trans (h'.records l (h.chain hs hl) j hj)⟩

theorem Linked.home_of_walk (hL : Linked s t) {l : List Nat} (hl : Chain s t (t.header b) l) :
    ∀ j ∈ l, home s t j = b := by
  obtain ⟨l', hl', -, hhome⟩ := hL.chain_header b
  rwa [hl.unique hL.count_le hl']

theorem keepsBucket_store (hs : s.Sound) {key : Key s.keySize} {write : List UInt8} {i : Nat}
    (hst : store s t key write = pure (i, t')) (hw : write.length ≤ s.valueSize)
    (hb : bucketIndex s key ≠ b) : KeepsBucket s t t' b := by
  obtain ⟨-, hcount, hheader⟩ := store_count hst
  exact ⟨by omega, by rw [hheader, Function.update_noteq (Ne.symm hb)],
    fun l hl j hj => store_sameRecord hst hs hw (hl.lt_count j hj).ne⟩

variable (hs : s.Sound) (hL : Linked s t)
include hs hL

theorem keepsBucket_update {key : Key s.keySize} {write : List UInt8} {r : Nat}
    (hu : update s t key write = pure (r, t')) (hw : write.length ≤ s.valueSize)
    (hb : bucketIndex s key ≠ b) : KeepsBucket s t t' b := by
  obtain ⟨l, hl, -, hhome, -⟩ := hL.bucket_chain key
  rw [hL.update_eq hl] at hu
  cases hj : l.find? fun j => keyAt s t j == key.bytes with
  | none =>
      rw [hj] at hu
      cases hu
      exact .refl
  | some j =>
      rw [hj] at hu
      obtain ⟨-, rfl⟩ := Prod.mk.inj (Except.ok.inj hu)
      have hjk := hhome j (List.mem_of_find?_eq_some hj)
      refine ⟨le_rfl, rfl, fun l' hl' i hi => sameRecord_writeValue hs hw fun e => hb ?_⟩
      rw [← hjk, ← e]
      exact hL.home_of_walk hl' i hi

theorem keepsBucket_unlink {key : Key s.keySize} {r : Bool}
    (hu : unlink s t key = pure (r, t')) (hb : bucketIndex s key ≠ b) : KeepsBucket s t t' b := by
  obtain ⟨l, hl, -, hhome, -⟩ := hL.bucket_chain key
  rcases eq_or_ne l [] with rfl | hne
  · rw [unlink_of_empty key hl.nil_inv hL.count_le] at hu
    cases hu
  rcases hL.unlink_cases hl hne with ⟨-, he⟩ | ⟨post, rfl, -, he⟩ |
      ⟨pre, m, post, rfl, -, -, he⟩ <;> rw [he] at hu <;> cases hu
  · exact .refl
  · exact ⟨le_rfl, by simp [link, HashTableHeader.write, Function.update_noteq (Ne.symm hb)],
      fun _ _ _ _ _ _ _ => rfl⟩
  · refine ⟨le_rfl, rfl, fun l' hl' i hi => sameRecord_writeNext hs fun e => hb ?_⟩
    rw [← hhome _ (List.mem_append_left _ (List.getLast_mem _)), ← e]
    exact hL.home_of_walk hl' i hi

end Buckets

theorem KeepsBucket.op {b : Nat} (hs : s.Sound) (h : Reachable s t) {op : Op s.keySize}
    (hfit : op.Fits s) (hb : bucketIndex s op.key ≠ b) (hop : Op.run s t op = pure t') :
    KeepsBucket s t t' b := by
  have hL := h.linked hs
  rcases Op.run_cases hop with ⟨_, _, _, rfl, hr⟩ | ⟨_, _, _, rfl, hr⟩ | ⟨_, _, rfl, hr⟩
  exacts [keepsBucket_store hs hr hfit hb, keepsBucket_update hs hL hr hfit hb,
    keepsBucket_unlink hs hL hr hb]

theorem KeepsBucket.run {b : Nat} (hs : s.Sound) (h : Reachable s t) {ops : List (Op s.keySize)}
    (hfit : ∀ op ∈ ops, op.Fits s) (hb : ∀ op ∈ ops, bucketIndex s op.key ≠ b)
    (hrun : runOps s t ops = pure t') (hc : t'.count ≤ s.notFound) : KeepsBucket s t t' b := by
  induction ops generalizing t with
  | nil =>
      cases hrun
      exact .refl
  | cons op ops ih =>
      obtain ⟨t₁, hop, hrest⟩ := bind_eq_pure hrun
      have hfit₁ := hfit op (List.mem_cons_self _ _)
      exact (KeepsBucket.op hs h hfit₁ (hb op (List.mem_cons_self _ _)) hop).trans hs
        (ih (.step op h hfit₁ hop ((runOps_count hrest).trans hc))
          (fun o ho => hfit o (List.mem_cons_of_mem _ ho))
          (fun o ho => hb o (List.mem_cons_of_mem _ ho)) hrest)

/-- On a sound shape, along every run from a reachable state, within capacity, of operations
whose keys all fall in buckets other than `b`, bucket `b` keeps its first link, its walk
visits the same records in the same order, and each of them keeps every byte. -/
theorem other_buckets_leave_walk {b : Nat} (hs : s.Sound) (h : Reachable s t)
    {ops : List (Op s.keySize)} (hfit : ∀ op ∈ ops, op.Fits s)
    (hb : ∀ op ∈ ops, bucketIndex s op.key ≠ b) (hrun : runOps s t ops = pure t')
    (hc : t'.count ≤ s.notFound) :
    t'.header b = t.header b ∧ ∃ l, Chain s t (t.header b) l ∧ Chain s t' (t'.header b) l ∧
      ∀ j ∈ l, SameRecord s t.memory t'.memory j := by
  have hd := KeepsBucket.run hs h hfit hb hrun hc
  obtain ⟨l, hl, -, -⟩ := (h.linked hs).chain_header b
  exact ⟨hd.header, l, hl, hd.chain hs hl, hd.records l hl⟩

/-- The first store fills bucket 74 with record 0; a store of a key of bucket 73 leaves that walk
and its record as they were. -/
theorem store_in_other_bucket_leaves_walk :
    ∃ t t', runOps (rowSized 4 4 100 2) (create (rowSized 4 4 100 2) fun _ => 0)
        [.store ⟨[222, 173, 190, 239], rfl⟩ [42, 24]] = pure t ∧
      Reachable (rowSized 4 4 100 2) t ∧
      runOps (rowSized 4 4 100 2) t [.store ⟨[221, 173, 190, 239], rfl⟩ [44, 45]] = pure t' ∧
      t.header 74 = 0 ∧ t'.header 74 = t.header 74 ∧
      ∃ l, Chain (rowSized 4 4 100 2) t (t.header 74) l ∧
        Chain (rowSized 4 4 100 2) t' (t'.header 74) l ∧
        ∀ j ∈ l, SameRecord (rowSized 4 4 100 2) t.memory t'.memory j := by
  have hr := @Reachable.runOps (rowSized 4 4 100 2) _ _
    [.store ⟨[222, 173, 190, 239], rfl⟩ [42, 24]]
    (.create fun _ => 0) (by simp [Op.Fits, rowSized, recordHashTable]) rfl (by decide)
  exact ⟨_, _, rfl, hr, rfl, rfl, other_buckets_leave_walk (b := 74) (rowSized_sound 4 4 100 2) hr
    (by simp [Op.Fits, rowSized, recordHashTable]) (by decide)
    (by rfl : runOps _ _ [.store ⟨[221, 173, 190, 239], rfl⟩ [44, 45]] = _) (by decide)⟩

end RecordHashTable
end BitcoinDatabase
