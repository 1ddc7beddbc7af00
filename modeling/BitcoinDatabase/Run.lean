import BitcoinDatabase.RecordHashTable

/-!
Runs of a table: the writer operations as one step each, and the states reachable
from a freshly created table while no allocation has returned not_found. The bound
on the count is where the model stops: past it the record manager's counter and the
links it hands out would have to wrap.
-/

namespace BitcoinDatabase
namespace RecordHashTable

inductive Op (width : Nat) where
  | store (key : Key width) (write : List UInt8)
  | update (key : Key width) (write : List UInt8)
  | unlink (key : Key width)

namespace Op

variable (s : Shape) (t : Table)

def run : Op s.keySize → Except Fault Table
  | .store key write => Prod.snd <$> RecordHashTable.store s t key write
  | .update key write => Prod.snd <$> RecordHashTable.update s t key write
  | .unlink key => Prod.snd <$> RecordHashTable.unlink s t key

def Fits : Op s.keySize → Prop
  | .store _ write | .update _ write => write.length ≤ s.valueSize
  | .unlink _ => True

def key {width : Nat} : Op width → Key width
  | .store key _ | .update key _ | .unlink key => key

end Op

def runOps (s : Shape) : Table → List (Op s.keySize) → Except Fault Table
  | t, [] => pure t
  | t, op :: ops => do runOps s (← Op.run s t op) ops

/-- The states a freshly created table reaches by operations whose writers fit, as long as
no allocation has returned not_found. -/
inductive Reachable (s : Shape) : Table → Prop
  | create (memory : Memory) : Reachable s (create s memory)
  | step {t t' : Table} (op : Op s.keySize) : Reachable s t → op.Fits s →
      Op.run s t op = pure t' → t'.count ≤ s.notFound → Reachable s t'

section Count

variable {s : Shape} {t t' : Table}

/-- What an operation that returns a table ran: the table call it names returned that table. -/
theorem Op.run_cases {op : Op s.keySize} (h : Op.run s t op = pure t') :
    (∃ key write i, op = .store key write ∧ RecordHashTable.store s t key write = pure (i, t')) ∨
      (∃ key write r, op = .update key write ∧
        RecordHashTable.update s t key write = pure (r, t')) ∨
      ∃ key r, op = .unlink key ∧ RecordHashTable.unlink s t key = pure (r, t') := by
  cases op <;> obtain ⟨⟨_, _⟩, hr, he⟩ := bind_eq_pure h <;> cases he
  exacts [.inl ⟨_, _, _, rfl, hr⟩, .inr (.inl ⟨_, _, _, rfl, hr⟩), .inr (.inr ⟨_, _, rfl, hr⟩)]

theorem writeNextIndex_count {index next : Nat}
    (h : RecordRow.writeNextIndex s t index next = pure t') : t'.count = t.count := by
  rcases Nat.lt_or_ge index t.count with hi | hi
  · rw [RecordRow.writeNextIndex_of_lt hi] at h
    cases h
    rfl
  · rw [RecordRow.writeNextIndex_of_le hi] at h
    cases h

theorem unlinkLoop_count {key : Key s.keySize} {b : Bool} :
    ∀ {fuel previous current : Nat}, unlinkLoop s t key fuel previous current = pure (b, t') →
      t'.count = t.count := by
  intro fuel
  induction fuel with
  | zero =>
      intro previous current h
      rw [unlinkLoop] at h
      split at h
      · cases h; rfl
      · cases h
  | succ fuel ih =>
      intro previous current h
      by_cases hc : current = s.notFound
      · rw [hc, unlinkLoop_notFound] at h
        cases h; rfl
      rw [unlinkLoop_step _ hc] at h
      obtain ⟨found, -, h⟩ := bind_eq_pure h
      split at h
      · obtain ⟨next, -, h⟩ := bind_eq_pure h
        obtain ⟨t'', hw, h⟩ := bind_eq_pure h
        cases h
        exact writeNextIndex_count hw
      · obtain ⟨next, -, h⟩ := bind_eq_pure h
        exact ih h

/-- Only store allocates: update and unlink leave the record count. -/
theorem run_count {op : Op s.keySize} (h : Op.run s t op = pure t') : t.count ≤ t'.count := by
  cases op with
  | store key write =>
      rw [Op.run, store_eq] at h
      cases h
      exact Nat.le_succ _
  | update key write =>
      obtain ⟨⟨r, t''⟩, hu, h⟩ := bind_eq_pure h
      cases h
      obtain ⟨found, -, hu⟩ := bind_eq_pure hu
      split at hu
      · obtain ⟨a, -, hu⟩ := bind_eq_pure hu
        cases hu
        exact le_rfl
      · cases hu
        exact le_rfl
  | unlink key =>
      obtain ⟨⟨b, t''⟩, hu, h⟩ := bind_eq_pure h
      cases h
      rw [unlink_eq] at hu
      obtain ⟨found, -, hu⟩ := bind_eq_pure hu
      split at hu
      · obtain ⟨next, -, hu⟩ := bind_eq_pure hu
        cases hu
        exact le_rfl
      · obtain ⟨current, -, hu⟩ := bind_eq_pure hu
        exact (unlinkLoop_count hu).ge

theorem runOps_count {ops : List (Op s.keySize)} (h : runOps s t ops = pure t') :
    t.count ≤ t'.count := by
  induction ops generalizing t with
  | nil => cases h; exact le_rfl
  | cons op ops ih =>
      obtain ⟨t'', hop, hrest⟩ := bind_eq_pure h
      exact (run_count hop).trans (ih hrest)

theorem Reachable.count_le (h : Reachable s t) : t.count ≤ s.notFound := by
  cases h with
  | create => exact Nat.zero_le _
  | step _ _ _ _ hc => exact hc

/-- A run of fitting operations from a reachable state that ends below capacity passes
through reachable states only. -/
theorem Reachable.runOps {ops : List (Op s.keySize)} (h : Reachable s t)
    (hfit : ∀ op ∈ ops, op.Fits s) (hrun : runOps s t ops = pure t')
    (hc : t'.count ≤ s.notFound) : Reachable s t' := by
  induction ops generalizing t with
  | nil => cases hrun; exact h
  | cons op ops ih =>
      obtain ⟨t'', hop, hrest⟩ := bind_eq_pure hrun
      have hmono : t''.count ≤ t'.count := by
        clear ih hop h hfit hrun
        induction ops generalizing t'' with
        | nil => cases hrest; exact le_rfl
        | cons op' ops' ih' =>
            obtain ⟨u, hu, hrest'⟩ := bind_eq_pure hrest
            exact (run_count hu).trans (ih' u hrest')
      exact ih (.step op h (hfit op (List.mem_cons_self _ _)) hop (hmono.trans hc))
        (fun op' hop' => hfit op' (List.mem_cons_of_mem _ hop')) hrest

end Count

/-- Storing one key `n` times from a fresh table, for any `n` up to not_found, reaches a
state with `n` records whose bucket starts at the last of them. -/
theorem reachable_stores (s : Shape) (memory : Memory) (key : Key s.keySize)
    (write : List UInt8) (hw : write.length ≤ s.valueSize) :
    ∀ n ≤ s.notFound, ∃ t, Reachable s t ∧ t.count = n ∧
      (0 < n → HashTableHeader.read t (bucketIndex s key) = n - 1) := by
  intro n
  induction n with
  | zero => exact fun _ => ⟨_, .create memory, rfl, by omega⟩
  | succ n ih =>
      intro hn
      obtain ⟨t, ht, rfl, -⟩ := ih (by omega)
      have hrun := congrArg (Prod.snd <$> ·) (store_eq (t := t) key write)
      refine ⟨_, .step (.store key write) ht hw hrun (by simpa using hn), rfl, fun _ => ?_⟩
      simp [HashTableHeader.read]

/-- A store at a reachable state replaces a non-empty bucket's first link with not_found. -/
theorem store_at_capacity_publishes_notFound :
    ∃ t, Reachable (recordHashTable 4 4 4 100 2) t ∧
      HashTableHeader.read t (bucketIndex (recordHashTable 4 4 4 100 2) ⟨[222, 173, 190, 239], rfl⟩) ≠
        (recordHashTable 4 4 4 100 2).notFound ∧
      ∃ t', store (recordHashTable 4 4 4 100 2) t ⟨[222, 173, 190, 239], rfl⟩ [42, 24] =
          pure ((recordHashTable 4 4 4 100 2).notFound, t') ∧
        HashTableHeader.read t' (bucketIndex (recordHashTable 4 4 4 100 2) ⟨[222, 173, 190, 239], rfl⟩) =
          (recordHashTable 4 4 4 100 2).notFound := by
  obtain ⟨t, ht, hc, hh⟩ := reachable_stores (recordHashTable 4 4 4 100 2) (fun _ => 0)
    ⟨[222, 173, 190, 239], rfl⟩ [42, 24] (by decide) _ le_rfl
  refine ⟨t, ht, ?_, _, hc ▸ store_eq _ _, by simp [HashTableHeader.read, hc]⟩
  rw [hh (by decide)]
  decide

end RecordHashTable
end BitcoinDatabase
