import BitcoinDatabase.Refinement

/-!
A thread running record_hash_table::find, one shared read per step: the bucket read, the
compare of a row's key, and the read of a row's next link, each through the row functions
of the sequential model. The test of a link against not_found reads nothing and is made in
the step that would read the row. Between a reader's steps any other thread may step.
-/

namespace BitcoinDatabase
namespace Concurrent

open RecordHashTable RecordRow

/-- Where a find is: before its bucket read, about to compare or to read the next link of
the row at `current`, or returned. -/
inductive Reader (width : Nat) where
  | start (key : Key width)
  | compare (key : Key width) (current : Nat)
  | advance (key : Key width) (current : Nat)
  | found (key : Key width) (index : Nat)
  | missed (key : Key width)
  | faulted (key : Key width) (fault : Fault)
  deriving DecidableEq

namespace Reader

variable {s : Shape} {t : Table}

def walking {width : Nat} : Reader width → Bool
  | .compare _ _ | .advance _ _ => true
  | _ => false

/-- One shared read of a reader. A returned reader stays where it is. -/
def step (s : Shape) (t : Table) : Reader s.keySize → Reader s.keySize
  | .start key => .compare key (readBucketValue s t key)
  | .compare key current =>
      if current = s.notFound then .missed key
      else match RecordRow.compare s t current key with
        | .ok true => .found key current
        | .ok false => .advance key current
        | .error fault => .faulted key fault
  | .advance key current =>
      match nextIndex s t current with
      | .ok next => .compare key next
      | .error fault => .faulted key fault
  | reader => reader

theorem step_compare_of_lt {key : Key s.keySize} {current : Nat} (hc : current < t.count)
    (hn : current ≠ s.notFound) :
    step s t (.compare key current) =
      if keyAt s t current = key.bytes then .found key current else .advance key current := by
  simp only [step, if_neg hn, compare_of_lt hc]
  by_cases hk : keyAt s t current = key.bytes
  · simp only [hk, beq_self_eq_true, if_true]
    rfl
  · simp only [beq_eq_false_iff_ne.2 hk, hk, if_false]
    rfl

theorem step_advance_of_lt {key : Key s.keySize} {current : Nat} (hc : current < t.count) :
    step s t (.advance key current) = .compare key (nextAt s t current) := by
  simp only [step, nextIndex_of_lt hc]
  rfl

end Reader

/-- The first record of `key` along the walk `l`: what find returns walking it. -/
def firstOf (s : Shape) (t : Table) (key : Key s.keySize) (l : List Nat) : Option Nat :=
  l.find? fun j => keyAt s t j == key.bytes

section FirstOf

variable {s : Shape} {t t' : Table} {key : Key s.keySize} {j : Nat} {l : List Nat}

theorem firstOf_cons_of_eq (h : keyAt s t j = key.bytes) : firstOf s t key (j :: l) = some j := by
  simp [firstOf, h]

theorem firstOf_cons_of_ne (h : keyAt s t j ≠ key.bytes) :
    firstOf s t key (j :: l) = firstOf s t key l := by
  simp [firstOf, h]

theorem firstOf_append (l₁ l₂ : List Nat) :
    firstOf s t key (l₁ ++ l₂) = (firstOf s t key l₁).or (firstOf s t key l₂) :=
  List.find?_append

theorem firstOf_congr (h : ∀ j ∈ l, keyAt s t' j = keyAt s t j) :
    firstOf s t' key l = firstOf s t key l := by
  induction l with
  | nil => rfl
  | cons j l ih =>
      simp only [List.mem_cons, forall_eq_or_imp] at h
      have ih' := ih h.2
      simp only [firstOf] at ih' ⊢
      simp only [List.find?_cons, h.1, ih']

theorem firstOf_eq_none (h : ∀ j ∈ l, keyAt s t j ≠ key.bytes) : firstOf s t key l = none := by
  simpa [firstOf] using h

theorem firstOf_ne_none (hj : j ∈ l) (hk : keyAt s t j = key.bytes) : firstOf s t key l ≠ none := by
  simp only [firstOf, ne_eq, List.find?_eq_none, not_forall]
  exact ⟨j, hj, by simpa using hk⟩

end FirstOf

theorem keyAt_of_memory {s : Shape} {t t' : Table} (h : t'.memory = t.memory) (j : Nat) :
    keyAt s t' j = keyAt s t j := by
  simp only [keyAt, h]

theorem nextAt_of_memory {s : Shape} {t t' : Table} (h : t'.memory = t.memory) (j : Nat) :
    nextAt s t' j = nextAt s t j := by
  simp only [nextAt, h]

end Concurrent
end BitcoinDatabase
