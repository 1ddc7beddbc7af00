import Mathlib.Logic.Function.Basic
import Mathlib.Data.List.Basic

/-!
The store's lifecycle (store.cpp). create makes the content files one after another and stops
at the first that fails. open, close, begin_write and end_write take and release the
directory's exclusive lock and flush lock. The file system and the two lock classes are not
in the repository's sources. A directory is the contents of each file name in it; whether an
input stream opens a file, which takes read permission, and what opening an output stream does
are the environment's. The locks are modelled from the spec: the exclusive lock is held by at
most one process, taking it fails only while another process holds it, and it is released
when its process ends; the flush lock is a mark in the directory that outlives the process
that set it.

On every run of processes that open their stores, bracket each write with begin_write and
end_write, close, or end at any point, at most one store is open, and the flush lock is held
exactly while an open store defers its flushes or is inside a write. A process that ends with
its store in that state leaves the flush lock held, and no store of the directory opens
again.
-/

namespace BitcoinDatabase
namespace Store

/-! ### create

The file names are store.cpp's constants. -/

def headerIndex : String := "header_index"

def blockIndex : String := "block_index"

def blockTable : String := "block_table"

def transactionIndex : String := "transaction_index"

def transactionTable : String := "transaction_table"

def historyTable : String := "history_table"

def historyRows : String := "history_rows"

/-- A directory: the bytes of each file in it, by name. -/
abbrev Dir := String → Option (List UInt8)

/-- What constructing bc::ofstream for a file leaves: the file opened; or the open failed,
which sets failbit and leaves bad() false; or a stream whose bad() is true. -/
inductive Opened where
  | good
  | failed
  | bad
  deriving DecidableEq, Repr

/-- What the file system does with a file name: whether an input stream opens the file when
it exists, which takes read permission, and what constructing an output stream does. -/
structure Env where
  readable : String → Bool
  opened : String → Opened

/-- bc::ifstream(name).good(): the file exists and an input stream opens it. -/
def inputGood (env : Env) (dir : Dir) (name : String) : Bool :=
  (dir name).isSome && env.readable name

/-- create_file: refuse a file that an input stream opens; otherwise open an output stream,
which truncates a file it opens, give up if it is bad, and put one byte 'x'. The byte reaches
the file only when the stream opened it, and create_file returns true either way. -/
def createFile (env : Env) (dir : Dir) (name : String) : Bool × Dir :=
  if inputGood env dir name then (false, dir)
  else
    match env.opened name with
    | .bad => (false, dir)
    | .good => (true, Function.update dir name (some [120]))
    | .failed => (true, dir)

/-- create_file on each name, joined by &&: the first that returns false ends the chain. -/
def createFiles (env : Env) : Dir → List String → Bool × Dir
  | dir, [] => (true, dir)
  | dir, name :: names =>
    match createFile env dir name with
    | (true, dir) => createFiles env dir names
    | (false, dir) => (false, dir)

def contentFiles : List String :=
  [headerIndex, blockIndex, blockTable, transactionIndex, transactionTable]

def indexFiles : List String := [historyTable, historyRows]

/-- store::create: the content files, then the index files when the store keeps indexes. -/
def create (env : Env) (useIndexes : Bool) (dir : Dir) : Bool × Dir :=
  match createFiles env dir contentFiles with
  | (created, dir) =>
    if !useIndexes then (created, dir)
    else if created then createFiles env dir indexFiles
    else (false, dir)

def files (useIndexes : Bool) : List String :=
  contentFiles ++ if useIndexes then indexFiles else []

/-- `dir` with the files of `names` whose output stream opened holding the byte 'x'. -/
def made (env : Env) (dir : Dir) (names : List String) : Dir := fun n =>
  if n ∈ names ∧ env.opened n = .good then some [120] else dir n

section Create

variable {env : Env}

theorem createFiles_append (dir : Dir) (l₁ l₂ : List String) :
    createFiles env dir (l₁ ++ l₂) =
      match createFiles env dir l₁ with
      | (true, dir) => createFiles env dir l₂
      | (false, dir) => (false, dir) := by
  induction l₁ generalizing dir with
  | nil => rfl
  | cons name names ih =>
      simp only [List.cons_append, createFiles]
      rcases createFile env dir name with ⟨_ | _, dir'⟩
      · rfl
      · exact ih dir'

theorem create_eq (useIndexes : Bool) (dir : Dir) :
    create env useIndexes dir = createFiles env dir (files useIndexes) := by
  rw [files, createFiles_append, create]
  rcases createFiles env dir contentFiles with ⟨_ | _, dir'⟩ <;> cases useIndexes <;> rfl

theorem made_nil (dir : Dir) : made env dir [] = dir := by
  funext n
  simp [made]

theorem made_made (dir : Dir) (l₁ l₂ : List String) :
    made env (made env dir l₁) l₂ = made env dir (l₁ ++ l₂) := by
  funext n
  by_cases h₁ : n ∈ l₁ <;> by_cases h₂ : n ∈ l₂ <;> by_cases hg : env.opened n = .good <;>
    simp [made, h₁, h₂, hg]

theorem createFile_of_not_good {dir : Dir} {name : String} (hg : inputGood env dir name = false)
    (hbad : env.opened name ≠ .bad) : createFile env dir name = (true, made env dir [name]) := by
  simp only [createFile, hg, Bool.false_eq_true, if_false]
  cases h : env.opened name with
  | bad => exact absurd h hbad
  | good | failed =>
      simp only [Prod.mk.injEq, true_and]
      funext n
      by_cases hn : n = name
      · subst hn
        simp [made, h]
      · simp [made, hn, h]

/-- What a chain of create_file calls over distinct names does: it makes the names before the
first that an input stream opens or whose output stream is bad, writing 'x' to those whose
output stream opened, and returns true exactly when there is no such first name. -/
theorem createFiles_spec (dir : Dir) {names : List String} (hnd : names.Nodup) :
    ∃ pre rest, names = pre ++ rest ∧
      (∀ n ∈ pre, inputGood env dir n = false ∧ env.opened n ≠ .bad) ∧
      (createFiles env dir names).2 = made env dir pre ∧
      ((createFiles env dir names).1 = true ↔ rest = []) ∧
      ∀ n ∈ rest.head?, inputGood env dir n = true ∨ env.opened n = .bad := by
  induction names generalizing dir with
  | nil => exact ⟨[], [], rfl, by simp, made_nil dir |>.symm, by simp [createFiles], by simp⟩
  | cons name names ih =>
      obtain ⟨hname, hnd⟩ := List.nodup_cons.1 hnd
      by_cases hfail : inputGood env dir name = true ∨ env.opened name = .bad
      · have stop : createFiles env dir (name :: names) = (false, dir) := by
          rcases hfail with h | h <;> simp [createFiles, createFile, h]
        exact ⟨[], name :: names, rfl, by simp, by rw [stop, made_nil], by simp [stop],
          by simpa using hfail⟩
      obtain ⟨hg, hbad⟩ : inputGood env dir name = false ∧ env.opened name ≠ .bad := by
        simpa using hfail
      set dir' := made env dir [name] with hdir'
      have hstep : createFiles env dir (name :: names) = createFiles env dir' names := by
        simp only [createFiles, createFile_of_not_good hg hbad]
      obtain ⟨pre, rest, rfl, hpre, hdir, hok, hhead⟩ := ih dir' hnd
      have hkeep : ∀ n ∈ pre ++ rest, dir' n = dir n := fun n hn => by
        simp [hdir', made, show n ≠ name from fun e => hname (e ▸ hn)]
      have hgood : ∀ n ∈ pre ++ rest, inputGood env dir' n = inputGood env dir n := fun n hn => by
        simp only [inputGood, hkeep n hn]
      refine ⟨name :: pre, rest, rfl, ?_, ?_, by rw [hstep]; exact hok, fun n hn => ?_⟩
      · simp only [List.mem_cons, forall_eq_or_imp]
        exact ⟨⟨hg, hbad⟩, fun n hn => hgood n (List.mem_append_left _ hn) ▸ hpre n hn⟩
      · rw [hstep, hdir, hdir', made_made]
        rfl
      · rw [← hgood n (List.mem_append_right _ (List.mem_of_mem_head? hn))]
        exact hhead n hn

theorem files_nodup (useIndexes : Bool) : (files useIndexes).Nodup := by
  cases useIndexes <;> decide

/-- store::create, over every directory and whatever the file system does with each name: it
goes through its files in order and stops at the first that an input stream opens or whose
output stream is bad. No input stream opened the files before that one: they were absent, or
present and unreadable. Those whose output stream opened now hold the byte 'x', an unreadable
file truncated to it; nothing else changes, so a file that an input stream opens is never
touched. create returns true exactly when it meets no such file, which includes files whose
output stream failed to open and that are as they were. -/
theorem create_spec (useIndexes : Bool) (dir : Dir) :
    ∃ pre rest, files useIndexes = pre ++ rest ∧
      (∀ n ∈ pre, inputGood env dir n = false ∧ env.opened n ≠ .bad) ∧
      (create env useIndexes dir).2 = made env dir pre ∧
      (∀ n, inputGood env dir n = true → (create env useIndexes dir).2 n = dir n) ∧
      ((create env useIndexes dir).1 = true ↔ rest = []) ∧
      ∀ n ∈ rest.head?, inputGood env dir n = true ∨ env.opened n = .bad := by
  rw [create_eq]
  obtain ⟨pre, rest, he, hpre, hdir, hok, hhead⟩ :=
    @createFiles_spec env dir _ (files_nodup useIndexes)
  refine ⟨pre, rest, he, hpre, hdir, fun n hn => ?_, hok, hhead⟩
  have : n ∉ pre := fun h => by simp [(hpre n h).1] at hn
  simp [hdir, made, this]

/-- header_index exists with no read permission: create takes it for absent and truncates it. -/
example : (create ⟨fun _ => false, fun _ => .good⟩ false
    fun n => if n = headerIndex then some [1, 2, 3] else none).1 = true ∧
    (create ⟨fun _ => false, fun _ => .good⟩ false
      fun n => if n = headerIndex then some [1, 2, 3] else none).2 headerIndex = some [120] := by
  decide

end Create

/-! ### The locks

interprocess_lock and flush_lock are not in the repository's sources; their calls are modelled
from the spec, each by what it returns and the locks it leaves. -/

structure Locks where
  /-- the process holding exclusive_lock, if any -/
  exclusive : Option Nat
  /-- whether flush_lock is held -/
  flush : Bool
  deriving DecidableEq, Repr

/-- A call on the locks: what it returns, and the locks it leaves. -/
abbrev Call := Locks → Bool × Locks

/-- `a && b`: b is called only when a returns true. -/
def both (a b : Call) : Call := fun l =>
  match a l with
  | (true, l) => b l
  | (false, l) => (false, l)

/-- `a || b`: b is called only when a returns false. -/
def either (a b : Call) : Call := fun l =>
  match a l with
  | (true, l) => (true, l)
  | (false, l) => b l

def value (r : Bool) : Call := fun l => (r, l)

/-- interprocess_lock::lock by process `p`, which fails only when another process holds the
exclusive lock. -/
def exclusiveLock (p : Nat) : Call := fun l =>
  match l.exclusive with
  | none => (true, { l with exclusive := some p })
  | some q => (decide (q = p), l)

def exclusiveUnlock (p : Nat) : Call := fun l =>
  if l.exclusive = some p then (true, { l with exclusive := none }) else (false, l)

/-- flush_lock::try_lock, which fails when the flush lock is held, the mark of a store that was
not flushed. -/
def flushTryLock : Call := fun l => (!l.flush, l)

def flushLockShared : Call := fun l =>
  if l.flush then (false, l) else (true, { l with flush := true })

def flushUnlockShared : Call := fun l =>
  if l.flush then (true, { l with flush := false }) else (false, l)

def openStore (p : Nat) (flushEachWrite : Bool) : Call :=
  both (both (exclusiveLock p) flushTryLock) (either (value flushEachWrite) flushLockShared)

def closeStore (p : Nat) (flushEachWrite : Bool) : Call :=
  both (either (value flushEachWrite) flushUnlockShared) (exclusiveUnlock p)

def beginWrite (flushEachWrite : Bool) : Call :=
  either (value !flushEachWrite) flushLockShared

/-- store::end_write, with `flushed` what the store's flush returned. -/
def endWrite (flushEachWrite flushed : Bool) : Call :=
  either (value !flushEachWrite) (both (value flushed) flushUnlockShared)

section Calls

variable {p : Nat} {m : Bool} (l : Locks)

theorem openStore_eq : openStore p m l =
    if l.exclusive = none ∨ l.exclusive = some p then
      if l.flush then (false, { l with exclusive := some p }) else (true, ⟨some p, !m⟩)
    else (false, l) := by
  rcases l with ⟨_ | q, _ | _⟩ <;> cases m <;> try rfl
  all_goals by_cases hq : q = p <;>
    simp [openStore, both, either, value, exclusiveLock, flushTryLock, flushLockShared, hq]

theorem closeStore_of_flushEachWrite (hx : l.exclusive = some p) :
    closeStore p true l = (true, { l with exclusive := none }) := by
  simp [closeStore, both, either, value, exclusiveUnlock, hx]

theorem closeStore_of_deferred (hx : l.exclusive = some p) (hf : l.flush = true) :
    closeStore p false l = (true, ⟨none, false⟩) := by
  simp [closeStore, both, either, value, flushUnlockShared, exclusiveUnlock, hx, hf]

theorem beginWrite_eq : beginWrite m l = if m then flushLockShared l else (true, l) := by
  cases m <;> rfl

theorem endWrite_eq (flushed : Bool) : endWrite m flushed l =
    if m then (if flushed then flushUnlockShared l else (false, l)) else (true, l) := by
  cases m <;> cases flushed <;> rfl

end Calls

/-! ### Processes -/

inductive Phase where
  | closed
  | opened
  | writing
  deriving DecidableEq, Repr

structure System where
  locks : Locks
  phase : Nat → Phase

/-- What a process can do with its store, as the spec has its callers do: open it, bracket each
write with begin_write and end_write, close it, or end without closing. -/
inductive Cmd where
  | openStore (p : Nat)
  | beginWrite (p : Nat)
  | endWrite (p : Nat) (flushed : Bool)
  | closeStore (p : Nat)
  | exit (p : Nat)
  deriving DecidableEq, Repr

namespace System

/-- Process `p` makes call `c`, and moves to `ok` when it returns true and to `fail` when it
returns false. -/
def call (sys : System) (p : Nat) (c : Call) (ok fail : Phase) : System :=
  ⟨(c sys.locks).2, Function.update sys.phase p (if (c sys.locks).1 then ok else fail)⟩

def init : System := ⟨⟨none, false⟩, fun _ => .closed⟩

end System

/-- One command, with `mode p` the flush_each_write of process `p`'s store; none when the
process is not where the command starts. A process that ends loses its exclusive lock and
leaves the flush lock as it was. -/
def step (mode : Nat → Bool) (sys : System) : Cmd → Option System
  | .openStore p =>
    if sys.phase p = .closed then some (sys.call p (openStore p (mode p)) .opened .closed) else none
  | .beginWrite p =>
    if sys.phase p = .opened then some (sys.call p (beginWrite (mode p)) .writing .opened)
    else none
  | .endWrite p flushed =>
    if sys.phase p = .writing then some (sys.call p (endWrite (mode p) flushed) .opened .writing)
    else none
  | .closeStore p =>
    if sys.phase p = .opened then some (sys.call p (closeStore p (mode p)) .closed .opened)
    else none
  | .exit p =>
    some ⟨{ sys.locks with
      exclusive := if sys.locks.exclusive = some p then none else sys.locks.exclusive },
      Function.update sys.phase p .closed⟩

def run (mode : Nat → Bool) : System → List Cmd → Option System
  | sys, [] => some sys
  | sys, c :: cs => (step mode sys c).bind fun sys => run mode sys cs

theorem System.call_phase_self (sys : System) (p : Nat) (c : Call) (ok fail : Phase) :
    (sys.call p c ok fail).phase p = if (c sys.locks).1 then ok else fail := by
  simp [System.call]

/-! ### The locks along runs -/

section Runs

variable {mode : Nat → Bool} {sys sys' : System} {p : Nat}

/-- What holds between commands: the process of an open store holds the exclusive lock, and
the flush lock is held exactly when that store defers its flushes or is inside a write. -/
structure Inv (mode : Nat → Bool) (sys : System) : Prop where
  holder : ∀ p, sys.phase p ≠ .closed → sys.locks.exclusive = some p
  flush : ∀ p, sys.phase p ≠ .closed →
    (sys.locks.flush = true ↔ mode p = false ∨ sys.phase p = .writing)

theorem Inv.init : Inv mode System.init :=
  ⟨fun _ h => absurd rfl h, fun _ h => absurd rfl h⟩

theorem Inv.unique (h : Inv mode sys) {q : Nat} (hp : sys.phase p ≠ .closed)
    (hq : sys.phase q ≠ .closed) : p = q :=
  Option.some.inj ((h.holder p hp).symm.trans (h.holder q hq))

theorem Inv.others (h : Inv mode sys) (hp : sys.phase p ≠ .closed) :
    ∀ q ≠ p, sys.phase q = .closed :=
  fun _ hq => by_contra fun h' => hq (h.unique h' hp)

theorem Inv.closed_of_free (h : Inv mode sys) (hp : sys.phase p = .closed)
    (hx : sys.locks.exclusive = none ∨ sys.locks.exclusive = some p) : ∀ q, sys.phase q = .closed :=
  fun q => by_contra fun h' => by
    have hq := h.holder q h'
    rcases hx with hx | hx <;> rw [hx] at hq
    · exact nomatch hq
    · exact h' (Option.some.inj hq ▸ hp)

/-- A call of `p` with every other process closed keeps the invariant when it holds of `p`. -/
theorem inv_call {c : Call} {ok fail : Phase} (hq : ∀ q ≠ p, sys.phase q = .closed)
    (hp : (if (c sys.locks).1 then ok else fail) ≠ .closed →
      (c sys.locks).2.exclusive = some p ∧ ((c sys.locks).2.flush = true ↔
        mode p = false ∨ (if (c sys.locks).1 then ok else fail) = .writing)) :
    Inv mode (sys.call p c ok fail) := by
  have only : ∀ q, (sys.call p c ok fail).phase q ≠ .closed → q = p := fun q h =>
    by_contra fun hne => h (by simp [System.call, Function.update_noteq hne, hq q hne])
  refine ⟨fun q h => ?_, fun q h => ?_⟩ <;> obtain rfl := only q h <;>
    rw [System.call_phase_self] at h
  · exact (hp h).1
  · rw [System.call_phase_self]
    exact (hp h).2

theorem Inv.step (h : Inv mode sys) {c : Cmd} (hs : step mode sys c = some sys') :
    Inv mode sys' := by
  cases c with
  | openStore p =>
      obtain ⟨hp, ⟨⟩⟩ := Option.ite_none_right_eq_some.1 hs
      by_cases hx : sys.locks.exclusive = none ∨ sys.locks.exclusive = some p
      · refine inv_call (fun q _ => h.closed_of_free hp hx q) fun hne => ?_
        simp only [openStore_eq, if_pos hx] at hne ⊢
        cases hf : sys.locks.flush <;> cases hm : mode p <;> simp_all
      · have : sys.call p (openStore p (mode p)) .opened .closed = sys := by
          rw [← hp]
          simp [System.call, openStore_eq, hx]
        rw [this]
        exact h
  | beginWrite p =>
      obtain ⟨hp, ⟨⟩⟩ := Option.ite_none_right_eq_some.1 hs
      have hx := h.holder p (by simp [hp])
      have hf := h.flush p (by simp [hp])
      refine inv_call (h.others (by simp [hp])) fun _ => ?_
      rw [hp] at hf
      cases hm : mode p <;> cases hfl : sys.locks.flush <;>
        simp_all [beginWrite_eq, flushLockShared]
  | endWrite p flushed =>
      obtain ⟨hp, ⟨⟩⟩ := Option.ite_none_right_eq_some.1 hs
      have hx := h.holder p (by simp [hp])
      have hf := (h.flush p (by simp [hp])).2 (.inr hp)
      refine inv_call (h.others (by simp [hp])) fun _ => ?_
      cases hm : mode p <;> cases flushed <;> simp_all [endWrite_eq, flushUnlockShared]
  | closeStore p =>
      obtain ⟨hp, ⟨⟩⟩ := Option.ite_none_right_eq_some.1 hs
      have hx := h.holder p (by simp [hp])
      have hf := h.flush p (by simp [hp])
      refine inv_call (h.others (by simp [hp])) fun _ => ?_
      rw [hp] at hf
      cases hm : mode p
      · simp_all [closeStore_of_deferred _ hx (hf.2 (.inl hm))]
      · simp_all [closeStore_of_flushEachWrite _ hx]
  | exit p =>
      cases hs
      refine ⟨fun q hq => ?_, fun q hq => ?_⟩ <;>
        have hqp : q ≠ p := by rintro rfl; simp at hq
      · simp only [Function.update_noteq hqp] at hq ⊢
        simp [h.holder q hq, hqp]
      · simp only [Function.update_noteq hqp] at hq ⊢
        exact h.flush q hq

theorem run_preserves (C : Cmd → Prop) (P : System → Prop)
    (hstep : ∀ sys sys' c, C c → P sys → step mode sys c = some sys' → P sys')
    {cs : List Cmd} (hcs : ∀ c ∈ cs, C c) (h : P sys) (hr : run mode sys cs = some sys') :
    P sys' := by
  induction cs generalizing sys with
  | nil =>
      cases hr
      exact h
  | cons c cs ih =>
      obtain ⟨sys₁, h₁, hr⟩ := Option.bind_eq_some.1 hr
      exact ih (fun c hc => hcs c (List.mem_cons_of_mem _ hc))
        (hstep _ _ _ (hcs c (List.mem_cons_self _ _)) h h₁) hr

theorem Inv.run (h : Inv mode sys) {cs : List Cmd} (hr : run mode sys cs = some sys') :
    Inv mode sys' :=
  run_preserves (fun _ => True) (Inv mode) (fun _ _ _ _ h hs => h.step hs) (fun _ _ => trivial) h hr

/-- The flush lock held and no store open. -/
def Stuck (sys : System) : Prop := sys.locks.flush = true ∧ ∀ q, sys.phase q = .closed

theorem Stuck.step (h : Stuck sys) {c : Cmd} (hs : step mode sys c = some sys') : Stuck sys' := by
  obtain ⟨hf, hc⟩ := h
  cases c with
  | openStore p =>
      obtain ⟨-, ⟨⟩⟩ := Option.ite_none_right_eq_some.1 hs
      by_cases hx : sys.locks.exclusive = none ∨ sys.locks.exclusive = some p <;>
        simp [Stuck, System.call, openStore_eq, hx, hf, Function.update_apply, hc]
  | beginWrite p | endWrite p _ | closeStore p => simp [Store.step, hc] at hs
  | exit p =>
      cases hs
      exact ⟨hf, fun q => by by_cases hq : q = p <;> simp [Function.update_apply, hq, hc]⟩

theorem Stuck.run (h : Stuck sys) {cs : List Cmd} (hr : run mode sys cs = some sys') :
    Stuck sys' :=
  run_preserves (fun _ => True) Stuck (fun _ _ _ _ h hs => h.step hs) (fun _ _ => trivial) h hr

/-- Stuck, with process `q` holding the exclusive lock: what a failed open of `q` leaves. -/
def Blocked (q : Nat) (sys : System) : Prop := Stuck sys ∧ sys.locks.exclusive = some q

/-- While `q` lives, an open by `q` fails at the flush lock and one by any other process at the
exclusive lock, so `q` keeps the lock. -/
theorem Blocked.step {q : Nat} (h : Blocked q sys) {c : Cmd} (hc : c ≠ .exit q)
    (hs : step mode sys c = some sys') : Blocked q sys' := by
  refine ⟨h.1.step hs, ?_⟩
  obtain ⟨⟨hf, hcl⟩, hx⟩ := h
  cases c with
  | openStore r =>
      obtain ⟨-, ⟨⟩⟩ := Option.ite_none_right_eq_some.1 hs
      by_cases hr : q = r <;> simp [System.call, openStore_eq, hx, hf, hr]
  | beginWrite r | endWrite r _ | closeStore r => simp [Store.step, hcl] at hs
  | exit r =>
      cases hs
      have hr : q ≠ r := fun e => hc (e ▸ rfl)
      simp [hx, hr]

theorem Blocked.run {q : Nat} (h : Blocked q sys) {cs : List Cmd} (hcs : ∀ c ∈ cs, c ≠ .exit q)
    (hr : run mode sys cs = some sys') : Blocked q sys' :=
  run_preserves (· ≠ .exit q) (Blocked q) (fun _ _ _ hc h hs => h.step hc hs) hcs h hr

/-- On every run of a directory's processes from one no store has opened, whatever mode each
store is in: at most one store is open, its process holds the exclusive lock, and the flush
lock is held exactly while that store defers its flushes or is inside a write. Its close and
begin_write return true, and its end_write returns what its flush returned, or true when it
defers flushes. -/
theorem lifecycle_locks {cs : List Cmd} (hr : run mode System.init cs = some sys)
    (hp : sys.phase p ≠ .closed) :
    (∀ q, sys.phase q ≠ .closed → q = p) ∧ sys.locks.exclusive = some p ∧
      (sys.locks.flush = true ↔ mode p = false ∨ sys.phase p = .writing) ∧
      (sys.phase p = .opened →
        (closeStore p (mode p) sys.locks).1 = true ∧ (beginWrite (mode p) sys.locks).1 = true) ∧
      (sys.phase p = .writing →
        ∀ flushed, (endWrite (mode p) flushed sys.locks).1 = (flushed || !mode p)) := by
  have h := Inv.init.run hr
  have hx := h.holder p hp
  have hf := h.flush p hp
  refine ⟨fun q hq => h.unique hq hp, hx, hf, fun ho => ?_, fun hw flushed => ?_⟩
  · rw [ho] at hf
    cases hm : mode p
    · simp [closeStore_of_deferred _ hx (hf.2 (.inl hm)), beginWrite_eq]
    · have hfl : sys.locks.flush = false := by simpa [hm] using hf
      simp [closeStore_of_flushEachWrite _ hx, beginWrite_eq, flushLockShared, hfl]
  · have hfl := hf.2 (.inr hw)
    cases hm : mode p <;> cases flushed <;> simp [endWrite_eq, flushUnlockShared, hfl]

theorem flush_each_write_session_locks :
    ∃ sys, run (fun _ => true) System.init [.openStore 0, .beginWrite 0] = some sys ∧
      sys.phase 0 ≠ .closed ∧
      (∀ q, sys.phase q ≠ .closed → q = 0) ∧ sys.locks.exclusive = some 0 ∧
      (sys.locks.flush = true ↔ true = false ∨ sys.phase 0 = .writing) ∧
      (sys.phase 0 = .opened →
        (closeStore 0 true sys.locks).1 = true ∧ (beginWrite true sys.locks).1 = true) ∧
      (sys.phase 0 = .writing →
        ∀ flushed, (endWrite true flushed sys.locks).1 = (flushed || !true)) := by
  have hr : run (fun _ => true) System.init [.openStore 0, .beginWrite 0] = some _ := rfl
  exact ⟨_, hr, by decide, lifecycle_locks hr (by decide)⟩

theorem Inv.exit_closed (h : Inv mode sys) (hp : sys.phase p ≠ .closed) :
    ∀ q, Function.update sys.phase p .closed q = .closed := fun q => by
  by_cases hq : q = p
  · subst hq
    simp
  · simp [Function.update_noteq hq, h.others hp q hq]

theorem Inv.run_exit_open (h : Inv mode sys) (hp : sys.phase p ≠ .closed) (q : Nat) :
    Store.run mode sys [.exit p, .openStore q] = some (System.call
      ⟨{ sys.locks with exclusive := none }, Function.update sys.phase p .closed⟩
      q (openStore q (mode q)) .opened .closed) := by
  simp [Store.run, Store.step, h.holder p hp, h.exit_closed hp]

/-- What a process that ends without closing leaves. If its store deferred flushes or was
inside a write, the flush lock stays held: on every later run no store of the directory opens
and the flush lock is still held. If its store flushes each write and was between writes,
both locks are free and the next open, by any process, succeeds. -/
theorem exit_leaves_flush_lock {cs : List Cmd} (hr : run mode System.init cs = some sys)
    (hp : sys.phase p ≠ .closed) :
    (mode p = false ∨ sys.phase p = .writing → ∀ cs' sys',
      run mode sys (.exit p :: cs') = some sys' →
        sys'.locks.flush = true ∧ ∀ q, sys'.phase q = .closed) ∧
    (mode p = true → sys.phase p = .opened → ∀ q, ∃ sys',
      run mode sys [.exit p, .openStore q] = some sys' ∧ sys'.phase q = .opened) := by
  have h := Inv.init.run hr
  refine ⟨fun hd cs' sys' hr' => ?_, fun hm ho q => ⟨_, h.run_exit_open hp q, ?_⟩⟩
  · obtain ⟨sys₁, h₁, hr'⟩ := Option.bind_eq_some.1 hr'
    cases h₁
    refine Stuck.run ?_ hr'
    exact ⟨(h.flush p hp).2 hd, h.exit_closed hp⟩
  · have hfl : sys.locks.flush = false := by simpa [hm, ho] using h.flush p hp
    simp [System.call, openStore_eq, hfl]

/-- A deferred store ends open and leaves the flush lock held for good; a store that flushes
each write ends open and another process then opens. -/
theorem exits_after_open_in_both_modes :
    (∃ sys, run (fun _ => false) System.init [.openStore 0] = some sys ∧ sys.phase 0 ≠ .closed ∧
      ∀ cs' sys', run (fun _ => false) sys (.exit 0 :: cs') = some sys' →
        sys'.locks.flush = true ∧ ∀ q, sys'.phase q = .closed) ∧
    ∃ sys, run (fun _ => true) System.init [.openStore 0] = some sys ∧ sys.phase 0 = .opened ∧
      ∃ sys', run (fun _ => true) sys [.exit 0, .openStore 1] = some sys' ∧
        sys'.phase 1 = .opened := by
  have hd : run (fun _ => false) System.init [.openStore 0] = some _ := rfl
  have hf : run (fun _ => true) System.init [.openStore 0] = some _ := rfl
  exact ⟨⟨_, hd, by decide, (exit_leaves_flush_lock (p := 0) hd (by decide)).1 (.inl rfl)⟩,
    _, hf, rfl, (exit_leaves_flush_lock (p := 0) hf (by decide)).2 rfl rfl 1⟩

/-- After such an exit the next open, by any process `q`, fails at the flush lock, and yet it
keeps the exclusive lock it took: open does not release it. From then on, on every later run in
which `q` lives, no store opens, not even `q`'s own, and `q` keeps the exclusive lock. -/
theorem failed_open_keeps_exclusive {cs : List Cmd} (hr : run mode System.init cs = some sys)
    (hp : sys.phase p ≠ .closed) (hd : mode p = false ∨ sys.phase p = .writing) (q : Nat) :
    ∃ sys', run mode sys [.exit p, .openStore q] = some sys' ∧ sys'.phase q = .closed ∧
      sys'.locks.exclusive = some q ∧
      ∀ cs' sys'', (∀ c ∈ cs', c ≠ .exit q) → run mode sys' cs' = some sys'' →
        (∀ r, sys''.phase r = .closed) ∧ sys''.locks.exclusive = some q ∧
          sys''.locks.flush = true := by
  have h := Inv.init.run hr
  have hf := (h.flush p hp).2 hd
  have hs : Stuck ⟨{ sys.locks with exclusive := none }, Function.update sys.phase p .closed⟩ :=
    ⟨hf, h.exit_closed hp⟩
  have hb : Blocked q (System.call ⟨{ sys.locks with exclusive := none },
      Function.update sys.phase p .closed⟩ q (openStore q (mode q)) .opened .closed) :=
    ⟨hs.step (c := .openStore q) (if_pos (hs.2 q)), by simp [System.call, openStore_eq, hf]⟩
  refine ⟨_, h.run_exit_open hp q, hb.1.2 q, hb.2, fun cs' sys'' hcs hr' => ?_⟩
  obtain ⟨⟨hf', hc'⟩, hx'⟩ := hb.run hcs hr'
  exact ⟨hc', hx', hf'⟩

theorem failed_open_after_deferred_exit :
    ∃ sys, run (fun _ => false) System.init [.openStore 0] = some sys ∧ sys.phase 0 ≠ .closed ∧
      (false = false ∨ sys.phase 0 = .writing) ∧
      ∃ sys', run (fun _ => false) sys [.exit 0, .openStore 1] = some sys' ∧
        sys'.phase 1 = .closed ∧ sys'.locks.exclusive = some 1 ∧
        ∀ cs' sys'', (∀ c ∈ cs', c ≠ .exit 1) → run (fun _ => false) sys' cs' = some sys'' →
          (∀ r, sys''.phase r = .closed) ∧ sys''.locks.exclusive = some 1 ∧
            sys''.locks.flush = true := by
  have hr : run (fun _ => false) System.init [.openStore 0] = some _ := rfl
  exact ⟨_, hr, by decide, .inl rfl, failed_open_keeps_exclusive hr (by decide) (.inl rfl) 1⟩

end Runs

end Store
end BitcoinDatabase
