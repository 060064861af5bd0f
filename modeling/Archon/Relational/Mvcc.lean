import Archon.Lib.Bytes
import Archon.Lib.SortedMap

/-!
# Archon.Relational.Mvcc

The multi-version store (`crates/tpt-archon-relational/src/mvcc.rs`):
snapshot reads, buffered writes, and a commit that validates the read and
write sets against everything committed after the snapshot.

Timestamps are natural numbers: `commit` counts them up from 1.  The source
counts in a `u64`, whose `+= 1` wraps round (`commit64`).  Up to 2 ^ 64 - 1
commits of a store the two are the same (`commit64_eq`), and what is said of
`commit` here and of databases elsewhere is about stores that have not had more;
`Archon.Relational.Serializable` says what happens then.

The flag `committed` of a transaction is left out, since `commit` consumes the
transaction and nothing can read it.
-/

namespace Archon

open SortedMap List

/-- A committed version of a value. -/
structure Version where
  commitTs : Nat
  value : Bytes
  deriving DecidableEq

/-- The multi-version store: version chains in commit order, and the last
commit timestamp handed out. -/
structure MvccStore where
  versions : SortedMap Nat (List Version)
  clock : Nat

/-- A read-write transaction. -/
structure Transaction where
  snapshot : Nat
  reads : List Nat
  writes : SortedMap Nat Bytes

/-- The transactions a client has open, by table. -/
abbrev TableTxns := List (String × Transaction)

/-- A conflicting transaction committed first. -/
inductive CommitError where
  | conflict
  deriving DecidableEq

namespace Transaction

/-- This transaction's own buffered write of `key`. -/
def getWrite (txn : Transaction) (key : Nat) : Option Bytes := txn.writes.find? key

/-- The buffered writes, in key order. -/
def writesIter (txn : Transaction) : List (Nat × Bytes) := txn.writes.entries

end Transaction

namespace MvccStore

def new : MvccStore := ⟨.empty, 0⟩

/-- Begin a transaction reading from the current snapshot. -/
def begin (s : MvccStore) : Transaction := ⟨s.clock, [], .empty⟩

/-- The latest version of `key` committed at or before `asOf`. -/
def visibleValue (s : MvccStore) (key : Nat) (asOf : Nat) : Option Bytes := do
  let chain ← s.versions.find? key
  let v ← chain.reverse.find? fun v => v.commitTs ≤ asOf
  return v.value

/-- Read `key` within `txn`, own writes first. -/
def read (s : MvccStore) (txn : Transaction) (key : Nat) : Option Bytes × Transaction :=
  let txn := { txn with reads := txn.reads ++ [key] }
  match txn.writes.find? key with
  | some v => (some v, txn)
  | none => (s.visibleValue key txn.snapshot, txn)

/-- Buffer a write; the store is not touched. -/
def write (txn : Transaction) (key : Nat) (value : Bytes) : Transaction :=
  { txn with writes := txn.writes.insert key value }

def latestCommitTs (s : MvccStore) (key : Nat) : Option Nat := do
  let chain ← s.versions.find? key
  let v ← chain.getLast?
  return v.commitTs

/-- A key of the read or write set was committed after the snapshot. -/
def conflicts (s : MvccStore) (txn : Transaction) : Bool :=
  (txn.reads ++ txn.writes.entries.map Prod.fst).any fun key =>
    (s.latestCommitTs key).any fun latest => decide (latest > txn.snapshot)

/-- `entry(key).or_default().push(version)`. -/
def push (commitTs : Nat) (versions : SortedMap Nat (List Version)) (w : Nat × Bytes) :
    SortedMap Nat (List Version) :=
  versions.insert w.1 ((versions.find? w.1).getD [] ++ [⟨commitTs, w.2⟩])

/-- Validate `txn` and install its writes at a fresh timestamp. -/
def commit (s : MvccStore) (txn : Transaction) : Except CommitError Nat × MvccStore :=
  if s.conflicts txn then (.error .conflict, s)
  else
    let commitTs := s.clock + 1
    (.ok commitTs, ⟨txn.writes.entries.foldl (push commitTs) s.versions, commitTs⟩)

/-- `commit` as compiled: the clock is a `u64` and wraps round. -/
def commit64 (s : MvccStore) (txn : Transaction) : Except CommitError Nat × MvccStore :=
  if s.conflicts txn then (.error .conflict, s)
  else
    let commitTs := (s.clock + 1) % 2 ^ 64
    (.ok commitTs, ⟨txn.writes.entries.foldl (push commitTs) s.versions, commitTs⟩)

/-- Before the clock wraps round it counts the commits. -/
theorem commit64_eq (s : MvccStore) (txn : Transaction) (h : s.clock + 1 < 2 ^ 64) :
    s.commit64 txn = s.commit txn := by
  simp only [commit64, commit, Nat.mod_eq_of_lt h]

/-- The latest committed value of `key`. -/
def latest (s : MvccStore) (key : Nat) : Option Bytes := do
  let chain ← s.versions.find? key
  let v ← chain.getLast?
  return v.value

/-! ## Version chains -/

/-- The versions of `key`, none if it was never written. -/
def chain (s : MvccStore) (key : Nat) : List Version := (s.versions.find? key).getD []

section

variable (s : MvccStore) (key : Nat)

theorem visibleValue_eq (asOf : Nat) :
    s.visibleValue key asOf =
      ((s.chain key).reverse.find? fun v => v.commitTs ≤ asOf).map Version.value := by
  unfold visibleValue chain
  cases s.versions.find? key <;> simp [Option.map_eq_bind]

theorem latest_eq : s.latest key = (s.chain key).getLast?.map Version.value := by
  unfold latest chain
  cases s.versions.find? key <;> simp [Option.map_eq_bind]

theorem latestCommitTs_eq : s.latestCommitTs key = (s.chain key).getLast?.map Version.commitTs := by
  unfold latestCommitTs chain
  cases s.versions.find? key <;> simp [Option.map_eq_bind]

end

/-- Chains ascend strictly in commit time, up to the clock. -/
structure Ordered (s : MvccStore) : Prop where
  ascending : ∀ k, (s.chain k).Pairwise fun a b => a.commitTs < b.commitTs
  le_clock : ∀ k, ∀ v ∈ s.chain k, v.commitTs ≤ s.clock

theorem ordered_new : new.Ordered := ⟨fun _ => .nil, fun _ _ h => by contradiction⟩

/-- Installing a batch of writes extends the chain of each key it has. -/
theorem find?_foldl_push (ts : Nat) {ws : List (Nat × Bytes)} (h : Ascending ws)
    (versions : SortedMap Nat (List Version)) (k : Nat) :
    (ws.foldl (push ts) versions).find? k =
      match SortedMap.findIn k ws with
      | some v => some ((versions.find? k).getD [] ++ [⟨ts, v⟩])
      | none => versions.find? k := by
  induction ws generalizing versions with
  | nil => simp [findIn]
  | cons w ws ih =>
    have hnone := findIn_tail_eq_none h
    rw [foldl_cons, ih h.cons.2, findIn, push, find?_insert]
    grind

variable {s : MvccStore} {txn : Transaction}

/-- A commit that succeeds extends the chains of the keys written. -/
theorem chain_commit (h : s.conflicts txn = false) (k : Nat) :
    (s.commit txn).2.chain k =
      match txn.writes.find? k with
      | some v => s.chain k ++ [⟨s.clock + 1, v⟩]
      | none => s.chain k := by
  simp only [commit, chain]
  grind [find?_foldl_push _ txn.writes.ascending, show findIn k txn.writes.entries =
    txn.writes.find? k from rfl]

theorem Ordered.commit (h : s.Ordered) (txn : Transaction) : (s.commit txn).2.Ordered := by
  cases hc : s.conflicts txn with
  | true => simpa [MvccStore.commit, hc] using h
  | false =>
    have hclock : (s.commit txn).2.clock = s.clock + 1 := by simp [MvccStore.commit, hc]
    constructor
    · intro k
      rw [chain_commit hc]
      cases txn.writes.find? k with
      | none => exact h.ascending k
      | some v =>
        refine pairwise_append.mpr ⟨h.ascending k, by simp, ?_⟩
        intro a ha b hb
        have := h.le_clock k a ha
        grind
    · intro k v hv
      rw [chain_commit hc] at hv
      rw [hclock]
      cases hw : txn.writes.find? k with
      | none =>
        rw [hw] at hv
        have := h.le_clock k v hv
        omega
      | some b =>
        rw [hw] at hv
        rcases mem_append.mp hv with hv | hv
        · have := h.le_clock k v hv
          omega
        · simp [mem_singleton.mp hv]

/-- Later commits are invisible at an old snapshot. -/
theorem visibleValue_commit (txn : Transaction) {asOf : Nat} (h : asOf ≤ s.clock) (k : Nat) :
    (s.commit txn).2.visibleValue k asOf = s.visibleValue k asOf := by
  cases hc : s.conflicts txn with
  | true => simp [commit, hc]
  | false =>
    rw [visibleValue_eq, visibleValue_eq, chain_commit hc]
    cases txn.writes.find? k with
    | none => rfl
    | some v =>
      have hnot : ¬ s.clock + 1 ≤ asOf := by omega
      simp [hnot]

/-- A key that no later commit has written shows its latest value. -/
theorem visibleValue_eq_latest {k : Nat} {asOf : Nat}
    (h : ∀ ts, s.latestCommitTs k = some ts → ts ≤ asOf) : s.visibleValue k asOf = s.latest k := by
  rw [visibleValue_eq, latest_eq]
  rw [latestCommitTs_eq] at h
  cases hl : (s.chain k).reverse with
  | nil => simp [reverse_eq_nil_iff.mp hl]
  | cons v vs =>
    have hlast : (s.chain k).getLast? = some v := by
      rw [← head?_reverse, hl, head?_cons]
    have hle : v.commitTs ≤ asOf := h v.commitTs (by simp [hlast])
    simp [hlast, hle]

theorem latest_commit (h : s.conflicts txn = false) (k : Nat) :
    (s.commit txn).2.latest k = (txn.writes.find? k).or (s.latest k) := by
  rw [latest_eq, latest_eq, chain_commit h]
  cases txn.writes.find? k <;> simp

theorem commit64_conflict (s : MvccStore) (txn : Transaction)
    (h : (s.commit64 txn).1 = .error .conflict) : (s.commit64 txn).2 = s := by
  cases hc : s.conflicts txn with
  | true => simp [commit64, hc]
  | false => simp [commit64, hc] at h

end MvccStore

end Archon
