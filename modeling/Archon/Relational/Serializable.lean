import Archon.Lib.Serial
import Archon.Relational.Mvcc
import Mathlib.Data.List.Induction

/-!
# Archon.Relational.Serializable

Serializability of the multi-version store.  A `History` runs any number of
transactions on one store, their calls interleaved in any order, and keeps
the calls and results of each; the committed ones, run one after another in
commit order on a single-version map, return the same results and leave the
same values.

The invariant says where the results of an open transaction come from: they
are those of its calls run alone on its snapshot.  Validation at commit says
that the snapshot and the latest values agree on every key read.

Both need the clock to grow.  It is a `u64` that wraps round, and a transaction
that was open when it did takes later versions for earlier ones
(`repeated_read_differs`).
-/

namespace Archon

open Serial MvccStore List

variable {store : MvccStore}

/-- A transaction in progress, with its calls and what its reads returned. -/
structure OpenTxn where
  txn : Transaction
  calls : List (Call Nat Bytes)
  results : List (Option Bytes)

/-- A committed transaction. -/
structure Committed where
  commitTs : Nat
  calls : List (Call Nat Bytes)
  results : List (Option Bytes)

/-- One call on the store; transactions are numbered in the order they begin. -/
inductive MvccEvent where
  | begin
  | read (i : Nat) (key : Nat)
  | write (i : Nat) (key : Nat) (value : Bytes)
  | commit (i : Nat)

/-- The store, the open transactions (`none` once consumed by a commit) and
the committed ones in commit order. -/
structure History where
  store : MvccStore
  active : List (Option OpenTxn)
  committed : List Committed

namespace History

def start : History := ⟨.new, [], []⟩

/-- Transaction `i`, if it has begun and was not consumed yet. -/
def openTxn (h : History) (i : Nat) : Option OpenTxn := (h.active[i]?).join

def setOpenTxn (h : History) (i : Nat) (s : Option OpenTxn) : History :=
  { h with active := h.active.set i s }

/-- Calls on a transaction that does not exist or is consumed cannot be made:
nothing happens. -/
def step (h : History) : MvccEvent → History
  | .begin => { h with active := h.active ++ [some ⟨h.store.begin, [], []⟩] }
  | .read i key =>
    match h.openTxn i with
    | none => h
    | some s =>
      let (v, txn) := h.store.read s.txn key
      h.setOpenTxn i (some ⟨txn, s.calls ++ [.read key], s.results ++ [v]⟩)
  | .write i key value =>
    match h.openTxn i with
    | none => h
    | some s =>
      h.setOpenTxn i
        (some ⟨write s.txn key value, s.calls ++ [.write key value], s.results⟩)
  | .commit i =>
    match h.openTxn i with
    | none => h
    | some s =>
      match h.store.commit64 s.txn with
      | (.ok ts, store) =>
        ⟨store, h.active.set i none, h.committed ++ [⟨ts, s.calls, s.results⟩]⟩
      | (.error .conflict, store) => ⟨store, h.active.set i none, h.committed⟩

/-- The serial run of the committed transactions. -/
def serial (h : History) : (Nat → Option Bytes) × List (List (Option Bytes)) :=
  execAll (fun _ => none) (h.committed.map Committed.calls)

end History

/-! ## Open transactions -/

/-- The results so far are those of the calls run alone on the snapshot, and
the transaction has recorded what it read and wrote. -/
structure OpenTxnOK (store : MvccStore) (s : OpenTxn) : Prop where
  snapshot_le : s.txn.snapshot ≤ store.clock
  reads : ∀ k, .read k ∈ s.calls → k ∈ s.txn.reads
  writes : ∀ k, s.txn.writes.find? k = (exec (fun _ => none) s.calls).1 k
  results : s.results = (exec (fun k => store.visibleValue k s.txn.snapshot) s.calls).2

theorem OpenTxnOK.begin (store : MvccStore) : OpenTxnOK store ⟨store.begin, [], []⟩ :=
  ⟨Nat.le_refl _, by simp, fun _ => rfl, by simp [exec]⟩

variable {s : OpenTxn}

section

variable (h : OpenTxnOK store s)
include h

/-- A read returns the transaction's own write or the snapshot's value. -/
theorem OpenTxnOK.read (key : Nat) :
    OpenTxnOK store ⟨(store.read s.txn key).2, s.calls ++ [.read key],
      s.results ++ [(store.read s.txn key).1]⟩ := by
  have hval : (store.read s.txn key).1 =
      (exec (fun k => store.visibleValue k s.txn.snapshot) s.calls).1 key := by
    rw [exec_overlay, ← h.writes key, MvccStore.read]
    cases s.txn.writes.find? key <;> simp
  have htxn : (store.read s.txn key).2 = { s.txn with reads := s.txn.reads ++ [key] } := by
    grind [MvccStore.read]
  rw [hval, htxn]
  refine ⟨h.snapshot_le, ?_, ?_, ?_⟩
  · intro k hk
    simp at hk
    rcases hk with hk | hk
    · simp [h.reads k hk]
    · simp [hk]
  · simp [exec_append, exec, h.writes]
  · simp [exec_append, exec, h.results]

theorem OpenTxnOK.write (key : Nat) (value : Bytes) : OpenTxnOK store
      ⟨MvccStore.write s.txn key value, s.calls ++ [.write key value], s.results⟩ := by
  refine ⟨h.snapshot_le, ?_, ?_, ?_⟩
  · intro k hk
    exact h.reads k (by simpa using hk)
  · intro k
    rw [exec_append, MvccStore.write, SortedMap.find?_insert]
    by_cases hk : k = key
    · simp [exec, hk]
    · simp [exec, hk, h.writes]
  · simp [exec_append, exec, h.results, MvccStore.write]

/-- Another transaction's commit leaves the snapshot as it is. -/
theorem OpenTxnOK.commit (txn : Transaction) : OpenTxnOK (store.commit txn).2 s := by
  have hclock : store.clock ≤ (store.commit txn).2.clock := by grind [commit]
  refine ⟨Nat.le_trans h.snapshot_le hclock, h.reads, h.writes, ?_⟩
  simp [visibleValue_commit txn h.snapshot_le, h.results]

/-- Validation: every key read still shows its latest value. -/
theorem OpenTxnOK.validated (hc : store.conflicts s.txn = false) :
    s.results = (exec store.latest s.calls).2 := by
  rw [h.results]
  apply exec_congr
  intro k hk
  apply visibleValue_eq_latest
  intro ts hts
  simp [conflicts] at hc
  simpa [hts] using hc.1 k (h.reads k hk)

end

/-! ## Runs -/

/-- What every reachable history satisfies. -/
structure HistoryInv (h : History) : Prop where
  ordered : h.store.Ordered
  openTxns : ∀ i s, h.openTxn i = some s → OpenTxnOK h.store s
  results : h.serial.2 = h.committed.map Committed.results
  latest : h.serial.1 = h.store.latest

theorem historyInv_start : HistoryInv .start where
  ordered := ordered_new
  openTxns i s hs := by simp [History.openTxn, History.start] at hs
  results := rfl
  latest := rfl

variable {h : History}

theorem openTxn_set {i j : Nat} {o : Option OpenTxn} (hs : (h.setOpenTxn i o).openTxn j = some s) :
    o = some s ∨ h.openTxn j = some s := by
  unfold History.openTxn History.setOpenTxn at *
  by_cases hij : i = j
  · subst hij
    by_cases hlt : i < h.active.length
    · simp [hlt] at hs
      exact .inl hs
    · simp [Nat.not_lt.mp hlt] at hs
  · grind

theorem HistoryInv.setOpenTxn (hi : HistoryInv h) (i : Nat) (hs : OpenTxnOK h.store s) :
    HistoryInv (h.setOpenTxn i (some s)) :=
  { hi with
    openTxns := fun j s' hj => by
      rcases openTxn_set hj with hj | hj
      · rw [← Option.some.inj hj]
        exact hs
      · exact hi.openTxns j s' hj }

theorem HistoryInv.begin (hi : HistoryInv h) : HistoryInv (h.step .begin) :=
  { hi with
    openTxns := fun j s hj => by
      simp only [History.openTxn, History.step] at hj
      by_cases hlt : j < h.active.length
      · rw [getElem?_append_left hlt] at hj
        exact hi.openTxns j s hj
      · rw [getElem?_append_right (Nat.not_lt.mp hlt)] at hj
        cases hd : j - h.active.length with
        | zero =>
          simp [hd] at hj
          rw [← hj]
          exact .begin h.store
        | succ n => simp [hd] at hj }

/-- The clock counts the commits modulo 2 ^ 64, and each is stamped with it. -/
structure Stamped (h : History) : Prop where
  clock : h.store.clock = h.committed.length % 2 ^ 64
  stamps : ∀ (n : Nat) (c : Committed), h.committed[n]? = some c → c.commitTs = (n + 1) % 2 ^ 64

theorem Stamped.step (hs : Stamped h) (e : MvccEvent) :
    Stamped (h.step e) ∧ h.committed.length ≤ (h.step e).committed.length := by
  cases e with
  | begin => exact ⟨⟨hs.clock, hs.stamps⟩, Nat.le_refl _⟩
  | read i _ | write i _ _ =>
    rw [History.step]
    cases h.openTxn i <;> exact ⟨⟨hs.clock, hs.stamps⟩, Nat.le_refl _⟩
  | commit i =>
    cases ho : h.openTxn i with
    | none => simpa [History.step, ho] using hs
    | some s =>
      cases hc : h.store.conflicts s.txn with
      | true => simpa [History.step, ho, commit64, hc] using ⟨hs.clock, hs.stamps⟩
      | false =>
        have hstamp : (h.store.clock + 1) % 2 ^ 64 = (h.committed.length + 1) % 2 ^ 64 := by
          rw [hs.clock, Nat.mod_add_mod]
        have hstamps := hs.stamps
        simp only [History.step, ho, commit64, hc, Bool.false_eq_true, if_false]
        exact ⟨⟨by simpa using hstamp, by grind⟩, by simp⟩

/-- A commit of an open transaction keeps the invariant while the clock does not
wrap round. -/
theorem HistoryInv.commit (hi : HistoryInv h) (hs : Stamped h) (i : Nat)
    (hlength : (h.step (.commit i)).committed.length < 2 ^ 64) :
    HistoryInv (h.step (.commit i)) := by
  cases ho : h.openTxn i with
  | none => simpa [History.step, ho] using hi
  | some s =>
    have hok := hi.openTxns i s ho
    cases hc : h.store.conflicts s.txn with
    | true =>
      have hcommit : h.store.commit64 s.txn = (.error .conflict, h.store) := by
        simp [MvccStore.commit64, hc]
      simp only [History.step, ho, hcommit]
      exact { hi with
        openTxns := fun j s' hj => (openTxn_set hj).elim (by simp) (hi.openTxns j s') }
    | false =>
      have hclock : h.store.clock + 1 < 2 ^ 64 := by
        simp only [History.step, ho, MvccStore.commit64, hc, Bool.false_eq_true, if_false,
          length_append, length_singleton] at hlength
        rw [hs.clock, Nat.mod_eq_of_lt (by omega)]
        exact hlength
      have hopen : ∀ j s', (h.setOpenTxn i none).openTxn j = some s' →
          OpenTxnOK (h.store.commit s.txn).2 s' := fun j s' hj =>
        (openTxn_set hj).elim (by simp) fun hj => (hi.openTxns j s' hj).commit s.txn
      have hordered := hi.ordered.commit s.txn
      have hlatest := MvccStore.latest_commit hc
      have hres := hok.validated hc
      obtain ⟨store, hcommit⟩ : ∃ store, h.store.commit s.txn =
          (.ok (h.store.clock + 1), store) := by simp [MvccStore.commit, hc]
      simp only [hcommit] at hlatest hopen hordered
      simp only [History.step, ho, MvccStore.commit64_eq _ _ hclock, hcommit]
      refine ⟨hordered, hopen, ?_, ?_⟩
      · have := hi.results
        simp only [History.serial, map_append, map_cons, map_nil] at this ⊢
        rw [execAll_concat, this]
        have := hi.latest
        simp only [History.serial] at this
        rw [this, ← hres]
      · have := hi.latest
        simp only [History.serial, map_append, map_cons, map_nil] at this ⊢
        rw [execAll_concat, this]
        funext k
        rw [hlatest k, hok.writes k]
        exact exec_overlay _ _ _

theorem HistoryInv.step (hi : HistoryInv h) (hs : Stamped h) (e : MvccEvent)
    (hlength : (h.step e).committed.length < 2 ^ 64) : HistoryInv (h.step e) := by
  cases e with
  | begin => exact hi.begin
  | read i key =>
    cases hs : h.openTxn i with
    | none => simpa [History.step, hs] using hi
    | some s => simp [History.step, hs, hi.setOpenTxn i ((hi.openTxns i s hs).read key)]
  | write i key value =>
    cases hs : h.openTxn i with
    | none => simpa [History.step, hs] using hi
    | some s => simp [History.step, hs, hi.setOpenTxn i ((hi.openTxns i s hs).write key value)]
  | commit i => exact hi.commit hs i hlength

theorem stamped_run (events : List MvccEvent) : Stamped (events.foldl History.step .start) :=
  List.foldlRecOn events History.step ⟨rfl, nofun⟩ fun _ hs e _ => (hs.step e).1

theorem historyInv_run (events : List MvccEvent)
    (hlength : (events.foldl History.step .start).committed.length < 2 ^ 64) :
    HistoryInv (events.foldl History.step .start) := by
  -- from the end, since the last history has the most commits
  induction events using List.reverseRecOn with
  | nil => exact historyInv_start
  | append_singleton events e ih =>
    have hs := stamped_run events
    rw [foldl_concat] at hlength ⊢
    exact (ih (Nat.lt_of_le_of_lt (hs.step e).2 hlength)).step hs e hlength

/-- Timestamps ascend exactly until the clock wraps round. -/
theorem Stamped.ascending_iff (hs : Stamped h) :
    (h.committed.map Committed.commitTs).Pairwise (· < ·) ↔ h.committed.length < 2 ^ 64 := by
  rw [pairwise_map, pairwise_iff_getElem]
  constructor
  · intro hlt
    by_contra hlength
    -- the first commit is stamped 1 and the one that wraps round 0
    have hbound : 2 ^ 64 - 1 < h.committed.length := by omega
    have hfirst := hs.stamps 0 _ (getElem?_eq_getElem (by omega))
    have hlast := hs.stamps (2 ^ 64 - 1) _ (getElem?_eq_getElem hbound)
    have := hlt 0 (2 ^ 64 - 1) (by omega) hbound (by decide)
    omega
  · intro hlength i j hi hj hij
    rw [hs.stamps i _ (getElem?_eq_getElem hi), hs.stamps j _ (getElem?_eq_getElem hj),
      Nat.mod_eq_of_lt (by omega), Nat.mod_eq_of_lt (by omega)]
    omega

/-- **Serializability.**  Whatever the interleaving, up to 2 ^ 64 - 1 commits and
no further: the committed transactions have ascending timestamps and in that
order, run serially, return what they returned and leave the latest values; a
commit that conflicts changes nothing; and every version chain ascends strictly
in commit time. -/
theorem history_serializable (events : List MvccEvent) :
    let h := events.foldl History.step .start
    ((h.committed.map Committed.commitTs).Pairwise (· < ·) ∧
      h.serial.2 = h.committed.map Committed.results ∧
      (∀ k, h.serial.1 k = h.store.latest k) ∧
      (∀ txn, (h.store.commit64 txn).1 = .error .conflict → (h.store.commit64 txn).2 = h.store) ∧
      (∀ k, (h.store.chain k).Pairwise fun a b => a.commitTs < b.commitTs)) ↔
      h.committed.length < 2 ^ 64 := by
  have hs := stamped_run events
  refine ⟨fun hall => hs.ascending_iff.mp hall.1, fun hlength => ?_⟩
  have hi := historyInv_run events hlength
  exact ⟨hs.ascending_iff.mpr hlength, hi.results, fun k => congrFun hi.latest k,
    fun txn => commit64_conflict _ txn, hi.ordered.ascending⟩

/-- Empty transactions advance the clock and change nothing else that an open
transaction can see. -/
theorem exists_emptyCommits (h : History) (n : Nat) (hclock : h.store.clock < 2 ^ 64) :
    ∃ (events : List MvccEvent) (rest : List (Option OpenTxn)) (later : List Committed),
      events.foldl History.step h = ⟨⟨h.store.versions, (h.store.clock + n) % 2 ^ 64⟩,
        h.active ++ rest,
        h.committed ++ later⟩ := by
  induction n with
  | zero =>
    refine ⟨[], [], [], ?_⟩
    rw [Nat.add_zero, Nat.mod_eq_of_lt hclock, append_nil, append_nil]
    rfl
  | succ n ih =>
    obtain ⟨events, rest, later, hrun⟩ := ih
    refine ⟨events ++ [.begin, .commit (h.active ++ rest).length], rest ++ [none],
      later ++ [⟨(h.store.clock + (n + 1)) % 2 ^ 64, [], []⟩], ?_⟩
    rw [foldl_append, hrun]
    simp [History.step, History.openTxn, MvccStore.begin, commit64, conflicts,
      SortedMap.empty, Nat.add_assoc]

/-- Transaction 1 is to write over the value that transaction 3 has read. -/
def beforeWrap : List MvccEvent :=
  [.begin, .write 0 0 [0], .commit 0, .begin, .write 1 0 [1], .begin, .commit 2, .begin, .read 3 0]

/-- A transaction that reads a key before and after the clock has wrapped round
gets two values, and still commits. -/
theorem repeated_read_differs : ∃ events : List MvccEvent,
    let h := events.foldl History.step .start
    h.serial.2 ≠ h.committed.map Committed.results := by
  obtain ⟨round, rest, later, hround⟩ :=
    exists_emptyCommits (beforeWrap.foldl History.step .start) (2 ^ 64 - 1) (by decide)
  have hclock : ((beforeWrap.foldl History.step .start).store.clock + (2 ^ 64 - 1)) % 2 ^
      64 = 1 := by
    decide
  rw [hclock] at hround
  refine ⟨beforeWrap ++ round ++ [.commit 1, .read 3 0, .commit 3], ?_⟩
  rw [foldl_append, foldl_append, hround]
  generalize hlast : List.foldl History.step _ _ = h
  obtain ⟨earlier, hcommitted⟩ : ∃ earlier, h.committed =
      earlier ++ [⟨3, [.read 0, .read 0], [some [0], some [1]]⟩] := by
    rw [← hlast]
    exact ⟨_, rfl⟩
  simp [History.serial, hcommitted, execAll_concat, exec]
  grind

end Archon
