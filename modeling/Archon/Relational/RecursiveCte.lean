import Archon.Lib.SemiNaive
import Archon.Relational.JoinSemantics
import Archon.Relational.PlanAgree
import Archon.Relational.ValueOrder

/-!
# Archon.Relational.RecursiveCte

`WITH RECURSIVE c AS (anchor UNION term)` computes the least fixed point of its
term by semi-naive evaluation, if it takes at most 9999 rounds to reach it: the
round that finds nothing new counts among the 10000.
-/

namespace Archon

open List Except

/-- The rows of a list, as a set. -/
def rowSet (rows : List Row) : Set Row := {row | row ∈ rows}

section

variable (run : Runner) (cte : CTE) (ctes : List CTE) (query : SelectStatement)
  (columns : List String)

/-- The recursive term over the given rows. -/
def termOn (working : List Row) : Outcome DbError ResultSet :=
  run query [] [] ctes (some ⟨cte.name, columns, working⟩)

/-- On rows of `D`, without floats and vectors, the term is a function `F` of
the set of rows that distributes over unions. -/
structure TermFunction (D : Set Row) (F : Set Row → Set Row) : Prop where
  plain : ∀ row ∈ D, PlainRow row
  distributes : Distributes F
  agrees : ∀ working step, rowSet working ⊆ D →
    termOn run cte ctes query columns working = .ok step →
      rowSet step.rows = F (rowSet working) ∧ rowSet step.rows ⊆ D

variable {run cte ctes query columns} {D : Set Row} {F : Set Row → Set Row} {A : Set Row}

/-- The rows a round adds. -/
def freshRows (all step : List Row) : List Row :=
  dedupRows (sortRows (step.filter fun r => !containsRow all r))

variable {all working rows : List Row} {k n : Nat}

theorem freshRows_spec {step : List Row} (hall : ∀ r ∈ all, PlainRow r)
    (hstep : ∀ r ∈ step, PlainRow r) :
    (freshRows all step).Nodup ∧ rowSet (freshRows all step) = rowSet step \ rowSet all := by
  have hplain : ∀ r ∈ step.filter fun r => !containsRow all r, PlainRow r :=
    fun r hr => hstep r (mem_filter.mp hr).1
  obtain ⟨hnodup, hmem⟩ := dedup_sort hplain
  refine ⟨hnodup, Set.ext fun r => ?_⟩
  have hcontains := containsRow_iff hall r
  simp [rowSet, freshRows, hmem, ← Bool.not_eq_true, hcontains]

theorem recursiveRounds_succ (n : Nat) (h : working ≠ []) :
    recursiveRounds run cte ctes query true columns (n + 1) all working = (do
      let step ← termOn run cte ctes query columns working
      if step.columns.length ≠ columns.length then Outcome.fail .columnCountMismatch
      if (freshRows all step.rows).isEmpty then return all
      else
        recursiveRounds run cte ctes query true columns n (all ++ freshRows all step.rows)
          (freshRows all step.rows)) := by
  have hne : working.isEmpty = false := by simpa using h
  rw [recursiveRounds, hne]
  rfl

theorem rowSet_append (xs ys : List Row) : rowSet (xs ++ ys) = rowSet xs ∪ rowSet ys := by
  ext r
  simp [rowSet]

theorem rowSet_eq_empty : rowSet rows = ∅ ↔ rows = [] := by
  simp [rowSet, Set.eq_empty_iff_forall_notMem, eq_nil_iff_forall_not_mem]

/-- The loop variables of the rounds: all rows so far, once each, and those of
the last round. -/
structure RoundState (D A : Set Row) (F : Set Row → Set Row) (k : Nat) (all working : List Row) :
    Prop where
  inv : SemiNaive A F k (rowSet all) (rowSet working)
  nodup : all.Nodup
  inD : rowSet all ⊆ D

section

variable (h : RoundState D A F k all working)
include h

theorem RoundState.step {step : ResultSet} (hF : TermFunction run cte ctes query columns D F)
    (hstep : termOn run cte ctes query columns working = .ok step) :
    rowSet (freshRows all step.rows) = F (rowSet working) \ rowSet all ∧
      RoundState D A F (k + 1) (all ++ freshRows all step.rows) (freshRows all step.rows) := by
  obtain ⟨hagrees, hD⟩ := hF.agrees working step (h.inv.fresh_subset.trans h.inD) hstep
  obtain ⟨hnodup, hfresh⟩ := freshRows_spec (fun r hr => hF.plain r (h.inD hr))
    fun r hr => hF.plain r (hD hr)
  rw [hagrees] at hfresh
  refine ⟨hfresh, ?_, ?_, ?_⟩
  · rw [rowSet_append]
    exact h.inv.step hF.distributes hfresh
  · refine nodup_append'.mpr ⟨h.nodup, hnodup, fun r hr hr' => ?_⟩
    have hmem : r ∈ rowSet (freshRows all step.rows) := hr'
    rw [hfresh] at hmem
    exact hmem.2 hr
  · rw [rowSet_append, hfresh]
    refine Set.union_subset h.inD (Set.sdiff_subset.trans ?_)
    rw [← hagrees]
    exact hD

theorem RoundState.leastFixed_iff (hF : Distributes F) :
    LeastFixed A F (naive A F k) ↔ F (rowSet working) \ rowSet all = ∅ := by
  rw [← h.inv.all_eq]
  exact h.inv.leastFixed_iff hF

theorem RoundState.done (hF : Distributes F) (hnone : F (rowSet working) \ rowSet all = ∅) :
    all.Nodup ∧ LeastFixed A F (rowSet all) :=
  ⟨h.nodup, (h.inv.leastFixed_iff hF).mpr hnone⟩

end

theorem RoundState.done_of_nil (h : RoundState D A F k all []) (hF : Distributes F) :
    all.Nodup ∧ LeastFixed A F (rowSet all) := by
  refine h.done hF ?_
  rw [rowSet_eq_empty.mpr rfl, hF.empty, Set.empty_sdiff]

/-- What the rounds return is the least fixed point, each row once. -/
theorem recursiveRounds_sound (hF : TermFunction run cte ctes query columns D F)
    (h : RoundState D A F k all working)
    (hrun : recursiveRounds run cte ctes query true columns n all working = .ok rows) :
    rows.Nodup ∧ LeastFixed A F (rowSet rows) := by
  induction n generalizing k all working with
  | zero =>
    cases working with
    | nil =>
      cases hrun
      exact h.done_of_nil hF.distributes
    | cons w working => cases hrun
  | succ n ih =>
    cases working with
    | nil =>
      cases hrun
      exact h.done_of_nil hF.distributes
    | cons w working =>
      rw [recursiveRounds_succ n (cons_ne_nil w working)] at hrun
      obtain ⟨step, hstep, hrun⟩ := hrun.bind_ok
      obtain ⟨-, hrun⟩ := Outcome.unless_eq_ok.mp hrun
      obtain ⟨hfresh, hstate⟩ := h.step hF hstep
      cases hnone : (freshRows all step.rows).isEmpty with
      | true =>
        rw [hnone] at hrun
        cases hrun
        rw [isEmpty_iff.mp hnone, rowSet_eq_empty.mpr rfl] at hfresh
        exact h.done hF.distributes hfresh.symm
      | false =>
        rw [hnone] at hrun
        exact ih hstate hrun

/-- If the term never fails, the rounds return exactly when one of them finds
nothing new. -/
theorem recursiveRounds_ok_iff (hF : TermFunction run cte ctes query columns D F)
    (htotal : ∀ working, rowSet working ⊆ D → ∃ step,
      termOn run cte ctes query columns working = .ok step ∧
        step.columns.length = columns.length) (h : RoundState D A F k all working)
    (hne : working ≠ []) (hbefore : ∀ j < k, ¬ LeastFixed A F (naive A F j)) :
    (∃ rows, recursiveRounds run cte ctes query true columns n all working = .ok rows) ↔
      ∃ j < k + n, LeastFixed A F (naive A F j) := by
  induction n generalizing k all working with
  | zero =>
    obtain ⟨w, working, rfl⟩ := exists_cons_of_ne_nil hne
    constructor
    · rintro ⟨rows, hrows⟩
      cases hrows
    · rintro ⟨j, hj, hfix⟩
      exact absurd hfix (hbefore j hj)
  | succ n ih =>
    obtain ⟨step, hstep, hcolumns⟩ := htotal working (h.inv.fresh_subset.trans h.inD)
    obtain ⟨hfresh, hstate⟩ := h.step hF hstep
    have hreached := h.leastFixed_iff hF.distributes
    rw [← hfresh, rowSet_eq_empty] at hreached
    rw [recursiveRounds_succ n hne, hstep]
    simp only [ok_bind, hcolumns, ne_eq]
    cases hnone : freshRows all step.rows with
    | nil =>
      refine iff_of_true ⟨all, rfl⟩ ⟨k, by omega, hreached.mpr hnone⟩
    | cons r rest =>
      have hnot : ¬ LeastFixed A F (naive A F k) := by simp [hreached, hnone]
      rw [hnone] at hstate
      have hrest := ih hstate (cons_ne_nil r rest) fun j hj => by
        rcases Nat.lt_succ_iff_lt_or_eq.mp hj with hj | rfl
        · exact hbefore j hj
        · exact hnot
      rw [Nat.add_right_comm] at hrest
      exact hrest

variable {anchor : ResultSet}

theorem RoundState.start (hD : rowSet anchor.rows ⊆ D) (hplain : ∀ row ∈ D, PlainRow row) :
    RoundState D (rowSet anchor.rows) F 0 (dedupRows (sortRows anchor.rows))
      (dedupRows (sortRows anchor.rows)) := by
  obtain ⟨hnodup, hmem⟩ := dedup_sort fun r hr => hplain r (hD hr)
  have hset : rowSet (dedupRows (sortRows anchor.rows)) = rowSet anchor.rows := Set.ext hmem
  refine ⟨?_, hnodup, hset.subset.trans hD⟩
  rw [hset]
  exact .start

theorem runRecursiveCte_union (hanchor : run cte.query [] [] ctes none = .ok anchor) :
    runRecursiveCte run cte ctes (.union false) query = do
      let rows ← recursiveRounds run cte ctes query true anchor.columns MAX_RECURSIVE_ITERATIONS
        (dedupRows (sortRows anchor.rows)) (dedupRows (sortRows anchor.rows))
      return ⟨anchor.columns, rows⟩ := by
  rw [runRecursiveCte, hanchor]
  rfl

/-- The loop returns exactly when the least fixed point takes fewer rounds than
it has. -/
theorem runRecursiveCte_ok_iff (hanchor : run cte.query [] [] ctes none = .ok anchor)
    (hD : rowSet anchor.rows ⊆ D) (hF : TermFunction run cte ctes query anchor.columns D F)
    (htotal : ∀ working, rowSet working ⊆ D → ∃ step,
      termOn run cte ctes query anchor.columns working = .ok step ∧
        step.columns.length = anchor.columns.length) :
    (∃ table, runRecursiveCte run cte ctes (.union false) query = .ok table) ↔
      ∃ k < MAX_RECURSIVE_ITERATIONS,
        LeastFixed (rowSet anchor.rows) F (naive (rowSet anchor.rows) F k) := by
  have hstart := RoundState.start (F := F) hD hF.plain
  have hok : (∃ table, runRecursiveCte run cte ctes (.union false) query = .ok table) ↔
      ∃ rows, recursiveRounds run cte ctes query true anchor.columns MAX_RECURSIVE_ITERATIONS
        (dedupRows (sortRows anchor.rows)) (dedupRows (sortRows anchor.rows)) = .ok rows := by
    simp [runRecursiveCte_union hanchor, bind_eq_ok]
  rw [hok]
  cases hrows : dedupRows (sortRows anchor.rows) with
  | nil =>
    rw [hrows] at hstart
    refine iff_of_true ⟨[], rfl⟩ ⟨0, by decide, ?_⟩
    rw [hstart.leastFixed_iff hF.distributes, rowSet_eq_empty.mpr rfl, hF.distributes.empty,
      Set.empty_sdiff]
  | cons r rest =>
    rw [hrows] at hstart
    have hiff := recursiveRounds_ok_iff hF htotal (n := MAX_RECURSIVE_ITERATIONS) hstart
      (cons_ne_nil r rest) fun j hj => absurd hj (Nat.not_lt_zero j)
    rwa [Nat.zero_add] at hiff

/-- A recursive `UNION` whose term is a function of the set of rows that
distributes over unions returns its least fixed point, each row once.  If the
term never fails, it returns exactly when the fixed point is reached within
9999 rounds from the anchor. -/
theorem runRecursiveCte_leastFixed (hanchor : run cte.query [] [] ctes none = .ok anchor)
    (hD : rowSet anchor.rows ⊆ D) (hF : TermFunction run cte ctes query anchor.columns D F) :
    (∀ table, runRecursiveCte run cte ctes (.union false) query = .ok table →
      table.rows.Nodup ∧ LeastFixed (rowSet anchor.rows) F (rowSet table.rows)) ∧
    ((∀ working, rowSet working ⊆ D → ∃ step,
        termOn run cte ctes query anchor.columns working = .ok step ∧
          step.columns.length = anchor.columns.length) →
      ((∃ table, runRecursiveCte run cte ctes (.union false) query = .ok table) ↔
        ∃ k ≤ 9999, LeastFixed (rowSet anchor.rows) F (naive (rowSet anchor.rows) F k))) := by
  refine ⟨fun table htable => ?_, fun htotal => ?_⟩
  · rw [runRecursiveCte_union hanchor] at htable
    obtain ⟨rows, hrows, htable⟩ := htable.bind_ok
    cases htable
    exact recursiveRounds_sound hF (RoundState.start hD hF.plain) hrows
  · simp [runRecursiveCte_ok_iff hanchor hD hF htotal, MAX_RECURSIVE_ITERATIONS, Nat.lt_succ_iff]

end

/-! ## A chain -/

/-- The row of the edge from `i` to `i + 1`. -/
def edge (i : Nat) : Row :=
  [.int (Int64.ofNat i), .int (Int64.ofNat i), .int (Int64.ofNat (i + 1))]

/-- `e (s INT, d INT)` with the first `n` edges. -/
def chainTable (n : Nat) : ReadTable where
  schema := { columns := ["id", "s", "d"], types := [.int, .int, .int] }
  nextRowId := n
  rowAt i := .ok (some (edge i))
  nearest _ _ _ := .ok (0, [])

def chainView (n : Nat) : ReadView := ⟨[], [("e", chainTable n)]⟩

/-- `SELECT s FROM e WHERE s = 0`. -/
def chainAnchor : SelectStatement :=
  { selectAll "e" with columns := ["s"], star := false, filter := some (.cmp "s" .eq (.int 0)) }

/-- `SELECT e.d FROM c JOIN e ON c.s = e.s`. -/
def chainTerm : SelectStatement :=
  { selectAll "c" with
    columns := ["e.d"]
    star := false
    joins := [⟨.inner, .named "e" none, some (.cmpColumn "c.s" .eq "e.s")⟩] }

/-- `c AS (chainAnchor UNION chainTerm)`. -/
def chainCte : CTE := ⟨"c", chainAnchor, some (.union false, chainTerm)⟩

/-- The numbers behind those in the set that have a successor. -/
def chainStep (n : Nat) (X : Set Row) : Set Row :=
  {row | ∃ i < n, [.int (Int64.ofNat i)] ∈ X ∧ row = [.int (Int64.ofNat (i + 1))]}

theorem chainStep_distributes (n : Nat) : Distributes (chainStep n) := by
  intro S
  ext row
  simp only [chainStep, Set.mem_sUnion, Set.mem_iUnion]
  grind

theorem ReadTable.rows_of_total {rt : ReadTable} {f : Nat → Row} {ids : List Nat}
    (h : ∀ id ∈ ids, rt.rowAt id = .ok (some (f id))) :
    rt.rows ids = .ok (ids.map fun id => (id, f id)) := by
  induction ids with
  | nil => rfl
  | cons id ids ih =>
    rw [ReadTable.rows, h id (.head _), ih fun i hi => h i (.tail id hi)]
    rfl

theorem scanTable_chainView (n : Nat) :
    scanTable (chainView n) "e" = .ok ⟨["id", "s", "d"], (List.range n).map edge⟩ := by
  have hrows := @ReadTable.rows_of_total (chainTable n) edge (List.range n) fun _ _ => rfl
  have htable : (chainView n).table "e" = some (chainTable n) := rfl
  rw [scanTable, htable]
  simp only [Outcome.okOr, ok_bind, chainTable] at hrows ⊢
  rw [hrows]
  simp

/-- The columns `ON` sees. -/
def chainColumns : List String := ["c.s", "e.id", "e.s", "e.d"]

theorem evalExpr_chain (k : Int64) (i : Nat) :
    evalExpr (.cmpColumn "c.s" .eq "e.s") chainColumns ([.int k] ++ edge i) ["c", "e"] =
      .ok (compare k (Int64.ofNat i) == .eq) := rfl

theorem selectCore_chain (n : Nat) (numbers : List Int64) :
    selectCore (chainView n) (runSelectScoped (chainView n) 0) chainTerm [] [] [chainCte]
        (some ⟨"c", ["s"], numbers.map fun k => [.int k]⟩) = (do
      let rows ← filterRows (fun row =>
          fromExec (evalExpr (.cmpColumn "c.s" .eq "e.s") chainColumns row ["c", "e"]))
        ((numbers.map fun k => [.int k]).flatMap fun l => ((List.range n).map edge).map (l ++ ·))
      fromExec (finish chainTerm { columns := ["s", "e.id", "e.s", "e.d"], rows })) := by
  have hedges : resolveTableRef (chainView n) (runSelectScoped (chainView n) 0) (.named "e" none)
      [chainCte] (some ⟨"c", ["s"], numbers.map fun k => [.int k]⟩) =
      .ok ⟨["id", "s", "d"], (List.range n).map edge⟩ := scanTable_chainView n
  have htable : chainTerm.table = .named "c" none := rfl
  have hjoins : chainTerm.joins = [⟨.inner, .named "e" none, some (.cmpColumn "c.s" .eq "e.s")⟩] :=
    rfl
  simp only [selectCore, windowStage, groupStage, planStage, executePlan_rest]
  rw [hjoins]
  simp only [joinTables, hedges, bind_assoc]
  rfl

variable {rows : List Row} {n k : Nat}

theorem finish_chain (h : ∀ row ∈ rows, ∃ k i, row = [.int k] ++ edge i) :
    finish chainTerm { columns := ["s", "e.id", "e.s", "e.d"], rows } =
      .ok { columns := ["e.d"], rows := rows.map fun row => [row.getD 3 .null] } := by
  have hpick : rows.mapM (fun row => (pick row [3] : Outcome ExecError Row)) =
      .ok (rows.map fun row => [row.getD 3 .null]) := by
    refine mapM_of_ok fun row hrow => ?_
    obtain ⟨k, i, rfl⟩ := h row hrow
    rfl
  have hindices : columnIndices ["s", "e.id", "e.s", "e.d"] .unknownColumn ["e.d"] = .ok [3] := rfl
  simp [finish, projectColumns, chainTerm, selectAll, hindices, hpick]

theorem termOn_chain (n : Nat) (numbers : List Int64) :
    ∃ step, termOn (runSelectScoped (chainView n) 1) chainCte [chainCte] chainTerm ["s"]
        (numbers.map fun k => [.int k]) = .ok step ∧ step.columns.length = 1 ∧
      rowSet step.rows = chainStep n (rowSet (numbers.map fun k => [.int k])) := by
  let pairs : List Row :=
    (numbers.map fun k => [.int k]).flatMap fun l => ((List.range n).map edge).map (l ++ ·)
  let on (row : Row) : Bool :=
    returnsTrue (evalExpr (.cmpColumn "c.s" .eq "e.s") chainColumns row ["c", "e"])
  have hpairs : ∀ row ∈ pairs, ∃ k ∈ numbers, ∃ i < n, row = [.int k] ++ edge i := by
    intro row hrow
    simp only [pairs, mem_flatMap, mem_map, mem_range] at hrow
    obtain ⟨_, ⟨k, hk, rfl⟩, _, ⟨i, hi, rfl⟩, rfl⟩ := hrow
    exact ⟨k, hk, i, hi, rfl⟩
  have hfilter : filterRows (fun row => (fromExec (evalExpr (.cmpColumn "c.s" .eq "e.s")
      chainColumns row ["c", "e"]) : Outcome DbError Bool)) pairs = .ok (pairs.filter on) := by
    refine filterRows_of_ok fun row hrow => ?_
    obtain ⟨k, -, i, -, rfl⟩ := hpairs row hrow
    rfl
  have hfinish := @finish_chain (pairs.filter on) fun row hrow => by
    obtain ⟨k, -, i, -, rfl⟩ := hpairs row (mem_filter.mp hrow).1
    simp
  refine ⟨{ columns := ["e.d"], rows := (pairs.filter on).map fun row => [row.getD 3 .null] }, ?_,
    rfl, ?_⟩
  · rw [runSelectScoped]
    refine (selectCore_chain n numbers).trans ?_
    rw [hfilter, ok_bind, hfinish]
    rfl
  · ext row
    simp only [rowSet, mem_map, mem_filter]
    constructor
    · rintro ⟨_, ⟨hrow, hon⟩, rfl⟩
      obtain ⟨k, hk, i, hi, rfl⟩ := hpairs _ hrow
      have hki : k = Int64.ofNat i := by
        simpa only [on, evalExpr_chain, returnsTrue, beq_iff_eq, Std.compare_eq_iff_eq] using hon
      exact ⟨i, hi, ⟨k, hk, by rw [hki]⟩, rfl⟩
    · rintro ⟨i, hi, ⟨k, hk, hki⟩, rfl⟩
      cases hki
      refine ⟨[.int (Int64.ofNat i)] ++ edge i, ⟨?_, ?_⟩, rfl⟩
      · simp only [pairs, mem_flatMap, mem_map, mem_range]
        exact ⟨_, ⟨_, hk, rfl⟩, _, ⟨i, hi, rfl⟩, rfl⟩
      · simp only [on, evalExpr_chain, returnsTrue, beq_iff_eq, Std.compare_eq_iff_eq]

theorem chainAnchor_single : SingleTable chainAnchor "e" where
  table := ⟨none, rfl⟩
  joins := rfl
  windowFuncs := rfl
  having := rfl
  orderByCosine := rfl
  withCtes := rfl
  filter := by
    rintro _ ⟨⟩
    exact ⟨rfl, by simp [Expr.columnNames]; decide⟩

theorem ofNat_injOn {i j : Nat} (hi : i < 2 ^ 63) (hj : j < 2 ^ 63)
    (h : Int64.ofNat i = Int64.ofNat j) : i = j := by
  have hint := congrArg Int64.toInt h
  rw [Int64.toInt_ofNat_of_lt hi, Int64.toInt_ofNat_of_lt hj] at hint
  exact_mod_cast hint

/-- The anchor returns the row of the number 0. -/
theorem run_chainAnchor (hpos : 0 < n) (hn : n < 2 ^ 63) :
    ∃ anchor, runSelectScoped (chainView n) 1 chainAnchor [] [] [chainCte] none = .ok anchor ∧
      anchor.columns = ["s"] ∧ rowSet anchor.rows = {[.int 0]} := by
  let zero (row : Row) : Bool :=
    returnsTrue (evalExpr (.cmp "s" .eq (.int 0)) ["id", "s", "d"] row [])
  have hzero : ∀ i, zero (edge i) = (compare (Int64.ofNat i) 0 == .eq) := fun i => rfl
  have hfilter : filterRows (fun row => evalExpr (.cmp "s" .eq (.int 0)) ["id", "s", "d"] row [])
      ((List.range n).map edge) = .ok (((List.range n).map edge).filter zero) := by
    refine filterRows_of_ok fun row hrow => ?_
    obtain ⟨i, -, rfl⟩ := mem_map.mp hrow
    rfl
  have hpick : (((List.range n).map edge).filter zero).mapM
      (fun row => (pick row [1] : Outcome ExecError Row)) =
      .ok ((((List.range n).map edge).filter zero).map fun row => [row.getD 1 .null]) := by
    refine mapM_of_ok fun row hrow => ?_
    obtain ⟨i, -, rfl⟩ := mem_map.mp (mem_filter.mp hrow).1
    rfl
  have hindices : columnIndices ["id", "s", "d"] .unknownColumn ["s"] = .ok [1] := rfl
  refine ⟨⟨["s"], (((List.range n).map edge).filter zero).map fun row => [row.getD 1 .null], none⟩,
    ?_, rfl, ?_⟩
  · rw [runSelectScoped_single chainAnchor_single rfl (scanTable_chainView n) rfl]
    refine fromExec_eq_ok.mpr ?_
    simp [queryMeaning, groupMeaning, filterMeaning, finish, projectColumns, chainAnchor, selectAll,
      hfilter, hindices, hpick]
  · ext row
    simp only [rowSet, mem_map, mem_filter,
      mem_range]
    constructor
    · rintro ⟨_, ⟨⟨i, hi, rfl⟩, hrow⟩, rfl⟩
      rw [hzero, beq_iff_eq, Std.compare_eq_iff_eq] at hrow
      have hi0 : Int64.ofNat i = Int64.ofNat 0 := hrow
      cases ofNat_injOn (by omega) (by omega) hi0
      rfl
    · rintro rfl
      exact ⟨edge 0, ⟨⟨0, hpos, rfl⟩, by decide⟩, rfl⟩

/-- Rows of one number. -/
def NumberRow : Set Row := {row | ∃ k, row = [.int k]}

theorem exists_numbers (h : rowSet rows ⊆ NumberRow) :
    ∃ numbers : List Int64, rows = numbers.map fun k => [.int k] := by
  have hrange : rows ∈ Set.range (List.map fun k : Int64 => ([.int k] : Row)) := by
    rw [Set.range_list_map]
    intro row hrow
    obtain ⟨k, rfl⟩ := h hrow
    simp
  obtain ⟨numbers, rfl⟩ := hrange
  simp

theorem chain_termFunction (n : Nat) :
    TermFunction (runSelectScoped (chainView n) 1) chainCte [chainCte] chainTerm ["s"] NumberRow
      (chainStep n) where
  plain := by
    rintro _ ⟨k, rfl⟩
    simp [PlainRow, Value.Plain]
  distributes := chainStep_distributes n
  agrees := by
    intro working step hworking hstep
    obtain ⟨numbers, rfl⟩ := exists_numbers hworking
    obtain ⟨step', hstep', -, hrows⟩ := termOn_chain n numbers
    cases hstep.symm.trans hstep'
    refine ⟨hrows, ?_⟩
    rw [hrows]
    rintro _ ⟨i, -, -, rfl⟩
    exact ⟨_, rfl⟩

theorem chain_total (n : Nat) (working : List Row) (h : rowSet working ⊆ NumberRow) :
    ∃ step, termOn (runSelectScoped (chainView n) 1) chainCte [chainCte] chainTerm ["s"] working =
      .ok step ∧ step.columns.length = 1 := by
  obtain ⟨numbers, rfl⟩ := exists_numbers h
  obtain ⟨step, hstep, hcolumns, -⟩ := termOn_chain n numbers
  exact ⟨step, hstep, hcolumns⟩

/-- After `k` rounds there are the numbers up to `k`. -/
theorem naive_chain (hk : k ≤ n) :
    naive {[.int 0]} (chainStep n) k = {row | ∃ i ≤ k, row = [.int (Int64.ofNat i)]} := by
  induction k with
  | zero =>
    simp [naive]
  | succ k ih =>
    rw [naive_succ, ih (by omega)]
    ext row
    constructor
    · rintro (rfl | ⟨i, -, ⟨j, hj, hij⟩, rfl⟩)
      · exact ⟨0, Nat.zero_le _, rfl⟩
      · refine ⟨j + 1, by omega, ?_⟩
        simp only [List.cons.injEq, Value.int.injEq] at hij
        simp [hij]
    · rintro ⟨i, hi, rfl⟩
      cases i with
      | zero => exact .inl rfl
      | succ i => exact .inr ⟨i, by omega, ⟨i, by omega, rfl⟩, rfl⟩

/-- The chain of `n` edges takes exactly `n` rounds. -/
theorem leastFixed_chain (hk : k ≤ n) (hn : n < 2 ^ 63) :
    LeastFixed {[.int 0]} (chainStep n) (naive {[.int 0]} (chainStep n) k) ↔ k = n := by
  rw [leastFixed_naive_iff (chainStep_distributes n), naive_chain hk]
  constructor
  · intro hclosed
    by_contra hne
    obtain ⟨i, hi, heq⟩ := hclosed ⟨k, by omega, ⟨k, le_rfl, rfl⟩, rfl⟩
    simp only [List.cons.injEq, Value.int.injEq, and_true] at heq
    have hki := ofNat_injOn (by omega) (by omega) heq
    omega
  · rintro rfl _ ⟨i, hi, -, rfl⟩
    exact ⟨i + 1, by omega, rfl⟩

/-- A chain of three edges is followed to its end. -/
theorem runRecursiveCte_leastFixed_chain :
    ∃ table, runRecursiveCte (runSelectScoped (chainView 3) 1) chainCte [chainCte] (.union false)
        chainTerm = .ok table ∧ table.rows.Nodup ∧
      LeastFixed {[.int 0]} (chainStep 3) (rowSet table.rows) := by
  obtain ⟨⟨columns, rows, affected⟩, hanchor, hcolumns, hrows⟩ :=
    @run_chainAnchor 3 (by decide) (by decide)
  cases hcolumns
  have hD : rowSet rows ⊆ NumberRow := by
    rw [hrows]
    rintro _ rfl
    exact ⟨0, rfl⟩
  have hF : TermFunction (runSelectScoped (chainView 3) 1) chainCte [chainCte] chainTerm
    (ResultSet.mk ["s"] rows affected).columns NumberRow (chainStep 3) := chain_termFunction 3
  obtain ⟨hsound, hok⟩ := runRecursiveCte_leastFixed hanchor hD hF
  rw [hrows] at hsound hok
  obtain ⟨table, htable⟩ := (hok (chain_total 3)).mpr
    ⟨3, by decide, (leastFixed_chain le_rfl (by decide)).mpr rfl⟩
  exact ⟨table, htable, hsound table htable⟩

/-- A chain of 10000 edges ends after 10000 rounds, and the loop gives up. -/
theorem chain_gives_up :
    ∃ anchor, runSelectScoped (chainView 10000) 1 chainAnchor [] [] [chainCte] none = .ok anchor ∧
      rowSet anchor.rows ⊆ NumberRow ∧
      TermFunction (runSelectScoped (chainView 10000) 1) chainCte [chainCte] chainTerm
        anchor.columns NumberRow (chainStep 10000) ∧
      (∀ working, rowSet working ⊆ NumberRow → ∃ step,
        termOn (runSelectScoped (chainView 10000) 1) chainCte [chainCte] chainTerm anchor.columns
          working = .ok step ∧ step.columns.length = anchor.columns.length) ∧
      LeastFixed (rowSet anchor.rows) (chainStep 10000)
        (naive (rowSet anchor.rows) (chainStep 10000) 10000) ∧
      ¬ ∃ table, runRecursiveCte (runSelectScoped (chainView 10000) 1) chainCte [chainCte]
        (.union false) chainTerm = .ok table := by
  obtain ⟨⟨columns, rows, affected⟩, hanchor, hcolumns, hrows⟩ :=
    @run_chainAnchor 10000 (by omega) (by omega)
  cases hcolumns
  have hD : rowSet rows ⊆ NumberRow := by
    rw [hrows]
    rintro _ rfl
    exact ⟨0, rfl⟩
  refine ⟨_, hanchor, hD, chain_termFunction 10000, chain_total 10000, ?_, ?_⟩
  · rw [hrows]
    exact (@leastFixed_chain 10000 10000 (by omega) (by omega)).mpr rfl
  · have hiff := @runRecursiveCte_ok_iff (runSelectScoped (chainView 10000) 1) chainCte [chainCte]
      chainTerm NumberRow (chainStep 10000) ⟨["s"], rows, affected⟩ hanchor hD
      (chain_termFunction 10000) (chain_total 10000)
    rw [hiff, hrows]
    rintro ⟨k, hk, hfix⟩
    have hlt : k < 10000 := hk
    have hkn := (@leastFixed_chain 10000 k (by omega) (by omega)).mp hfix
    omega

end Archon
