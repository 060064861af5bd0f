import Archon.Lib.Grouping
import Archon.Relational.Aggregate
import Archon.Relational.ValueOrder

/-!
# Archon.Relational.GroupLaw

`GROUP BY` partitions its input: one row for each key, in ascending order, with
the aggregates of the rows that have this key.
-/

namespace Archon

open List

open Grouping (push groupAll)

variable {columns keyColumns : List String}

/-! ## Keys -/

/-- The values of a row in some columns. -/
def groupKey (columns keyColumns : List String) (row : Row) : Row :=
  keyColumns.map fun c => row.getD (columns.idxOf c) .null

/-- Every row has a value for each column. -/
def Rectangular (columns : List String) (rows : List Row) : Prop :=
  ∀ row ∈ rows, row.length = columns.length

variable {c : String} {row : Row} {indices : List Nat} {rows : List (Row × α)} {keys : List Row}

theorem columnPosition_eq_some (h : c ∈ columns) :
    columnPosition columns c = some (columns.idxOf c) := by
  rw [columnPosition, findIdx?_eq_some_iff_findIdx_eq]
  exact ⟨idxOf_lt_length_iff.mpr h, rfl⟩

theorem columnPosition_eq_none (h : c ∉ columns) : columnPosition columns c = none := by
  rw [columnPosition, findIdx?_eq_none_iff]
  intro d hd
  exact beq_false_of_ne fun heq => h (heq ▸ hd)

theorem columnIndices_eq_ok {missing : String → ExecError} (h : ∀ c ∈ keyColumns, c ∈ columns) :
    columnIndices columns missing keyColumns = .ok (keyColumns.map columns.idxOf) := by
  induction keyColumns with
  | nil => rfl
  | cons c cs ih =>
    obtain ⟨hc, hcs⟩ := forall_mem_cons.mp h
    simp [columnIndices, columnPosition_eq_some hc, Outcome.okOr, ih hcs]

theorem index_getD {i : Nat} (h : i < row.length) :
    (Outcome.index row i : Outcome ε Value) = .ok (row.getD i .null) := by
  rw [Outcome.index_eq_ok]
  simp [h]

theorem pick_eq_ok (h : ∀ i ∈ indices, i < row.length) :
    (pick row indices : Outcome ε Row) = .ok (indices.map fun i => row.getD i .null) := by
  induction indices with
  | nil => rfl
  | cons i is ih =>
    obtain ⟨hi, his⟩ := forall_mem_cons.mp h
    simp [pick, index_getD hi, ih his]

theorem pick_groupKey (hcols : ∀ c ∈ keyColumns, c ∈ columns) (hrow : row.length = columns.length) :
    (pick row (keyColumns.map columns.idxOf) : Outcome ε Row) =
      .ok (groupKey columns keyColumns row) := by
  rw [pick_eq_ok, map_map]
  · rfl
  · intro i hi
    obtain ⟨c, hc, rfl⟩ := mem_map.mp hi
    exact hrow ▸ idxOf_lt_length_iff.mpr (hcols c hc)

/-! ## Groups -/

theorem groupInsert_eq_push (key : Row) (a : α) (groups : List (Row × List α)) :
    groupInsert key a groups = push rowCmp key a groups := by
  induction groups with
  | nil => rfl
  | cons g groups ih =>
    obtain ⟨k, as⟩ := g
    cases hcmp : rowCmp key k <;> simp only [groupInsert, push, ih, hcmp]

theorem groupRows_eq_foldl {key : Row → Row}
    (h : ∀ r ∈ rows, (pick r.1 indices : Outcome ε Row) = .ok (key r.1))
    (groups : List (Row × List α)) :
    (groupRows indices rows groups : Outcome ε (List (Row × List α))) =
      .ok (rows.foldl (fun groups r => push rowCmp (key r.1) r.2 groups) groups) := by
  induction rows generalizing groups with
  | nil => rfl
  | cons r rows ih =>
    obtain ⟨hr, hrows⟩ := forall_mem_cons.mp h
    simp [groupRows, hr, ih hrows, groupInsert_eq_push]

/-- The keys that occur, in ascending order. -/
def sortedKeys (keys : List Row) : List Row :=
  (groupAll rowCmp (keys.map fun k => (k, ()))).map Prod.fst

theorem ascending_sortedKeys (keys : List Row) : Grouping.Ascending rowCmp (sortedKeys keys) :=
  Grouping.ascending_groupAll _

theorem mem_sortedKeys {k : Row} : k ∈ sortedKeys keys ↔ k ∈ keys := by
  rw [sortedKeys, Grouping.mem_keys_groupAll]
  simp

theorem sortedKeys_congr {keys' : List Row} (h : ∀ k, k ∈ keys ↔ k ∈ keys') :
    sortedKeys keys = sortedKeys keys' :=
  (ascending_sortedKeys keys).eq_of_mem_iff (ascending_sortedKeys keys') fun k => by
    rw [mem_sortedKeys, mem_sortedKeys, h]

/-- Rows are grouped by their key, in ascending order of the keys. -/
theorem groupRows_eq_ok (hcols : ∀ c ∈ keyColumns, c ∈ columns)
    (hrows : ∀ r ∈ rows, r.1.length = columns.length) :
    (groupRows (keyColumns.map columns.idxOf) rows [] : Outcome ε (List (Row × List α))) =
      .ok ((sortedKeys (rows.map fun r => groupKey columns keyColumns r.1)).map fun k =>
        (k, (rows.filter fun r => groupKey columns keyColumns r.1 = k).map Prod.snd)) := by
  rw [groupRows_eq_foldl fun r hr => pick_groupKey hcols (hrows r hr)]
  have hfold : rows.foldl (fun groups r => push rowCmp (groupKey columns keyColumns r.1) r.2 groups)
      [] = groupAll rowCmp (rows.map fun r => (groupKey columns keyColumns r.1, r.2)) := by
    rw [groupAll, foldl_map]
  have hkeys : (groupAll rowCmp (rows.map fun r => (groupKey columns keyColumns r.1, r.2))).map
      Prod.fst = sortedKeys (rows.map fun r => groupKey columns keyColumns r.1) := by
    refine (Grouping.ascending_groupAll _).eq_of_mem_iff (ascending_sortedKeys _) fun k => ?_
    rw [Grouping.mem_keys_groupAll, mem_sortedKeys, map_map]
    rfl
  rw [hfold, Grouping.groupAll_eq, hkeys]
  refine congrArg Except.ok (map_congr_left fun k _ => ?_)
  rw [filter_map, map_map]
  rfl

/-! ## Output rows -/

section

variable {columns groupBy : List String} {aggregates : List (String × AggregateFunc × String)}
  {rows : List Row}

/-- A group's row: its key, then its aggregates. -/
theorem aggregateGroup_eq (hcols : ∀ c ∈ groupBy, c ∈ columns) (hrect : Rectangular columns rows)
    {k : Row} (hk : k ∈ rows.map (groupKey columns groupBy)) :
    aggregateGroup columns (groupBy.map columns.idxOf) aggregates
        (rows.filter fun r => groupKey columns groupBy r = k) = (do
      let aggVals ← evalAggregates columns (rows.filter fun r => groupKey columns groupBy r = k)
        aggregates
      return k ++ aggVals) := by
  obtain ⟨r, hr, hkey⟩ := mem_map.mp hk
  have hmem : r ∈ rows.filter fun r => groupKey columns groupBy r = k := by simp [hr, hkey]
  cases hgroup : rows.filter fun r => groupKey columns groupBy r = k with
  | nil => grind
  | cons first rest =>
    have hfirst : first ∈ rows.filter fun r => groupKey columns groupBy r = k := by simp [hgroup]
    obtain ⟨hin, hfirstKey⟩ := mem_filter.mp hfirst
    have hpick : (pick first (groupBy.map columns.idxOf) : Outcome ExecError Row) = .ok k := by
      rw [pick_groupKey hcols (hrect first hin), of_decide_eq_true hfirstKey]
    simp only [aggregateGroup, Outcome.index, getElem?_cons_zero, Except.ok_bind, hpick]

theorem aggregateTable_eq (hne : groupBy ≠ []) (hcols : ∀ c ∈ groupBy, c ∈ columns)
    (hrect : Rectangular columns rows) :
    aggregateTable columns rows groupBy aggregates = (do
      let outRows ← (sortedKeys (rows.map (groupKey columns groupBy))).mapM fun k => do
        let aggVals ← evalAggregates columns (rows.filter fun r => groupKey columns groupBy r = k)
          aggregates
        return k ++ aggVals
      return { columns := groupBy ++ aggregates.map Prod.fst, rows := outRows }) := by
  have hempty : groupBy.isEmpty = false := by simpa using hne
  have hgroups : (groupRows (groupBy.map columns.idxOf) (rows.map fun r => (r, r)) [] :
      Outcome ExecError (List (Row × List Row))) =
      .ok ((sortedKeys (rows.map (groupKey columns groupBy))).map fun k =>
        (k, rows.filter fun r => groupKey columns groupBy r = k)) := by
    rw [groupRows_eq_ok hcols (by simpa [Rectangular] using hrect)]
    simp [filter_map, Function.comp_def]
  rw [← Except.mapM_congr fun k hk => aggregateGroup_eq hcols hrect (mem_sortedKeys.mp hk)]
  simp [aggregateTable, hempty, columnIndices_eq_ok hcols,
    hgroups, Function.comp_def]

end

theorem evalAggregate_count (c : String) (columns : List String) (rows : List Row) :
    evalAggregate .count c columns rows = .ok (.int (Int64.ofNat rows.length)) := rfl

/-- The numbers of rows of all groups add up to the number of rows. -/
theorem sum_counts {groups : List (List Row)} (hlen : groups.flatten.length < 2 ^ 63) :
    (groups.map fun g => (Int64.ofNat g.length).toInt).sum = groups.flatten.length := by
  induction groups with
  | nil => rfl
  | cons g groups ih =>
    rw [flatten_cons, length_append] at hlen ⊢
    have hg : (Int64.ofNat g.length).toInt = g.length := Int64.toInt_ofNat_of_lt (by omega)
    rw [map_cons, sum_cons, hg, ih (by omega), Int.natCast_add]

/-- The rows with key `k`, in input order; keys are told apart by the order of
values. -/
def groupOf (columns keyColumns : List String) (rows : List Row) (k : Row) : List Row :=
  rows.filter fun r => rowCmp (groupKey columns keyColumns r) k == .eq

theorem groupOf_eq_filter (columns keyColumns : List String) (rows : List Row) (k : Row) :
    groupOf columns keyColumns rows k = rows.filter fun r => groupKey columns keyColumns r = k := by
  refine filter_congr fun r _ => ?_
  grind

theorem groups_perm (columns groupBy : List String) (rows : List Row) :
    ((sortedKeys (rows.map (groupKey columns groupBy))).flatMap
      (groupOf columns groupBy rows)).Perm rows := by
  have hgroup : groupOf columns groupBy rows =
      fun k => rows.filter fun r => groupKey columns groupBy r = k :=
    funext (groupOf_eq_filter columns groupBy rows)
  rw [hgroup]
  exact Grouping.flatMap_filter_perm _ (ascending_sortedKeys _).nodup
    fun r hr => mem_sortedKeys.mpr (mem_map_of_mem hr)

/-- `GROUP BY` partitions its input.  The keys that occur come once each, in
ascending order; a group's row is its key with the aggregates of exactly the
rows that have it.  Every row is in one group, so that the counts add up, and a
permutation of the input changes only the order inside the groups. -/
theorem group_by_partitions (columns groupBy : List String)
    (aggregates : List (String × AggregateFunc × String)) (rows : List Row) (hne : groupBy ≠ [])
    (hcols : ∀ c ∈ groupBy, c ∈ columns) (hrect : Rectangular columns rows) :
    ∃ keys : List Row,
      aggregateTable columns rows groupBy aggregates = (do
        let outRows ← keys.mapM fun k => do
          let aggVals ← evalAggregates columns (groupOf columns groupBy rows k) aggregates
          return k ++ aggVals
        return { columns := groupBy ++ aggregates.map Prod.fst, rows := outRows }) ∧
      keys.Pairwise (fun k k' => rowCmp k k' = .lt) ∧
      (∀ k, k ∈ keys ↔ ∃ r ∈ rows, groupKey columns groupBy r = k) ∧
      (keys.flatMap (groupOf columns groupBy rows)).Perm rows ∧
      (∀ k, (groupOf columns groupBy rows k).Sublist rows) ∧
      (rows.length < 2 ^ 63 → ∃ counts : List Int64,
        (∀ col, keys.mapM (fun k =>
          evalAggregate .count col columns (groupOf columns groupBy rows k)) =
            .ok (counts.map .int)) ∧
        (counts.map Int64.toInt).sum = rows.length) ∧
      ∀ rows' : List Row, rows'.Perm rows →
        aggregateTable columns rows' groupBy aggregates = (do
          let outRows ← keys.mapM fun k => do
            let aggVals ← evalAggregates columns (groupOf columns groupBy rows' k) aggregates
            return k ++ aggVals
          return { columns := groupBy ++ aggregates.map Prod.fst, rows := outRows }) ∧
        ∀ k, (groupOf columns groupBy rows' k).Perm (groupOf columns groupBy rows k) := by
  have hperm := groups_perm columns groupBy rows
  have hkeys {rows' : List Row} (h : rows'.Perm rows) :
      sortedKeys (rows'.map (groupKey columns groupBy)) =
        sortedKeys (rows.map (groupKey columns groupBy)) :=
    sortedKeys_congr fun k => (h.map _).mem_iff
  have htable {rows' : List Row} (h : rows'.Perm rows) :
      aggregateTable columns rows' groupBy aggregates = (do
        let outRows ← (sortedKeys (rows.map (groupKey columns groupBy))).mapM fun k => do
          let aggVals ← evalAggregates columns (groupOf columns groupBy rows' k) aggregates
          return k ++ aggVals
        return { columns := groupBy ++ aggregates.map Prod.fst, rows := outRows }) := by
    have hrect' : Rectangular columns rows' := fun r hr => hrect r (h.mem_iff.mp hr)
    simp [aggregateTable_eq hne hcols hrect', hkeys h, groupOf_eq_filter]
  refine ⟨_, htable (List.Perm.refl rows), ascending_sortedKeys _, fun k => ?_, hperm,
    fun k => filter_sublist, fun hlen => ?_, fun rows' h => ⟨htable h, fun k => ?_⟩⟩
  · rw [mem_sortedKeys, mem_map]
  · have hlen' := hperm.length_eq
    rw [List.flatMap] at hlen'
    refine ⟨(sortedKeys (rows.map (groupKey columns groupBy))).map fun k =>
      Int64.ofNat (groupOf columns groupBy rows k).length, fun col => ?_, ?_⟩
    · rw [map_map]
      exact Except.mapM_of_ok fun k _ => evalAggregate_count col columns _
    · rw [← hlen', ← sum_counts (by omega), map_map, map_map]
      rfl
  · exact h.filter _

theorem group_by_partitions_two_keys :
    ∃ keys : List Row,
      aggregateTable ["g", "v"] [[.int 2, .int 5], [.int 1, .int 7], [.int 2, .null]] ["g"]
          [("n", .count, "v")] = (do
        let outRows ← keys.mapM fun k => do
          let aggVals ← evalAggregates ["g", "v"] (groupOf ["g", "v"] ["g"]
            [[.int 2, .int 5], [.int 1, .int 7], [.int 2, .null]] k) [("n", .count, "v")]
          return k ++ aggVals
        return { columns := ["g", "n"], rows := outRows }) ∧
      keys.Pairwise (fun k k' => rowCmp k k' = .lt) := by
  have hrect : Rectangular ["g", "v"] [[.int 2, .int 5], [.int 1, .int 7], [.int 2, .null]] := by
    simp [Rectangular]
  obtain ⟨keys, htable, hsorted, -⟩ := group_by_partitions ["g", "v"] ["g"] [("n", .count, "v")] _
    (by simp) (by simp) hrect
  exact ⟨keys, htable, hsorted⟩

end Archon
