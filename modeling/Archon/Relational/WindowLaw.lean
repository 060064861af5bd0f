import Archon.Lib.Scatter
import Archon.Relational.GroupLaw
import Archon.Relational.Window

/-!
# Archon.Relational.WindowLaw

What a window call computes, partition by partition.  Every row is in one
partition, a partition is sorted once, and the value at a position of the
sorted partition is written to the row that stands there.  So a call returns
`out` exactly when `out`, read along each sorted partition, is what
`windowValues` gives for it (`evalWindowCall_eq_ok_iff`).
-/

namespace Archon

open Outcome Except

open Scatter (scatter)

variable {rows : List Row} {columns : List String} {call : WindowCall}
variable {orderIndices : List (Nat × Bool)} {part : List Row} {vals : List Value}

/-! ## Partitions -/

/-- The rows with their positions. -/
def enumerated (rows : List Row) : List (Nat × Row) := rows.mapIdx fun i r => (i, r)

/-- The rows of one partition with their positions, in input order. -/
def partitionOf (columns partitionBy : List String) (rows : List Row) (k : Row) :
    List (Nat × Row) :=
  (enumerated rows).filter fun x => groupKey columns partitionBy x.2 = k

/-- The sort columns of a call whose columns all exist. -/
def orderColumns (columns : List String) (orderBy : List OrderBy) : List (Nat × Bool) :=
  orderBy.map fun ob => (columns.idxOf ob.column, ob.descending)

/-- A partition in the order of the call. -/
def sortedPartition (columns : List String) (rows : List Row) (spec : WindowSpec) (k : Row) :
    List (Nat × Row) :=
  (partitionOf columns spec.partitionBy rows k).mergeSort fun a b =>
    compareBy (orderColumns columns spec.orderBy) a.2 b.2 != .gt

/-- The keys of the partitions, ascending. -/
def partitionKeys (columns : List String) (rows : List Row) (spec : WindowSpec) : List Row :=
  sortedKeys (rows.map (groupKey columns spec.partitionBy))

variable {x : Nat × Row} {k : Row} {column c : String} {xs : List α} {out : List Value} {n : Nat}
  {f : AggregateFunc} {g : List String}

theorem mem_enumerated : x ∈ enumerated rows ↔ rows[x.1]? = some x.2 := by
  simp only [enumerated, List.mem_mapIdx]
  constructor
  · rintro ⟨i, hi, rfl⟩
    simp
  · intro h
    obtain ⟨hi, hrow⟩ := List.getElem?_eq_some_iff.mp h
    exact ⟨x.1, hi, by rw [hrow]⟩

theorem map_enumerated (f : Nat × Row → α) (rows : List Row) :
    (enumerated rows).map f = rows.mapIdx fun i r => f (i, r) := by
  apply List.ext_getElem <;> simp [enumerated]

theorem map_snd_enumerated (rows : List Row) : (enumerated rows).map Prod.snd = rows := by
  apply List.ext_getElem <;> simp [enumerated]

theorem map_fst_enumerated (rows : List Row) :
    (enumerated rows).map Prod.fst = List.range rows.length := by
  apply List.ext_getElem <;> simp [enumerated]

theorem sortedPartition_perm (columns : List String) (rows : List Row) (spec : WindowSpec)
    (k : Row) : (sortedPartition columns rows spec k).Perm
      (partitionOf columns spec.partitionBy rows k) :=
  List.mergeSort_perm ..

theorem mem_sortedPartition {spec : WindowSpec} :
    x ∈ sortedPartition columns rows spec k ↔
      rows[x.1]? = some x.2 ∧ groupKey columns spec.partitionBy x.2 = k := by
  rw [(sortedPartition_perm columns rows spec k).mem_iff, partitionOf, List.mem_filter,
    mem_enumerated, decide_eq_true_iff]

section

variable (columns : List String)

/-- The sorted partitions hold every row once. -/
theorem sortedPartitions_perm (rows : List Row) (spec : WindowSpec) :
    ((partitionKeys columns rows spec).flatMap (sortedPartition columns rows spec)).Perm
      (enumerated rows) := by
  have hmem : ∀ x ∈ enumerated rows,
      groupKey columns spec.partitionBy x.2 ∈ partitionKeys columns rows spec := by
    intro x hx
    exact mem_sortedKeys.mpr (List.mem_map_of_mem (List.mem_of_getElem? (mem_enumerated.mp hx)))
  exact (List.Perm.flatMap_left _ fun k _ => sortedPartition_perm columns rows spec k).trans
    (Grouping.flatMap_filter_perm _ (ascending_sortedKeys _).nodup hmem)

/-- Every row has its place in the partition of its key. -/
theorem mem_sortedPartition_self (spec : WindowSpec) {i : Nat} (hi : i < rows.length) :
    groupKey columns spec.partitionBy rows[i] ∈ partitionKeys columns rows spec ∧
      (i, rows[i]) ∈ sortedPartition columns rows spec
        (groupKey columns spec.partitionBy rows[i]) :=
  ⟨mem_sortedKeys.mpr (List.mem_map_of_mem (List.getElem_mem hi)),
    mem_sortedPartition.mpr ⟨List.getElem?_eq_getElem hi, rfl⟩⟩

theorem nodup_positions (rows : List Row) (spec : WindowSpec) :
    ((partitionKeys columns rows spec).flatMap fun k =>
      (sortedPartition columns rows spec k).map Prod.fst).Nodup := by
  have hperm := (sortedPartitions_perm columns rows spec).map Prod.fst
  rw [map_fst_enumerated, List.map_flatMap] at hperm
  exact hperm.nodup_iff.mpr List.nodup_range

end

/-! ## Values of a partition -/

/-- Whether the row continues the ties of the row before it. -/
def tiedWith (prev : Option Row) (cur : Row) (orderIndices : List (Nat × Bool)) : Outcome ε Bool :=
  match prev with
  | none => return true
  | some prev => tiedOn prev cur orderIndices

theorem rankRows_cons (orderIndices : List (Nat × Bool)) (dense : Bool) (pos : Nat)
    (rank denseRank : Int64) (prev : Option Row) (cur : Row) (rest : List Row) :
    (rankRows orderIndices dense pos rank denseRank prev (cur :: rest) : Outcome ε _) = (do
      let tied ← tiedWith prev cur orderIndices
      let rank' := if tied then rank else Int64.ofNat pos + 1
      let denseRank' := if tied then denseRank else denseRank + 1
      let vs ← rankRows orderIndices dense (pos + 1) rank' denseRank' (some cur) rest
      return .int (if dense then denseRank' else rank') :: vs) := by
  cases prev <;> rfl

/-- The values of the sort column, where a `RANGE` frame reads them. -/
def orderValues (frame : WindowFrame) (orderIndices : List (Nat × Bool)) (part : List Row) :
    Outcome ε (List Value) :=
  match frame.kind, orderIndices with
  | .range, [(oi, _)] => part.mapM fun r => index r oi
  | _, _ => return []

/-- The aggregate over the frame of the row at `pos`. -/
def frameValue (part : List Row) (columns : List String) (func : AggregateFunc) (column : String)
    (orderIndices : List (Nat × Bool)) (frame : WindowFrame) (orderVals : List Value) (pos : Nat) :
    Outcome ExecError Value := do
  let (start, stop) ← resolveFrame frame pos orderVals orderIndices part
  if start > stop then return if func = .count then .int 0 else .null
  else
    let frameRows ← (List.range' start (stop + 1 - start)).mapM fun p => index part p
    evalAggregate func column columns frameRows

theorem aggregateFrames_eq (part : List Row) (columns : List String) (func : AggregateFunc)
    (column : String) (orderIndices : List (Nat × Bool)) (frame : WindowFrame) :
    aggregateFrames part columns func column orderIndices frame = (do
      if frame.kind = .range ∧ (isNumericBound frame.start || isNumericBound frame.stop) ∧
          orderIndices.length ≠ 1 then
        fail (.unsupported
          "RANGE frame with a numeric offset requires exactly one ORDER BY column")
      let orderVals ← orderValues frame orderIndices part
      (List.range part.length).mapM
        (frameValue part columns func column orderIndices frame orderVals)) := by
  obtain ⟨kind, start, stop⟩ := frame
  cases kind with
  | rows => rfl
  | range => rcases orderIndices with _ | ⟨⟨oi, desc⟩, _ | ⟨_, _⟩⟩ <;> rfl

theorem length_rankRows {dense : Bool} {pos : Nat} {rank denseRank : Int64} {prev : Option Row}
    (h : (rankRows orderIndices dense pos rank denseRank prev part : Outcome ε _) = .ok vals) :
    vals.length = part.length := by
  induction part generalizing pos rank denseRank prev vals with
  | nil =>
    cases h
    rfl
  | cons cur part ih =>
    rw [rankRows_cons] at h
    obtain ⟨tied, -, h⟩ := h.bind_ok
    obtain ⟨vs, hvs, h⟩ := h.bind_ok
    cases h
    simp [ih hvs]

theorem length_shiftRows {default : Option Literal} {target : Int64 → Int64}
    (h : shiftRows part columns column default target = .ok vals) : vals.length = part.length := by
  obtain ⟨idx, -, h⟩ := h.bind_ok
  simpa using length_of_mapM_eq_ok h

theorem length_aggregateFrames {func : AggregateFunc} {frame : WindowFrame}
    (h : aggregateFrames part columns func column orderIndices frame = .ok vals) :
    vals.length = part.length := by
  rw [aggregateFrames_eq] at h
  obtain ⟨-, h⟩ := unless_eq_ok.mp h
  obtain ⟨orderVals, -, h⟩ := h.bind_ok
  simpa using length_of_mapM_eq_ok h

/-- Every row of a partition gets a value. -/
theorem length_windowValues (h : windowValues call columns orderIndices part = .ok vals) :
    vals.length = part.length := by
  unfold windowValues at h
  split at h
  · cases h
    simp
  · exact length_rankRows h
  · exact length_rankRows h
  · exact length_shiftRows h
  · exact length_shiftRows h
  · exact length_aggregateFrames h

/-! ## Calls -/

theorem sortIndices_eq_ok {orderBy : List OrderBy} (h : ∀ ob ∈ orderBy, ob.column ∈ columns) :
    sortIndices columns orderBy = .ok (orderColumns columns orderBy) := by
  refine mapM_of_ok fun ob hob => ?_
  rw [columnPosition_eq_some (h ob hob)]
  rfl

variable {indices : List (Nat × Bool)}

theorem comparable_of_lt {a b : Row} (ha : ∀ i ∈ indices, i.1 < a.length)
    (hb : ∀ i ∈ indices, i.1 < b.length) : comparable indices a b = true := by
  induction indices with
  | nil => rfl
  | cons i indices ih => grind [comparable]

theorem sortByColumns_eq_ok {rowOf : α → Row}
    (h : ∀ x ∈ xs, ∀ i ∈ indices, i.1 < (rowOf x).length) :
    (sortByColumns rowOf indices xs : Outcome ε (List α)) =
      .ok (xs.mergeSort fun a b => compareBy indices (rowOf a) (rowOf b) != .gt) :=
  if_pos (List.pairwise_of_forall_mem_list fun a ha b hb => comparable_of_lt (h a ha) (h b hb))

/-- The partitions' values are computed first, then written. -/
theorem windowPartitions_eq {parts : List (Row × List (Nat × Row))}
    {sorted : Row → List (Nat × Row)}
    (hsort : ∀ p ∈ parts, (sortByColumns Prod.snd orderIndices p.2 : Outcome ExecError _) =
      .ok (sorted p.1)) (result : List Value) :
    windowPartitions call columns orderIndices parts result = (do
      let valss ← (parts.map Prod.fst).mapM fun k =>
        windowValues call columns orderIndices ((sorted k).map Prod.snd)
      return scatter (((parts.map Prod.fst).zip valss).flatMap fun kv =>
        ((sorted kv.1).map Prod.fst).zip kv.2) result) := by
  induction parts generalizing result with
  | nil => rfl
  | cons p parts ih =>
    obtain ⟨hp, hparts⟩ := List.forall_mem_cons.mp hsort
    simp only [windowPartitions, hp, ih hparts]
    simp [scatter, List.zip_map_left, List.foldl_map]

section

variable {call : WindowCall} {columns : List String} {rows : List Row}
  (hpart : ∀ c ∈ call.spec.partitionBy, c ∈ columns)
  (horder : ∀ ob ∈ call.spec.orderBy, ob.column ∈ columns)
  (hrect : Rectangular columns rows)

include hpart horder hrect

theorem evalWindowCall_eq :
    evalWindowCall call columns rows = (do
      let valss ← (partitionKeys columns rows call.spec).mapM fun k =>
        windowValues call columns (orderColumns columns call.spec.orderBy)
          ((sortedPartition columns rows call.spec k).map Prod.snd)
      return scatter (((partitionKeys columns rows call.spec).zip valss).flatMap fun kv =>
          ((sortedPartition columns rows call.spec kv.1).map Prod.fst).zip kv.2)
        (List.replicate rows.length .null)) := by
  have hrows : (rows.mapIdx fun i r => (r, (i, r))) = (enumerated rows).map fun x => (x.2, x) := by
    rw [map_enumerated]
  have hwidth : ∀ x ∈ enumerated rows, x.2.length = columns.length :=
    fun x hx => hrect x.2 (List.mem_of_getElem? (mem_enumerated.mp hx))
  have hgroups : (groupRows (call.spec.partitionBy.map columns.idxOf)
      (rows.mapIdx fun i r => (r, (i, r))) [] : Outcome ExecError _) =
      .ok ((partitionKeys columns rows call.spec).map fun k =>
        (k, partitionOf columns call.spec.partitionBy rows k)) := by
    rw [hrows, groupRows_eq_ok hpart (List.forall_mem_map.mpr hwidth)]
    have hkeys : (enumerated rows).map (fun x => groupKey columns call.spec.partitionBy x.2) =
        rows.map (groupKey columns call.spec.partitionBy) := by
      conv_rhs => rw [← map_snd_enumerated rows, List.map_map]
      rfl
    simp [List.filter_map, Function.comp_def, partitionKeys, partitionOf, hkeys]
  have hsort : ∀ p ∈ (partitionKeys columns rows call.spec).map fun k =>
        (k, partitionOf columns call.spec.partitionBy rows k),
      (sortByColumns Prod.snd (orderColumns columns call.spec.orderBy) p.2 :
        Outcome ExecError _) = .ok (sortedPartition columns rows call.spec p.1) := by
    intro p hp
    obtain ⟨k, -, rfl⟩ := List.mem_map.mp hp
    refine sortByColumns_eq_ok fun x hx i hi => ?_
    obtain ⟨ob, hob, rfl⟩ := List.mem_map.mp hi
    rw [hwidth x (List.mem_filter.mp hx).1]
    exact List.idxOf_lt_length_iff.mpr (horder ob hob)
  simp [evalWindowCall, columnIndices_eq_ok hpart, sortIndices_eq_ok horder, hgroups,
    windowPartitions_eq hsort, Function.comp_def]

end

/-! ## Reading the result -/

section

variable {columns : List String} {rows : List Row} {spec : WindowSpec} {g : Row → List Value}

/-- What a call writes if `g` gives the values of each partition. -/
def windowWrites (columns : List String) (rows : List Row) (spec : WindowSpec)
    (g : Row → List Value) : List (Nat × Value) :=
  (partitionKeys columns rows spec).flatMap fun k =>
    ((sortedPartition columns rows spec k).map Prod.fst).zip (g k)

theorem zip_map_self (f : α → β) (as : List α) : as.zip (as.map f) = as.map fun a => (a, f a) := by
  induction as with
  | nil => rfl
  | cons a as ih => rw [List.map_cons, List.zip_cons_cons, ih, List.map_cons]

section

variable
  (hg : ∀ k ∈ partitionKeys columns rows spec, (g k).length =
    (sortedPartition columns rows spec k).length)
include hg

theorem positions_windowWrites :
    (windowWrites columns rows spec g).map Prod.fst =
      (partitionKeys columns rows spec).flatMap fun k =>
        (sortedPartition columns rows spec k).map Prod.fst := by
  rw [windowWrites, List.map_flatMap]
  refine List.flatMap_congr fun k hk => ?_
  rw [List.map_fst_zip]
  rw [List.length_map, hg k hk]

/-- The written values, read along a partition, are the partition's values. -/
theorem read_windowWrites (hk : k ∈ partitionKeys columns rows spec) :
    (sortedPartition columns rows spec k).map (fun x =>
      (scatter (windowWrites columns rows spec g)
        (List.replicate rows.length .null)).getD x.1 .null) = g k := by
  have hnodup : ((windowWrites columns rows spec g).map Prod.fst).Nodup := by
    rw [positions_windowWrites hg]
    exact nodup_positions columns rows spec
  apply List.ext_getElem
  · rw [List.length_map, hg k hk]
  · intro p hp hp'
    rw [List.length_map] at hp
    have hrow := (mem_sortedPartition.mp (List.getElem_mem hp)).1
    have hlt := (List.getElem?_eq_some_iff.mp hrow).1
    have hzip : p < (((sortedPartition columns rows spec k).map Prod.fst).zip (g k)).length := by
      grind
    have hmem : ((sortedPartition columns rows spec k)[p].1, (g k)[p]) ∈
        windowWrites columns rows spec g := by
      refine List.mem_flatMap.mpr ⟨k, hk, ?_⟩
      simpa using List.getElem_mem hzip
    have hread := Scatter.getElem?_scatter hnodup hmem (List.replicate rows.length .null)
      (by simpa using hlt)
    rw [List.getElem_map, List.getD_eq_getElem?_getD, hread, Option.getD_some]

end

/-- Any result is written by the values read along the partitions. -/
theorem scatter_windowWrites (hlen : out.length = rows.length) :
    scatter (windowWrites columns rows spec fun k =>
      (sortedPartition columns rows spec k).map fun x => out.getD x.1 .null)
        (List.replicate rows.length .null) = out := by
  have hnodup : ((windowWrites columns rows spec fun k =>
      (sortedPartition columns rows spec k).map fun x => out.getD x.1 .null).map
        Prod.fst).Nodup := by
    rw [positions_windowWrites fun k _ => List.length_map _]
    exact nodup_positions columns rows spec
  refine List.ext_getElem? fun i => ?_
  by_cases hi : i < rows.length
  · obtain ⟨hk, hx⟩ := mem_sortedPartition_self columns spec hi
    have hmem : (i, out.getD i .null) ∈ windowWrites columns rows spec fun k =>
        (sortedPartition columns rows spec k).map fun x => out.getD x.1 .null := by
      refine List.mem_flatMap.mpr ⟨_, hk, ?_⟩
      rw [List.zip_map']
      exact List.mem_map_of_mem hx
    rw [Scatter.getElem?_scatter hnodup hmem _ (by simpa using hi)]
    simp [hlen, hi]
  · rw [List.getElem?_eq_none (by simpa using hi), List.getElem?_eq_none (by omega)]

end

/-- A call returns `out` exactly when `out`, read along every sorted partition,
is the list of the partition's values. -/
theorem evalWindowCall_eq_ok_iff (hpart : ∀ c ∈ call.spec.partitionBy, c ∈ columns)
    (horder : ∀ ob ∈ call.spec.orderBy, ob.column ∈ columns) (hrect : Rectangular columns rows) :
    evalWindowCall call columns rows = .ok out ↔
      out.length = rows.length ∧ ∀ k ∈ partitionKeys columns rows call.spec,
        windowValues call columns (orderColumns columns call.spec.orderBy)
            ((sortedPartition columns rows call.spec k).map Prod.snd) =
          .ok ((sortedPartition columns rows call.spec k).map fun x => out.getD x.1 .null) := by
  rw [evalWindowCall_eq hpart horder hrect]
  constructor
  · intro h
    obtain ⟨valss, hvalss, h⟩ := h.bind_ok
    obtain ⟨g, rfl, hg⟩ := exists_map_of_mapM_eq_ok hvalss
    have hlen : ∀ k ∈ partitionKeys columns rows call.spec,
        (g k).length = (sortedPartition columns rows call.spec k).length := by
      intro k hk
      rw [length_windowValues (hg k hk), List.length_map]
    rw [zip_map_self, List.flatMap_map] at h
    cases h
    refine ⟨by simp, fun k hk => ?_⟩
    rw [hg k hk]
    exact congrArg ok (read_windowWrites hlen hk).symm
  · rintro ⟨hlen, hvals⟩
    rw [mapM_of_ok hvals, ok_bind, zip_map_self, List.flatMap_map]
    exact congrArg ok (scatter_windowWrites hlen)

/-! ## Aggregates over whole partitions -/

theorem mapM_index_range' {s : Nat} (h : s + n ≤ xs.length) :
    ((List.range' s n).mapM fun p => (index xs p : Outcome ε α)) =
      .ok ((xs.drop s).take n) := by
  induction n generalizing s with
  | zero => simp
  | succ n ih =>
    have hs : s < xs.length := by omega
    have hindex : (index xs s : Outcome ε α) = .ok xs[s] :=
      index_eq_ok.mpr (List.getElem?_eq_getElem hs)
    rw [List.range'_succ, List.mapM_cons, hindex, ih (by omega), List.drop_eq_getElem_cons hs]
    rfl

/-- `f(c) OVER (PARTITION BY g)`. -/
def overPartition (f : AggregateFunc) (c : String) (g : List String) : WindowCall :=
  { func := .agg f c, spec := { partitionBy := g, orderBy := [], frame := none } }

section

variable (columns g : List String) (rows : List Row)

theorem sortedPartition_unordered (f : AggregateFunc) (c : String) (k : Row) :
    sortedPartition columns rows (overPartition f c g).spec k = partitionOf columns g rows k :=
  List.mergeSort_of_pairwise (List.pairwise_of_forall fun _ _ => rfl)

theorem map_snd_partitionOf (k : Row) :
    (partitionOf columns g rows k).map Prod.snd = groupOf columns g rows k := by
  rw [groupOf_eq_filter]
  conv_rhs => rw [← map_snd_enumerated rows, List.filter_map]
  rfl

end

/-- Without a sort column every frame is the whole partition. -/
theorem windowValues_overPartition (f : AggregateFunc) (c : String) (g columns : List String)
    (part : List Row) :
    windowValues (overPartition f c g) columns [] part =
      part.mapM fun _ => evalAggregate f c columns part := by
  have hvalue : ∀ pos ∈ List.range part.length,
      frameValue part columns f c [] ⟨.rows, .unboundedPreceding, .unboundedFollowing⟩ [] pos =
        evalAggregate f c columns part := by
    intro pos hpos
    have hlen : part.length - 1 + 1 = part.length := by
      have := List.mem_range.mp hpos
      omega
    simp only [frameValue, resolveFrame, resolveBound, pure_bind, Nat.not_lt_zero, if_false,
      hlen, Nat.sub_zero]
    rw [mapM_index_range' (by omega), List.drop_zero, List.take_length, ok_bind]
  calc windowValues (overPartition f c g) columns [] part
    _ = (List.range part.length).mapM fun _ => evalAggregate f c columns part :=
        mapM_congr hvalue
    _ = part.mapM fun _ => evalAggregate f c columns part :=
        mapM_const_congr List.length_range

theorem overPartition_eq_ok_iff (hcols : ∀ c ∈ g, c ∈ columns) (hrect : Rectangular columns rows) :
    evalWindowCall (overPartition f c g) columns rows = .ok out ↔
      out.length = rows.length ∧ ∀ x ∈ enumerated rows,
        evalAggregate f c columns (groupOf columns g rows (groupKey columns g x.2)) =
          .ok (out.getD x.1 .null) := by
  rw [evalWindowCall_eq_ok_iff hcols (by simp [overPartition]) hrect]
  refine and_congr_right fun _ => ?_
  have hvalues (k : Row) : windowValues (overPartition f c g) columns
      (orderColumns columns (overPartition f c g).spec.orderBy)
        ((partitionOf columns g rows k).map Prod.snd) =
      (partitionOf columns g rows k).mapM fun _ =>
        evalAggregate f c columns (groupOf columns g rows k) := by
    rw [map_snd_partitionOf]
    refine (windowValues_overPartition f c g columns _).trans (mapM_const_congr ?_)
    rw [← map_snd_partitionOf, List.length_map]
  simp only [sortedPartition_unordered, hvalues, mapM_eq_ok_map_iff]
  constructor
  · intro h x hx
    refine h (groupKey columns g x.2) ?_ x (List.mem_filter.mpr ⟨hx, decide_eq_true rfl⟩)
    exact mem_sortedKeys.mpr (List.mem_map_of_mem (List.mem_of_getElem? (mem_enumerated.mp hx)))
  · intro h k _ x hx
    obtain ⟨hrow, hk⟩ := List.mem_filter.mp hx
    obtain rfl := of_decide_eq_true hk
    exact h x hrow

/-- `GROUP BY` with one aggregate returns the rows `k ++ [v k]`, where `v k` is
the aggregate of the group of `k`. -/
theorem aggregateTable_single_eq_ok_iff {name : String} (hne : g ≠ [])
    (hcols : ∀ c ∈ g, c ∈ columns) (hrect : Rectangular columns rows) {rs : ResultSet} :
    aggregateTable columns rows g [(name, f, c)] = .ok rs ↔
      ∃ v : Row → Value, (∀ k ∈ sortedKeys (rows.map (groupKey columns g)),
        evalAggregate f c columns (groupOf columns g rows k) = .ok (v k)) ∧
      rs = { columns := g ++ [name],
             rows := (sortedKeys (rows.map (groupKey columns g))).map fun k => k ++ [v k] } := by
  have hsingle (group : List Row) : evalAggregates columns group [(name, f, c)] = (do
      let v ← evalAggregate f c columns group
      return [v]) := by
    rfl
  rw [aggregateTable_eq hne hcols hrect]
  simp only [← groupOf_eq_filter, hsingle, bind_assoc, pure_bind]
  constructor
  · intro h
    obtain ⟨outRows, hout, h⟩ := h.bind_ok
    obtain ⟨row, rfl, hrow⟩ := Except.exists_map_of_mapM_eq_ok hout
    cases h
    let value (k : Row) : Option Value :=
      (evalAggregate f c columns (groupOf columns g rows k)).toOption
    have hv : ∀ k ∈ sortedKeys (rows.map (groupKey columns g)),
        evalAggregate f c columns (groupOf columns g rows k) = .ok ((value k).getD .null) ∧
          row k = k ++ [(value k).getD .null] := by
      intro k hk
      obtain ⟨v, hv, h⟩ := Except.bind_eq_ok.mp (hrow k hk)
      have hvalue : value k = some v := by simp [value, hv, Except.toOption]
      rw [hvalue, hv]
      exact ⟨rfl, (Except.ok.inj h).symm⟩
    refine ⟨fun k => (value k).getD .null, fun k hk => (hv k hk).1, ?_⟩
    rw [List.map_congr_left fun k hk => (hv k hk).2]
    rfl
  · rintro ⟨v, hv, rfl⟩
    have hrows : ∀ k ∈ sortedKeys (rows.map (groupKey columns g)),
        (do
          let v ← evalAggregate f c columns (groupOf columns g rows k)
          return k ++ [v]) = (.ok (k ++ [v k]) : Outcome ExecError Row) := by
      intro k hk
      rw [hv k hk]
      rfl
    rw [Except.mapM_of_ok hrows]
    rfl

theorem mem_columns_of_columnIndices {missing : String → ExecError} {keyColumns : List String}
    {indices : List Nat} (h : columnIndices columns missing keyColumns = .ok indices) :
    ∀ c ∈ keyColumns, c ∈ columns := by
  induction keyColumns generalizing indices with
  | nil => simp
  | cons c cs ih =>
    obtain ⟨i, hi, h⟩ := h.bind_ok
    obtain ⟨is, his, -⟩ := h.bind_ok
    refine List.forall_mem_cons.mpr ⟨?_, ih his⟩
    by_contra hc
    rw [columnPosition_eq_none hc] at hi
    cases hi

/-- The key columns of a group's row name the group: one row has the key `k`. -/
theorem filter_key_eq {keys : List Row} (hnodup : keys.Nodup) (hlen : ∀ k ∈ keys, k.length = n)
    (v : Row → Value) (hk : k ∈ keys) :
    ((keys.map fun k => k ++ [v k]).filter fun row => row.take n = k) = [k ++ [v k]] := by
  have hfilter : (keys.filter fun k' => (k' ++ [v k']).take n = k) = [k] := by
    calc (keys.filter fun k' => (k' ++ [v k']).take n = k)
        = keys.filter (· == k) := List.filter_congr fun k' hk' => by
          rw [← hlen k' hk', List.take_left, beq_eq_decide]
      _ = [k] := by rw [List.filter_beq, hnodup.count, if_pos hk]; rfl
  rw [List.filter_map]
  exact congrArg (List.map fun k => k ++ [v k]) hfilter

section

variable {f : AggregateFunc} {c name : String} {g columns : List String} {rows : List Row}

theorem overPartition_returns_iff (hcols : ∀ c ∈ g, c ∈ columns)
    (hrect : Rectangular columns rows) :
    (∃ out, evalWindowCall (overPartition f c g) columns rows = .ok out) ↔
      ∀ r ∈ rows, ∃ v,
        evalAggregate f c columns (groupOf columns g rows (groupKey columns g r)) = .ok v := by
  constructor
  · rintro ⟨out, hout⟩ r hr
    obtain ⟨i, hi⟩ := List.mem_iff_getElem?.mp hr
    exact ⟨_, ((overPartition_eq_ok_iff hcols hrect).mp hout).2 (i, r) (mem_enumerated.mpr hi)⟩
  · intro h
    refine ⟨rows.map fun r => (evalAggregate f c columns
      (groupOf columns g rows (groupKey columns g r))).toOption.getD .null,
      (overPartition_eq_ok_iff hcols hrect).mpr ⟨List.length_map _, fun x hx => ?_⟩⟩
    have hrow := mem_enumerated.mp hx
    obtain ⟨v, hv⟩ := h x.2 (List.mem_of_getElem? hrow)
    rw [List.getD_eq_getElem?_getD, List.getElem?_map, hrow, Option.map_some, hv]
    rfl

theorem group_by_returns_iff (hne : g ≠ []) (hcols : ∀ c ∈ g, c ∈ columns)
    (hrect : Rectangular columns rows) :
    (∃ rs, aggregateTable columns rows g [(name, f, c)] = .ok rs) ↔
      ∀ r ∈ rows, ∃ v,
        evalAggregate f c columns (groupOf columns g rows (groupKey columns g r)) = .ok v := by
  constructor
  · rintro ⟨rs, hrs⟩ r hr
    obtain ⟨v, hv, -⟩ := (aggregateTable_single_eq_ok_iff hne hcols hrect).mp hrs
    exact ⟨_, hv _ (mem_sortedKeys.mpr (List.mem_map_of_mem hr))⟩
  · intro h
    refine ⟨_, (aggregateTable_single_eq_ok_iff hne hcols hrect).mpr
      ⟨fun k => (evalAggregate f c columns (groupOf columns g rows k)).toOption.getD .null,
        fun k hk => ?_, rfl⟩⟩
    obtain ⟨r, hr, rfl⟩ := List.mem_map.mp (mem_sortedKeys.mp hk)
    obtain ⟨v, hv⟩ := h r hr
    simp [hv, Except.toOption]

/-- Both report a partition column that does not exist. -/
theorem fails_of_missing_column (hne : g ≠ []) (hcols : ¬ ∀ c ∈ g, c ∈ columns) :
    Outcome.Fails (evalWindowCall (overPartition f c g) columns rows) ∧
      Outcome.Fails (aggregateTable columns rows g [(name, f, c)]) := by
  constructor
  · intro out h
    obtain ⟨indices, hindices, -⟩ := h.bind_ok
    exact hcols (mem_columns_of_columnIndices hindices)
  · intro rs h
    have hempty : g.isEmpty = false := by simpa using hne
    rw [aggregateTable, hempty] at h
    obtain ⟨indices, hindices, -⟩ := h.bind_ok
    exact hcols (mem_columns_of_columnIndices hindices)

end

/-- `f(c) OVER (PARTITION BY g)` is the aggregate that `GROUP BY g` computes for
the row's key, and one fails exactly when the other does. -/
theorem overPartition_eq_group_by (f : AggregateFunc) (c name : String) (g columns : List String)
    (rows : List Row) (hne : g ≠ []) (hrect : Rectangular columns rows) :
    (Outcome.Fails (evalWindowCall (overPartition f c g) columns rows) ↔
      Outcome.Fails (aggregateTable columns rows g [(name, f, c)])) ∧
    ∀ out rs, evalWindowCall (overPartition f c g) columns rows = .ok out →
      aggregateTable columns rows g [(name, f, c)] = .ok rs →
      out.length = rows.length ∧ ∀ (i : Nat) (hi : i < rows.length), ∃ v, out[i]? = some v ∧
        (rs.rows.filter fun row => row.take g.length = groupKey columns g rows[i]) =
          [groupKey columns g rows[i] ++ [v]] := by
  by_cases hcols : ∀ c ∈ g, c ∈ columns
  · constructor
    · refine fails_congr ?_
      rw [overPartition_returns_iff hcols hrect, group_by_returns_iff hne hcols hrect]
    · intro out rs hout hrs
      obtain ⟨hlen, hvals⟩ := (overPartition_eq_ok_iff hcols hrect).mp hout
      obtain ⟨v, hv, rfl⟩ := (aggregateTable_single_eq_ok_iff hne hcols hrect).mp hrs
      refine ⟨hlen, fun i hi => ⟨v (groupKey columns g rows[i]), ?_, ?_⟩⟩
      · have hx : (i, rows[i]) ∈ enumerated rows :=
          mem_enumerated.mpr (List.getElem?_eq_getElem hi)
        have hkey : groupKey columns g rows[i] ∈ sortedKeys (rows.map (groupKey columns g)) :=
          mem_sortedKeys.mpr (List.mem_map_of_mem (List.getElem_mem hi))
        grind
      · refine filter_key_eq (ascending_sortedKeys _).nodup (fun k hk => ?_) v
          (mem_sortedKeys.mpr (List.mem_map_of_mem (List.getElem_mem hi)))
        obtain ⟨r, -, rfl⟩ := List.mem_map.mp (mem_sortedKeys.mp hk)
        exact List.length_map _
  · obtain ⟨hwindow, hgroup⟩ := fails_of_missing_column hne hcols
    exact ⟨iff_of_true hwindow hgroup, fun out _ hout => absurd hout (hwindow out)⟩

/-- Two groups of three rows. -/
theorem overPartition_eq_group_by_sum : ∃ rows out rs,
    rows = [[.int 2, .int 5], [.int 1, .int 7], [.int 2, .null]] ∧
    evalWindowCall (overPartition .sum "v" ["g"]) ["g", "v"] rows = .ok out ∧
    aggregateTable ["g", "v"] rows ["g"] [("s", .sum, "v")] = .ok rs ∧
    (Outcome.Fails (evalWindowCall (overPartition .sum "v" ["g"]) ["g", "v"] rows) ↔
      Outcome.Fails (aggregateTable ["g", "v"] rows ["g"] [("s", .sum, "v")])) ∧
    out.length = rows.length ∧ ∀ (i : Nat) (hi : i < rows.length), ∃ v, out[i]? = some v ∧
      (rs.rows.filter fun row => row.take 1 = groupKey ["g", "v"] ["g"] rows[i]) =
        [groupKey ["g", "v"] ["g"] rows[i] ++ [v]] := by
  have hrect : Rectangular ["g", "v"] [[.int 2, .int 5], [.int 1, .int 7], [.int 2, .null]] := by
    simp [Rectangular]
  have hsums : ∀ r ∈ [[Value.int 2, .int 5], [.int 1, .int 7], [.int 2, .null]], ∃ v,
      evalAggregate .sum "v" ["g", "v"] (groupOf ["g", "v"] ["g"]
        [[.int 2, .int 5], [.int 1, .int 7], [.int 2, .null]] (groupKey ["g", "v"] ["g"] r)) =
        .ok v := by
    decide +kernel
  obtain ⟨out, hout⟩ := (overPartition_returns_iff (by simp) hrect).mpr hsums
  obtain ⟨rs, hrs⟩ : ∃ rs, aggregateTable ["g", "v"] _ ["g"] [("s", .sum, "v")] = .ok rs :=
    (group_by_returns_iff (by simp) (by simp) hrect).mpr hsums
  obtain ⟨hfails, hvalues⟩ := overPartition_eq_group_by .sum "v" "s" ["g"] ["g", "v"] _
      (by simp) hrect
  exact ⟨_, out, rs, rfl, hout, hrs, hfails, hvalues out rs hout hrs⟩

end Archon
