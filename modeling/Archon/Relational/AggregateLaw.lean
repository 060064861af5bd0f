import Mathlib.Algebra.BigOperators.Group.List.Basic
import Archon.Relational.Codec
import Archon.Relational.GroupLaw

/-!
# Archon.Relational.AggregateLaw

Single aggregates over a group of rows: when `COUNT`, `MIN` and `MAX` are the
ones of SQL, and when an integer `SUM` is exact.
-/

namespace Archon

open Value List

variable {vals : List Value}

/-! ## Columns -/

/-- The values of a column. -/
def columnValues (columns : List String) (c : String) (rows : List Row) : List Value :=
  rows.map fun r => r.getD (columns.idxOf c) .null

/-- The values of a column of a rectangular table. -/
theorem mapM_index_column {columns : List String} {c : String} {rows : List Row}
    (hc : c ∈ columns) (hrect : Rectangular columns rows) :
    (rows.mapM fun r => (Outcome.index r (columns.idxOf c) : Outcome ε Value)) =
      .ok (columnValues columns c rows) := by
  refine Except.mapM_of_ok fun r hr => index_getD ?_
  rw [hrect r hr]
  exact idxOf_lt_length_iff.mpr hc

section

variable {columns : List String} {c : String} {rows : List Row}

variable (hc : c ∈ columns) (hrect : Rectangular columns rows)
include hc hrect

/-- `SUM` of a column of a rectangular table. -/
theorem evalAggregate_sum :
    evalAggregate .sum c columns rows = .ok (sumValues (columnValues columns c rows)) := by
  simp [evalAggregate, columnPosition_eq_some hc, Outcome.okOr, mapM_index_column hc hrect]

theorem evalAggregate_min :
    evalAggregate .min c columns rows = .ok (minValue (columnValues columns c rows)) := by
  simp [evalAggregate, columnPosition_eq_some hc, Outcome.okOr, mapM_index_column hc hrect]

theorem evalAggregate_max :
    evalAggregate .max c columns rows = .ok (maxValue (columnValues columns c rows)) := by
  simp [evalAggregate, columnPosition_eq_some hc, Outcome.okOr, mapM_index_column hc hrect]

end

/-! ## Least and greatest values -/

/-- The values that are not `NULL`. -/
def nonNull (vals : List Value) : List Value := vals.filter fun v => !v.isNull

/-- `v` is the least value that is not `NULL`, or `NULL` if there is none. -/
def IsMinimum (vals : List Value) (v : Value) : Prop :=
  (nonNull vals = [] ∧ v = .null) ∨ (v ∈ nonNull vals ∧ ∀ w ∈ nonNull vals, (v.cmp w).isLE)

/-- `v` is the greatest value that is not `NULL`, or `NULL` if there is none. -/
def IsMaximum (vals : List Value) (v : Value) : Prop :=
  (nonNull vals = [] ∧ v = .null) ∨ (v ∈ nonNull vals ∧ ∀ w ∈ nonNull vals, (w.cmp v).isLE)

/-- A fold that keeps one of two elements, below both, ends at an element below
all. -/
theorem foldl_pick (le : α → α → Prop) {pick : α → α → α} (hrefl : ∀ a, le a a)
    (htrans : ∀ a b c, le a b → le b c → le a c) (hpick : ∀ a b, pick a b = a ∨ pick a b = b)
    (hleft : ∀ a b, le (pick a b) a) (hright : ∀ a b, le (pick a b) b) (as : List α) (a : α) :
    as.foldl pick a ∈ a :: as ∧ ∀ b ∈ a :: as, le (as.foldl pick a) b := by
  induction as generalizing a with
  | nil => simp [hrefl]
  | cons b as ih =>
    obtain ⟨hmem, hle⟩ := ih (pick a b)
    have hhead : le (as.foldl pick (pick a b)) (pick a b) := hle _ (.head _)
    constructor
    · rw [foldl_cons]
      rcases mem_cons.mp hmem with heq | hmem
      · grind
      · simp [hmem]
    · rw [foldl_cons]
      intro x hx
      rcases mem_cons.mp hx with rfl | hx
      · exact htrans _ _ _ hhead (hleft x b)
      · rcases mem_cons.mp hx with rfl | hx
        · exact htrans _ _ _ hhead (hright a x)
        · exact hle x (.tail _ hx)

theorem Value.isLE_refl (a : Value) : (a.cmp a).isLE := by
  have h : a.cmp a = .eq := Std.ReflCmp.compare_self
  simp [h]

/-- What is not less is at least as large. -/
theorem Value.isLE_of_cmp_ne_lt {a b : Value} (h : ¬ (b.cmp a == .lt) = true) : (a.cmp b).isLE := by
  have hswap : a.cmp b = (b.cmp a).swap := Std.OrientedCmp.eq_swap
  rw [hswap]
  cases hcmp : b.cmp a <;> simp_all

theorem Value.isLE_of_cmp_eq_lt {a b : Value} (h : (a.cmp b == .lt) = true) : (a.cmp b).isLE := by
  rw [beq_iff_eq.mp h]
  rfl

/-- With numbers and `NULL`s only, `MIN` is the minimum. -/
theorem minValue_isMinimum (h : numbers vals = nonNull vals) : IsMinimum vals (minValue vals) := by
  rw [IsMinimum, minValue, ← h]
  cases numbers vals with
  | nil => exact Or.inl ⟨rfl, rfl⟩
  | cons v vs =>
    refine Or.inr (foldl_pick (fun a b => (a.cmp b).isLE) isLE_refl
      (fun a b c => Std.TransCmp.isLE_trans) ?_ ?_ ?_ vs v)
    · grind
    · intro a b
      split
      · exact isLE_of_cmp_eq_lt ‹_›
      · exact isLE_refl a
    · intro a b
      split
      · exact isLE_refl b
      · exact isLE_of_cmp_ne_lt ‹_›

/-- `MAX` is the maximum under the same condition. -/
theorem maxValue_isMaximum (h : numbers vals = nonNull vals) : IsMaximum vals (maxValue vals) := by
  rw [IsMaximum, maxValue, ← h]
  cases numbers vals with
  | nil => exact Or.inl ⟨rfl, rfl⟩
  | cons v vs =>
    refine Or.inr (foldl_pick (fun a b => (b.cmp a).isLE) isLE_refl
      (fun a b c hab hbc => Std.TransCmp.isLE_trans hbc hab) ?_ ?_ ?_ vs v)
    · grind
    · intro a b
      split
      · exact isLE_refl a
      · exact isLE_of_cmp_ne_lt ‹_›
    · intro a b
      split
      · exact isLE_of_cmp_eq_lt ‹_›
      · exact isLE_refl b

/-! ## Typed columns -/

/-- The types whose values are integers or floats. -/
def ColumnType.isNumeric : ColumnType → Bool
  | .int => true
  | .float => true
  | .double => true
  | .numeric => true
  | .date => true
  | .timestamp => true
  | _ => false

/-- A numeric column has only numbers and `NULL`s. -/
theorem numbers_eq_nonNull {t : ColumnType} (h : ∀ v ∈ vals, t.Holds v)
    (ht : t.isNumeric ∨ ∀ v ∈ vals, v = .null) : numbers vals = nonNull vals := by
  refine filter_congr fun v hv => ?_
  rcases ht with ht | hnull
  · have hv := h v hv
    cases t <;> cases v <;> simp_all [ColumnType.Holds, ColumnType.isNumeric, isNull]
  · rw [hnull v hv]
    rfl

/-- A column of another type has no numbers. -/
theorem numbers_eq_nil {t : ColumnType} (ht : ¬ t.isNumeric) (h : ∀ v ∈ vals, t.Holds v) :
    numbers vals = [] := by
  refine filter_eq_nil_iff.mpr fun v hv => ?_
  have hv := h v hv
  cases t <;> cases v <;> simp_all [ColumnType.Holds, ColumnType.isNumeric]

theorem nonNull_eq_nil_iff : nonNull vals = [] ↔ ∀ v ∈ vals, v = .null := by
  rw [nonNull, filter_eq_nil_iff]
  refine forall₂_congr fun v _ => ?_
  cases v <;> simp [isNull]

/-- Nothing is dropped exactly if there is no `NULL`. -/
theorem length_nonNull_iff : (nonNull vals).length = vals.length ↔ ∀ v ∈ vals, v ≠ .null := by
  rw [nonNull, length_filter_eq_length_iff]
  refine forall₂_congr fun v _ => ?_
  cases v <;> simp [isNull]

theorem null_not_mem_nonNull (vals : List Value) : .null ∉ nonNull vals := by
  simp [nonNull, isNull]

section

variable {t : ColumnType} {vals : List Value}

/-- `MIN` is the minimum exactly on numbers and on `NULL`s. -/
theorem isMinimum_minValue_iff (h : ∀ v ∈ vals, t.Holds v) :
    IsMinimum vals (minValue vals) ↔ t.isNumeric ∨ ∀ v ∈ vals, v = .null := by
  refine ⟨fun hmin => ?_, fun ht => minValue_isMinimum (numbers_eq_nonNull h ht)⟩
  by_contra! hnot
  have hnull : minValue vals = .null := by
    rw [minValue, numbers_eq_nil (by simpa using hnot.1) h]
  rcases hmin with ⟨hnil, -⟩ | ⟨hmem, -⟩
  · obtain ⟨v, hv, hne⟩ := hnot.2
    exact hne (nonNull_eq_nil_iff.mp hnil v hv)
  · exact null_not_mem_nonNull vals (hnull ▸ hmem)

/-- `MAX` is the maximum under the same condition. -/
theorem isMaximum_maxValue_iff (h : ∀ v ∈ vals, t.Holds v) :
    IsMaximum vals (maxValue vals) ↔ t.isNumeric ∨ ∀ v ∈ vals, v = .null := by
  refine ⟨fun hmax => ?_, fun ht => maxValue_isMaximum (numbers_eq_nonNull h ht)⟩
  by_contra! hnot
  have hnull : maxValue vals = .null := by
    rw [maxValue, numbers_eq_nil (by simpa using hnot.1) h]
  rcases hmax with ⟨hnil, -⟩ | ⟨hmem, -⟩
  · obtain ⟨v, hv, hne⟩ := hnot.2
    exact hne (nonNull_eq_nil_iff.mp hnil v hv)
  · exact null_not_mem_nonNull vals (hnull ▸ hmem)

end

/-- Counts below 2⁶³ are told apart. -/
theorem ofNat_inj_of_lt {m n : Nat} (hm : m < 2 ^ 63) (hn : n < 2 ^ 63) :
    Int64.ofNat m = Int64.ofNat n ↔ m = n := by
  have hm' := Int64.toInt_ofNat_of_lt hm
  have hn' := Int64.toInt_ofNat_of_lt hn
  grind

/-- `COUNT(c)` counts the `NULL`s, and rows without the column, too; `MIN` and
`MAX` look at numbers only.  So `COUNT(c)` is the number of values exactly when
no row is `NULL` in `c`, and `MIN(c)` and `MAX(c)` are the least and the greatest
value exactly when `c` holds numbers or nothing. -/
theorem null_aware_iff (columns : List String) (c : String) (rows : List Row) (t : ColumnType)
    (hrect : Rectangular columns rows) (hlen : rows.length < 2 ^ 63)
    (htype : ∀ v ∈ columnValues columns c rows, t.Holds v) :
    (c ∉ columns → ¬ Outcome.Fails (evalAggregate .count c columns rows)) ∧
    (c ∈ columns →
      (evalAggregate .count c columns rows =
          .ok (.int (Int64.ofNat (nonNull (columnValues columns c rows)).length)) ↔
        ∀ v ∈ columnValues columns c rows, v ≠ .null) ∧
      ((∃ v, evalAggregate .min c columns rows = .ok v ∧
          IsMinimum (columnValues columns c rows) v) ↔
        t.isNumeric ∨ ∀ v ∈ columnValues columns c rows, v = .null) ∧
      ((∃ v, evalAggregate .max c columns rows = .ok v ∧
          IsMaximum (columnValues columns c rows) v) ↔
        t.isNumeric ∨ ∀ v ∈ columnValues columns c rows, v = .null)) := by
  refine ⟨fun _ hfails => hfails _ (evalAggregate_count c columns rows), fun hc => ⟨?_, ?_, ?_⟩⟩
  · have hle : (nonNull (columnValues columns c rows)).length ≤ rows.length :=
      (length_filter_le _ _).trans_eq (length_map _)
    rw [evalAggregate_count, Except.ok.injEq, int.injEq,
      ofNat_inj_of_lt hlen (by omega), ← length_nonNull_iff, eq_comm]
    simp [columnValues]
  · rw [evalAggregate_min hc hrect, ← isMinimum_minValue_iff htype]
    simp
  · rw [evalAggregate_max hc hrect, ← isMaximum_maxValue_iff htype]
    simp

/-- `MIN` of a text column is `NULL`. -/
theorem null_aware_iff_text :
    ¬ ∃ v, evalAggregate .min "a" ["a"] [[.text "x"], [.null]] = .ok v ∧
      IsMinimum (columnValues ["a"] "a" [[.text "x"], [.null]]) v := by
  rw [((null_aware_iff ["a"] "a" [[.text "x"], [.null]] .text (by simp [Rectangular]) (by simp)
    (by simp [columnValues, ColumnType.Holds])).2 (by simp)).2.1]
  simp [ColumnType.isNumeric, columnValues]

/-- `COUNT` counts a `NULL`, and the least text is `NULL`. -/
theorem count_null_and_min_text :
    evalAggregate .count "a" ["a"] [[.text "x"], [.null]] = .ok (.int 2) ∧
      evalAggregate .count "b" ["a"] [[.text "x"], [.null]] = .ok (.int 2) ∧
      evalAggregate .min "a" ["a"] [[.text "x"], [.null]] = .ok .null ∧
      evalAggregate .max "a" ["a"] [[.text "x"], [.null]] = .ok .null :=
  ⟨rfl, rfl, rfl, rfl⟩

/-! ## Integer sums -/

/-- The integers among the values. -/
def integers (vals : List Value) : List Int :=
  vals.filterMap fun v =>
    match v with
    | .int i => some i.toInt
    | _ => none

/-- `r` is the sum of the integers, or `NULL` if there are none. -/
def IsExactSum (vals : List Value) (r : Value) : Prop :=
  (integers vals = [] ∧ r = .null) ∨
    (integers vals ≠ [] ∧ ∃ s : Int64, r = .int s ∧ s.toInt = (integers vals).sum)

/-- The number is an `i64`. -/
def FitsInt64 (n : Int) : Prop := -2 ^ 63 ≤ n ∧ n < 2 ^ 63

instance (n : Int) : Decidable (FitsInt64 n) := inferInstanceAs (Decidable (_ ∧ _))

/-- An integer survives as an `i64` exactly if it fits. -/
theorem toInt_ofInt_eq_iff {n : Int} : (Int64.ofInt n).toInt = n ↔ FitsInt64 n := by
  have hsize : (Int64.size : Int) = 2 ^ 64 := rfl
  rw [Int64.toInt_ofInt, FitsInt64, Int.bmod, hsize]
  split <;> omega

/-- A column of integers and `NULL`s. -/
def IntColumn (vals : List Value) : Prop := ∀ v ∈ vals, v = .null ∨ ∃ i, v = .int i

section

variable (h : IntColumn vals)
include h

/-- The accumulator of `SUM` over integers and `NULL`s wraps round. -/
theorem foldl_sumStep (s : SumState) :
    (vals.foldl SumState.step s).sawFloat = s.sawFloat ∧
      (vals.foldl SumState.step s).any = (s.any || !(integers vals).isEmpty) ∧
      (vals.foldl SumState.step s).intSum = s.intSum + Int64.ofInt (integers vals).sum := by
  induction vals generalizing s with
  | nil => simp [integers]
  | cons v vals ih =>
    obtain ⟨hv, hvals⟩ := forall_mem_cons.mp h
    rw [foldl_cons]
    obtain ⟨hfloat, hany, hsum⟩ := ih hvals (s.step v)
    rw [hfloat, hany, hsum]
    rcases hv with rfl | ⟨i, rfl⟩
    · simp [SumState.step, integers]
    · simp [SumState.step, integers, Int64.add_assoc]

/-- `SUM` is the wrapped sum, `NULL` if there is no integer. -/
theorem sumValues_eq :
    sumValues vals =
      if integers vals = [] then .null else .int (Int64.ofInt (integers vals).sum) := by
  obtain ⟨hfloat, hany, hsum⟩ := foldl_sumStep h {}
  simp [sumValues, hfloat, hany, hsum]

/-- `SUM` is exact exactly if the sum is an `i64`. -/
theorem isExactSum_sumValues_iff :
    IsExactSum vals (sumValues vals) ↔ FitsInt64 (integers vals).sum := by
  rw [sumValues_eq h, IsExactSum, ← toInt_ofInt_eq_iff]
  by_cases hnil : integers vals = [] <;> simp [hnil]

/-- `SUM` does not depend on the order. -/
theorem sumValues_perm {vals' : List Value} (hperm : vals'.Perm vals) :
    sumValues vals' = sumValues vals := by
  have h' : IntColumn vals' := fun v hv => h v (hperm.mem_iff.mp hv)
  have hints : (integers vals').Perm (integers vals) := hperm.filterMap _
  have hnil : integers vals' = [] ↔ integers vals = [] := by
    rw [← length_eq_zero_iff, hints.length_eq, length_eq_zero_iff]
  simp [sumValues_eq h, sumValues_eq h', hnil, hints.sum_eq]

end

end Archon
