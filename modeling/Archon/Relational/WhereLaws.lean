import Archon.Relational.Predicate
import Archon.Relational.ValueOrder
import Mathlib.Data.Multiset.UnionInter

/-!
# Archon.Relational.WhereLaws

The algebra of `WHERE`: which rows the connectives select, and when they fail.

Both operands of a connective are always evaluated, so a predicate fails on a
row exactly when one of its parts does.
-/

namespace Archon

open Multiset

/-! ## Connectives -/

section

variable {x y : Outcome ε (Option Bool)}

theorem isTrue_and : isTrue (do let a ← x; let b ← y; return kleeneAnd a b) =
    (isTrue x && isTrue y) := by
  rcases x with _ | _ | _ | _ <;> rcases y with _ | _ | _ | _ <;> rfl

theorem isTrue_or_not :
    isTrue (do let a ← x; let b ← (do let a ← x; return kleeneNot a); return kleeneOr a b) =
      (isTrue x || isTrue (do let a ← x; return kleeneNot a)) := by
  rcases x with _ | _ | _ | _ <;> rfl

theorem isTrue_not (h : isTrue x = true) : isTrue (do let a ← x; return kleeneNot a) = false := by
  rcases x with _ | _ | _ | _ <;> first | rfl | cases h

/-- A connective returns when its operands do. -/
theorem connective_ok {f : Option Bool → Option Bool → Option Bool} :
    (∃ c, (do let a ← x; let b ← y; return f a b) = Except.ok c) ↔
      (∃ a, x = .ok a) ∧ ∃ b, y = .ok b := by
  rcases x with _ | a <;> rcases y with _ | b <;> simp

theorem not_ok : (∃ c, (do let a ← x; return kleeneNot a) = Except.ok c) ↔ ∃ a, x = .ok a := by
  rcases x with _ | a <;> simp

end

/-! ## Clauses -/

section

variable (run : Runner) (params : Params) (outer : List Scope) (ctes : List CTE)
  (scopeColumns qualifiers : List String) (table : Table)

/-- The clause can be evaluated on every row of the table. -/
def Evaluates (p : Expr) : Prop :=
  (∀ node ∈ subqueryNodes p, ∃ entry, cacheEntry run table.columns params ctes node = .ok entry) ∧
    ∀ row ∈ table.rows, ∃ b,
      rowTruth run table.columns params outer ctes scopeColumns qualifiers p row = .ok b

variable {run params outer ctes scopeColumns qualifiers table} {p q : Expr}

theorem isTrue_rowTruth_and (row : Row) :
    isTrue (rowTruth run table.columns params outer ctes scopeColumns qualifiers (.and p q) row) =
      (isTrue (rowTruth run table.columns params outer ctes scopeColumns qualifiers p row) &&
        isTrue (rowTruth run table.columns params outer ctes scopeColumns qualifiers q row)) :=
  isTrue_and

theorem isTrue_rowTruth_or_not (row : Row) :
    isTrue (rowTruth run table.columns params outer ctes scopeColumns qualifiers
        (.or p (.not p)) row) =
      (isTrue (rowTruth run table.columns params outer ctes scopeColumns qualifiers p row) ||
        isTrue (rowTruth run table.columns params outer ctes scopeColumns qualifiers
          (.not p) row)) :=
  isTrue_or_not

theorem isTrue_rowTruth_not {row : Row} (h : isTrue
      (rowTruth run table.columns params outer ctes scopeColumns qualifiers p row) = true) :
    isTrue (rowTruth run table.columns params outer ctes scopeColumns qualifiers (.not p) row) =
      false :=
  isTrue_not h

theorem evaluates_and : Evaluates run params outer ctes scopeColumns qualifiers table (.and p q) ↔
    Evaluates run params outer ctes scopeColumns qualifiers table p ∧
      Evaluates run params outer ctes scopeColumns qualifiers table q := by
  simp only [Evaluates, subqueryNodes, List.mem_append, or_imp, forall_and, rowTruth, truth,
    connective_ok]
  exact and_and_and_comm

theorem evaluates_or : Evaluates run params outer ctes scopeColumns qualifiers table (.or p q) ↔
    Evaluates run params outer ctes scopeColumns qualifiers table (.and p q) := by
  simp only [Evaluates, subqueryNodes, rowTruth, truth, connective_ok]

theorem evaluates_not : Evaluates run params outer ctes scopeColumns qualifiers table (.not p) ↔
    Evaluates run params outer ctes scopeColumns qualifiers table p := by
  simp only [Evaluates, subqueryNodes, rowTruth, truth, not_ok]

end

/-! ## Queries -/

section

variable (v : ReadView) (depth : Nat) (params : Params) (outer : List Scope)
  (ctes : List CTE) (binding : Option RecursiveBinding) (source : FromClause)

/-- The rows `SELECT * FROM source WHERE p` returns, in no order. -/
def rowsWhere (p : Expr) : Outcome DbError (Multiset Row) := do
  let rs ← runSelectScoped v depth (selectStar source (some p)) params outer ctes binding
  return rs.rows

variable {v depth params outer ctes binding source} {p q : Expr}

/-- A clause that can be evaluated selects the rows on which it is true. -/
theorem rowsWhere_eq_ok {selected : Multiset Row} :
    rowsWhere v depth params outer ctes binding source p = .ok selected ↔
      ∃ n table, depth = n + 1 ∧
        source.joined v (runSelectScoped v n) (mergeCtes ctes source.withCtes) binding =
          .ok table ∧
        Evaluates (runSelectScoped v n) params outer (mergeCtes ctes source.withCtes)
          (qualifyBare source.table.name table.columns) source.qualifiers table p ∧
        selected = filter (fun row => isTrue (rowTruth (runSelectScoped v n) table.columns
          params outer (mergeCtes ctes source.withCtes)
          (qualifyBare source.table.name table.columns) source.qualifiers p row) = true)
            table.rows := by
  cases depth with
  | zero => simp [rowsWhere, runSelectScoped]
  | succ n =>
    simp only [rowsWhere, runSelectScoped, selectBody_selectStar, Except.bind_eq_ok,
      filterTable_eq_ok, Except.pure_eq_ok, Except.ok.injEq, Nat.add_right_cancel_iff,
      Evaluates, and_assoc]
    constructor
    · rintro ⟨_, ⟨table, hjoined, _, hcached, hrows, rfl, rfl⟩, rfl⟩
      exact ⟨n, table, rfl, hjoined, hcached, hrows, by simp⟩
    · rintro ⟨_, table, rfl, hjoined, hcached, hrows, rfl⟩
      exact ⟨_, ⟨table, hjoined, _, hcached, hrows, rfl, rfl⟩, by simp⟩

/-- Two clauses are evaluated on the same rows. -/
theorem rowsWhere_ok_iff {r : Expr} (h : ∀ n table,
    Evaluates (runSelectScoped v n) params outer (mergeCtes ctes source.withCtes)
      (qualifyBare source.table.name table.columns) source.qualifiers table r ↔
    Evaluates (runSelectScoped v n) params outer (mergeCtes ctes source.withCtes)
      (qualifyBare source.table.name table.columns) source.qualifiers table p ∧
    Evaluates (runSelectScoped v n) params outer (mergeCtes ctes source.withCtes)
      (qualifyBare source.table.name table.columns) source.qualifiers table q) :
    (∃ a, rowsWhere v depth params outer ctes binding source r = .ok a) ↔
      (∃ a, rowsWhere v depth params outer ctes binding source p = .ok a) ∧
        ∃ b, rowsWhere v depth params outer ctes binding source q = .ok b := by
  simp only [rowsWhere_eq_ok]
  constructor
  · rintro ⟨_, n, table, hn, hjoined, hr, -⟩
    obtain ⟨hp, hq⟩ := (h n table).mp hr
    exact ⟨⟨_, n, table, hn, hjoined, hp, rfl⟩, ⟨_, n, table, hn, hjoined, hq, rfl⟩⟩
  · rintro ⟨⟨_, n, table, hn, hjoined, hp, -⟩, ⟨_, n', table', hn', hjoined', hq, -⟩⟩
    obtain rfl : n = n' := by omega
    cases hjoined.symm.trans hjoined'
    exact ⟨_, n, table, hn, hjoined, (h n table).mpr ⟨hp, hq⟩, rfl⟩

theorem rowsWhere_or_not {a b : Multiset Row}
    (ha : rowsWhere v depth params outer ctes binding source p = .ok a)
    (hb : rowsWhere v depth params outer ctes binding source (.not p) = .ok b) :
    rowsWhere v depth params outer ctes binding source (.or p (.not p)) = .ok (a + b) ∧
      Disjoint a b := by
  obtain ⟨n, table, rfl, hjoined, hp, rfl⟩ := rowsWhere_eq_ok.mp ha
  obtain ⟨_, _, hn, hjoined', -, rfl⟩ := rowsWhere_eq_ok.mp hb
  cases hn
  cases hjoined.symm.trans hjoined'
  have hor : Evaluates _ _ _ _ _ _ _ (.or p (.not p)) :=
    evaluates_or.mpr (evaluates_and.mpr ⟨hp, evaluates_not.mpr hp⟩)
  refine ⟨rowsWhere_eq_ok.mpr ⟨n, table, rfl, hjoined, hor, ?_⟩, ?_⟩
  · ext row
    simp only [count_add, count_filter, isTrue_rowTruth_or_not]
    split_ifs with hor htrue hnot hnot <;> simp_all [isTrue_rowTruth_not]
  · rw [disjoint_left]
    intro row hrow hnot
    have hfalse := isTrue_rowTruth_not (mem_filter.mp hrow).2
    exact Bool.false_ne_true (hfalse.symm.trans (mem_filter.mp hnot).2)

theorem rowsWhere_and {a b : Multiset Row}
    (ha : rowsWhere v depth params outer ctes binding source p = .ok a)
    (hb : rowsWhere v depth params outer ctes binding source q = .ok b) :
    rowsWhere v depth params outer ctes binding source (.and p q) = .ok (a ∩ b) := by
  obtain ⟨n, table, rfl, hjoined, hp, rfl⟩ := rowsWhere_eq_ok.mp ha
  obtain ⟨_, _, hn, hjoined', hq, rfl⟩ := rowsWhere_eq_ok.mp hb
  cases hn
  cases hjoined.symm.trans hjoined'
  refine rowsWhere_eq_ok.mpr ⟨n, table, rfl, hjoined, evaluates_and.mpr ⟨hp, hq⟩, ?_⟩
  ext row
  simp only [count_filter, isTrue_rowTruth_and]
  split_ifs <;> simp_all

/-- Clauses with the same subqueries that agree on every row. -/
theorem rowsWhere_congr (hnodes : subqueryNodes p = subqueryNodes q)
    (h : ∀ run cx, passes run cx p = passes run cx q) :
    rowsWhere v depth params outer ctes binding source p =
      rowsWhere v depth params outer ctes binding source q := by
  cases depth with
  | zero => rfl
  | succ n =>
    simp only [rowsWhere, runSelectScoped, selectBody_selectStar, filterTable,
      buildSubqueryCache, hnodes, h]

theorem fails_rowsWhere_and :
    Outcome.Fails (rowsWhere v depth params outer ctes binding source (.and p q)) ↔
      Outcome.Fails (rowsWhere v depth params outer ctes binding source p) ∨
        Outcome.Fails (rowsWhere v depth params outer ctes binding source q) :=
  Outcome.fails_or (rowsWhere_ok_iff fun _ _ => evaluates_and)

theorem fails_rowsWhere_or :
    Outcome.Fails (rowsWhere v depth params outer ctes binding source (.or p q)) ↔
      Outcome.Fails (rowsWhere v depth params outer ctes binding source p) ∨
        Outcome.Fails (rowsWhere v depth params outer ctes binding source q) :=
  Outcome.fails_or (rowsWhere_ok_iff fun _ _ => evaluates_or.trans evaluates_and)

theorem fails_rowsWhere_not :
    Outcome.Fails (rowsWhere v depth params outer ctes binding source (.not p)) ↔
      Outcome.Fails (rowsWhere v depth params outer ctes binding source p) := by
  have h := @Outcome.fails_or _ _ _ _ _ _ _ _ _
    (@rowsWhere_ok_iff v depth params outer ctes binding source p p (.not p)
      fun n table => by rw [evaluates_not, and_self_iff])
  rw [h, or_self_iff]

/-- `p OR NOT p` selects the rows of `p` and of `NOT p`, which have none in
common; `p AND q` selects the rows of both; negation follows De Morgan's laws.
A clause fails if and only if one of `p` and `q` fails. -/
theorem where_partition (v : ReadView) (depth : Nat) (params : Params)
    (outer : List Scope) (ctes : List CTE) (binding : Option RecursiveBinding)
    (source : FromClause) (p q : Expr) :
    let rows := rowsWhere v depth params outer ctes binding source
    (∀ a b, rows p = .ok a → rows (.not p) = .ok b →
      rows (.or p (.not p)) = .ok (a + b) ∧ Disjoint a b) ∧
    (∀ a b, rows p = .ok a → rows q = .ok b → rows (.and p q) = .ok (a ∩ b)) ∧
    rows (.not (.and p q)) = rows (.or (.not p) (.not q)) ∧
    rows (.not (.or p q)) = rows (.and (.not p) (.not q)) ∧
    (Outcome.Fails (rows (.not p)) ↔ Outcome.Fails (rows p)) ∧
    (Outcome.Fails (rows (.or p (.not p))) ↔ Outcome.Fails (rows p)) ∧
    (Outcome.Fails (rows (.and p q)) ↔ Outcome.Fails (rows p) ∨ Outcome.Fails (rows q)) ∧
    (Outcome.Fails (rows (.not (.and p q))) ↔ Outcome.Fails (rows p) ∨ Outcome.Fails (rows q)) ∧
    (Outcome.Fails (rows (.not (.or p q))) ↔ Outcome.Fails (rows p) ∨ Outcome.Fails (rows q)) := by
  refine ⟨fun a b => rowsWhere_or_not, fun a b => rowsWhere_and, ?_, ?_, fails_rowsWhere_not,
    ?_, fails_rowsWhere_and, ?_, ?_⟩
  · exact rowsWhere_congr rfl fun run cx => passes_not_and run cx p q
  · exact rowsWhere_congr rfl fun run cx => passes_not_or run cx p q
  · exact fails_rowsWhere_or.trans (by rw [fails_rowsWhere_not, or_self_iff])
  · exact fails_rowsWhere_not.trans fails_rowsWhere_and
  · exact fails_rowsWhere_not.trans fails_rowsWhere_or

end

end Archon
