import Archon.Relational.Names
import Archon.Relational.OwnWrites
import Archon.Relational.Predicate

/-!
# Archon.Relational.SubqueryLogic

`x op (SELECT ...)` and `x IN (SELECT ...)` against the three-valued logic of
SQL.  The source compares with the total order of values and has no unknown,
so the two agree on values of one kind without `NULL`s.
-/

namespace Archon

open Except List

/-! ## SQL -/

/-- `x IN` a list of values. -/
def sqlIn (x : Value) (vals : List Value) : Option Bool :=
  if !x.isNull && vals.any fun v => v.eq x then some true
  else if (x.isNull && !vals.isEmpty) || vals.any Value.isNull then none
  else some false

/-- The comparison with a subquery and with a literal are the same: no `NULL`,
one kind, and for floats the same answer from both orders. -/
def ScalarAgrees (op : CmpOp) : Value → Value → Prop
  | .int _, .int _ => True
  | .text _, .text _ => True
  | .bool _, .bool _ => True
  | .float a, .float b => evalFloatCmp op a b = evalCmp op (a.totalCmp b)
  | _, _ => False

/-- `IN` without unknowns: the left side is not `NULL`, and is found or has no
`NULL` to be compared with. -/
def InAgrees (x : Value) (vals : List Value) : Prop :=
  if x.isNull then vals = [] else (∃ v ∈ vals, v.eq x = true) ∨ ∀ v ∈ vals, v.isNull = false

theorem compareScalar_agrees_iff (op : CmpOp) (x v : Value) :
    (.ok (some (compareScalar op x v)) : Outcome DbError (Option Bool)) =
      fromExec (compareValues op x v) ↔ ScalarAgrees op x v := by
  -- one kind, two floats, a NULL, two kinds
  cases x <;> cases v <;> first
    | exact ⟨fun _ => trivial, fun _ => rfl⟩
    | exact ⟨fun h => (Option.some.inj (ok.inj h)).symm,
        fun h => congrArg (fun b => ok (some b)) h.symm⟩
    | exact ⟨fun h => Option.some_ne_none _ (ok.inj h), False.elim⟩
    | exact ⟨fun h => ok_ne_error _ _ h, False.elim⟩

theorem any_eq_sqlIn_iff (x : Value) (vals : List Value) :
    some (vals.any fun v => v.eq x) = sqlIn x vals ↔ InAgrees x vals := by
  unfold sqlIn InAgrees
  cases hx : x.isNull with
  | true => cases vals <;> simp
  | false =>
    cases hany : vals.any fun v => v.eq x with
    | true =>
      have hfound : ∃ v ∈ vals, v.eq x = true := by simpa using hany
      simp [hfound]
    | false => cases hnull : vals.any Value.isNull <;> simp_all

/-! ## Subqueries -/

section

variable (run : Runner) (cx : WhereContext)

/-- The query of a subquery node. -/
def Expr.subquery? : Expr → Option SelectStatement
  | .existsQuery query => some query
  | .inSubquery _ query => some query
  | .scalarCmp _ _ query => some query
  | _ => none

/-- The subquery of an `IN` or a comparison returns one column with these
values: it was cached with them, or it is run for the row. -/
inductive Answers : Expr → CacheEntry → List Value → Prop where
  | scalar (column : String) (op : CmpOp) (query : SelectStatement) (v : Value) :
      Answers (.scalarCmp column op query) (.scalar v) [v]
  | inValues (column : String) (query : SelectStatement) (vals : List Value) :
      Answers (.inSubquery column query) (.inValues vals) vals
  | nested {node : Expr} {query : SelectStatement} {rs : ResultSet} {vals : List Value}
      (hquery : node.subquery? = some query) (hrun : cx.runNested run query = .ok rs)
      (hcolumns : rs.columns.length = 1)
      (hrows : rs.rows.map List.head? = vals.map some) : Answers node .uncached vals

variable {run cx}

variable {v : Value} {vals : List Value} {column : String} {query : SelectStatement}
  {entry : CacheEntry}

theorem index_zero {row : Row} (h : row.head? = some v) :
    (Outcome.index row 0 : Outcome ε Value) = .ok v := by
  rw [Outcome.index_eq_ok, ← h, head?_eq_getElem?]

theorem anyFirst_eq {x : Value} {rows : List Row} (h : rows.map List.head? = vals.map some) :
    (anyFirst x rows : Outcome ε Bool) = .ok (vals.any fun v => v.eq x) := by
  induction rows generalizing vals with
  | nil =>
    cases vals with
    | nil => rfl
    | cons v vals => cases h
  | cons row rows ih =>
    cases vals with
    | nil => cases h
    | cons v vals =>
      obtain ⟨hrow, hrows⟩ := List.cons.inj h
      rw [anyFirst, index_zero hrow, ih hrows]
      cases hv : v.eq x <;> simp [hv]

theorem inValue_of_answers (h : Answers run cx (.inSubquery column query) entry vals) (x : Value) :
    inValue run cx x query entry = .ok (some (vals.any fun v => v.eq x)) := by
  cases h with
  | inValues => rfl
  | nested hquery hrun hcolumns hrows =>
    cases hquery
    simp [inValue, hrun, hcolumns, anyFirst_eq hrows]

theorem scalarValue_of_answers {op : CmpOp}
    (h : Answers run cx (.scalarCmp column op query) entry [v]) (x : Value) :
    scalarValue run cx x op query entry = .ok (some (compareScalar op x v)) := by
  cases h with
  | scalar => rfl
  | @nested _ _ rs _ hquery hrun hcolumns hrows =>
    cases hquery
    have hlength : rs.rows.length = 1 := by simpa using congrArg List.length hrows
    obtain ⟨row, hrow⟩ := length_eq_one_iff.mp hlength
    have hhead : row.head? = some v := by simpa [hrow] using hrows
    have hvalue : scalarResult rs = .ok v := by
      rw [scalarResult, if_neg (by simp [hcolumns, hlength]), hrow]
      exact index_zero hhead
    simp [scalarValue, hrun, hvalue]

end

/-! ## Predicates -/

section

variable (run : Runner) (cx : WhereContext) (entry : Expr → CacheEntry)
  (answer : Expr → List Value)

/-- The value of a predicate in SQL, where `answer` has the values the
subqueries return: a scalar one is compared like a literal. -/
def sqlTruth : Expr → Outcome DbError (Option Bool)
  | .and l r => do
    let lv ← sqlTruth l
    let rv ← sqlTruth r
    return kleeneAnd lv rv
  | .or l r => do
    let lv ← sqlTruth l
    let rv ← sqlTruth r
    return kleeneOr lv rv
  | .not inner => do
    let v ← sqlTruth inner
    return kleeneNot v
  | .inSubquery column query => do
    let x ← cx.find column
    return sqlIn x (answer (.inSubquery column query))
  | .scalarCmp column op query => do
    let x ← cx.find column
    match answer (.scalarCmp column op query) with
    | [v] => fromExec (compareValues op x v)
    | _ => scalarValue run cx x op query (entry (.scalarCmp column op query))
  | e => truth run cx entry e

/-- The subquery of a node has its answer, and the source compares it like SQL. -/
def NodeAgrees : Expr → Prop
  | .inSubquery column query =>
    Answers run cx (.inSubquery column query) (entry (.inSubquery column query))
        (answer (.inSubquery column query)) ∧
      ∀ x, cx.find column = .ok x → InAgrees x (answer (.inSubquery column query))
  | .scalarCmp column op query =>
    ∃ v, answer (.scalarCmp column op query) = [v] ∧
      Answers run cx (.scalarCmp column op query) (entry (.scalarCmp column op query)) [v] ∧
      ∀ x, cx.find column = .ok x → ScalarAgrees op x v
  | _ => True

variable {run cx entry answer}

/-- Predicates all of whose subqueries are compared like in SQL. -/
theorem truth_eq_sqlTruth {e : Expr}
    (h : ∀ node ∈ subqueryNodes e, NodeAgrees run cx entry answer node) :
    truth run cx entry e = sqlTruth run cx entry answer e := by
  induction e using Expr.connectives with
  | and l r ihl ihr | or l r ihl ihr =>
    simp only [subqueryNodes, mem_append] at h
    rw [truth, sqlTruth, ihl fun n hn => h n (.inl hn), ihr fun n hn => h n (.inr hn)]
  | not e ih => rw [truth, sqlTruth, ih h]
  | atom e hatom =>
    cases e with
    | and | or | not => cases hatom
    | inSubquery c q =>
      obtain ⟨hanswers, hagrees⟩ := h _ (mem_singleton.mpr rfl)
      rw [truth, sqlTruth]
      cases hx : cx.find c with
      | error f => rfl
      | ok x =>
        simp [inValue_of_answers hanswers, (any_eq_sqlIn_iff x _).mpr (hagrees x hx)]
    | scalarCmp c op q =>
      obtain ⟨v, hv, hanswers, hagrees⟩ := h _ (mem_singleton.mpr rfl)
      rw [truth, sqlTruth, hv]
      cases hx : cx.find c with
      | error f => rfl
      | ok x =>
        simp [scalarValue_of_answers hanswers, (compareScalar_agrees_iff op x v).mpr (hagrees x hx)]
    | _ => rfl

end

/-- A comparison with a subquery agrees with that with a literal exactly on
values of one kind that both orders compare alike, and `IN` with SQL exactly
where SQL knows the answer; predicates built from such parts agree. -/
theorem subquery_logic_iff (run : Runner) (cx : WhereContext) (counter : Nat) :
    (∀ column op query x literal, cx.find column = .ok x →
      Answers run cx (.scalarCmp column op query) (cx.entryAt counter) [literal.toValue] →
      ((do let (v, _) ← evalWhere run cx (.scalarCmp column op query) counter; return v) =
          (do let (v, _) ← evalWhere run cx (.cmp column op literal) counter; return v) ↔
        ScalarAgrees op x literal.toValue)) ∧
    (∀ column query x vals, cx.find column = .ok x →
      Answers run cx (.inSubquery column query) (cx.entryAt counter) vals →
      ((do let (v, _) ← evalWhere run cx (.inSubquery column query) counter; return v) =
          .ok (sqlIn x vals) ↔ InAgrees x vals)) ∧
    (∀ e entry answer,
      (∀ i node, (subqueryNodes e)[i]? = some node → cx.entryAt (counter + i) = entry node) →
      (∀ node ∈ subqueryNodes e, NodeAgrees run cx entry answer node) →
      (do let (v, _) ← evalWhere run cx e counter; return v) =
        sqlTruth run cx entry answer e) := by
  refine ⟨fun column op query x literal hx hanswers => ?_,
    fun column query x vals hx hanswers => ?_,
    fun e entry answer hentry hnodes => ?_⟩
  · have hliteral : (do let (v, _) ← evalWhere run cx (.cmp column op literal) counter; return v) =
        fromExec (compareValues op x literal.toValue) := by
      have hfind := fromExec_eq_ok.mp ((cx.find_eq column).symm.trans hx)
      rw [evalWhere_of_isPlain rfl, evalExprScoped_cmp, hfind]
      simpa using bind_ok _
    rw [hliteral, ← compareScalar_agrees_iff, evalWhere_scalarCmp, hx]
    simp [scalarValue_of_answers hanswers]
  · rw [evalWhere_inSubquery, hx]
    simp only [inValue_of_answers hanswers]
    rw [← any_eq_sqlIn_iff]
    exact ⟨fun h => ok.inj h, fun h => congrArg ok h⟩
  · rw [evalWhere_eq_truth hentry, truth_eq_sqlTruth hnodes]
    simp [bind_ok]

/-- `SELECT b FROM u`. -/
def selectB : SelectStatement := { selectAll "u" with columns := ["b"], star := false }

/-- A row of `t`; of two subqueries the first has been cached. -/
def cachedRow : WhereContext where
  columns := ["id", "a"]
  row := [.int 0, .int 5]
  scopeColumns := ["id", "a"]
  cache := [.scalar (.int 7), .uncached]

/-- Every query returns a five and a `NULL`. -/
def fiveAndNull : Runner := fun _ _ _ _ _ => .ok ⟨["b"], [[.int 5], [.null]], none⟩

/-- `a < (SELECT ...)` with a seven, `a IN (SELECT ...)`, and both. -/
theorem subquery_logic_cachedRow : ∃ entry answer,
    (do let (v, _) ← evalWhere fiveAndNull cachedRow (.scalarCmp "a" .lt selectB) 0; return v) =
        (do let (v, _) ← evalWhere fiveAndNull cachedRow (.cmp "a" .lt (.int 7)) 0; return v) ∧
      (do let (v, _) ← evalWhere fiveAndNull cachedRow (.inSubquery "a" selectB) 1; return v) =
        .ok (sqlIn (.int 5) [.int 5, .null]) ∧
      (do let (v, _) ← evalWhere fiveAndNull cachedRow
            (.and (.scalarCmp "a" .lt selectB) (.inSubquery "a" selectB)) 0
          return v) =
        sqlTruth fiveAndNull cachedRow entry answer
          (.and (.scalarCmp "a" .lt selectB) (.inSubquery "a" selectB)) := by
  have ha : cachedRow.find "a" = .ok (.int 5) := rfl
  have hfound : InAgrees (.int 5) [.int 5, .null] := .inl ⟨.int 5, by simp, rfl⟩
  have hanswers : Answers fiveAndNull cachedRow (.inSubquery "a" selectB) .uncached
      [.int 5, .null] := .nested rfl rfl rfl rfl
  refine ⟨fun node => if node matches .scalarCmp .. then .scalar (.int 7) else .uncached,
    fun node => if node matches .scalarCmp .. then [.int 7] else [.int 5, .null],
    ((subquery_logic_iff _ _ 0).1 "a" .lt selectB _ (.int 7) ha (.scalar ..)).mpr trivial,
    ((subquery_logic_iff _ _ 1).2.1 "a" selectB _ _ ha hanswers).mpr hfound,
    (subquery_logic_iff _ _ 0).2.2 _ _ _ ?_ ?_⟩
  · rintro (_ | _ | i) node hnode <;> cases hnode <;> rfl
  · simp only [subqueryNodes, cons_append, nil_append, forall_mem_cons]
    refine ⟨⟨.int 7, rfl, .scalar .., fun x hx => ?_⟩, ⟨hanswers, fun x hx => ?_⟩, by simp⟩
    · cases ha.symm.trans hx
      trivial
    · cases ha.symm.trans hx
      exact hfound

/-- `SELECT * FROM t WHERE NOT p`. -/
def selectNot (p : Expr) : SelectStatement := { selectAll "t" with filter := some (.not p) }

/-- A `NULL` and a one: `a = 1` is unknown and so is its negation, but
`a = (SELECT b FROM u)` is false. -/
theorem not_unknown_selects :
    ∃ db, Reaches 2 (fun _ _ => True) .empty db ∧
      (runSelect db.readView 2 selectB []).toOption.map ResultSet.rows = some [[.int 1]] ∧
      (runSelect db.readView 2 (selectNot (.scalarCmp "a" .eq selectB)) []).toOption.map
        ResultSet.rows = some [[.int 0, .null]] ∧
      (runSelect db.readView 2 (selectNot (.cmp "a" .eq (.int 1))) []).toOption.map
        ResultSet.rows = some [] :=
  exists_run 2 [.execute createT [], .execute (.createTable ⟨"u", [⟨"b", .int, []⟩], []⟩) [],
    .execute (.insert ⟨"t", ["a"], [[.null]]⟩) [], .execute (.insert ⟨"u", ["b"], [[.int 1]]⟩) []]
    (by decide +kernel)

end Archon
