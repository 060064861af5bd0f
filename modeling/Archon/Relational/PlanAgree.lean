import Archon.Relational.Names
import Archon.Relational.OwnWrites

/-!
# Archon.Relational.PlanAgree

The two ways to run a `SELECT` over one table: plan it and execute the plan,
or hand it to the database, which filters and groups the rows itself and plans
the rest.  Both compute `queryMeaning`, if the planner returns: its estimate
divides by a product of denominators that wraps.
-/

namespace Archon

/-! ## Meaning -/

/-- The rows that pass a filter. -/
def filterMeaning (filter : Option Expr) (table : Table) : Outcome ExecError (List Row) :=
  match filter with
  | none => return table.rows
  | some e => filterRows (fun row => evalExpr e table.columns row []) table.rows

/-- These rows, grouped if there is something to group. -/
def groupMeaning (stmt : SelectStatement) (table : Table) : Outcome ExecError ResultSet := do
  let rows ← filterMeaning stmt.filter table
  if stmt.groupBy.isEmpty && stmt.aggregates.isEmpty then
    return { columns := table.columns, rows }
  else aggregateTable table.columns rows stmt.groupBy stmt.aggregates

/-- Project, sort and cut. -/
def finish (stmt : SelectStatement) (rs : ResultSet) : Outcome ExecError ResultSet := do
  let rs ← projectColumns stmt.columns stmt.star rs
  let rs ← if stmt.orderBy.isEmpty then pure rs else sortResult stmt.orderBy rs
  return match stmt.limit with
    | none => rs
    | some n => { rs with rows := rs.rows.take n.toNat }

/-- What a `SELECT` over one table means. -/
def queryMeaning (stmt : SelectStatement) (table : Table) : Outcome ExecError ResultSet := do
  let rs ← groupMeaning stmt table
  finish stmt rs

/-- A `SELECT` over the table `name` alone, whose predicate has no subqueries
and only unqualified names. -/
structure SingleTable (stmt : SelectStatement) (name : String) : Prop where
  table : ∃ aliasName, stmt.table = .named name aliasName
  joins : stmt.joins = []
  windowFuncs : stmt.windowFuncs = []
  having : stmt.having = none
  orderByCosine : stmt.orderByCosine = none
  withCtes : stmt.withCtes = []
  filter : ∀ e, stmt.filter = some e → e.isPlain = true ∧ ∀ c ∈ e.columnNames, hasDot c = false

/-! ## The executor -/

/-- `execute(plan_select(stmt, stats), table)`. -/
def executePlanned (gpu : Bool) (stmt : SelectStatement) (stats : TableStats) (table : Table) :
    Outcome ExecError ResultSet := do
  let plan ← planSelect gpu stmt stats
  executePlan table plan

/-- The estimate does not divide by zero. -/
def Plannable (stmt : SelectStatement) : Prop :=
  ∀ e, stmt.filter = some e → (selectivity e).2 ≠ 0

theorem divCeil_ok (a : UInt64) {b : UInt64} (h : b ≠ 0) :
    ∃ q, (divCeil a b : Outcome ε UInt64) = .ok q := by
  simp [divCeil, h]

/-- The plan of projection, order and limit over a plan of the rows. -/
def planTail (stmt : SelectStatement) (node : PlanNode) : PlanNode :=
  let node := PlanNode.project stmt.columns stmt.star node
  let node := if stmt.orderBy.isEmpty then node else .sort stmt.orderBy node
  match stmt.limit with
  | none => node
  | some n => .limit n node

/-- The plan of a statement. -/
def planNode (stmt : SelectStatement) (vectorized : Bool) : PlanNode :=
  let node := PlanNode.scan stmt.table.name vectorized
  let node := match stmt.filter with
    | none => node
    | some e => .filter e node
  planTail stmt <| if !stmt.groupBy.isEmpty || !stmt.aggregates.isEmpty then
      .aggregate stmt.groupBy stmt.aggregates stmt.having node
    else node

variable {stmt : SelectStatement} {name : String} {run : Runner} {e : Expr} {table : Table}
  {ctes : List CTE}

theorem planSelect_ok (h : Plannable stmt) (gpu : Bool) (stats : TableStats) :
    ∃ plan, (planSelect gpu stmt stats : Outcome ε Plan) = .ok plan ∧
      plan.root = planNode stmt (stats.rowCount ≥ VECTORIZE_ROW_THRESHOLD) := by
  have hestimate : ∀ a : UInt64, ∃ q, (divCeil a 10 : Outcome ε UInt64) = .ok q :=
    fun a => divCeil_ok a (by decide)
  unfold planSelect planNode planTail
  cases hfilter : stmt.filter with
  | none =>
    obtain ⟨q, hq⟩ := hestimate stats.rowCount
    cases hg : stmt.groupBy.isEmpty <;> cases ha : stmt.aggregates.isEmpty <;>
      cases hl : stmt.limit <;> simp [hq]
  | some e =>
    obtain ⟨p, hp⟩ := @divCeil_ok ε (stats.rowCount * (selectivity e).1) _ (h e hfilter)
    obtain ⟨q, hq⟩ := hestimate p
    cases hg : stmt.groupBy.isEmpty <;> cases ha : stmt.aggregates.isEmpty <;>
      cases hl : stmt.limit <;> simp [hp, hq]

theorem planSelect_panics (h : ¬ Plannable stmt) (gpu : Bool) (stats : TableStats) :
    (planSelect gpu stmt stats : Outcome ε Plan) = Outcome.panicked := by
  simp only [Plannable, not_forall, not_not] at h
  obtain ⟨e, hfilter, hzero⟩ := h
  simp [planSelect, hfilter, divCeil, hzero, Outcome.panicked]

theorem executeNode_planTail (stmt : SelectStatement) (table : Table) (node : PlanNode) :
    executeNode table (planTail stmt node) = executeNode table node >>= finish stmt := by
  unfold planTail finish
  cases ho : stmt.orderBy.isEmpty <;> cases hl : stmt.limit <;>
    simp [executeNode, Except.bind_ok]

/-- The plan of a statement without `HAVING` computes its meaning. -/
theorem executeNode_planNode (hhaving : stmt.having = none) (vectorized : Bool) (table : Table) :
    executeNode table (planNode stmt vectorized) = queryMeaning stmt table := by
  rw [planNode, executeNode_planTail, queryMeaning, groupMeaning]
  unfold filterMeaning
  cases hfilter : stmt.filter <;> cases hg : stmt.groupBy.isEmpty <;>
    cases ha : stmt.aggregates.isEmpty <;> simp [executeNode, hhaving]

theorem executePlan_eq (table : Table) (plan : Plan) :
    executePlan table plan = executeNode table plan.root := by
  cases plan
  rfl

theorem executePlanned_of_plannable (hhaving : stmt.having = none) (h : Plannable stmt) (gpu : Bool)
    (stats : TableStats) (table : Table) :
    executePlanned gpu stmt stats table = queryMeaning stmt table := by
  obtain ⟨plan, hplan, hroot⟩ := planSelect_ok h gpu stats
  rw [executePlanned, hplan, Except.ok_bind, executePlan_eq, hroot, executeNode_planNode hhaving]

/-! ## The database -/

theorem passes_of_noDot {cx : WhereContext} (hplain : e.isPlain = true)
    (hnames : ∀ c ∈ e.columnNames, hasDot c = false) (houter : cx.outer = []) :
    passes run cx e = fromExec (evalExpr e cx.columns cx.row []) := by
  have heval : evalExprScoped cx.columns cx.row [] cx.validQualifiers e =
      evalExprScoped cx.columns cx.row [] [] e :=
    evalExprScoped_congr_find fun c hc => by
      simp [evalExprScoped.find, findValue, hnames c hc]
  rw [passes, evalWhere_of_isPlain hplain, houter, heval, evalExpr, fromExec_bind, bind_assoc]
  rfl

theorem subqueryNodes_of_isPlain (h : e.isPlain = true) : subqueryNodes e = [] := by
  induction e using Expr.connectives with
  | and l r ihl ihr | or l r ihl ihr =>
    obtain ⟨hl, hr⟩ := (Bool.and_eq_true _ _).mp h
    simp [subqueryNodes, ihl hl, ihr hr]
  | not e ih => exact ih h
  | atom e hatom => cases e <;> first | rfl | cases h | cases hatom

theorem filterRows_fromExec (p : Row → Outcome ExecError Bool) (rows : List Row) :
    filterRows (fun row => fromExec (p row)) rows = fromExec (filterRows p rows) := by
  induction rows with
  | nil => rfl
  | cons row rows ih => simp only [filterRows, ih, fromExec_bind]; rfl

theorem filterTable_of_noDot {filter : Option Expr} {scopeColumns : List String}
    {params : Params} {qualifiers : List String}
    (h : ∀ e, filter = some e → e.isPlain = true ∧ ∀ c ∈ e.columnNames, hasDot c = false) :
    filterTable run filter table scopeColumns params [] ctes qualifiers = do
      let rows ← fromExec (filterMeaning filter table)
      return { table with rows } := by
  cases filter with
  | none => rfl
  | some e =>
    obtain ⟨hplain, hnames⟩ := h e rfl
    simp [filterTable, buildSubqueryCache, subqueryNodes_of_isPlain hplain, passes_of_noDot hplain
      hnames, filterRows_fromExec, filterMeaning]

theorem aggregateTable_eta (columns : List String) (rows : List Row) (groupBy : List String)
    (aggregates : List (String × AggregateFunc × String)) :
    aggregateTable columns rows groupBy aggregates = (do
      let rs ← aggregateTable columns rows groupBy aggregates
      return { columns := rs.columns, rows := rs.rows }) := by
  unfold aggregateTable
  split <;> simp

/-- The plan of the remaining statement computes the rest of the meaning. -/
theorem executePlan_rest (stmt : SelectStatement) (table : Table) (stats : TableStats) : (do
      let plan ← planSelect false
        { stmt with groupBy := [], aggregates := [], having := none, filter := none } stats
      fromExec (executePlan table plan)) =
    fromExec (finish stmt { columns := table.columns, rows := table.rows }) := by
  obtain ⟨plan, hplan, hroot⟩ := @planSelect_ok
    { stmt with groupBy := [], aggregates := [], having := none, filter := none } DbError
    (fun e he => by cases he) false stats
  have hnode := executeNode_planTail stmt table (.scan stmt.table.name
    (decide (stats.rowCount ≥ VECTORIZE_ROW_THRESHOLD)))
  rw [hplan, Except.ok_bind, executePlan_eq, hroot]
  exact congrArg fromExec (hnode.trans (by rw [executeNode]; rfl))

/-- The database computes the meaning of a statement over one of its tables. -/
theorem runSelectScoped_single {v : ReadView} (h : SingleTable stmt name)
    (hview : v.views.lookup name = none) (hscan : scanTable v name = .ok table)
    (hctes : (ctes.find? fun c => c.name == name) = none) (n : Nat) (params : Params) :
    runSelectScoped v (n + 1) stmt params [] ctes none = fromExec (queryMeaning stmt table) := by
  obtain ⟨aliasName, htable⟩ := h.table
  have hbase : resolveTableRef v (runSelectScoped v n) stmt.table ctes none = .ok table := by
    simp [htable, resolveTableRef, resolveNamed, hctes, hview, hscan]
  have hjoin : ∀ qualifiers, joinTables v (runSelectScoped v n) stmt.table.name ctes none qualifiers
      stmt.joins table = .ok table := by simp [h.joins, joinTables]
  rw [runSelectScoped, selectBody_of_plain h.orderByCosine, h.withCtes]
  simp only [checkCtes, mergeCtes, List.foldl_nil, selectCore, windowStage, groupStage,
    planStage, executePlan_rest]
  simp only [hbase, hjoin, Except.ok_bind, h.windowFuncs, h.having,
    filterTable_of_noDot h.filter, queryMeaning, groupMeaning, fromExec_bind, bind_assoc, pure_bind]
  congr 1
  funext rows
  cases hgroup : stmt.groupBy.isEmpty && stmt.aggregates.isEmpty with
  | true => rfl
  | false =>
    rw [aggregateTable_eta]
    simp only [Bool.false_eq_true, if_false, fromExec_bind, bind_assoc]
    rfl

/-! ## Agreement -/

/-- Both calls fail, or both return the same columns and rows. -/
def SameResult (a : Outcome ε ResultSet) (b : Outcome ε' ResultSet) : Prop :=
  (Outcome.Fails a ∧ Outcome.Fails b) ∨
    ∃ ra rb, a = .ok ra ∧ b = .ok rb ∧ ra.columns = rb.columns ∧ ra.rows = rb.rows

theorem sameResult_fromExec (x : Outcome ExecError ResultSet) : SameResult x (fromExec x) := by
  cases hx : x with
  | ok rs => exact .inr ⟨rs, rs, rfl, rfl, rfl, rfl⟩
  | error f =>
    refine .inl ⟨fun a h => ?_, fun a h => ?_⟩
    · cases h
    · cases fromExec_eq_ok.mp h

/-- The executor and the database agree on a statement over one table, unless
the planner panics over one that the database can evaluate. -/
theorem executePlanned_agrees_iff {v : ReadView} {stmt : SelectStatement} {name : String}
    (h : SingleTable stmt name) {table : Table} (hview : v.views.lookup name = none)
    (hscan : scanTable v name = .ok table) (gpu : Bool) (stats : TableStats) (depth : Nat)
    (params : Params) :
    SameResult (executePlanned gpu stmt stats table) (runSelect v (depth + 1) stmt params) ↔
      Plannable stmt ∨ Outcome.Fails (queryMeaning stmt table) := by
  rw [runSelect, runSelectScoped_single h hview hscan rfl]
  by_cases hplan : Plannable stmt
  · rw [executePlanned_of_plannable h.having hplan]
    exact ⟨fun _ => .inl hplan, fun _ => sameResult_fromExec _⟩
  · rw [executePlanned, planSelect_panics hplan]
    constructor
    · rintro (⟨-, hfails⟩ | ⟨ra, rb, ha, -⟩)
      · exact .inr fun rs hrs => hfails rs (fromExec_eq_ok.mpr hrs)
      · cases ha
    · rintro (hp | hfails)
      · exact absurd hp hplan
      · refine .inl ⟨fun rs hrs => ?_, fun rs hrs => hfails rs (fromExec_eq_ok.mp hrs)⟩
        cases hrs

/-- `a = 1 AND ... AND a = 1`, with `n` times `AND`. -/
def conjunction : Nat → Expr
  | 0 => .cmp "a" .eq (.int 1)
  | n + 1 => .and (conjunction n) (.cmp "a" .eq (.int 1))

/-- `SELECT * FROM t WHERE a = 1 AND ... AND a = 1`. -/
def selectConjunction (n : Nat) : SelectStatement :=
  { selectAll "t" with filter := some (conjunction n) }

theorem selectConjunction_single (n : Nat) : SingleTable (selectConjunction n) "t" where
  table := ⟨none, rfl⟩
  joins := rfl
  windowFuncs := rfl
  having := rfl
  orderByCosine := rfl
  withCtes := rfl
  filter := by
    rintro _ ⟨⟩
    induction n with
    | zero => exact ⟨rfl, by simp [conjunction]; decide⟩
    | succ n ih =>
      refine ⟨by simp [conjunction, Expr.isPlain, ih.1], ?_⟩
      simp only [conjunction, Expr.columnNames, List.mem_append, List.mem_singleton]
      rintro c (hc | rfl)
      · exact ih.2 c hc
      · decide

/-- Over three comparisons the two agree. -/
theorem executePlanned_agrees_iff_conjunction :
    ∃ db table, runCalls 1 [.execute createT [], .execute (insertT 1) []] .empty = some db ∧
      scanTable db.readView "t" = .ok table ∧
      SameResult (executePlanned false (selectConjunction 2) ⟨1⟩ table)
        (runSelect db.readView 1 (selectConjunction 2) []) := by
  obtain ⟨db, hdb, hview, table, hscan⟩ : ∃ db,
      runCalls 1 [.execute createT [], .execute (insertT 1) []] .empty = some db ∧
        db.readView.views.lookup "t" = none ∧ ∃ table, scanTable db.readView "t" = .ok table := by
    decide +kernel
  refine ⟨db, table, hdb, hscan, ?_⟩
  refine (executePlanned_agrees_iff (selectConjunction_single 2) hview hscan false ⟨1⟩ 0 []).mpr
    (.inl ?_)
  rintro _ ⟨⟩
  decide

/-- Over 64 comparisons the planner panics, and the database answers. -/
theorem selectConjunction_panics :
    ∃ db table, Reaches 1 (fun _ _ => True) .empty db ∧ SingleTable (selectConjunction 63) "t" ∧
      db.readView.views.lookup "t" = none ∧ scanTable db.readView "t" = .ok table ∧
      ¬ SameResult (executePlanned false (selectConjunction 63) ⟨1⟩ table)
        (runSelect db.readView 1 (selectConjunction 63) []) := by
  obtain ⟨db, hr, hview, ⟨table, hscan⟩, rs, hrs⟩ := exists_run (P := fun db =>
      db.readView.views.lookup "t" = none ∧ (∃ table, scanTable db.readView "t" = .ok table) ∧
      ∃ rs, runSelect db.readView 1 (selectConjunction 63) [] = .ok rs) 1
    [.execute createT [], .execute (insertT 1) []] (by decide +kernel)
  refine ⟨db, table, hr, selectConjunction_single 63, hview, hscan, ?_⟩
  have hzero : (selectivity (conjunction 63)).2 = 0 := by decide +kernel
  have hpanics : executePlanned false (selectConjunction 63) ⟨1⟩ table = Outcome.panicked := by
    rw [executePlanned, planSelect_panics fun h => h _ rfl hzero]
    rfl
  rw [hpanics]
  rintro (⟨-, hfails⟩ | ⟨ra, rb, ha, -⟩)
  · exact hfails rs hrs
  · cases ha

end Archon
