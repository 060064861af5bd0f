import Archon.Lib.Assoc
import Archon.Relational.Select

/-!
# Archon.Relational.QueryAgree

When two databases, or two scopes of common table expressions, answer a query
alike.  A `SELECT` depends on the runner of nested queries only through the
queries it is made of, and on the database only through the scans of its
tables; the lemmas say so level by level, and `runSelectScoped_agree` for whole
queries.
-/

namespace Archon

open List

variable {stmt : SelectStatement}
variable {params : Params} {query : SelectStatement} {cx : WhereContext}

/-! ## The queries inside a query -/

/-- The subqueries of a predicate. -/
def exprQueries : Expr → List SelectStatement
  | .and l r => exprQueries l ++ exprQueries r
  | .or l r => exprQueries l ++ exprQueries r
  | .not inner => exprQueries inner
  | .existsQuery query => [query]
  | .inSubquery _ query => [query]
  | .scalarCmp _ _ query => [query]
  | _ => []

def filterQueries (filter : Option Expr) : List SelectStatement := filter.elim [] exprQueries

def TableRef.queries : TableRef → List SelectStatement
  | .named _ _ => []
  | .subquery query _ => [query]

def CTE.queries (cte : CTE) : List SelectStatement :=
  cte.query :: cte.recursiveTerm.toList.map Prod.snd

/-- The tables of `FROM` and `JOIN`. -/
def SelectStatement.refs (stmt : SelectStatement) : List TableRef :=
  stmt.table :: stmt.joins.map Join.table

/-- The queries a statement is made of. -/
def SelectStatement.children (stmt : SelectStatement) : List SelectStatement :=
  stmt.refs.flatMap TableRef.queries ++ filterQueries stmt.filter ++ filterQueries stmt.having ++
    stmt.withCtes.flatMap CTE.queries

/-- A set of queries that has the queries inside its queries and the views they
name. -/
structure ClosedQueries (views : List (String × SelectStatement)) (A : SelectStatement → Prop) :
    Prop where
  child : ∀ stmt, A stmt → ∀ q ∈ stmt.children, A q
  view : ∀ stmt, A stmt → ∀ name aliasName, .named name aliasName ∈ stmt.refs →
    ∀ q, views.lookup name = some q → A q

namespace ClosedQueries

variable {views : List (String × SelectStatement)} {A : SelectStatement → Prop}
  {stmt q : SelectStatement}

theorem all (views : List (String × SelectStatement)) : ClosedQueries views fun _ => True :=
  ⟨fun _ _ _ _ => trivial, fun _ _ _ _ _ _ _ => trivial⟩

section

variable (h : ClosedQueries views A) (hs : A stmt)
include h hs

/-- A closed set has the queries of the table references. -/
theorem ref {r : TableRef} (hr : r ∈ stmt.refs) (hq : q ∈ r.queries) : A q := by
  have hmem : q ∈ stmt.refs.flatMap TableRef.queries := mem_flatMap.mpr ⟨r, hr, hq⟩
  exact h.child stmt hs q (by simp [SelectStatement.children, hmem])

theorem filter (hq : q ∈ filterQueries stmt.filter) :
    A q := h.child stmt hs q (by simp [SelectStatement.children, hq])

theorem having (hq : q ∈ filterQueries stmt.having) :
    A q := h.child stmt hs q (by simp [SelectStatement.children, hq])

theorem cte {c : CTE} (hc : c ∈ stmt.withCtes) (hq : q ∈ c.queries) : A q := by
  have hmem : q ∈ stmt.withCtes.flatMap CTE.queries := mem_flatMap.mpr ⟨c, hc, hq⟩
  exact h.child stmt hs q (by simp [SelectStatement.children, hmem])

end

end ClosedQueries

/-! ## Predicates -/

section

variable {run run' : Runner} {ctes ctes' : List CTE}

/-- The runners agree on a query, whatever encloses it. -/
def NestedAgree (run run' : Runner) (ctes ctes' : List CTE) (query : SelectStatement) : Prop :=
  ∀ params outer, run query params outer ctes none = run' query params outer ctes' none

/-- A nested query runs alike under agreeing runners. -/
theorem runNested_congr (h : NestedAgree run run' cx.ctes ctes' query) :
    cx.runNested run query = { cx with ctes := ctes' }.runNested run' query := by
  simp [WhereContext.runNested, h cx.params]

/-- A predicate has the same value. -/
theorem evalWhere_congr (expr : Expr) (counter : Nat)
    (h : ∀ q ∈ exprQueries expr, NestedAgree run run' cx.ctes ctes' q) :
    evalWhere run cx expr counter = evalWhere run' { cx with ctes := ctes' } expr counter := by
  induction expr using Expr.connectives generalizing counter with
  | and l r ihl ihr | or l r ihl ihr =>
    have hl := fun c => ihl c fun q hq => h q (by simp [exprQueries, hq])
    have hr := fun c => ihr c fun q hq => h q (by simp [exprQueries, hq])
    simp [evalWhere, hl, hr]
  | not inner ih =>
    have hi := fun c => ih c h
    simp [evalWhere, hi]
  | atom e hatom =>
    cases e with
    | and | or | not => cases hatom
    | existsQuery query => simp [evalWhere, runNested_congr (h query (by simp [exprQueries]))]
    | inSubquery column query | scalarCmp column op query =>
      simp [evalWhere, runNested_congr (h query (by simp [exprQueries])), WhereContext.find]
    | _ => rfl

variable {expr : Expr} {ownColumns qualifiers : List String} {outer : List Scope}

/-- The same rows pass. -/
theorem passes_congr (h : ∀ q ∈ exprQueries expr, NestedAgree run run' cx.ctes ctes' q) :
    passes run cx expr = passes run' { cx with ctes := ctes' } expr := by
  simp [passes, evalWhere_congr expr 0 h]

/-- The queries of a node are queries of the expression. -/
theorem subqueryNodes_queries (expr : Expr) : ∀ node ∈ subqueryNodes expr,
    ∀ q ∈ exprQueries node, q ∈ exprQueries expr := by
  induction expr using Expr.connectives with
  | and l r hl hr | or l r hl hr =>
    intro node hnode q hq
    simp only [subqueryNodes, mem_append] at hnode
    simp only [exprQueries, mem_append]
    exact hnode.imp (fun hn => hl node hn q hq) fun hn => hr node hn q hq
  | not inner ih => exact ih
  | atom e hatom => cases e <;> first | contradiction | simp [subqueryNodes]

/-- A subquery is cached alike. -/
theorem cacheEntry_congr {node : Expr}
    (h : ∀ q ∈ exprQueries node, NestedAgree run run' ctes ctes' q) :
    cacheEntry run ownColumns params ctes node = cacheEntry run' ownColumns params ctes' node := by
  cases node with
  | existsQuery query | inSubquery column query | scalarCmp column op query =>
    simp [cacheEntry, h query (by simp [exprQueries]) params]
  | _ => rfl

/-- The subqueries of an expression are cached alike. -/
theorem buildSubqueryCache_congr (h : ∀ q ∈ exprQueries expr, NestedAgree run run' ctes ctes' q) :
    buildSubqueryCache run expr ownColumns params ctes =
      buildSubqueryCache run' expr ownColumns params ctes' :=
  Except.mapM_congr fun node hnode =>
    cacheEntry_congr fun q hq => h q (subqueryNodes_queries expr node hnode q hq)

/-- `WHERE` keeps the same rows. -/
theorem filterTable_congr {filter : Option Expr} {table : Table} {scopeColumns : List String}
    (h : ∀ q ∈ filterQueries filter, NestedAgree run run' ctes ctes' q) :
    filterTable run filter table scopeColumns params outer ctes qualifiers =
      filterTable run' filter table scopeColumns params outer ctes' qualifiers := by
  cases filter with
  | none => rfl
  | some expr =>
    have hrows : ∀ cache row,
        passes run ⟨table.columns, row, params, outer, ctes, scopeColumns, cache, qualifiers⟩ expr =
          passes run' ⟨table.columns, row, params, outer, ctes', scopeColumns, cache, qualifiers⟩
            expr := fun cache row => passes_congr h
    simp [filterTable, buildSubqueryCache_congr h, hrows]

/-! ## Tables -/

/-- The rounds of a recursive CTE are the same. -/
theorem recursiveRounds_congr {cte : CTE} {dedup : Bool} {columns : List String}
    (h : ∀ b, run query [] [] ctes (some b) = run' query [] [] ctes' (some b)) (n : Nat)
    (allRows working : List Row) :
    recursiveRounds run cte ctes query dedup columns n allRows working =
      recursiveRounds run' cte ctes' query dedup columns n allRows working := by
  induction n generalizing allRows working with
  | zero => rfl
  | succ n ih => simp [recursiveRounds, h, ih]

variable {v v' : ReadView} {binding : Option RecursiveBinding}

/-- Joins of tables that resolve alike are the same. -/
theorem joinTables_congr {base : String} {joins : List Join}
    (h : ∀ j ∈ joins, resolveTableRef v run j.table ctes binding =
      resolveTableRef v' run' j.table ctes' binding) (table : Table) :
    joinTables v run base ctes binding qualifiers joins table =
      joinTables v' run' base ctes' binding qualifiers joins table := by
  induction joins generalizing table with
  | nil => rfl
  | cons join joins ih =>
    have htail := ih fun j hj => h j (.tail join hj)
    simp [joinTables, h join (.head _), htail]

/-- The window functions of a `SELECT`. -/
def windowStage (stmt : SelectStatement) (table : Table) : Outcome DbError Table :=
  if stmt.windowFuncs.isEmpty then return table
  else fromExec (applyWindowFuncs table stmt.windowFuncs)

/-- Its groups and aggregates. -/
def groupStage (stmt : SelectStatement) (table : Table) : Outcome DbError Table :=
  if stmt.groupBy.isEmpty && stmt.aggregates.isEmpty then return table
  else do
    let rs ← fromExec (aggregateTable table.columns table.rows stmt.groupBy stmt.aggregates)
    return ⟨rs.columns, rs.rows⟩

/-- Its projection, order and limit. -/
def planStage (stmt : SelectStatement) (table : Table) : Outcome DbError ResultSet := do
  let planStmt := { stmt with groupBy := [], aggregates := [], having := none, filter := none }
  let plan ← planSelect false planStmt ⟨UInt64.ofNat table.rows.length⟩
  fromExec (executePlan table plan)

/-- A `SELECT` behind its common table expressions, in stages. -/
def selectCore (v : ReadView) (run : Runner) (stmt : SelectStatement) (params : Params)
    (outer : List Scope) (ctes : List CTE) (binding : Option RecursiveBinding) :
    Outcome DbError ResultSet := do
  let base ← resolveTableRef v run stmt.table ctes binding
  let qualifiers := stmt.table.name :: stmt.joins.map fun j => j.table.name
  let joined ← joinTables v run stmt.table.name ctes binding qualifiers stmt.joins base
  let kept ← filterTable run stmt.filter joined (qualifyBare stmt.table.name joined.columns)
    params outer ctes qualifiers
  let windowed ← windowStage stmt kept
  let grouped ← groupStage stmt windowed
  let table ← filterTable run stmt.having grouped grouped.columns params outer ctes qualifiers
  planStage stmt table

/-- A vector query is the top-k search. -/
theorem selectBody_of_cosine {ob : OrderByCosine} (h : stmt.orderByCosine = some ob)
    (params : Params) (outer : List Scope) (outerCtes : List CTE) :
    selectBody v run stmt params outer outerCtes binding = runVectorTopk v run stmt ob params := by
  simp [selectBody, h]

/-- Any other checks its CTEs and runs. -/
theorem selectBody_of_plain (h : stmt.orderByCosine = none) (params : Params)
    (outer : List Scope) (outerCtes : List CTE) :
    selectBody v run stmt params outer outerCtes binding = (do
      checkCtes v stmt.withCtes
      selectCore v run stmt params outer (mergeCtes outerCtes stmt.withCtes) binding) := by
  unfold selectBody selectCore windowStage groupStage planStage
  by_cases hwindow : stmt.windowFuncs.isEmpty = true <;>
    by_cases hgroup : (stmt.groupBy.isEmpty && stmt.aggregates.isEmpty) = true <;>
      simp only [h, hwindow, hgroup, if_true, if_false, Bool.false_eq_true, bind_assoc]

/-- A query whose tables resolve alike and whose nested queries run alike is the same. -/
theorem selectCore_congr (hrefs : ∀ r ∈ stmt.refs, resolveTableRef v run r ctes binding =
      resolveTableRef v' run' r ctes' binding)
    (hfilter : ∀ q ∈ filterQueries stmt.filter, NestedAgree run run' ctes ctes' q)
    (hhaving : ∀ q ∈ filterQueries stmt.having, NestedAgree run run' ctes ctes' q) :
    selectCore v run stmt params outer ctes binding =
      selectCore v' run' stmt params outer ctes' binding := by
  have hbase := hrefs stmt.table (by simp [SelectStatement.refs])
  have hjoins : ∀ j ∈ stmt.joins, resolveTableRef v run j.table ctes binding =
      resolveTableRef v' run' j.table ctes' binding := by
    intro j hj
    exact hrefs j.table (mem_cons_of_mem _ (mem_map_of_mem hj))
  simp only [selectCore, hbase, joinTables_congr hjoins, filterTable_congr hfilter,
    filterTable_congr hhaving]

end

/-! ## Databases that answer alike -/

/-- Two databases with the same views whose tables scan alike, and those of `N`
also under a nearest-neighbour query. -/
structure ReadView.Agrees (N : String → Prop) (v v' : ReadView) : Prop where
  views : v.views = v'.views
  scan : ∀ n, scanTable v n = scanTable v' n
  named : ∀ n, (v.table n).isSome = (v'.table n).isSome
  nearest : ∀ n, N n → (v.table n).map (fun rt => (rt.schema.columns, rt.nearest)) =
    (v'.table n).map fun rt => (rt.schema.columns, rt.nearest)

/-- A nearest-neighbour query names only tables of `N`. -/
def SelectStatement.NearestIn (N : String → Prop) (stmt : SelectStatement) : Prop :=
  ∀ ob name aliasName, stmt.orderByCosine = some ob → stmt.table = .named name aliasName → N name

section

variable {N : String → Prop} {v v' : ReadView}

/-- CTE names clash in one view exactly if in the other. -/
theorem checkCtes_agree (h : v.Agrees N v') (ctes : List CTE) :
    checkCtes v ctes = checkCtes v' ctes := by
  induction ctes with
  | nil => rfl
  | cons cte ctes ih => simp only [checkCtes, h.views, h.named, ih]

/-- A visible CTE is an enclosing one or one of the query. -/
theorem mem_mergeCtes {outerCtes withCtes : List CTE} {c : CTE}
    (h : c ∈ mergeCtes outerCtes withCtes) : c ∈ outerCtes ∨ c ∈ withCtes := by
  induction withCtes generalizing outerCtes with
  | nil => exact .inl h
  | cons cte withCtes ih =>
    rcases ih h with h | h
    · rcases mem_append.mp h with h | h
      · exact .inl (mem_filter.mp h).1
      · simp [mem_singleton.mp h]
    · exact .inr (.tail cte h)

/-- The runners agree on the queries of `A`, under common table expressions
made of them. -/
def RunAgree (A : SelectStatement → Prop) (run run' : Runner) : Prop :=
  ∀ stmt params outer ctes binding, A stmt → (∀ c ∈ ctes, ∀ q ∈ c.queries, A q) →
    run stmt params outer ctes binding = run' stmt params outer ctes binding

variable {A : SelectStatement → Prop} {run run' : Runner} {ctes : List CTE}

section

variable (h : RunAgree A run run') (hctes : ∀ c ∈ ctes, ∀ q ∈ c.queries, A q)
include h hctes

theorem RunAgree.nested {q : SelectStatement} (hq : A q) : NestedAgree run run' ctes ctes q :=
  fun params outer => h q params outer ctes none hq hctes

/-- A recursive CTE gives the same rows. -/
theorem runRecursiveCte_agree
    {cte : CTE} {setOp : SetOperation} (hanchor : A cte.query) (hquery : A query) :
    runRecursiveCte run cte ctes setOp query = runRecursiveCte run' cte ctes setOp query := by
  have hstep : ∀ b, run query [] [] ctes (some b) = run' query [] [] ctes (some b) :=
    fun b => h query [] [] ctes (some b) hquery hctes
  simp [runRecursiveCte, h cte.query [] [] ctes none hanchor hctes, recursiveRounds_congr hstep]

end

/-- A table reference resolves alike. -/
theorem resolveTableRef_agree (hv : v.Agrees N v') (h : RunAgree A run run')
    (hctes : ∀ c ∈ ctes, ∀ q ∈ c.queries, A q) {r : TableRef} (hr : ∀ q ∈ r.queries, A q)
    (hview : ∀ name aliasName, r = .named name aliasName →
      ∀ q, v.views.lookup name = some q → A q) (binding : Option RecursiveBinding) :
    resolveTableRef v run r ctes binding = resolveTableRef v' run' r ctes binding := by
  cases r with
  | subquery query aliasName =>
    have hq : A query := hr query (by simp [TableRef.queries])
    simp [resolveTableRef, h query [] [] ctes none hq hctes]
  | named name aliasName =>
    simp only [resolveTableRef, resolveNamed, ← hv.views, ← hv.scan]
    cases binding.filter fun b => b.name == name with
    | some b => rfl
    | none =>
      cases hfind : ctes.find? fun c => c.name == name with
      | some cte =>
        have hcte := hctes cte (mem_of_find?_eq_some hfind)
        have hquery : A cte.query := hcte _ (.head _)
        cases hrec : cte.recursiveTerm with
        | none => simp [hrec, h cte.query [] [] ctes none hquery hctes]
        | some term =>
          have hterm : A term.2 := hcte _ (by simp [CTE.queries, hrec])
          simp [hrec, runRecursiveCte_agree h hctes hquery hterm]
      | none =>
        cases hlookup : v.views.lookup name with
        | none => rfl
        | some query =>
          have hq : A query := hview name aliasName rfl query hlookup
          simp [h query [] [] [] none hq (by simp)]

variable {stmt : SelectStatement}

variable (hv : v.Agrees N v') (hA : ClosedQueries v.views A)
include hv hA

/-- The top-k search agrees if the searched table does. -/
theorem runVectorTopk_agree (h : RunAgree A run run') (hs : A stmt) {ob : OrderByCosine}
    (hN : ∀ name aliasName, stmt.table = .named name aliasName → N name) (params : Params) :
    runVectorTopk v run stmt ob params = runVectorTopk v' run' stmt ob params := by
  have hpasses : ∀ columns row expr, stmt.filter = some expr →
      passes run { columns, row, params, scopeColumns := columns } expr =
        passes run' { columns, row, params, scopeColumns := columns } expr := by
    intro columns row expr hfilter
    refine passes_congr fun q hq => h.nested (by simp) (hA.filter hs ?_)
    simpa [filterQueries, hfilter] using hq
  unfold runVectorTopk
  cases htable : stmt.table with
  | subquery query aliasName =>
    have hq : ∀ q ∈ (TableRef.subquery query aliasName).queries, A q :=
      fun q hq => hA.ref hs (by simp [SelectStatement.refs, htable]) hq
    have hsub : resolveTableRef v run (.subquery query aliasName) [] none =
        resolveTableRef v' run' (.subquery query aliasName) [] none :=
      resolveTableRef_agree hv h (by simp) hq (by simp) none
    cases hfilter : stmt.filter with
    | none => simp only [hsub]
    | some expr => simp [hsub, hpasses _ _ expr hfilter]
  | named name aliasName =>
    have hnear := hv.nearest name (hN name aliasName htable)
    cases hrt : v.table name with
    | none =>
      have hrt' : v'.table name = none := by simpa [hrt] using hnear.symm
      simp only [hrt, hrt']
      rfl
    | some rt =>
      obtain ⟨rt', hrt', heq⟩ : ∃ rt', v'.table name = some rt' ∧
          (rt'.schema.columns, rt'.nearest) = (rt.schema.columns, rt.nearest) := by
        simpa [hrt] using hnear.symm
      obtain ⟨hcols, hnearest⟩ := Prod.mk.inj heq
      cases hfilter : stmt.filter with
      | none => simp only [hrt, hrt', Outcome.okOr, Except.ok_bind, hcols, hnearest]
      | some expr =>
        simp only [hrt, hrt', Outcome.okOr, Except.ok_bind, hcols, hnearest,
          hpasses _ _ expr hfilter]

section

variable (hN : ∀ stmt, A stmt → stmt.NearestIn N)
include hN

/-- Databases that agree answer the queries of `A` alike. -/
theorem runSelectScoped_agree (depth : Nat) :
    RunAgree A (runSelectScoped v depth) (runSelectScoped v' depth) := by
  induction depth with
  | zero => exact fun _ _ _ _ _ _ _ => rfl
  | succ depth ih =>
    intro stmt params outer ctes binding hs hctes
    have hmerged : ∀ c ∈ mergeCtes ctes stmt.withCtes, ∀ q ∈ c.queries, A q := by
      intro c hc q hq
      rcases mem_mergeCtes hc with hc | hc
      · exact hctes c hc q hq
      · exact hA.cte hs hc hq
    show selectBody v _ stmt params outer ctes binding = selectBody v' _ stmt params outer
      ctes binding
    cases hob : stmt.orderByCosine with
    | some ob =>
      rw [selectBody_of_cosine hob, selectBody_of_cosine hob]
      exact runVectorTopk_agree hv hA ih hs (fun name _ => hN stmt hs ob name _ hob) params
    | none =>
      have hrefs : ∀ r ∈ stmt.refs,
          resolveTableRef v (runSelectScoped v depth) r (mergeCtes ctes stmt.withCtes) binding =
            resolveTableRef v' (runSelectScoped v' depth) r (mergeCtes ctes stmt.withCtes)
              binding := by
        intro r hr
        refine resolveTableRef_agree hv ih hmerged (fun q hq => hA.ref hs hr hq) ?_ binding
        rintro name aliasName rfl q hq
        exact hA.view stmt hs name aliasName hr q hq
      rw [selectBody_of_plain hob, selectBody_of_plain hob, checkCtes_agree hv,
        selectCore_congr hrefs (fun q hq => ih.nested hmerged (hA.filter hs hq))
          (fun q hq => ih.nested hmerged (hA.having hs hq))]

/-- **Agreement.**  A query answers alike over views that agree on its tables. -/
theorem runSelect_agree (hs : A stmt) (depth : Nat) (params : Params) :
    runSelect v depth stmt params = runSelect v' depth stmt params :=
  runSelectScoped_agree hv hA hN depth stmt params [] [] none hs (by simp)

/-- So does a chain of set operations. -/
theorem runCompound_agree {cm : CompoundStatement} (hfirst : A cm.first)
    (hrest : ∀ e ∈ cm.operations, A e.2) (depth : Nat) (params : Params) :
    runCompound v depth cm params = runCompound v' depth cm params := by
  have hrun : ∀ stmt, A stmt → runSelectScoped v depth stmt params [] [] none =
      runSelectScoped v' depth stmt params [] [] none :=
    fun stmt hs => runSelectScoped_agree hv hA hN depth stmt params [] [] none hs (by simp)
  have hops : ∀ (columns : List String) (operations : List (SetOperation × SelectStatement)),
      (∀ e ∈ operations, A e.2) → ∀ rows,
      applySetOperations v depth params columns operations rows =
        applySetOperations v' depth params columns operations rows := by
    intro columns operations hall
    induction operations with
    | nil => exact fun _ => rfl
    | cons e operations ih =>
      intro rows
      have htail := ih fun e' he' => hall e' (.tail e he')
      simp [applySetOperations, hrun e.2 (hall e (.head _)), htail]
  simp [runCompound, hrun cm.first hfirst, hops _ cm.operations hrest]

end

end

end Archon
