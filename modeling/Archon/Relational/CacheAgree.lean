import Archon.Relational.SubqueryLogic

/-!
# Archon.Relational.CacheAgree

The cache of uncorrelated subqueries, against running every subquery for every
row.

A cached subquery is run once without enclosing scopes.  Run for a row, it sees
the row and the rows around it; a query that succeeds without them answers the
same with them, unless a qualified name in it is also the name of a column
there and not of one nearer to it.
-/

namespace Archon

open Except List Outcome WhereContext

variable {e : Expr} {outer : List Scope} {vals : List Value} {rs : ResultSet}
  {query : SelectStatement}

/-! ## Names -/

/-- The names a predicate looks up in its own scope. -/
def Expr.ownNames : Expr → List String
  | .and l r => l.ownNames ++ r.ownNames
  | .or l r => l.ownNames ++ r.ownNames
  | .not inner => inner.ownNames
  | .inSubquery column _ => [column]
  | .scalarCmp column _ _ => [column]
  | e => e.columnNames

/-- A qualified name of the predicate is among the columns only if it is also
among the nearer ones. -/
def Expr.Avoids (near columns : List String) (e : Expr) : Prop :=
  ∀ name ∈ e.ownNames, hasDot name = true → name ∈ near ∨ name ∉ columns

/-- The columns of the tables a query reads, if they can be read. -/
def SelectStatement.fromColumns (v : ReadView) (run : Runner) (ctes : List CTE)
    (binding : Option RecursiveBinding) (stmt : SelectStatement) : List String :=
  let source : FromClause := ⟨stmt.withCtes, stmt.table, stmt.joins⟩
  match source.joined v run (mergeCtes ctes stmt.withCtes) binding with
  | .ok table => table.columns
  | .error _ => []

/-- The clauses of a query and of the subqueries in them, `n` levels in all,
avoid the columns.  Nearer to a `WHERE` are the columns of its own tables and of
the queries between. -/
def Avoids (v : ReadView) (columns : List String) : Nat → Nat → List String → List CTE →
    Option RecursiveBinding → SelectStatement → Prop
  | 0, _, _, _, _, _ => False
  | n + 1, depth, near, ctes, binding, stmt =>
    let own := stmt.fromColumns v (runSelectScoped v (depth - 1)) ctes binding
    let inside := mergeCtes ctes stmt.withCtes
    (∀ e ∈ stmt.filter.toList, e.Avoids (own ++ near) columns ∧ ∀ q ∈ exprQueries e,
      Avoids v columns n (depth - 1) (qualifyBare stmt.table.name own ++ near) inside none q) ∧
    ∀ e ∈ stmt.having.toList, e.Avoids near columns ∧ ∀ q ∈ exprQueries e,
      Avoids v columns n (depth - 1) near inside none q

/-! ## More enclosing scopes -/

section

variable {inner scopes : List Scope}

theorem lookupOuter_append (p : String → Bool) (inner scopes : List Scope) :
    (lookupOuter p (inner ++ scopes) : Outcome ε (Option Value)) = (do
      match ← lookupOuter p inner with
      | some v => return some v
      | none => lookupOuter p scopes) := by
  induction inner with
  | nil => rfl
  | cons s inner ih =>
    obtain ⟨columns, row⟩ := s
    rw [cons_append, lookupOuter, lookupOuter, ih]
    cases (lookupColumn columns row p : Outcome ε (Option Value)) with
    | error f => rfl
    | ok v => cases v <;> rfl

variable {p : String → Bool} {v : Value} {name : String} {columns qualifiers : List String}
  {row : Row} {b : Option Bool}

theorem lookupOuter_eq_none : (lookupOuter p scopes : Outcome ε (Option Value)) = .ok none ↔
    ∀ c ∈ scopes.flatMap Prod.fst, p c = false := by
  induction scopes with
  | nil => simp [lookupOuter]
  | cons s scopes ih =>
    obtain ⟨columns, row⟩ := s
    rw [flatMap_cons, forall_mem_append, ← ih, ← lookupColumn_eq_none row, lookupOuter]
    cases (lookupColumn columns row p : Outcome ε (Option Value)) with
    | error f => simp
    | ok v => cases v <;> simp

theorem lookupOuter_extend (h : (lookupOuter p inner : Outcome ε (Option Value)) = .ok (some v)) :
    (lookupOuter p (inner ++ scopes) : Outcome ε (Option Value)) = .ok (some v) := by
  rw [lookupOuter_append, h]
  rfl

section

variable
  (havoids : hasDot name = true → name ∈ columns ++ inner.flatMap Prod.fst ∨
    name ∉ scopes.flatMap Prod.fst)
include havoids

/-- A name found stays found. -/
theorem findValue_extend
    (h : (findValue name columns row inner qualifiers : Outcome ε (Option Value)) = .ok (some v)) :
    (findValue name columns row (inner ++ scopes) qualifiers : Outcome ε (Option Value)) =
      .ok (some v) := by
  unfold findValue at h ⊢
  obtain ⟨own, hown, h⟩ := h.bind_ok
  rw [hown]
  cases own with
  | some w => exact h
  | none =>
    by_cases hdot : hasDot name = true
    · rw [if_pos hdot] at h ⊢
      obtain ⟨found, hexact, h⟩ := h.bind_ok
      rw [lookupOuter_append, hexact]
      cases found with
      | some w => exact h
      | none =>
        -- the name is none of the nearer columns
        have hnone : (lookupOuter (· == name) scopes : Outcome ε (Option Value)) = .ok none := by
          have hnear := (lookupColumn_eq_none _).mp hown
          have hinner := lookupOuter_eq_none.mp hexact
          exact lookupOuter_eq_none.mpr (by grind)
        dsimp only at h ⊢
        rw [hnone]
        split at h
        · cases h
        · next hvalid =>
          rw [if_neg hvalid]
          -- the row itself is the innermost scope of the lookup by the last part
          exact @lookupOuter_extend ((columns, row) :: inner) _ _ _ _ h
    · rw [if_neg hdot] at h ⊢
      exact @lookupOuter_extend ((columns, row) :: inner) _ _ _ _ h

theorem find_extend (h : evalExprScoped.find columns row inner qualifiers name = .ok v) :
    evalExprScoped.find columns row (inner ++ scopes) qualifiers name = .ok v := by
  unfold evalExprScoped.find at h ⊢
  obtain ⟨found, hfound, h⟩ := h.bind_ok
  cases found with
  | none => cases h
  | some w => rw [findValue_extend havoids hfound, ok_bind, h]

end

/-- An expression that has a value has found its names. -/
theorem find_of_evalExprScoped (hatom : e.isAtom = true)
    (h : evalExprScoped columns row outer qualifiers e = .ok b) :
    ∀ c ∈ e.columnNames, ∃ v, evalExprScoped.find columns row outer qualifiers c = .ok v := by
  cases e with
  | and | or | not => cases hatom
  | existsQuery | inSubquery | scalarCmp => cases h
  | cmpColumn l op r =>
    obtain ⟨v, hl, h⟩ := h.bind_ok
    obtain ⟨w, hr, -⟩ := h.bind_ok
    simp only [Expr.columnNames, mem_cons, not_mem_nil, or_false]
    rintro c (rfl | rfl)
    · exact ⟨v, hl⟩
    · exact ⟨w, hr⟩
  | _ =>
    obtain ⟨v, hv, -⟩ := h.bind_ok
    intro c hc
    cases mem_singleton.mp hc
    exact ⟨v, hv⟩

theorem evalExprScoped_extend (hatom : e.isAtom = true)
    (havoids : ∀ name ∈ e.columnNames, hasDot name = true →
      name ∈ columns ++ inner.flatMap Prod.fst ∨ name ∉ scopes.flatMap Prod.fst)
    (h : evalExprScoped columns row inner qualifiers e = .ok b) :
    evalExprScoped columns row (inner ++ scopes) qualifiers e = .ok b := by
  rw [← h]
  refine evalExprScoped_congr_find fun c hc => ?_
  obtain ⟨v, hv⟩ := find_of_evalExprScoped hatom h c hc
  rw [find_extend (havoids c hc) hv, hv]

end

/-! ## Predicates -/

/-- The same context with more scopes around it. -/
def WhereContext.within (cx : WhereContext) (scopes : List Scope) : WhereContext :=
  { cx with outer := cx.outer ++ scopes }

section

variable {run : Runner} {cx : WhereContext} {scopes : List Scope}

/-- A subquery that succeeds for the row answers the same with the scopes around
it. -/
def NestedExtends (run : Runner) (cx : WhereContext) (scopes : List Scope)
    (query : SelectStatement) : Prop :=
  ∀ rs, cx.runNested run query = .ok rs → (cx.within scopes).runNested run query = .ok rs

theorem NestedExtends.bind (h : NestedExtends run cx scopes query)
    {k : ResultSet → Outcome DbError α} {a : α} (hk : cx.runNested run query >>= k = .ok a) :
    (cx.within scopes).runNested run query >>= k = .ok a := by
  obtain ⟨rs, hrs, hk⟩ := hk.bind_ok
  rw [h rs hrs, ok_bind, hk]

variable {entry : Expr → CacheEntry}

/-- A predicate that has a value for the row has the same one with more scopes
around it. -/
theorem truth_extend
    (havoids : e.Avoids (cx.columns ++ cx.outer.flatMap Prod.fst) (scopes.flatMap Prod.fst))
    (hqueries : ∀ q ∈ exprQueries e, NestedExtends run cx scopes q) {b : Option Bool}
    (h : truth run cx entry e = .ok b) : truth run (cx.within scopes) entry e = .ok b := by
  have hfind : ∀ {e : Expr} {column : String},
      e.Avoids (cx.columns ++ cx.outer.flatMap Prod.fst) (scopes.flatMap Prod.fst) →
      column ∈ e.ownNames → ∀ {v : Value}, cx.find column = .ok v →
        (cx.within scopes).find column = .ok v := by
    intro e column havoids hmem v hv
    rw [find_eq, fromExec_eq_ok] at hv ⊢
    exact find_extend (havoids _ hmem) hv
  induction e using Expr.connectives generalizing b with
  | and l r ihl ihr | or l r ihl ihr =>
    simp only [Expr.Avoids, Expr.ownNames, exprQueries, forall_mem_append] at havoids hqueries
    obtain ⟨lv, hl, h⟩ := h.bind_ok
    obtain ⟨rv, hr, h⟩ := h.bind_ok
    rw [truth, ihl havoids.1 hqueries.1 hl, ok_bind, ihr havoids.2 hqueries.2 hr,
      ok_bind, h]
  | not e ih =>
    obtain ⟨v, hv, h⟩ := h.bind_ok
    rw [truth, ih havoids hqueries hv, ok_bind, h]
  | atom e hatom =>
    cases e with
    | and | or | not => cases hatom
    | existsQuery q =>
      have hq := hqueries q (mem_singleton.mpr rfl)
      rw [truth] at h ⊢
      cases hc : entry (.existsQuery q) with
      | existsResult b => rwa [hc] at h
      | _ => rw [hc] at h; exact hq.bind h
    | inSubquery c q =>
      have hq := hqueries q (mem_singleton.mpr rfl)
      obtain ⟨x, hx, h⟩ := h.bind_ok
      rw [truth, hfind havoids (mem_singleton.mpr rfl) hx]
      cases hc : entry (.inSubquery c q) with
      | inValues vals => rwa [hc] at h
      | _ => rw [hc] at h; exact hq.bind h
    | scalarCmp c op q =>
      have hq := hqueries q (mem_singleton.mpr rfl)
      obtain ⟨x, hx, h⟩ := h.bind_ok
      rw [truth, hfind havoids (mem_singleton.mpr rfl) hx]
      cases hc : entry (.scalarCmp c op q) with
      | scalar rhs => rwa [hc] at h
      | _ => rw [hc] at h; exact hq.bind h
    | _ => exact fromExec_eq_ok.mpr (evalExprScoped_extend rfl havoids (fromExec_eq_ok.mp h))

end

/-! ## Queries -/

section

variable {run : Runner} {params : Params} {ctes : List CTE}

/-- A clause that succeeds keeps the same rows with more scopes around it. -/
theorem filterTable_extend (scopes : List Scope) {filter : Option Expr} {table table' : Table}
    {scopeColumns : List String} {qualifiers : List String}
    (havoids : ∀ e ∈ filter.toList,
      e.Avoids (table.columns ++ outer.flatMap Prod.fst) (scopes.flatMap Prod.fst))
    (hqueries : ∀ e ∈ filter.toList, ∀ q ∈ exprQueries e, ∀ row,
      NestedExtends run ⟨table.columns, row, params, outer, ctes, scopeColumns, [], qualifiers⟩
        scopes q)
    (h : filterTable run filter table scopeColumns params outer ctes qualifiers = .ok table') :
    filterTable run filter table scopeColumns params (outer ++ scopes) ctes qualifiers =
      .ok table' := by
  cases filter with
  | none => exact h
  | some e =>
    obtain ⟨hcache, hrows, rfl⟩ := filterTable_eq_ok.mp h
    have hextend : ∀ row ∈ table.rows,
        rowTruth run table.columns params (outer ++ scopes) ctes scopeColumns qualifiers e row =
          rowTruth run table.columns params outer ctes scopeColumns qualifiers e row := by
      intro row hrow
      obtain ⟨b, hb⟩ := hrows row hrow
      rw [hb]
      exact truth_extend (havoids e (mem_singleton.mpr rfl))
        (fun q hq => hqueries e (mem_singleton.mpr rfl) q hq row) hb
    refine filterTable_eq_ok.mpr ⟨hcache, fun row hrow => ?_, ?_⟩
    · rw [hextend row hrow]
      exact hrows row hrow
    · exact congrArg (Table.mk _) (filter_congr fun row hrow => by rw [hextend row hrow])

theorem Expr.Avoids.mono {near near' columns : List String} (h : e.Avoids near columns)
    (hsub : near ⊆ near') : e.Avoids near' columns :=
  fun name hname hdot => (h name hname hdot).imp_left fun hmem => hsub hmem

/-- A query whose names avoid the columns of the scopes, with its subqueries
within the limit of eight scopes, answers the same with the scopes around it. -/
theorem runSelectScoped_extend (v : ReadView) {depth n : Nat} {stmt : SelectStatement}
    {binding : Option RecursiveBinding} {near : List String} (hnear : near ⊆ outer.flatMap Prod.fst)
    (havoids : Avoids v (scopes.flatMap Prod.fst) n depth near ctes binding stmt)
    (hscopes : n + (outer.length + scopes.length) ≤ 9)
    (h : runSelectScoped v depth stmt params outer ctes binding = .ok rs) :
    runSelectScoped v depth stmt params (outer ++ scopes) ctes binding = .ok rs := by
  induction depth generalizing n stmt params outer ctes binding rs near with
  | zero => cases h
  | succ depth ih =>
    cases n with
    | zero => exact havoids.elim
    | succ n =>
    rw [runSelectScoped] at h ⊢
    cases hcosine : stmt.orderByCosine with
    | some ob => simpa [selectBody_of_cosine hcosine] using h
    | none =>
      -- a subquery has one scope more and one level of nesting less
      have hnested : ∀ {cx : WhereContext} {near : List String} {q : SelectStatement},
          cx.outer = outer → near ⊆ cx.scopeColumns ++ outer.flatMap Prod.fst →
          Avoids v (scopes.flatMap Prod.fst) n depth near cx.ctes none q →
          NestedExtends (runSelectScoped v depth) cx scopes q := by
        intro cx near q hcx hnear havoids rs hrs
        have hn : n ≠ 0 := by
          rintro rfl
          exact havoids
        unfold runNested at hrs ⊢
        split at hrs
        · rw [if_pos (by simp only [within, hcx, length_append]; omega)]
          refine ih (by simpa [hcx] using hnear) havoids ?_ hrs
          simp only [hcx, length_cons]
          omega
        · cases hrs
      rw [selectBody_of_plain hcosine] at h ⊢
      obtain ⟨⟨⟩, hcheck, h⟩ := h.bind_ok
      rw [hcheck]
      unfold selectCore at h ⊢
      obtain ⟨base, hbase, h⟩ := h.bind_ok
      obtain ⟨joined, hjoined, h⟩ := h.bind_ok
      obtain ⟨kept, hkept, h⟩ := h.bind_ok
      obtain ⟨windowed, hwindowed, h⟩ := h.bind_ok
      obtain ⟨grouped, hgrouped, h⟩ := h.bind_ok
      obtain ⟨table, htable, h⟩ := h.bind_ok
      have hown : stmt.fromColumns v (runSelectScoped v depth) ctes binding = joined.columns := by
        simp [SelectStatement.fromColumns, FromClause.joined, FromClause.qualifiers, hcheck, hbase,
          hjoined]
      simp only [Avoids, Nat.add_sub_cancel, hown] at havoids
      generalize mergeCtes ctes stmt.withCtes = inside at hbase hjoined hkept htable havoids ⊢
      have hkept' := filterTable_extend scopes
        (fun e he => (havoids.1 e he).1.mono (by grind))
        (fun e he q hq row => hnested rfl (by grind) ((havoids.1 e he).2 q hq)) hkept
      have htable' := filterTable_extend scopes
        (fun e he => (havoids.2 e he).1.mono (by grind))
        (fun e he q hq row => hnested rfl (by grind) ((havoids.2 e he).2 q hq)) htable
      simp [hbase, hjoined, hkept', hwindowed, hgrouped, htable', h]

end

/-! ## The cache -/

section

variable (run : Runner) (cx : WhereContext)

/-- What a nested query sees around it. -/
def WhereContext.scopes : List Scope := (cx.scopeColumns, cx.row) :: cx.outer

/-- The result a subquery is cached with, if it is cached: it does not look
correlated, and it succeeds alone. -/
def CachedAs (query : SelectStatement) (rs : ResultSet) : Prop :=
  queryReferencesOuter cx.columns query = false ∧ run query cx.params [] cx.ctes none = .ok rs

/-- A subquery that is cached gets the same answer when it is run for the row;
that of an `IN` has one column. -/
def CacheSafe (node : Expr) : Prop :=
  ∀ query, node.subquery? = some query → ∀ rs, CachedAs run cx query rs →
    cx.runNested run query = .ok rs ∧
      ((∃ column, node = .inSubquery column query) → rs.columns.length = 1)

variable {run cx}

theorem heads_of_firstValues {rows : List Row}
    (h : (firstValues rows : Outcome ε (List Value)) = .ok vals) :
    rows.map List.head? = vals.map some := by
  induction rows generalizing vals with
  | nil =>
    cases h
    rfl
  | cons row rows ih =>
    simp only [firstValues, mapM_cons] at h ih
    obtain ⟨v, hv, h⟩ := h.bind_ok
    obtain ⟨vs, hvs, h⟩ := h.bind_ok
    cases h
    simp [ih hvs, head?_eq_getElem?, index_eq_ok.mp hv]

/-- `IN` when its query is run for the row. -/
theorem inValue_uncached {x : Value} (hrun : cx.runNested run query = .ok rs)
    (hvals : (firstValues rs.rows : Outcome DbError (List Value)) = .ok vals) :
    inValue run cx x query .uncached =
      if rs.columns.length = 1 then .ok (some (vals.any fun v => v.eq x))
      else fail (.subqueryCardinality
        ("IN subquery must return exactly one column, got " ++ toString rs.columns.length)) := by
  have hany : (anyFirst x rs.rows : Outcome DbError Bool) = .ok (vals.any fun v => v.eq x) :=
    anyFirst_eq (heads_of_firstValues hvals)
  simp [inValue, hrun, hany, fail]

/-- Trying a query gives its result or nothing. -/
theorem okResult_eq_ok {r : Outcome DbError ResultSet} {o : Option ResultSet}
    (h : okResult r = .ok o) : (∃ rs, r = .ok rs ∧ o = some rs) ∨ o = none := by
  rcases r with (_ | _ | _) | rs <;> cases h
  · exact .inr rfl
  · simp

variable {node : Expr} {entry : Expr → CacheEntry} {cache : List CacheEntry} {column : String}

/-- A safe subquery has the same value with its entry and without. -/
theorem truth_entry (hatom : node.isAtom = true) (hsafe : CacheSafe run cx node)
    (hc : cacheEntry run cx.columns cx.params cx.ctes node = .ok (entry node)) :
    truth run cx entry node = truth run cx (fun _ => .uncached) node := by
  generalize hentry : entry node = c at hc
  cases node with
  | existsQuery q =>
    rw [truth, truth, hentry]
    rw [cacheEntry] at hc
    split at hc
    · cases hc
      rfl
    · next hlocal =>
      obtain ⟨o, ho, hc⟩ := hc.bind_ok
      obtain ⟨rs, hrs, rfl⟩ | rfl := okResult_eq_ok ho
      · cases hc
        obtain ⟨hrun, -⟩ := hsafe q rfl rs ⟨Bool.eq_false_iff.mpr hlocal, hrs⟩
        simp [existsValue, hrun]
      · cases hc
        rfl
  | inSubquery column q =>
    rw [truth, truth, hentry]
    rw [cacheEntry] at hc
    split at hc
    · cases hc
      rfl
    · next hlocal =>
      obtain ⟨o, ho, hc⟩ := hc.bind_ok
      obtain ⟨rs, hrs, rfl⟩ | rfl := okResult_eq_ok ho
      · obtain ⟨vals, hvals, hc⟩ := hc.bind_ok
        cases hc
        obtain ⟨hrun, hcolumns⟩ := hsafe q rfl rs ⟨Bool.eq_false_iff.mpr hlocal, hrs⟩
        simp only [inValue_uncached hrun hvals, hcolumns ⟨column, rfl⟩]
        rfl
      · cases hc
        rfl
  | scalarCmp column op q =>
    rw [truth, truth, hentry]
    rw [cacheEntry] at hc
    split at hc
    · cases hc
      rfl
    · next hlocal =>
      obtain ⟨o, ho, hc⟩ := hc.bind_ok
      obtain ⟨rs, hrs, rfl⟩ | rfl := okResult_eq_ok ho
      · dsimp only at hc
        split at hc
        · next hone =>
          obtain ⟨row, hrow, hc⟩ := hc.bind_ok
          obtain ⟨v, hv, hc⟩ := hc.bind_ok
          cases hc
          obtain ⟨hrun, -⟩ := hsafe q rfl rs ⟨Bool.eq_false_iff.mpr hlocal, hrs⟩
          simp [scalarValue, hrun, scalarResult, hone, hrow, hv]
        · cases hc
          rfl
      · cases hc
        rfl
  | and | or | not => cases hatom
  | _ => rfl

theorem isAtom_of_mem_subqueryNodes (h : node ∈ subqueryNodes e) : node.isAtom = true := by
  induction e using Expr.connectives with
  | and l r ihl ihr | or l r ihl ihr => exact (mem_append.mp h).elim ihl ihr
  | not e ih => exact ih h
  | atom e hatom =>
    cases e with
    | and | or | not => cases hatom
    | existsQuery | inSubquery | scalarCmp => cases mem_singleton.mp h; rfl
    | _ => cases h

/-- The value of a predicate depends on the entries of its own subqueries. -/
theorem truth_congr_entry {entry' : Expr → CacheEntry}
    (h : ∀ node ∈ subqueryNodes e, truth run cx entry node = truth run cx entry' node) :
    truth run cx entry e = truth run cx entry' e := by
  induction e using Expr.connectives with
  | and l r ihl ihr | or l r ihl ihr =>
    simp only [subqueryNodes, forall_mem_append] at h
    rw [truth, truth, ihl h.1, ihr h.2]
  | not e ih => rw [truth, truth, ih h]
  | atom e hatom =>
    cases e with
    | and | or | not => cases hatom
    | existsQuery | inSubquery | scalarCmp => exact h _ (mem_singleton.mpr rfl)
    | _ => rfl

/-- Evaluation with a cache that has an entry for each subquery. -/
theorem evalWhere_cache (h : cache = (subqueryNodes e).map entry) :
    evalWhere run { cx with cache } e 0 = do
      let v ← truth run cx entry e
      return (v, (subqueryNodes e).length) := by
  subst h
  have hcount := @evalWhere_eq_truth run { cx with cache := (subqueryNodes e).map entry } entry e 0
    (by simp +contextual [entryAt])
  rw [hcount, truth_withCache, Nat.zero_add]

theorem evalWhere_cached_iff
    (hcache : buildSubqueryCache run e cx.columns cx.params cx.ctes = .ok cache) :
    evalWhere run { cx with cache } e 0 =
        evalWhere run { cx with cache := (subqueryNodes e).map fun _ => .uncached } e 0 ↔
      truth run cx (entryOf run cx.columns cx.params cx.ctes) e =
        truth run cx (fun _ => .uncached) e := by
  rw [evalWhere_cache (buildSubqueryCache_eq_ok.mp hcache).2, evalWhere_cache rfl]
  constructor
  · intro h
    cases hv : truth run cx (entryOf run cx.columns cx.params cx.ctes) e <;>
      cases hw : truth run cx (fun _ => .uncached) e <;> simp_all
  · grind

/-- The query avoids the columns around it, in `n` levels. -/
def AvoidsScopes (v : ReadView) (depth : Nat) (cx : WhereContext) (n : Nat)
    (query : SelectStatement) : Prop :=
  Avoids v (cx.scopes.flatMap Prod.fst) n depth [] cx.ctes none query

/-- A subquery can be run for a row as it is run alone: its qualified names are
not columns around it, and the scopes of the subqueries in it stay within the
limit. -/
def RunsAlone (v : ReadView) (depth : Nat) (cx : WhereContext) (query : SelectStatement) : Prop :=
  ∃ n, n + cx.scopes.length ≤ 9 ∧ AvoidsScopes v depth cx n query

theorem RunsAlone.runNested {v : ReadView} {depth : Nat} (h : RunsAlone v depth cx query)
    (hrun : runSelectScoped v depth query cx.params [] cx.ctes none = .ok rs) :
    cx.runNested (runSelectScoped v depth) query = .ok rs := by
  obtain ⟨n, hscopes, havoids⟩ := h
  have hlength : cx.scopes.length = cx.outer.length + 1 := rfl
  have hn : n ≠ 0 := by
    rintro rfl
    exact havoids
  rw [WhereContext.runNested, if_pos (by omega)]
  exact runSelectScoped_extend v (nil_subset _) havoids (by simpa using hscopes) hrun

theorem runNested_of_lt (h : 8 < cx.scopes.length) : cx.runNested run query = panicked := by
  have hlength : cx.scopes.length = cx.outer.length + 1 := rfl
  rw [runNested, if_neg (by omega)]

section

variable (h : CachedAs run cx query rs)
include h

theorem firstValues_of_cached {c : CacheEntry}
    (hc : cacheEntry run cx.columns cx.params cx.ctes (.inSubquery column query) = .ok c) :
    ∃ vals, (firstValues rs.rows : Outcome DbError (List Value)) = .ok vals := by
  rw [cacheEntry, h.1, h.2] at hc
  obtain ⟨vals, hvals, -⟩ := bind_eq_ok.mp ((ok_bind _ _).symm.trans hc)
  exact ⟨vals, hvals⟩

theorem entryOf_existsQuery :
    entryOf run cx.columns cx.params cx.ctes (.existsQuery query) =
      .existsResult (!rs.rows.isEmpty) := by
  simp [entryOf, cacheEntry, h.1, h.2, okResult]

theorem entryOf_inSubquery
    (hvals : (firstValues rs.rows : Outcome DbError (List Value)) = .ok vals) :
    entryOf run cx.columns cx.params cx.ctes (.inSubquery column query) = .inValues vals := by
  simp [entryOf, cacheEntry, h.1, h.2, okResult, hvals]

end

end

/-- With the cache a predicate has the value it has without, if each subquery
that does not look correlated can be run for the row as it is run alone, and
that of an `IN` has one column.  For an `EXISTS` and an `IN` without further
subqueries these conditions are also necessary. -/
theorem cache_unobservable (v : ReadView) (depth : Nat) (cx : WhereContext) (e : Expr)
    (cache : List CacheEntry)
    (hcache : buildSubqueryCache (runSelectScoped v depth) e cx.columns cx.params cx.ctes =
      .ok cache) :
    let run := runSelectScoped v depth
    let Unobservable := evalWhere run { cx with cache } e 0 =
      evalWhere run { cx with cache := (subqueryNodes e).map fun _ => .uncached } e 0
    ((∀ node ∈ subqueryNodes e, ∀ query, node.subquery? = some query →
        queryReferencesOuter cx.columns query = false →
        RunsAlone v depth cx query ∧ ((∃ column, node = .inSubquery column query) →
          ∀ rs, run query cx.params [] cx.ctes none = .ok rs → rs.columns.length = 1)) →
      Unobservable) ∧
    (∀ query rs, e = .existsQuery query → CachedAs run cx query rs →
      AvoidsScopes v depth cx 1 query → (Unobservable ↔ cx.scopes.length ≤ 8)) ∧
    ∀ column query x rs, e = .inSubquery column query → cx.find column = .ok x →
      CachedAs run cx query rs → AvoidsScopes v depth cx 1 query →
      (Unobservable ↔ cx.scopes.length ≤ 8 ∧ rs.columns.length = 1) := by
  intro run Unobservable
  have hnodes := (buildSubqueryCache_eq_ok.mp hcache).1
  have hsufficient : (∀ node ∈ subqueryNodes e, CacheSafe run cx node) → Unobservable := by
    intro hsafe
    refine (evalWhere_cached_iff hcache).mpr (truth_congr_entry fun node hnode => ?_)
    obtain ⟨c, hc⟩ := hnodes node hnode
    have hentry : entryOf run cx.columns cx.params cx.ctes node = c := by
      rw [entryOf, hc]
    exact truth_entry (isAtom_of_mem_subqueryNodes hnode) (hsafe node hnode) (hentry ▸ hc)
  refine ⟨fun h => hsufficient fun node hnode query hquery rs hcached => ?_,
    fun query rs he hcached havoids => ⟨fun h => ?_, fun h => ?_⟩,
    fun column query x rs he hx hcached havoids => ⟨fun h => ?_, fun h => ?_⟩⟩
  · obtain ⟨halone, hone⟩ := h node hnode query hquery hcached.1
    exact ⟨halone.runNested hcached.2, fun hin => hone hin rs hcached.2⟩
  · subst he
    have hvalue := (evalWhere_cached_iff hcache).mp h
    by_contra hscopes
    rw [truth, truth, entryOf_existsQuery hcached, existsValue, existsValue,
      runNested_of_lt (by omega)] at hvalue
    · cases hvalue
    · simp
  · subst he
    refine hsufficient fun node hnode q hq rs' hcached' => ?_
    cases mem_singleton.mp hnode
    cases hq
    exact ⟨RunsAlone.runNested ⟨1, by omega, havoids⟩ hcached'.2, by simp⟩
  · subst he
    obtain ⟨c, hc⟩ := hnodes _ (mem_singleton.mpr rfl)
    obtain ⟨vals, hvals⟩ := firstValues_of_cached hcached hc
    have hvalue := (evalWhere_cached_iff hcache).mp h
    rw [truth, truth, entryOf_inSubquery hcached hvals, hx, ok_bind, ok_bind]
      at hvalue
    by_cases hscopes : cx.scopes.length ≤ 8
    · have hrun := RunsAlone.runNested ⟨1, by omega, havoids⟩ hcached.2
      rw [inValue_uncached hrun hvals] at hvalue
      by_contra hone
      rw [if_neg fun h => hone ⟨hscopes, h⟩] at hvalue
      cases hvalue
    · rw [inValue, inValue, runNested_of_lt (by omega)] at hvalue
      · cases hvalue
      · simp
  · subst he
    refine hsufficient fun node hnode q hq rs' hcached' => ?_
    cases mem_singleton.mp hnode
    cases hq
    have hsame : rs' = rs := ok.inj (hcached'.2.symm.trans hcached.2)
    exact ⟨RunsAlone.runNested ⟨1, by omega, havoids⟩ hcached'.2, fun _ => hsame ▸ h.2⟩

/-- `a IN (SELECT * FROM u)`. -/
def aInU : Expr := .inSubquery "a" (selectAll "u")

/-- A row of `t` and what it is evaluated with. -/
def rowOfT : WhereContext where
  columns := ["id", "a"]
  row := [.int 0, .int 1]
  scopeColumns := ["t.id", "t.a"]
  validQualifiers := ["t"]

/-- `SELECT * FROM t JOIN u ON t.a = u.b WHERE u.b = 1`. -/
def selectTU : SelectStatement :=
  { selectAll "t" with
    joins := [⟨.inner, .named "u" none, some (.cmpColumn "t.a" .eq "u.b")⟩]
    filter := some (.cmp "u.b" .eq (.int 1)) }

/-- A row of `t JOIN u`. -/
def rowOfTU : WhereContext where
  columns := ["id", "a", "u.id", "u.b"]
  row := [.int 0, .int 1, .int 0, .int 1]
  scopeColumns := ["t.id", "t.a", "u.id", "u.b"]
  validQualifiers := ["t", "u"]

/-- An `EXISTS` over the same join: `u.b` is a column around it, and of its own
tables. -/
theorem cache_unobservable_exists :
    ∃ db, Reaches 2 (fun _ _ => True) .empty db ∧
      ∃ cache, buildSubqueryCache (runSelectScoped db.readView 1) (.existsQuery selectTU)
          rowOfTU.columns [] [] = .ok cache ∧
        evalWhere (runSelectScoped db.readView 1) { rowOfTU with cache } (.existsQuery selectTU) 0 =
          evalWhere (runSelectScoped db.readView 1) { rowOfTU with cache := [.uncached] }
            (.existsQuery selectTU) 0 := by
  obtain ⟨db, hr, hown, cache, hok⟩ := exists_run (P := fun db =>
      selectTU.fromColumns db.readView (runSelectScoped db.readView 0) [] none =
        ["id", "a", "u.id", "u.b"] ∧
      ∃ cache, buildSubqueryCache (runSelectScoped db.readView 1) (.existsQuery selectTU)
        rowOfTU.columns [] [] = .ok cache) 2
    [.execute createT [], .execute (.createTable ⟨"u", [⟨"b", .int, []⟩], []⟩) [],
      .execute (.insert ⟨"t", ["a"], [[.int 1]]⟩) [],
        .execute (.insert ⟨"u", ["b"], [[.int 1]]⟩) []]
    (by decide +kernel)
  have halone : RunsAlone db.readView 1 rowOfTU selectTU := by
    refine ⟨1, by decide, ?_⟩
    simp [AvoidsScopes, Avoids, rowOfTU, hown]
    simp [selectTU, selectAll, Expr.Avoids, Expr.ownNames, Expr.columnNames, exprQueries]
  refine ⟨db, hr, cache, hok,
    (cache_unobservable db.readView 1 rowOfTU _ cache hok).1 fun node hnode query hquery _ => ?_⟩
  cases mem_singleton.mp hnode
  cases hquery
  exact ⟨halone, by simp⟩

/-- `a IN (SELECT * FROM u)` is false for the row from the cache, and an error
without. -/
theorem in_star_cached_only :
    ∃ db, Reaches 2 (fun _ _ => True) .empty db ∧
      (runSelect db.readView 2 (selectAll "t") []).toOption.map ResultSet.rows =
        some [rowOfT.row] ∧
      ∃ cache, buildSubqueryCache (runSelectScoped db.readView 1) aInU rowOfT.columns [] [] =
          .ok cache ∧
        (evalWhere (runSelectScoped db.readView 1) { rowOfT with cache } aInU 0).toOption =
          some (some false, 1) ∧
        (evalWhere (runSelectScoped db.readView 1) { rowOfT with cache := [.uncached] } aInU
          0).toOption = none :=
  exists_run 2 [.execute createT [], .execute (.createTable ⟨"u", [⟨"b", .int, []⟩], []⟩) [],
    .execute (.insert ⟨"t", ["a"], [[.int 1]]⟩) [], .execute (.insert ⟨"u", ["b"], [[.int 1]]⟩) []]
    (by decide +kernel)

end Archon
