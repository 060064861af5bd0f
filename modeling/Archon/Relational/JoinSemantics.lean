import Archon.Lib.Join
import Archon.Relational.Names
import Archon.Relational.Predicate
import Archon.Relational.OwnWrites

/-!
# Archon.Relational.JoinSemantics

What a join of two base tables returns: the matching pairs of rows, and the
rows without a partner padded with `NULL`s.  If no column name contains a dot, a
qualified name in `ON` stands for the same column in either order of the tables.
-/

namespace Archon

open Outcome Multiset

/-! ## Nested loops -/

section

variable {on : Row → Outcome ε Bool} {t : Row → Bool}

theorem filterRows_of_ok {rows : List Row} (h : ∀ row ∈ rows, on row = .ok (t row)) :
    filterRows on rows = .ok (rows.filter t) := by
  induction rows with
  | nil => rfl
  | cons row rows ih =>
    rw [filterRows, h row (.head _), ih fun r hr => h r (.tail row hr)]
    cases ht : t row <;> simp [ht]

theorem anyM_of_ok {rows : List Row} (h : ∀ row ∈ rows, on row = .ok (t row)) :
    rows.anyM on = .ok (rows.any t) := by
  induction rows with
  | nil => rfl
  | cons row rows ih =>
    rw [List.anyM, h row (.head _)]
    cases ht : t row with
    | true => simp [ht]
    | false => simp [ht, ih fun r hr => h r (.tail row hr)]

variable {pair : Row → Row → Row} {single : Row → Row} {ls rs : List Row}

variable (h : ∀ l ∈ ls, ∀ r ∈ rs, on (pair l r) = .ok (t (pair l r)))
include h

theorem outerPairs_of_ok :
    outerPairs on pair rs single ls = .ok (ls.flatMap fun l =>
      if (rs.filter fun r => t (pair l r)).isEmpty then [single l]
      else (rs.filter fun r => t (pair l r)).map (pair l)) := by
  induction ls with
  | nil => rfl
  | cons l ls ih =>
    have hl : filterRows on (rs.map (pair l)) = .ok ((rs.map (pair l)).filter t) :=
      filterRows_of_ok (by simpa using h l (.head _))
    rw [outerPairs, hl, ih fun l' hl' => h l' (.tail l hl')]
    simp [List.filter_map, Function.comp_def]

theorem unmatched_of_ok :
    unmatched on pair rs single ls =
      .ok ((ls.filter fun l => !rs.any fun r => t (pair l r)).map single) := by
  induction ls with
  | nil => rfl
  | cons l ls ih =>
    have hl : (rs.map (pair l)).anyM on = .ok ((rs.map (pair l)).any t) :=
      anyM_of_ok (by simpa using h l (.head _))
    rw [unmatched]
    cases hany : rs.any fun r => t (pair l r) <;> simp_all [Function.comp_def]

end

/-! ## Joins of rows -/

/-- The rows of a join: the matching pairs, and padded rows by kind. -/
def joinMeaning (kind : JoinType) (m : Row → Row → Bool) (width joinWidth : Nat)
    (ls rs : Multiset Row) : Multiset Row :=
  let inner := (matching m ls rs).map fun p => p.1 ++ p.2
  let left := (alone m ls rs).map (· ++ List.replicate joinWidth .null)
  let right := (alone (fun r l => m l r) rs ls).map (List.replicate width .null ++ ·)
  match kind with
  | .cross => (ls ×ˢ rs).map fun p => p.1 ++ p.2
  | .inner => inner
  | .left => inner + left
  | .right => inner + right
  | .full => inner + left + right

section

variable {join : Join} {on : Expr → Row → Outcome DbError Bool} {columns joinCols : List String}
  {ls rs : List Row}

theorem joinRows_cross (h : join.jtype = .cross) (m : Row → Row → Bool) :
    ∃ out, joinRows join on columns joinCols ls rs = .ok out ∧
      (out : Multiset Row) = joinMeaning join.jtype m columns.length joinCols.length ls rs := by
  unfold joinRows joinMeaning
  rw [h]
  exact ⟨_, rfl, coe_pairLoop (· ++ ·) ls rs⟩

/-- A condition that can be evaluated on every pair. -/
theorem joinRows_of_ok {cond : Expr} {t : Row → Bool} (hcond : join.onExpr = some cond)
    (h : ∀ l ∈ ls, ∀ r ∈ rs, on cond (l ++ r) = .ok (t (l ++ r))) :
    ∃ out, joinRows join on columns joinCols ls rs = .ok out ∧
      (out : Multiset Row) = joinMeaning join.jtype (fun l r => t (l ++ r)) columns.length
        joinCols.length ls rs := by
  have hpairs : ∀ row ∈ ls.flatMap fun l => rs.map (l ++ ·), on cond row = .ok (t row) := by
    simp only [List.mem_flatMap, List.mem_map]
    rintro row ⟨l, hl, r, hr, rfl⟩
    exact h l hl r hr
  have hswap : ∀ r ∈ rs, ∀ l ∈ ls, on cond (l ++ r) = .ok (t (l ++ r)) :=
    fun r hr l hl => h l hl r hr
  have hinner : ((ls.flatMap fun l => rs.map (l ++ ·)).filter t : List Row) =
      ((matching (fun l r => t (l ++ r)) ls rs).map fun p => p.1 ++ p.2 : Multiset Row) := by
    have hfilter := filter_coe (fun row => t row = true) (ls.flatMap fun l =>
        rs.map (l ++ ·))
    simp only [Bool.decide_eq_true] at hfilter
    rw [← hfilter, coe_pairLoop (· ++ ·), filter_map]
    rfl
  cases hkind : join.jtype with
  | cross => simpa only [hkind] using joinRows_cross hkind fun l r => t (l ++ r)
  | inner =>
    refine ⟨_, ?_, hinner⟩
    simp [joinRows, hkind, hcond, expect, filterRows_of_ok hpairs]
  | left =>
    refine ⟨_, ?_, coe_outerLoop (fun l r => t (l ++ r)) (· ++ ·) _ ls rs⟩
    simp [joinRows, hkind, hcond, expect, outerPairs_of_ok h]
  | right =>
    have houter := @outerPairs_of_ok _ (on cond) t (fun r l => l ++ r)
      (List.replicate columns.length .null ++ ·) rs ls hswap
    refine ⟨_, Eq.trans ?_ houter, ?_⟩
    · simp [joinRows, hkind, hcond, expect]
    · rw [joinMeaning, matching_swap (fun r l => t (l ++ r)) rs ls, map_map]
      exact coe_outerLoop (fun r l => t (l ++ r)) (fun r l => l ++ r) _ rs ls
  | full =>
    have hleft := @unmatched_of_ok _ (on cond) t (· ++ ·)
      (· ++ List.replicate joinCols.length .null) ls rs h
    have hright := @unmatched_of_ok _ (on cond) t (fun r l => l ++ r)
      (List.replicate columns.length .null ++ ·) rs ls hswap
    have hloop : joinRows join on columns joinCols ls rs = (do
        let inner ← filterRows (on cond) (ls.flatMap fun l => rs.map (l ++ ·))
        let left ← unmatched (on cond) (· ++ ·) rs (· ++ List.replicate joinCols.length .null) ls
        let right ← unmatched (on cond) (fun r l => l ++ r) ls
          (List.replicate columns.length .null ++ ·) rs
        return inner ++ left ++ right) := by
      simp [joinRows, hkind, hcond, expect]
    rw [filterRows_of_ok hpairs, hleft, hright] at hloop
    refine ⟨_, hloop, ?_⟩
    simp [joinMeaning, ← hinner, ← coe_aloneLoop]

end

/-! ## Names in two blocks of columns -/

section

variable {cs ds : List String} {l r : Row} {p : String → Bool}

theorem lookupColumn_left (hl : l.length = cs.length) (h : ∀ d ∈ ds, p d = false) :
    (lookupColumn (cs ++ ds) (l ++ r) p : Outcome ε (Option Value)) = lookupColumn cs l p := by
  unfold lookupColumn
  rw [List.findIdx?_append, List.findIdx?_eq_none_iff.mpr h]
  cases hi : cs.findIdx? p with
  | none => rfl
  | some i =>
    have hlt : i < l.length := by
      rw [hl]
      exact (List.findIdx?_eq_some_iff_getElem.mp hi).1
    simp [index_congr (List.getElem?_append_left hlt)]

theorem lookupColumn_right (hl : l.length = cs.length) (h : ∀ c ∈ cs, p c = false) :
    (lookupColumn (cs ++ ds) (l ++ r) p : Outcome ε (Option Value)) = lookupColumn ds r p := by
  unfold lookupColumn
  rw [List.findIdx?_append, List.findIdx?_eq_none_iff.mpr h, Option.none_or]
  cases hi : ds.findIdx? p with
  | none => rfl
  | some i =>
    have hslot : (l ++ r)[i + cs.length]? = r[i]? := by
      rw [List.getElem?_append_right (by omega), ← hl, Nat.add_sub_cancel]
    simp [index_congr hslot]

/-- The blocks can change places if one of them has no match. -/
theorem lookupColumn_swap (hl : l.length = cs.length) (hr : r.length = ds.length)
    (h : (∀ c ∈ cs, p c = false) ∨ ∀ d ∈ ds, p d = false) :
    (lookupColumn (cs ++ ds) (l ++ r) p : Outcome ε (Option Value)) =
      lookupColumn (ds ++ cs) (r ++ l) p := by
  rcases h with h | h
  · rw [lookupColumn_right hl h, lookupColumn_left hr h]
  · rw [lookupColumn_left hl h, lookupColumn_right hr h]

variable {x y : String}

/-- The columns of two tables under their aliases. -/
def sideColumns (x y : String) (cs ds : List String) : List String :=
  cs.map (qualify x) ++ ds.map (qualify y)

variable {name : String}

theorem qualify_ne (hcs : ∀ c ∈ cs, hasDot c = false) (h : qualifier name ≠ x) :
    ∀ c ∈ cs.map (qualify x), (c == name) = false := by
  simp only [List.mem_map]
  rintro _ ⟨c, hc, rfl⟩
  refine beq_eq_false_iff_ne.mpr fun heq => h ?_
  rw [← heq, qualifier_qualify (hcs c hc)]

/-- If no column of a table has the qualified name, none ends like it. -/
theorem suffix_ne (hname : hasDot name = true) (hx : qualifier name = x)
    (hcs : ∀ c ∈ cs, hasDot c = false) (h : ∀ c ∈ cs.map (qualify x), (c == name) = false) :
    ∀ c ∈ cs.map (qualify x), (unqualified c == unqualified name) = false := by
  intro c hc
  obtain ⟨b, hb, rfl⟩ := List.mem_map.mp hc
  refine beq_eq_false_iff_ne.mpr fun heq => ?_
  rw [unqualified_qualify (hcs b hb)] at heq
  have hwhole := qualify_unqualified hname
  grind

/-- A qualified name stands for the same column in either order. -/
theorem findValue_swap (hxy : x ≠ y) (hcs : ∀ c ∈ cs, hasDot c = false)
    (hds : ∀ d ∈ ds, hasDot d = false) (hl : l.length = cs.length) (hr : r.length = ds.length)
    (hname : hasDot name = true) :
    (findValue name (sideColumns x y cs ds) (l ++ r) [] [x, y] : Outcome ε (Option Value)) =
      findValue name (sideColumns y x ds cs) (r ++ l) [] [y, x] := by
  have hl' : l.length = (cs.map (qualify x)).length := by simpa using hl
  have hr' : r.length = (ds.map (qualify y)).length := by simpa using hr
  have hexact : (lookupColumn (sideColumns x y cs ds) (l ++ r) (· == name) :
      Outcome ε (Option Value)) = lookupColumn (sideColumns y x ds cs) (r ++ l) (· == name) := by
    refine lookupColumn_swap hl' hr' ?_
    by_cases hq : qualifier name = x
    · exact .inr (qualify_ne hds fun h => hxy (hq.symm.trans h))
    · exact .inl (qualify_ne hcs hq)
  cases hfound : (lookupColumn (sideColumns x y cs ds) (l ++ r) (· == name) :
      Outcome ε (Option Value)) with
  | error f => simp [findValue, ← hexact, hfound]
  | ok found =>
    cases found with
    | some v => simp [findValue, ← hexact, hfound]
    | none =>
      rw [findValue_suffix hname hfound, findValue_suffix hname (hexact ▸ hfound)]
      by_cases hq : qualifier name = x ∨ qualifier name = y
      · have hloose := @lookupColumn_swap _ _ _ _ (unqualified · == unqualified name) ε hl' hr'
        rw [if_pos (by simpa using hq), if_pos (by simpa [or_comm] using hq)]
        refine hloose ?_
        have hnone := (lookupColumn_eq_none _).mp hfound
        simp only [sideColumns, List.mem_append] at hnone
        rcases hq with hx | hy
        · exact .inl (suffix_ne hname hx hcs fun e he => hnone e (.inl he))
        · exact .inr (suffix_ne hname hy hds fun e he => hnone e (.inr he))
      · rw [if_neg (by simpa using hq), if_neg (by simpa [or_comm] using hq)]

end

/-! ## Order of the tables -/

/-- The first `k` columns moved behind the others. -/
def swapBlocks (k : Nat) (row : Row) : Row := row.drop k ++ row.take k

theorem swapBlocks_append {k : Nat} {l : Row} (h : l.length = k) (r : Row) :
    swapBlocks k (l ++ r) = r ++ l := by
  subst h
  simp [swapBlocks]

/-- The join that returns the same rows with the tables in the other order. -/
def JoinType.swapped : JoinType → JoinType
  | .left => .right
  | .right => .left
  | kind => kind

theorem joinMeaning_swapped {m m' : Row → Row → Bool} {ls rs : Multiset Row} {width joinWidth : Nat}
    (hm : ∀ l ∈ ls, ∀ r ∈ rs, m' r l = m l r)
    (hr : ∀ r ∈ rs, r.length = joinWidth) (kind : JoinType) :
    (joinMeaning kind.swapped m' joinWidth width rs ls).map (swapBlocks joinWidth) =
      joinMeaning kind m width joinWidth ls rs := by
  have hm' : ∀ r ∈ rs, ∀ l ∈ ls, m' r l = m l r := fun r hr l hl => hm l hl r hr
  have hcross : ((rs ×ˢ ls).map fun p => p.1 ++ p.2).map (swapBlocks joinWidth) =
      (ls ×ˢ rs).map fun p => p.1 ++ p.2 := by
    rw [← map_swap_product, map_map, map_map]
    refine map_congr rfl fun p hp => ?_
    exact swapBlocks_append (hr p.2 (mem_product.mp hp).2) p.1
  have hinner : ((matching m' rs ls).map fun p => p.1 ++ p.2).map (swapBlocks joinWidth) =
      (matching m ls rs).map fun p => p.1 ++ p.2 := by
    rw [matching_congr hm', matching_swap m ls rs, map_map, map_map]
    refine map_congr rfl fun p hp => ?_
    exact swapBlocks_append (hr p.2 (mem_matching hp).2) p.1
  have hright : ((alone m' rs ls).map (· ++ List.replicate width .null)).map
      (swapBlocks joinWidth) =
      (alone (fun r l => m l r) rs ls).map (List.replicate width .null ++ ·) := by
    rw [alone_congr hm', map_map]
    exact map_congr rfl fun r h => swapBlocks_append (hr r (mem_alone h)) _
  have hleft : ((alone (fun l r => m' r l) ls rs).map
      (List.replicate joinWidth .null ++ ·)).map (swapBlocks joinWidth) =
      (alone m ls rs).map (· ++ List.replicate joinWidth .null) := by
    rw [alone_congr hm, map_map]
    exact map_congr rfl fun l h => swapBlocks_append List.length_replicate _
  cases kind with
  | cross => exact hcross
  | inner => exact hinner
  | left => simp [JoinType.swapped, joinMeaning, hinner, hleft]
  | right => simp [JoinType.swapped, joinMeaning, hinner, hright]
  | full =>
    simp only [JoinType.swapped, joinMeaning, map_add, hinner, hleft, hright]
    exact add_right_comm _ _ _

/-! ## Queries -/

/-- A table in `FROM` or `JOIN`, with or without an alias. -/
structure Operand where
  name : String
  aliasName : Option String

namespace Operand

def ref (o : Operand) : TableRef := .named o.name o.aliasName

/-- The name the columns are qualified with. -/
def label (o : Operand) : String := o.ref.name

theorem ref_name (o : Operand) : o.ref.name = o.label := rfl

end Operand

/-- The operand is a base table with these rows, each as wide as the table. -/
structure BaseTable (v : ReadView) (o : Operand) (table : Table) : Prop where
  notView : v.views.lookup o.name = none
  scan : scanTable v o.name = .ok table
  wide : ∀ row ∈ table.rows, row.length = table.columns.length

/-- `SELECT * FROM a JOIN b ON cond`. -/
def joinQuery (kind : JoinType) (a b : Operand) (cond : Expr) : SelectStatement :=
  selectStar ⟨[], a.ref, [⟨kind, b.ref, if kind = .cross then none else some cond⟩]⟩ none

/-- The rows of a join, in no order. -/
def joinResult (v : ReadView) (depth : Nat) (params : Params) (kind : JoinType)
    (a b : Operand) (cond : Expr) : Outcome DbError (Multiset Row) := do
  let rs ← runSelect v depth (joinQuery kind a b cond) params
  return rs.rows

/-- `ON` on a pair of rows. -/
def pairCondition (a b : Operand) (ta tb : Table) (cond : Expr) (l r : Row) :
    Outcome ExecError Bool :=
  evalExpr cond (sideColumns a.label b.label ta.columns tb.columns) (l ++ r) [a.label, b.label]

/-- The call returns true. -/
def returnsTrue : Outcome ε Bool → Bool
  | .ok b => b
  | .error _ => false

/-- `ON` is true on a pair of rows. -/
def pairMatches (a b : Operand) (ta tb : Table) (cond : Expr) (l r : Row) : Bool :=
  returnsTrue (pairCondition a b ta tb cond l r)

section

variable {v : ReadView} {a b : Operand} {ta tb : Table} {cond : Expr}

theorem BaseTable.resolve (h : BaseTable v a ta) (run : Runner) :
    resolveTableRef v run a.ref [] none = .ok ta := by
  simp [Operand.ref, resolveTableRef, resolveNamed, h.notView, h.scan]

theorem qualifyBare_sideColumns (hdots : ∀ c ∈ ta.columns, hasDot c = false) :
    qualifyBare a.label (ta.columns ++ tb.columns.map (qualify b.label)) =
      sideColumns a.label b.label ta.columns tb.columns := by
  rw [qualifyBare, List.map_append]
  congr 1
  · refine List.map_congr_left fun c hc => ?_
    simp [hdots c hc]
  · rw [List.map_map]
    simp [hasDot_qualify]

/-- `ON` as the join evaluates it. -/
def onRow (a b : Operand) (ta tb : Table) (cond : Expr) (row : Row) : Outcome DbError Bool :=
  fromExec (evalExpr cond (sideColumns a.label b.label ta.columns tb.columns) row
    [a.label, b.label])

theorem onRow_append {l r : Row} (h : ∃ holds, pairCondition a b ta tb cond l r = .ok holds) :
    onRow a b ta tb cond (l ++ r) = .ok (pairMatches a b ta tb cond l r) := by
  obtain ⟨holds, hholds⟩ := h
  rw [pairMatches, hholds]
  exact fromExec_eq_ok.mpr hholds

theorem joinRows_pairs
    (hcond : ∀ l ∈ ta.rows, ∀ r ∈ tb.rows, ∃ holds, pairCondition a b ta tb cond l r = .ok holds)
    (kind : JoinType) :
    ∃ out, joinRows ⟨kind, b.ref, if kind = .cross then none else some cond⟩ (onRow a b ta tb)
        ta.columns tb.columns ta.rows tb.rows = .ok out ∧
      (out : Multiset Row) = joinMeaning kind (pairMatches a b ta tb cond) ta.columns.length
        tb.columns.length ta.rows tb.rows := by
  by_cases hcross : kind = .cross
  · exact joinRows_cross hcross _
  · rw [if_neg hcross]
    exact @joinRows_of_ok _ _ _ _ _ _ cond (fun row => returnsTrue (evalExpr cond
      (sideColumns a.label b.label ta.columns tb.columns) row [a.label, b.label])) rfl
      fun l hl r hr => onRow_append (hcond l hl r hr)

/-- A join returns what its kind means. -/
theorem joinResult_eq (ha : BaseTable v a ta) (hb : BaseTable v b tb)
    (hdots : ∀ c ∈ ta.columns, hasDot c = false)
    (hcond : ∀ l ∈ ta.rows, ∀ r ∈ tb.rows, ∃ holds, pairCondition a b ta tb cond l r = .ok holds)
    (depth : Nat) (params : Params) (kind : JoinType) :
    joinResult v (depth + 1) params kind a b cond =
      .ok (joinMeaning kind (pairMatches a b ta tb cond) ta.columns.length tb.columns.length
        ta.rows tb.rows) := by
  obtain ⟨out, hout, hmeaning⟩ := joinRows_pairs hcond kind
  have hon : (fun cond row => fromExec (evalExpr cond
      (qualifyBare a.label (ta.columns ++ tb.columns.map (qualify b.label))) row
      [a.label, b.label])) = onRow a b ta tb := by
    rw [qualifyBare_sideColumns hdots]
    rfl
  rw [joinResult, runSelect, joinQuery, runSelectScoped, selectBody_selectStar]
  simp only [FromClause.joined, FromClause.qualifiers, mergeCtes, List.foldl_nil,
    ha.resolve, Except.ok_bind, joinTables, hb.resolve, List.map_cons, List.map_nil,
    Operand.ref_name, hon, hout]
  exact congrArg Except.ok hmeaning

/-- The condition does not depend on the order of the tables. -/
theorem pairCondition_swap (hab : a.label ≠ b.label) (hta : ∀ c ∈ ta.columns, hasDot c = false)
    (htb : ∀ c ∈ tb.columns, hasDot c = false) (hnames : ∀ c ∈ cond.columnNames, hasDot c = true)
    {l r : Row} (hl : l.length = ta.columns.length) (hr : r.length = tb.columns.length) :
    pairCondition b a tb ta cond r l = pairCondition a b ta tb cond l r := by
  have heval : evalExprScoped (sideColumns b.label a.label tb.columns ta.columns) (r ++ l) []
      [b.label, a.label] cond = evalExprScoped (sideColumns a.label b.label ta.columns tb.columns)
        (l ++ r) [] [a.label, b.label] cond :=
    evalExprScoped_congr_find fun c hc => by
      simp [evalExprScoped.find, findValue_swap hab.symm htb hta hr hl (hnames c hc)]
  simp [pairCondition, evalExpr, heval]

/-- A join of two base tables returns the matching pairs and, by its kind, the
rows without a partner, and the same rows with the tables in the other order. -/
theorem join_semantics (ha : BaseTable v a ta) (hb : BaseTable v b tb) (hab : a.label ≠ b.label)
    (hta : ∀ c ∈ ta.columns, hasDot c = false) (htb : ∀ c ∈ tb.columns, hasDot c = false)
    (hnames : ∀ c ∈ cond.columnNames, hasDot c = true)
    (hcond : ∀ l ∈ ta.rows, ∀ r ∈ tb.rows, ∃ holds, pairCondition a b ta tb cond l r = .ok holds)
    (depth : Nat) (params : Params) (kind : JoinType) :
    joinResult v (depth + 1) params kind a b cond =
        .ok (joinMeaning kind (pairMatches a b ta tb cond) ta.columns.length tb.columns.length
          ta.rows tb.rows) ∧
      joinResult v (depth + 1) params kind a b cond = (do
        let rows ← joinResult v (depth + 1) params kind.swapped b a cond
        return rows.map (swapBlocks tb.columns.length)) := by
  have hswap : ∀ l ∈ ta.rows, ∀ r ∈ tb.rows,
      pairCondition b a tb ta cond r l = pairCondition a b ta tb cond l r :=
    fun l hl r hr => pairCondition_swap hab hta htb hnames (ha.wide l hl) (hb.wide r hr)
  have hcond' : ∀ r ∈ tb.rows, ∀ l ∈ ta.rows,
      ∃ holds, pairCondition b a tb ta cond r l = .ok holds := by
    intro r hr l hl
    rw [hswap l hl r hr]
    exact hcond l hl r hr
  have hresult := joinResult_eq ha hb hta hcond depth params kind
  refine ⟨hresult, ?_⟩
  rw [hresult, joinResult_eq hb ha htb hcond' depth params kind.swapped]
  refine congrArg Except.ok (joinMeaning_swapped (fun l hl r hr => ?_) hb.wide kind).symm
  simp [pairMatches, hswap l hl r hr]

end

/-- Tables `t` and `u` with a column and two rows each. -/
def twoRowsEach (column other : String) (n m : Int64) : List ClientCall :=
  [.execute (.createTable ⟨"t", [⟨column, .int, []⟩], []⟩) [],
    .execute (.createTable ⟨"u", [⟨other, .int, []⟩], []⟩) [],
    .execute (.insert ⟨"t", [column], [[.int n], [.int 2]]⟩) [],
    .execute (.insert ⟨"u", [other], [[.int m], [.int 3]]⟩) []]

/-- The second row of `t` has no partner. -/
theorem join_semantics_twoRowsEach :
    ∃ db, runCalls 1 (twoRowsEach "a" "b" 1 1) .empty = some db ∧
      joinResult db.readView 1 [] .left ⟨"t", none⟩ ⟨"u", none⟩ (.cmpColumn "t.a" .eq "u.b") =
        .ok ↑([[.int 0, .int 1, .int 0, .int 1], [.int 1, .int 2, .null, .null]] : List Row) ∧
      joinResult db.readView 1 [] .left ⟨"t", none⟩ ⟨"u", none⟩ (.cmpColumn "t.a" .eq "u.b") = (do
        let rows ← joinResult db.readView 1 [] .right ⟨"u", none⟩ ⟨"t", none⟩
          (.cmpColumn "t.a" .eq "u.b")
        return rows.map (swapBlocks 2)) := by
  obtain ⟨db, hdb, hviews, ⟨ta, hta, rfl⟩, tb, htb, rfl⟩ : ∃ db,
      runCalls 1 (twoRowsEach "a" "b" 1 1) .empty = some db ∧ db.views.isEmpty = true ∧
        (∃ ta, scanTable db.readView "t" = .ok ta ∧
          ta = ⟨["id", "a"], [[.int 0, .int 1], [.int 1, .int 2]]⟩) ∧
        ∃ tb, scanTable db.readView "u" = .ok tb ∧
          tb = ⟨["id", "b"], [[.int 0, .int 1], [.int 1, .int 3]]⟩ := by
    decide +kernel
  rw [List.isEmpty_iff] at hviews
  have ht : BaseTable db.readView ⟨"t", none⟩ _ := ⟨by simp [Database.readView, hviews],
      hta, by simp⟩
  have hu : BaseTable db.readView ⟨"u", none⟩ _ := ⟨by simp [Database.readView, hviews],
      htb, by simp⟩
  obtain ⟨hrows, hswap⟩ := @join_semantics db.readView ⟨"t", none⟩ ⟨"u", none⟩ _ _
    (.cmpColumn "t.a" .eq "u.b") ht hu (by decide) (by decide) (by decide) (by decide)
    (by decide +kernel) 0 [] .left
  exact ⟨db, hdb, hrows, hswap⟩

/-- A column of `t` called `u.v` is taken for the column `v` of `u`, if `t` is
the first table. -/
theorem dotted_column_breaks_swap :
    ∃ db, Reaches 1 (fun _ _ => True) .empty db ∧
      joinResult db.readView 1 [] .inner ⟨"t", none⟩ ⟨"u", none⟩ (.cmp "u.v" .eq (.int 1)) ≠ (do
        let rows ← joinResult db.readView 1 [] .inner ⟨"u", none⟩ ⟨"t", none⟩
          (.cmp "u.v" .eq (.int 1))
        return rows.map (swapBlocks 2)) := by
  obtain ⟨db, hr, ⟨ra, hra, hone⟩, rb, hrb, hzero⟩ := exists_run (P := fun db =>
      (∃ rows, joinResult db.readView 1 [] .inner ⟨"t", none⟩ ⟨"u", none⟩
        (.cmp "u.v" .eq (.int 1)) =
        .ok rows ∧ rows.card = 2) ∧
      ∃ rows, joinResult db.readView 1 [] .inner ⟨"u", none⟩ ⟨"t", none⟩ (.cmp "u.v" .eq (.int 1)) =
        .ok rows ∧ rows.card = 0) 1 (twoRowsEach "u.v" "v" 1 2) (by decide +kernel)
  refine ⟨db, hr, fun heq => ?_⟩
  rw [hra, hrb] at heq
  have hcard := congrArg card (Except.ok.inj heq)
  grind [card_map]

end Archon
