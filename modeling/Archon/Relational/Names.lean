import Archon.Relational.Subquery
import Mathlib.Data.List.TakeWhile

/-!
# Archon.Relational.Names

What an expression reads of its scopes: the values of the names in it.
-/

namespace Archon

open Outcome List

variable {columns : List String} {name : String}

/-- An expression without subqueries. -/
def Expr.isPlain : Expr → Bool
  | .and l r => l.isPlain && r.isPlain
  | .or l r => l.isPlain && r.isPlain
  | .not e => e.isPlain
  | .existsQuery _ => false
  | .inSubquery _ _ => false
  | .scalarCmp _ _ _ => false
  | _ => true

/-- The columns an expression without subqueries names. -/
def Expr.columnNames : Expr → List String
  | .cmp column _ _ => [column]
  | .cmpColumn left _ right => [left, right]
  | .isNull column _ => [column]
  | .like column _ => [column]
  | .inInt column _ => [column]
  | .betweenInt column _ _ => [column]
  | .and l r => l.columnNames ++ r.columnNames
  | .or l r => l.columnNames ++ r.columnNames
  | .not e => e.columnNames
  | .agg func column => [aggDefaultAlias func column]
  | .aggCmp func column _ _ => [aggDefaultAlias func column]
  | .extractCmp _ source _ _ => [source]
  | _ => []

/-- The slot a name stands for in a row without enclosing scopes. -/
def slotOf (columns : List String) (name : String) : Option Nat :=
  (columns.findIdx? (· == name)).or (columns.findIdx? (unqualified · == unqualified name))

theorem ne_dot_of_noDot (h : hasDot name = false) :
    ∀ c ∈ name.toList.reverse, (c != '.') = true := by
  grind [hasDot]

theorem unqualified_of_noDot (h : hasDot name = false) : unqualified name = name := by
  unfold unqualified
  rw [takeWhile_eq_self_iff.mpr (ne_dot_of_noDot h), reverse_reverse,
    String.ofList_toList]

theorem toList_qualify (table column : String) :
    (qualify table column).toList = table.toList ++ '.' :: column.toList := by
  simp [qualify]

theorem hasDot_qualify (table column : String) : hasDot (qualify table column) = true := by
  simp [hasDot, toList_qualify]

variable {column : String} {a b row : Row} {e : Expr} {run : Runner} {cx : WhereContext}

theorem unqualified_qualify (h : hasDot column = false) (table : String) :
    unqualified (qualify table column) = column := by
  simp [toList_qualify, takeWhile_append_of_pos (ne_dot_of_noDot h), unqualified]

theorem qualifier_qualify (h : hasDot column = false) (table : String) :
    qualifier (qualify table column) = table := by
  simp [toList_qualify, dropWhile_append_of_pos (ne_dot_of_noDot h), qualifier]

/-- A name with a dot is its parts around the last one. -/
theorem qualify_unqualified (h : hasDot name = true) :
    qualify (qualifier name) (unqualified name) = name := by
  have hsplit : name.toList.reverse.takeWhile (· != '.') ++
      name.toList.reverse.dropWhile (· != '.') = name.toList.reverse :=
    takeWhile_append_dropWhile
  have hdot : '.' ∈ name.toList := by simpa [hasDot] using h
  rw [← String.toList_inj, toList_qualify, qualifier, unqualified]
  cases hdrop : name.toList.reverse.dropWhile (· != '.') with
  | nil =>
    have hall := dropWhile_eq_nil_iff.mp hdrop '.' (mem_reverse.mpr hdot)
    simp at hall
  | cons c rest =>
    have hc : c = '.' := by
      have hhead := @head_dropWhile_not _ (· != '.') name.toList.reverse (by simp [hdrop])
      simpa [hdrop] using hhead
    rw [hdrop, hc] at hsplit
    have hname := congrArg List.reverse hsplit
    simpa using hname

theorem lookupColumn_congr {p : String → Bool}
    (h : ∀ i, columns.findIdx? p = some i → a[i]? = b[i]?) :
    (lookupColumn columns a p : Outcome ε (Option Value)) = lookupColumn columns b p := by
  unfold lookupColumn
  cases hi : columns.findIdx? p with
  | none => rfl
  | some i => simp [index_congr (h i hi)]

/-- A lookup finds nothing iff no column satisfies the test. -/
theorem lookupColumn_eq_none (row : Row) {p : String → Bool} :
    (lookupColumn columns row p : Outcome ε (Option Value)) = .ok none ↔
      ∀ c ∈ columns, p c = false := by
  rw [← findIdx?_eq_none_iff, lookupColumn]
  cases columns.findIdx? p with
  | none => exact iff_of_true rfl rfl
  | some i => cases hv : (index row i : Outcome ε Value) <;> simp [hv]

/-- A qualified name that matches no column exactly matches by its unqualified
part, if the qualifier is in scope. -/
theorem findValue_suffix (hname : hasDot name = true)
    (h : (lookupColumn columns row (· == name) : Outcome ε (Option Value)) = .ok none)
    (qualifiers : List String) :
    (findValue name columns row [] qualifiers : Outcome ε (Option Value)) =
      if qualifiers = [] ∨ qualifier name ∈ qualifiers then
        lookupColumn columns row (unqualified · == unqualified name)
      else .ok none := by
  simp only [findValue, h, hname, lookupOuter, Except.pure_eq_ok, Except.ok_bind]
  by_cases hq : qualifiers = [] ∨ qualifier name ∈ qualifiers
  · have hscope : (!qualifiers.isEmpty && !qualifiers.contains (qualifier name)) = false := by
      rcases hq with rfl | hq <;> simp [*]
    simp only [hscope, if_pos hq]
    cases (lookupColumn columns row (unqualified · == unqualified name) :
        Outcome ε (Option Value)) with
    | error f => rfl
    | ok found => cases found <;> rfl
  · have hscope : (!qualifiers.isEmpty && !qualifiers.contains (qualifier name)) = true := by
      simpa using hq
    simp only [hscope, if_neg hq, if_true]

theorem findValue_congr (h : ∀ i, slotOf columns name = some i → a[i]? = b[i]?) :
    (findValue name columns a [] [] : Outcome ε (Option Value)) = findValue name columns b
      [] [] := by
  unfold slotOf at h
  have hexact : (lookupColumn columns a (· == name) : Outcome ε (Option Value)) =
      lookupColumn columns b (· == name) := lookupColumn_congr fun i hi => h i (by simp [hi])
  unfold findValue
  rw [hexact]
  cases hfind : columns.findIdx? (· == name) with
  | some i =>
    have hfound : (lookupColumn columns b (· == name) : Outcome ε (Option Value)) =
        (do
          let v ← index b i
          return some v) := by simp [lookupColumn, hfind]
    simp [hfound]
  | none =>
    have hloose : (lookupColumn columns a (unqualified · == unqualified name) :
        Outcome ε (Option Value)) = lookupColumn columns b (unqualified · == unqualified name) :=
      lookupColumn_congr fun i hi => h i (by simp [hfind, hi])
    cases hdot : hasDot name with
    | true => simp [hloose]
    | false =>
      rw [unqualified_of_noDot hdot] at hloose
      simp [hloose]

/-! ## Errors

Looking up a name returns no error of its own. -/

theorem mapErr_lookupColumn (f : ε → ε') (columns : List String) (row : Row) (p : String → Bool) :
    mapErr f (lookupColumn columns row p) = lookupColumn columns row p := by
  unfold lookupColumn
  cases columns.findIdx? p with
  | none => rfl
  | some i =>
    simp only [mapErr_bind, mapErr_index]
    rfl

theorem mapErr_lookupOuter (f : ε → ε') (p : String → Bool) (outer : List Scope) :
    mapErr f (lookupOuter p outer) = lookupOuter p outer := by
  induction outer with
  | nil => rfl
  | cons scope outer ih =>
    obtain ⟨columns, row⟩ := scope
    refine mapErr_bind_congr (mapErr_lookupColumn f columns row p) fun found => ?_
    cases found with
    | none => exact ih
    | some v => rfl

theorem mapErr_findValue (f : ε → ε') (name : String) (columns : List String) (row : Row)
    (outer : List Scope) (qualifiers : List String) :
    mapErr f (findValue name columns row outer qualifiers) =
      findValue name columns row outer qualifiers := by
  refine mapErr_bind_congr (mapErr_lookupColumn f columns row _) fun found => ?_
  cases found with
  | some v => rfl
  | none =>
    dsimp only
    split
    · refine mapErr_bind_congr (mapErr_lookupOuter f _ outer) fun found => ?_
      cases found with
      | some v => rfl
      | none =>
        dsimp only
        split
        · rfl
        · refine mapErr_bind_congr (mapErr_lookupColumn f columns row _) fun found => ?_
          cases found with
          | some v => rfl
          | none => exact mapErr_lookupOuter f _ outer
    · refine mapErr_bind_congr (mapErr_lookupColumn f columns row _) fun found => ?_
      cases found with
      | some v => rfl
      | none => exact mapErr_lookupOuter f _ outer

/-- The database looks a name up as the executor does. -/
theorem WhereContext.find_eq (cx : WhereContext) (name : String) :
    cx.find name =
      fromExec (evalExprScoped.find cx.columns cx.row cx.outer cx.validQualifiers name) := by
  rw [evalExprScoped.find, fromExec_bind, fromExec, mapErr_findValue, WhereContext.find]
  congr 1
  funext v
  cases v <;> rfl

/-- The value of an expression comes from the values of the names in it. -/
theorem evalExprScoped_congr_find {columns' : List String} {row' : Row} {outer outer' : List Scope}
    {qualifiers qualifiers' : List String}
    (hfind : ∀ c ∈ e.columnNames, evalExprScoped.find columns row outer qualifiers c =
      evalExprScoped.find columns' row' outer' qualifiers' c) :
    evalExprScoped columns row outer qualifiers e =
      evalExprScoped columns' row' outer' qualifiers' e := by
  induction e using Expr.connectives with
  | and l r ihl ihr =>
    simp only [Expr.columnNames, mem_append] at hfind
    rw [evalExprScoped_and, ihl fun c hc => hfind c (.inl hc), ihr fun c hc => hfind c (.inr hc),
      evalExprScoped_and]
  | or l r ihl ihr =>
    simp only [Expr.columnNames, mem_append] at hfind
    rw [evalExprScoped_or, ihl fun c hc => hfind c (.inl hc), ihr fun c hc => hfind c (.inr hc),
      evalExprScoped_or]
  | not e ih => rw [evalExprScoped_not, ih hfind, evalExprScoped_not]
  | atom e hatom =>
    cases e with
    | and | or | not => cases hatom
    | existsQuery | inSubquery | scalarCmp => rfl
    | cmpColumn l op r =>
      show (evalExprScoped.find columns row outer qualifiers l >>= fun lv =>
        evalExprScoped.find columns row outer qualifiers r >>= fun rv =>
          compareValues op lv rv) = _
      rw [hfind l (by simp [Expr.columnNames]), hfind r (by simp [Expr.columnNames])]
      rfl
    | _ =>
      -- one column is read first, and nothing else of the row
      show (evalExprScoped.find columns row outer qualifiers _ >>= _) = _
      rw [hfind _ (mem_singleton.mpr rfl)]
      rfl

/-- Without subqueries the evaluator of `WHERE` is the executor's. -/
theorem evalWhere_of_isPlain (h : e.isPlain = true) (counter : Nat) :
    evalWhere run cx e counter = do
      let v ← fromExec (evalExprScoped cx.columns cx.row cx.outer cx.validQualifiers e)
      return (v, counter) := by
  induction e using Expr.connectives generalizing counter with
  | and l r ihl ihr =>
    obtain ⟨hl, hr⟩ := (Bool.and_eq_true _ _).mp h
    simp only [evalWhere, evalExprScoped_and, ihl hl, ihr hr, fromExec_bind, bind_assoc]
    rfl
  | or l r ihl ihr =>
    obtain ⟨hl, hr⟩ := (Bool.and_eq_true _ _).mp h
    simp only [evalWhere, evalExprScoped_or, ihl hl, ihr hr, fromExec_bind, bind_assoc]
    rfl
  | not e ih =>
    simp only [evalWhere, evalExprScoped_not, ih h, fromExec_bind, bind_assoc]
    rfl
  | atom e hatom =>
    cases e with
    | and | or | not => cases hatom
    | existsQuery | inSubquery | scalarCmp => cases h
    | _ => rfl

theorem passes_of_isPlain (h : e.isPlain = true) :
    passes run cx e = .ok true ↔
      evalExprScoped cx.columns cx.row cx.outer cx.validQualifiers e = .ok (some true) := by
  rw [passes, evalWhere_of_isPlain h]
  cases hv : fromExec (evalExprScoped cx.columns cx.row cx.outer cx.validQualifiers e) with
  | error f =>
    have hne : evalExprScoped cx.columns cx.row cx.outer cx.validQualifiers e ≠ .ok (some true) :=
      fun heq => by rw [fromExec_eq_ok.mpr heq] at hv; cases hv
    simp [hne]
  | ok v =>
    rw [fromExec_eq_ok.mp hv]
    cases v with
    | none | some => simp

end Archon
