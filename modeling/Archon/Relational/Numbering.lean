import Archon.Relational.Predicate

/-!
# Archon.Relational.Numbering

The numbers of subqueries.  `build_subquery_cache` walks over a predicate twice
and fills the cache by a counter, `eval_where` counts again
(`crates/tpt-archon-relational/src/database/subquery.rs`); they give every
subquery the same number, even if it occurs twice.
-/

namespace Archon

open List Except

/-! ## The walk -/

/-- Where a subquery stands in a predicate: the way down to it. -/
abbrev Place := List Bool

/-- Visit the subqueries of a predicate. -/
def walkSubqueries (f : Place → Expr → σ → Outcome DbError σ) :
    Place → Expr → σ → Outcome DbError σ
  | p, .and l r, s | p, .or l r, s => do
    let s ← walkSubqueries f (p ++ [false]) l s
    walkSubqueries f (p ++ [true]) r s
  | p, .not inner, s => walkSubqueries f (p ++ [false]) inner s
  | p, .existsQuery query, s => f p (.existsQuery query) s
  | p, .inSubquery column query, s => f p (.inSubquery column query) s
  | p, .scalarCmp column op query, s => f p (.scalarCmp column op query) s
  | _, _, s => return s

/-- Make room for a subquery; the counter is not used. -/
def reserveEntry (_ : Place) (_ : Expr) (s : Nat × List (Place × CacheEntry)) :
    Outcome DbError (Nat × List (Place × CacheEntry)) :=
  return (s.1, s.2 ++ [([], .uncached)])

/-- Fill the entry under the counter, and keep with it the place of the
subquery it is for. -/
def fillEntry (entryOf : Expr → Outcome DbError CacheEntry) (place : Place) (node : Expr)
    (s : Nat × List (Place × CacheEntry)) : Outcome DbError (Nat × List (Place × CacheEntry)) := do
  let entry ← entryOf node
  let cache ← Outcome.set s.2 s.1 (place, entry)
  return (s.1 + 1, cache)

/-- The two walks of `build_subquery_cache`. -/
def fillSubqueryCache (run : Runner) (whereExpr : Expr) (ownColumns : List String)
    (params : Params) (ctes : List CTE) : Outcome DbError (List (Place × CacheEntry)) := do
  let (_, cache) ← walkSubqueries reserveEntry [] whereExpr (0, [])
  let (_, cache) ← walkSubqueries (fillEntry (cacheEntry run ownColumns params ctes)) [] whereExpr
    (0, cache)
  return cache

/-- The subqueries with their places, depth first. -/
def subqueryPlaces : Place → Expr → List (Place × Expr)
  | p, .and l r | p, .or l r => subqueryPlaces (p ++ [false]) l ++ subqueryPlaces (p ++ [true]) r
  | p, .not inner => subqueryPlaces (p ++ [false]) inner
  | p, .existsQuery query => [(p, .existsQuery query)]
  | p, .inSubquery column query => [(p, .inSubquery column query)]
  | p, .scalarCmp column op query => [(p, .scalarCmp column op query)]
  | _, _ => []

section

variable {e : Expr} {p : Place}

theorem map_snd_subqueryPlaces : (subqueryPlaces p e).map Prod.snd = subqueryNodes e := by
  induction e using Expr.connectives generalizing p with
  | and l r ihl ihr | or l r ihl ihr => simp [subqueryPlaces, subqueryNodes, ihl, ihr]
  | not e ih => exact ih
  | atom e hatom => cases e <;> first | rfl | cases hatom

theorem walkSubqueries_eq {f : Place → Expr → σ → Outcome DbError σ} {s : σ} :
    walkSubqueries f p e s = (subqueryPlaces p e).foldlM (fun s x => f x.1 x.2 s) s := by
  induction e using Expr.connectives generalizing p s with
  | and l r ihl ihr | or l r ihl ihr => simp [walkSubqueries, subqueryPlaces, ihl, ihr]
  | not e ih => exact ih
  | atom e hatom =>
    cases e with
    | and | or | not => cases hatom
    | _ => simp [walkSubqueries, subqueryPlaces, bind_ok]

theorem prefix_subqueryPlaces {x : Place × Expr} (h : x ∈ subqueryPlaces p e) : p <+: x.1 := by
  induction e using Expr.connectives generalizing p with
  | and l r ihl ihr | or l r ihl ihr =>
    rcases mem_append.mp h with h | h
    · exact (prefix_append _ _).trans (ihl h)
    · exact (prefix_append _ _).trans (ihr h)
  | not e ih => exact (prefix_append _ _).trans (ih h)
  | atom e hatom =>
    cases e with
    | and | or | not => cases hatom
    | _ => simp_all [subqueryPlaces]

theorem nodup_subqueryPlaces : ((subqueryPlaces p e).map Prod.fst).Nodup := by
  induction e using Expr.connectives generalizing p with
  | and l r ihl ihr | or l r ihl ihr =>
    rw [subqueryPlaces, map_append]
    refine List.Nodup.append ihl ihr fun q hl hr => ?_
    obtain ⟨x, hx, rfl⟩ := mem_map.mp hl
    obtain ⟨y, hy, hxy⟩ := mem_map.mp hr
    have hleft := prefix_subqueryPlaces hx
    have hright := prefix_subqueryPlaces hy
    rw [hxy] at hright
    have heq := (prefix_of_prefix_length_le hleft hright (by simp)).eq_of_length (by simp)
    simp at heq
  | not e ih => exact ih
  | atom e hatom =>
    cases e with
    | and | or | not => cases hatom
    | _ => simp [subqueryPlaces]

end

variable {nodes : List (Place × Expr)}

theorem reserve_foldlM {counter : Nat} {cache : List (Place × CacheEntry)} :
    nodes.foldlM (fun s x => reserveEntry x.1 x.2 s) (counter, cache) =
      .ok (counter, cache ++ List.replicate nodes.length ([], .uncached)) := by
  induction nodes generalizing cache with
  | nil => simp
  | cons x nodes ih =>
    rw [foldlM_cons, reserveEntry, pure_eq_ok, ok_bind, ih, append_assoc]
    rfl

/-- Filling from the counter on. -/
theorem fill_foldlM {entryOf : Expr → Outcome DbError CacheEntry}
    {done rest : List (Place × CacheEntry)} (h : rest.length = nodes.length) :
    nodes.foldlM (fun s x => fillEntry entryOf x.1 x.2 s) (done.length, done ++ rest) = do
      let entries ← (nodes.map Prod.snd).mapM entryOf
      return (done.length + nodes.length, done ++ (nodes.map Prod.fst).zip entries) := by
  induction nodes generalizing done rest with
  | nil =>
    obtain rfl := length_eq_zero_iff.mp h
    rfl
  | cons x nodes ih =>
    obtain ⟨d, rest, rfl⟩ := exists_cons_of_length_eq_add_one h
    cases hx : entryOf x.2 with
    | error err => simp [fillEntry, hx]
    | ok entry =>
      have hfill : fillEntry entryOf x.1 x.2 (done.length, done ++ d :: rest) =
          .ok ((done ++ [(x.1, entry)]).length, done ++ [(x.1, entry)] ++ rest) := by
        simp [fillEntry, hx, Outcome.set]
      rw [foldlM_cons, hfill, ok_bind, ih (Nat.succ.inj h), map_cons,
        mapM_cons, hx]
      cases (nodes.map Prod.snd).mapM entryOf with
      | error err => rfl
      | ok entries =>
        simp [Nat.add_assoc, Nat.add_comm 1]

/-! ## The counter -/

section

variable (run : Runner) (cx : WhereContext)

/-- The value of a predicate, when `entry` holds the cached result of the
subquery at each place. -/
def truthAt (entry : Place → CacheEntry) : Place → Expr → Outcome DbError (Option Bool)
  | p, .and l r => do
    let lv ← truthAt entry (p ++ [false]) l
    let rv ← truthAt entry (p ++ [true]) r
    return kleeneAnd lv rv
  | p, .or l r => do
    let lv ← truthAt entry (p ++ [false]) l
    let rv ← truthAt entry (p ++ [true]) r
    return kleeneOr lv rv
  | p, .not inner => do
    let v ← truthAt entry (p ++ [false]) inner
    return kleeneNot v
  | p, e => truth run cx (fun _ => entry p) e

variable {run cx}

/-- Each subquery is evaluated with the entry under its number. -/
theorem evalWhere_eq_truthAt {entry : Place → CacheEntry} {e : Expr} {p : Place} {counter : Nat}
    (h : ∀ i x, (subqueryPlaces p e)[i]? = some x → cx.entryAt (counter + i) = entry x.1) :
    evalWhere run cx e counter = do
      let v ← truthAt run cx entry p e
      return (v, counter + (subqueryPlaces p e).length) := by
  induction e using Expr.connectives generalizing p counter with
  | and l r ihl ihr | or l r ihl ihr =>
    obtain ⟨hl, hr⟩ := @numbered_append _ (fun i x => cx.entryAt i = entry x.1)
      (subqueryPlaces (p ++ [false]) l) _ counter h
    simp [evalWhere, truthAt, ihl hl, subqueryPlaces, ihr hr, Nat.add_assoc]
  | not e ih =>
    simp [evalWhere, truthAt, ih h, subqueryPlaces]
  | atom e hatom =>
    have hlength : (subqueryPlaces p e).length = (subqueryNodes e).length := by
      rw [← @map_snd_subqueryPlaces e p, length_map]
    have hplace : ∀ x ∈ subqueryPlaces p e, x.1 = p := by
      cases e with
      | and | or | not => cases hatom
      | _ => simp [subqueryPlaces]
    have hat : truthAt run cx entry p e = truth run cx (fun _ => entry p) e := by
      cases e with
      | and | or | not => cases hatom
      | _ => rfl
    rw [hat, hlength]
    refine evalWhere_eq_truth fun i node hi => ?_
    rw [← @map_snd_subqueryPlaces e p, getElem?_map] at hi
    obtain ⟨x, hx, -⟩ := Option.map_eq_some_iff.mp hi
    rw [h i x hx, hplace x (mem_of_getElem? hx)]

end

/-- **Subquery numbers.**  The cache has one entry for each subquery, and
`eval_where`, started at 0, evaluates each with the entry filled for it,
whatever the cache holds, and ends behind the last one. -/
theorem subquery_numbering {run : Runner} (cx : WhereContext) {e : Expr} {ownColumns : List String}
    {params : Params} {ctes : List CTE} {filled : List (Place × CacheEntry)}
    (h : fillSubqueryCache run e ownColumns params ctes = .ok filled) :
    buildSubqueryCache run e ownColumns params ctes = .ok (filled.map Prod.snd) ∧
    (filled.map Prod.fst).Nodup ∧
    ∀ entry : Place → CacheEntry,
      (∀ i place, (filled.map Prod.fst)[i]? = some place → cx.entryAt i = entry place) →
      evalWhere run cx e 0 = do
        let v ← truthAt run cx entry [] e
        return (v, filled.length) := by
  simp only [fillSubqueryCache, walkSubqueries_eq, reserve_foldlM, ok_bind] at h
  obtain ⟨s, hs, h⟩ := h.bind_ok
  rw [nil_append, ← length_nil (α := Place × CacheEntry),
    ← nil_append (List.replicate _ _),
    fill_foldlM length_replicate, map_snd_subqueryPlaces] at hs
  obtain ⟨entries, hbuild, hs⟩ := hs.bind_ok
  cases hs
  cases h
  have hlength : ((subqueryPlaces [] e).map Prod.fst).length = entries.length := by
    rw [length_of_mapM_eq_ok hbuild, ← @map_snd_subqueryPlaces e [], length_map,
      length_map]
  have hfst := map_fst_zip hlength.le
  rw [nil_append, map_snd_zip hlength.ge, hfst]
  refine ⟨hbuild, nodup_subqueryPlaces, fun entry hentry => ?_⟩
  have heval := @evalWhere_eq_truthAt run cx entry e [] 0 fun i x hx => by
    rw [Nat.zero_add]
    exact hentry i x.1 (by simp [hx])
  rw [heval, length_zip, ← hlength, Nat.min_self, length_map, Nat.zero_add]

/-- `EXISTS (SELECT * FROM t) AND NOT EXISTS (SELECT * FROM u)`, where only `t`
has a row. -/
theorem subquery_numbering_two : ∃ (run : Runner) (cx : WhereContext) (e : Expr),
    run = (fun q _ _ _ _ => .ok ⟨[], if q.table.name = "t" then [[]] else [], none⟩) ∧
    e = .and (.existsQuery (selectStar ⟨[], .named "t" none, []⟩ none))
      (.not (.existsQuery (selectStar ⟨[], .named "u" none, []⟩ none))) ∧
    buildSubqueryCache run e [] [] [] = .ok cx.cache ∧
    cx.cache = [.existsResult true, .existsResult false] ∧
    evalWhere run cx e 0 = do
      let v ← truthAt run cx (fun place => .existsResult (place = [false])) [] e
      return (v, 2) := by
  obtain ⟨hbuild, -, heval⟩ := @subquery_numbering
    (fun q _ _ _ _ => .ok ⟨[], if q.table.name = "t" then [[]] else [], none⟩)
    ⟨[], [], [], [], [], [], [.existsResult true, .existsResult false], []⟩
    (.and (.existsQuery (selectStar ⟨[], .named "t" none, []⟩ none))
      (.not (.existsQuery (selectStar ⟨[], .named "u" none, []⟩ none)))) [] [] []
    [([false], .existsResult true), ([true, false], .existsResult false)] rfl
  refine ⟨_, _, _, rfl, rfl, hbuild, rfl, heval _ ?_⟩
  rintro (_ | _ | i) place hplace <;> cases hplace <;> rfl

end Archon
