/-!
# Archon.Lib.Journal

Redo journals over an arbitrary payload: a journal is a list of entries, each
an item or a mark, and the items in front of a mark are *committed* by it.

`committed` and `pending` split the items at the last mark; `latest` reads a
journal of key/value writes as the map its last writes define.
-/

namespace Archon

/-- A journal entry: something written, or the mark that commits everything
written so far. -/
inductive Entry (α : Type) where
  | item (a : α)
  | mark
  deriving DecidableEq

namespace Journal

/-- All items, committed or not. -/
def items : List (Entry α) → List α
  | [] => []
  | .item a :: es => a :: items es
  | .mark :: es => items es

/-- The items still waiting for a mark. -/
def pending : List (Entry α) → List α → List α
  | [], acc => acc
  | .item a :: es, acc => pending es (acc ++ [a])
  | .mark :: es, _ => pending es []

/-- The items some later mark commits, given those already waiting. -/
def committed : List (Entry α) → List α → List α
  | [], _ => []
  | .item a :: es, acc => committed es (acc ++ [a])
  | .mark :: es, acc => acc ++ committed es []

/-- Nothing is lost: every item is committed or pending, in order. -/
theorem committed_append_pending (es : List (Entry α)) (acc : List α) :
    committed es acc ++ pending es acc = acc ++ items es := by
  induction es generalizing acc with
  | nil => simp [committed, pending, items]
  | cons e es ih =>
    cases e with
    | item a => simp [committed, pending, items, ih]
    | mark => simp [committed, pending, items, ih]

theorem committed_append (xs ys : List (Entry α)) (acc : List α) :
    committed (xs ++ ys) acc = committed xs acc ++ committed ys (pending xs acc) := by
  induction xs generalizing acc with
  | nil => rfl
  | cons e xs ih =>
    cases e with
    | item a => exact ih _
    | mark => simp [committed, pending, ih]

theorem items_append (xs ys : List (Entry α)) : items (xs ++ ys) = items xs ++ items ys := by
  induction xs with
  | nil => rfl
  | cons e xs ih =>
    cases e with
    | item | mark => simp [items, ih]

/-- A mark on the end commits everything. -/
theorem committed_concat_mark (es : List (Entry α)) (acc : List α) :
    committed (es ++ [.mark]) acc = acc ++ items es := by
  simp [committed_append, ← committed_append_pending, committed]

/-! ## Last write wins -/

/-- The value of the last write to `k`. -/
def latest [DecidableEq κ] : List (κ × ν) → κ → Option ν
  | [], _ => none
  | (c, v) :: ws, k => (latest ws k).or (if c = k then some v else none)

theorem latest_append [DecidableEq κ] (xs ys : List (κ × ν)) (k : κ) :
    latest (xs ++ ys) k = (latest ys k).or (latest xs k) := by
  induction xs with
  | nil => simp [latest]
  | cons w xs ih => simp [latest, ih, Option.or_assoc]

theorem latest_concat [DecidableEq κ] (ws : List (κ × ν)) (c : κ) (v : ν) (k : κ) :
    latest (ws ++ [(c, v)]) k = if c = k then some v else latest ws k := by
  rw [latest_append]
  by_cases h : c = k <;> simp [latest, h]

theorem latest_eq_none_iff [DecidableEq κ] (ws : List (κ × ν)) (k : κ) :
    latest ws k = none ↔ ∀ w ∈ ws, w.1 ≠ k := by
  induction ws with
  | nil => simp [latest]
  | cons w ws ih =>
    obtain ⟨c, v⟩ := w
    by_cases h : c = k <;> simp [latest, ih, h]

/-- A write no later one to its key follows is the latest. -/
theorem latest_of_split [DecidableEq κ] (xs : List (κ × ν)) (k : κ) (v : ν) {ys : List (κ × ν)}
    (h : ∀ w ∈ ys, w.1 ≠ k) : latest (xs ++ (k, v) :: ys) k = some v := by
  rw [latest_append, latest, (latest_eq_none_iff ys k).mpr h]
  simp

theorem exists_split_of_latest [DecidableEq κ] {ws : List (κ × ν)} {k : κ} {v : ν}
    (h : latest ws k = some v) : ∃ xs ys, ws = xs ++ (k, v) :: ys ∧ ∀ w ∈ ys, w.1 ≠ k := by
  induction ws with
  | nil => simp [latest] at h
  | cons w ws ih =>
    obtain ⟨c, u⟩ := w
    cases hl : latest ws k with
    | none =>
      by_cases hc : c = k
      · simp only [latest, hl, hc, if_true, Option.none_or, Option.some.injEq] at h
        exact ⟨[], ws, by simp [hc, h], (latest_eq_none_iff ws k).mp hl⟩
      · simp [latest, hl, hc] at h
    | some u' =>
      rw [latest, hl] at h
      obtain ⟨xs, ys, rfl, hys⟩ := ih (hl.trans h)
      exact ⟨(c, u) :: xs, ys, rfl, hys⟩

end Journal

end Archon
