import Archon.Lib.Except

/-!
# Archon.Lib.Vec

Growable vectors as lists, with the operations that panic on an index out of
range returning a fault instead.
-/

namespace Archon

/-- What a program cannot recover from: a panic, or a loop that does not
end. -/
inductive Fault where
  | panic
  | diverged
  deriving DecidableEq, Repr

namespace Vec

/-- `xs[i]` -/
def index (xs : List α) (i : Nat) : Except Fault α := Except.okOr xs[i]? .panic

/-- `xs[i] = a` -/
def set (xs : List α) (i : Nat) (a : α) : Except Fault (List α) :=
  if i < xs.length then .ok (xs.set i a) else .error .panic

/-- `xs.insert(i, a)` -/
def insert (xs : List α) (i : Nat) (a : α) : Except Fault (List α) :=
  if i ≤ xs.length then .ok (xs.insertIdx i a) else .error .panic

/-- `xs.remove(i)`: the element removed and the rest. -/
def remove (xs : List α) (i : Nat) : Except Fault (α × List α) :=
  match xs[i]? with
  | some a => .ok (a, xs.eraseIdx i)
  | none => .error .panic

/-- `xs.split_off(at)`: what stays and what is split off. -/
def splitOff (xs : List α) (i : Nat) : Except Fault (List α × List α) :=
  if i ≤ xs.length then .ok (xs.take i, xs.drop i) else .error .panic

variable {xs ys : List α} {i : Nat} {a : α}

theorem index_eq (h : xs[i]? = some a) : index xs i = .ok a := by
  rw [index, h]
  rfl

section

variable (xs ys : List α)

/-- The operations at the seam of an append. -/
theorem index_append (a : α) : index (xs ++ a :: ys) xs.length = .ok a :=
  index_eq (by simp)

/-- Setting the element in the middle. -/
theorem set_append (a b : α) : set (xs ++ a :: ys) xs.length b = .ok (xs ++ b :: ys) := by
  rw [set]
  simp

/-- Inserting in the middle. -/
theorem insert_append (a : α) : insert (xs ++ ys) xs.length a = .ok (xs ++ a :: ys) := by
  have hseam : (xs ++ ys).insertIdx xs.length a = xs ++ a :: ys := by
    induction xs with
    | nil => rfl
    | cons x xs ih => simp [ih]
  rw [insert, if_pos (by simp), hseam]

/-- Removing from the middle. -/
theorem remove_append (a : α) : remove (xs ++ a :: ys) xs.length = .ok (a, xs ++ ys) := by
  have hseam : (xs ++ a :: ys).eraseIdx xs.length = xs ++ ys := by grind
  rw [remove, hseam]
  simp

/-- Splitting in the middle. -/
theorem splitOff_append : splitOff (xs ++ ys) xs.length = .ok (xs, ys) := by
  rw [splitOff]
  simp

end

/-! ## When an operation does not panic -/

theorem index_eq_ok : index xs i = .ok a ↔ xs[i]? = some a :=
  Except.okOr_eq_ok

/-- An insert succeeds up to one past the end. -/
theorem insert_eq_ok : insert xs i a = .ok ys ↔ i ≤ xs.length ∧ xs.insertIdx i a = ys := by
  by_cases hi : i ≤ xs.length <;> simp [insert, hi]

/-- An insert adds one element. -/
theorem length_of_insert (h : insert xs i a = .ok ys) : ys.length = xs.length + 1 := by
  obtain ⟨hi, rfl⟩ := insert_eq_ok.mp h
  exact List.length_insertIdx_of_le_length hi a

/-- A removal takes one element. -/
theorem length_of_remove (h : remove xs i = .ok (a, ys)) : ys.length + 1 = xs.length := by
  unfold remove at h
  split at h
  next b hb =>
    grind
  next => contradiction

/-- A split succeeds up to the end. -/
theorem splitOff_eq_ok {zs : List α} :
    splitOff xs i = .ok (ys, zs) ↔ i ≤ xs.length ∧ xs.take i = ys ∧ xs.drop i = zs := by
  by_cases hi : i ≤ xs.length <;> simp [splitOff, hi]

end Vec

end Archon
