import Mathlib.Logic.Function.Basic

/-!
# Archon.Lib.Serial

Transactions as sequences of reads and writes, and what running them one
after another on a single-version map gives.

Two facts carry the optimistic validation argument: the results of a
transaction depend on the map only at the keys it reads (`exec_congr`), and
its own writes are an overlay on the map (`exec_overlay`).
-/

namespace Archon

/-- One call of a transaction. -/
inductive Call (κ ν : Type) where
  | read (k : κ)
  | write (k : κ) (v : ν)

namespace Serial

variable {κ ν : Type} [DecidableEq κ]

/-- Run the calls on a map: the map they leave and what the reads return. -/
def exec (m : κ → Option ν) : List (Call κ ν) → (κ → Option ν) × List (Option ν)
  | [] => (m, [])
  | .read k :: cs => ((exec m cs).1, m k :: (exec m cs).2)
  | .write k v :: cs => exec (Function.update m k (some v)) cs

/-- Run whole transactions one after another. -/
def execAll (m : κ → Option ν) : List (List (Call κ ν)) → (κ → Option ν) × List (List (Option ν))
  | [] => (m, [])
  | t :: ts => ((execAll (exec m t).1 ts).1, (exec m t).2 :: (execAll (exec m t).1 ts).2)

theorem exec_append (m : κ → Option ν) (cs ds : List (Call κ ν)) :
    exec m (cs ++ ds) = ((exec (exec m cs).1 ds).1, (exec m cs).2 ++
      (exec (exec m cs).1 ds).2) := by
  induction cs generalizing m with
  | nil => simp [exec]
  | cons c cs ih => cases c <;> simp [exec, ih]

theorem execAll_concat (m : κ → Option ν) (ts : List (List (Call κ ν))) (t : List (Call κ ν)) :
    execAll m (ts ++ [t]) =
      ((exec (execAll m ts).1 t).1, (execAll m ts).2 ++ [(exec (execAll m ts).1 t).2]) := by
  induction ts generalizing m with
  | nil => simp [execAll]
  | cons u ts ih => simp [execAll, ih]

/-- The results depend on the map only at the keys read. -/
theorem exec_congr {m m' : κ → Option ν} {cs : List (Call κ ν)}
    (h : ∀ k, .read k ∈ cs → m k = m' k) : (exec m cs).2 = (exec m' cs).2 := by
  induction cs generalizing m m' with
  | nil => simp [exec]
  | cons c cs ih =>
    cases c with
    | read k =>
      have htail := ih fun j hj => h j (.tail _ hj)
      simp [exec, htail, h k]
    | write k v =>
      apply ih
      grind

/-- What a transaction leaves is its own writes over the map. -/
theorem exec_overlay (m : κ → Option ν) (cs : List (Call κ ν)) (k : κ) :
    (exec m cs).1 k = ((exec (fun _ => none) cs).1 k).or (m k) := by
  induction cs generalizing m with
  | nil => simp [exec]
  | cons c cs ih =>
    cases c with
    | read j =>
      exact ih m
    | write j v =>
      rw [exec, exec]
      grind

end Serial

end Archon
