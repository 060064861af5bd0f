import Mathlib.Data.List.Nodup

/-!
# Archon.Lib.Scatter

Writing a list of values to a list of distinct positions, and reading them
back.
-/

namespace Archon.Scatter

open List

/-- `for (i, v) in writes { out[i] = v }`, with every position in range. -/
def scatter (writes : List (Nat × α)) (out : List α) : List α :=
  writes.foldl (fun out w => out.set w.1 w.2) out

@[simp] theorem scatter_cons (w : Nat × α) (writes : List (Nat × α)) (out : List α) :
    scatter (w :: writes) out = scatter writes (out.set w.1 w.2) := rfl

@[simp] theorem length_scatter (writes : List (Nat × α)) (out : List α) :
    (scatter writes out).length = out.length := by
  induction writes generalizing out with
  | nil => rfl
  | cons w writes ih => rw [scatter_cons, ih, length_set]

variable {writes : List (Nat × α)}

theorem getElem?_scatter_of_not_mem {i : Nat} (h : i ∉ writes.map Prod.fst) (out : List α) :
    (scatter writes out)[i]? = out[i]? := by
  induction writes generalizing out with
  | nil => rfl
  | cons w writes ih =>
    rw [map_cons, mem_cons, not_or] at h
    rw [scatter_cons, ih h.2, getElem?_set_ne (Ne.symm h.1)]

theorem getElem?_scatter (hnodup : (writes.map Prod.fst).Nodup) {w : Nat × α} (hw : w ∈ writes)
    (out : List α) (hlt : w.1 < out.length) : (scatter writes out)[w.1]? = some w.2 := by
  induction writes generalizing out with
  | nil => cases hw
  | cons w' writes ih =>
    rw [map_cons, nodup_cons] at hnodup
    rcases mem_cons.mp hw with rfl | hw
    · rw [scatter_cons, getElem?_scatter_of_not_mem hnodup.1, getElem?_set_self hlt]
    · rw [scatter_cons, ih hnodup.2 hw _ (by simpa using hlt)]

end Archon.Scatter
