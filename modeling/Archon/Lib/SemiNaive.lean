import Mathlib.Data.Set.Lattice

/-!
# Archon.Lib.SemiNaive

Semi-naive evaluation of a least fixed point `X = A ∪ F X`: if `F` distributes
over unions, it is enough to apply it to the elements the last round added.
-/

namespace Archon

section

variable {α : Type} (A : Set α) (F : Set α → Set α)

/-- `F` distributes over unions, the empty one included. -/
def Distributes : Prop := ∀ S : Set (Set α), F (⋃₀ S) = ⋃ s ∈ S, F s

/-- What naive evaluation has after `k` rounds. -/
def naive (k : Nat) : Set α := (fun X => A ∪ F X)^[k] A

/-- The set is the least solution of `X = A ∪ F X`. -/
def LeastFixed (X : Set α) : Prop := IsLeast {Y | Y = A ∪ F Y} X

variable {A F}

theorem Distributes.union (h : Distributes F) (X Y : Set α) : F (X ∪ Y) = F X ∪ F Y := by
  have hpair := h {X, Y}
  rwa [Set.sUnion_pair, Set.biUnion_pair] at hpair

theorem Distributes.empty (h : Distributes F) : F ∅ = ∅ := by
  simpa using h ∅

theorem Distributes.mono (h : Distributes F) {X Y : Set α} (hXY : X ⊆ Y) : F X ⊆ F Y := by
  rw [← Set.union_eq_self_of_subset_left hXY, h.union]
  simp

theorem naive_succ (k : Nat) : naive A F (k + 1) = A ∪ F (naive A F k) := by
  rw [naive, Function.iterate_succ_apply']
  rfl

theorem subset_naive (k : Nat) : A ⊆ naive A F k := by
  cases k with
  | zero => exact subset_rfl
  | succ k => simp [naive_succ]

theorem naive_subset_succ (h : Distributes F) (k : Nat) : naive A F k ⊆ naive A F (k + 1) := by
  induction k with
  | zero => exact subset_naive 1
  | succ k ih => simpa [naive_succ] using Set.union_subset_union_right A (h.mono ih)

/-- Every round is below every solution. -/
theorem naive_subset (h : Distributes F) {Y : Set α} (hY : Y = A ∪ F Y) (k : Nat) :
    naive A F k ⊆ Y := by
  induction k with
  | zero =>
    rw [hY]
    exact Set.subset_union_left
  | succ k ih =>
    rw [naive_succ, hY]
    exact Set.union_subset_union_right A (h.mono ih)

/-- A round is the least solution exactly when `F` leads to nothing new. -/
theorem leastFixed_naive_iff (h : Distributes F) (k : Nat) :
    LeastFixed A F (naive A F k) ↔ F (naive A F k) ⊆ naive A F k := by
  constructor
  · rintro ⟨hfix, -⟩
    exact Set.subset_union_right.trans hfix.symm.subset
  · intro hclosed
    refine ⟨?_, fun Y hY => naive_subset h hY k⟩
    refine Set.Subset.antisymm ?_ (Set.union_subset (subset_naive k) hclosed)
    rw [← naive_succ]
    exact naive_subset_succ h k

variable (A F)

/-- The state of semi-naive evaluation after `k` rounds: all elements so far,
and those of the last round. -/
structure SemiNaive (k : Nat) (all fresh : Set α) : Prop where
  all_eq : all = naive A F k
  fresh_subset : fresh ⊆ all
  covered : F all ⊆ all ∪ F fresh

variable {A F}

namespace SemiNaive

theorem start : SemiNaive A F 0 A A := ⟨rfl, subset_rfl, Set.subset_union_right⟩

variable {k : Nat} {all fresh : Set α}

variable (h : SemiNaive A F k all fresh) (hF : Distributes F)
include h hF

theorem step {next : Set α} (hnext : next = F fresh \ all) :
    SemiNaive A F (k + 1) (all ∪ next) next := by
  have hall : all ∪ next = all ∪ F fresh := by rw [hnext, Set.union_sdiff_self]
  refine ⟨?_, Set.subset_union_right, ?_⟩
  · rw [hall, naive_succ, ← h.all_eq]
    refine Set.Subset.antisymm (Set.union_subset ?_ ?_) (Set.union_subset ?_ h.covered)
    · rw [h.all_eq, ← naive_succ]
      exact naive_subset_succ hF k
    · exact (hF.mono h.fresh_subset).trans Set.subset_union_right
    · rw [h.all_eq]
      exact (subset_naive k).trans Set.subset_union_left
  · rw [hF.union]
    refine Set.union_subset_union_left _ ?_
    rw [hall]
    exact h.covered

/-- Nothing new means that the fixed point is reached. -/
theorem leastFixed_iff : LeastFixed A F all ↔ F fresh \ all = ∅ := by
  rw [h.all_eq, leastFixed_naive_iff hF, ← h.all_eq, Set.sdiff_eq_empty]
  constructor
  · exact fun hclosed => (hF.mono h.fresh_subset).trans hclosed
  · exact fun hnone => h.covered.trans (Set.union_subset subset_rfl hnone)

end SemiNaive

end

end Archon
