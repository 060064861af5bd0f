import Mathlib.Data.Finset.Card

/-!
# Archon.Lib.Loop

`loop` statements over a fallible body, run with fuel, and the rule to
reason about them: an invariant with a decreasing measure gives a result as
soon as the fuel exceeds the measure (`loop_spec`).

Walks over a finite arena decrease `rank`: the number of nodes strictly
below the current one in some order.
-/

namespace Archon

open Finset

/-- What a loop body does: go round again or leave. -/
inductive Step (σ α : Type) where
  | next (s : σ)
  | done (a : α)

/-- Run `body` until it leaves; `stuck` when the fuel runs out first. -/
def loop (stuck : ε) (body : σ → Except ε (Step σ α)) : Nat → σ → Except ε α
  | 0, _ => .error stuck
  | fuel + 1, s =>
    match body s with
    | .error e => .error e
    | .ok (.done a) => .ok a
    | .ok (.next s') => loop stuck body fuel s'

variable {stuck : ε} {fuel : Nat} {s : σ} {a : α} {body : σ → Except ε (Step σ α)}

/-- The loop rule: while the invariant holds, the body leaves with a good
result or goes round with a smaller measure. -/
theorem loop_spec {post : α → Prop} (inv : σ → Prop) (μ : σ → Nat)
    (hbody : ∀ s, inv s → (∃ a, body s = .ok (.done a) ∧ post a) ∨
      ∃ s', body s = .ok (.next s') ∧ inv s' ∧ μ s' < μ s) (hs : inv s) (hfuel : μ s < fuel) :
    ∃ a, loop stuck body fuel s = .ok a ∧ post a := by
  induction fuel generalizing s with
  | zero => exact absurd hfuel (Nat.not_lt_zero _)
  | succ fuel ih =>
    rcases hbody s hs with ⟨a, ha, hpost⟩ | ⟨s', hs', hinv, hμ⟩
    · exact ⟨a, by rw [loop, ha], hpost⟩
    · obtain ⟨a, ha, hpost⟩ := ih hinv (by omega)
      exact ⟨a, by rw [loop, hs']; exact ha, hpost⟩

theorem loop_of_le {fuel' : Nat} (h : loop stuck body fuel s = .ok a) (hle : fuel ≤ fuel') :
    loop stuck body fuel' s = .ok a := by
  induction fuel generalizing s fuel' with
  | zero => contradiction
  | succ fuel ih =>
    obtain ⟨more, rfl⟩ : ∃ more, fuel' = more + 1 := ⟨fuel' - 1, by omega⟩
    rw [loop] at h ⊢
    split at h
    next => contradiction
    next => exact h
    next => exact ih h (by omega)

/-- A loop that ends leaves from some state. -/
theorem exists_done (h : loop stuck body fuel s = .ok a) : ∃ u, body u = .ok (.done a) := by
  induction fuel generalizing s with
  | zero => contradiction
  | succ fuel ih =>
    rw [loop] at h
    split at h
    next => contradiction
    next hdone =>
      cases h
      exact ⟨s, hdone⟩
    next => exact ih h

/-- States a loop passes through from `s`. -/
inductive Visited (body : σ → Except ε (Step σ α)) (s : σ) : σ → Prop
  | start : Visited body s s
  | next {u v : σ} : Visited body s u → body u = .ok (.next v) → Visited body s v

theorem Visited.induct (inv : σ → Prop) (hbody : ∀ u v, inv u → body u = .ok (.next v) → inv v)
    {v : σ} (hs : inv s) (h : Visited body s v) : inv v := by
  induction h with
  | start => exact hs
  | next _ hstep ih => exact hbody _ _ ih hstep

/-! ## Ranks -/

section Rank

variable (n : Nat) (r : Nat → Nat → Prop) [∀ u v, Decidable (r u v)]

/-- The number of nodes below `v` in an arena of `n` nodes. -/
def rank (v : Nat) : Nat := ((range n).filter fun u => r u v).card

variable {n r}

theorem rank_lt_rank (htrans : ∀ u v w, r u v → r v w → r u w) (hirrefl : ∀ v, ¬ r v v)
    {u v : Nat} (hu : u < n) (h : r u v) : rank n r u < rank n r v := by
  apply card_lt_card
  refine ⟨?_, ?_⟩
  · intro w hw
    obtain ⟨hwn, hwu⟩ := mem_filter.mp hw
    exact mem_filter.mpr ⟨hwn, htrans w u v hwu h⟩
  · intro hsub
    have := hsub (mem_filter.mpr ⟨mem_range.mpr hu, h⟩)
    exact hirrefl u (mem_filter.mp this).2

theorem rank_lt (hirrefl : ∀ v, ¬ r v v) {v : Nat} (hv : v < n) : rank n r v < n := by
  have hsub : (range n).filter (fun u => r u v) ⊂ range n := by
    refine ⟨filter_subset _ _, fun h => ?_⟩
    exact hirrefl v (mem_filter.mp (h (mem_range.mpr hv))).2
  have := card_lt_card hsub
  rwa [card_range] at this

end Rank

end Archon
