import Archon.Relational.WindowLaw

/-!
# Archon.Relational.RowsFrame

`ROWS` frames against their definition.  `resolveFrame` gives the first and the
last position of a frame; the definition says which positions belong to it.
Each bound is clipped to the partition before the two are compared, which turns
a frame that lies outside the partition into its first or last row.
-/

namespace Archon

/-- The positions a resolved frame is evaluated over. -/
def framePositions (frame : Nat × Nat) : List Nat :=
  List.range' frame.1 (frame.2 + 1 - frame.1)

theorem mem_framePositions {frame : Nat × Nat} {p : Nat} :
    p ∈ framePositions frame ↔ frame.1 ≤ p ∧ p ≤ frame.2 := by
  rw [framePositions, List.mem_range'_1]
  omega

/-! ## `ROWS` -/

/-- The position a bound names, over all integers. -/
def boundPosition (bound : FrameBound) (pos m : Nat) : Int :=
  match bound with
  | .unboundedPreceding => 0
  | .unboundedFollowing => m - 1
  | .currentRow => pos
  | .preceding k => pos - k.toNat
  | .following k => pos + k.toNat

/-- The positions of a `ROWS` frame: those of the partition that satisfy both
bounds. -/
def InRowsFrame (start stop : FrameBound) (pos m p : Nat) : Prop :=
  p < m ∧ boundPosition start pos m ≤ p ∧ (p : Int) ≤ boundPosition stop pos m

/-- The frame does not start behind the last row while its end reaches the last
row, nor end before the first row while its start reaches the first row. -/
def RowsInside (start stop : FrameBound) (pos m : Nat) : Prop :=
  ¬ (m ≤ boundPosition start pos m ∧ m - 1 ≤ max 0 (boundPosition stop pos m)) ∧
    ¬ (boundPosition stop pos m < 0 ∧ min (boundPosition start pos m) (m - 1) ≤ 0)

instance (start stop : FrameBound) (pos m p : Nat) : Decidable (InRowsFrame start stop pos m p) :=
  inferInstanceAs (Decidable (_ ∧ _ ∧ _))

instance (start stop : FrameBound) (pos m : Nat) : Decidable (RowsInside start stop pos m) :=
  inferInstanceAs (Decidable (_ ∧ _))

/-- A resolved bound is the position it names, clipped to the partition. -/
theorem resolveBound_eq_clip (bound : FrameBound) {pos m : Nat} (hpos : pos < m) :
    (resolveBound bound pos m : Int) = max 0 (min (boundPosition bound pos m) (m - 1)) := by
  cases bound <;> simp only [resolveBound, boundPosition] <;> omega

/-- A `ROWS` frame is the one of SQL exactly when it does not lie outside the
partition on the side its other bound reaches. -/
theorem rows_frame_iff (start stop : FrameBound) (pos : Nat) (orderVals : List Value)
    (orderIndices : List (Nat × Bool)) (part : List Row) (hpos : pos < part.length) :
    ∃ frame, (resolveFrame ⟨.rows, start, stop⟩ pos orderVals orderIndices part :
        Outcome ExecError _) = .ok frame ∧
      ((∀ p, p ∈ framePositions frame ↔ InRowsFrame start stop pos part.length p) ↔
        RowsInside start stop pos part.length) := by
  refine ⟨_, rfl, ?_⟩
  have hstart := resolveBound_eq_clip start hpos
  have hstop := resolveBound_eq_clip stop hpos
  simp only [mem_framePositions, InRowsFrame, RowsInside]
  constructor
  · intro h
    constructor
    · rintro ⟨hs, he⟩
      have := h (part.length - 1)
      omega
    · rintro ⟨he, hs⟩
      have := h 0
      omega
  · intro h p
    omega

theorem rows_frame_iff_current :
    ∃ frame, (resolveFrame ⟨.rows, .preceding 1, .currentRow⟩ 1 [] [] [[.int 1], [.int 2]] :
        Outcome ExecError _) = .ok frame ∧
      ∀ p, p ∈ framePositions frame ↔ InRowsFrame (.preceding 1) .currentRow 1 2 p := by
  obtain ⟨frame, hframe, hiff⟩ := rows_frame_iff (.preceding 1) .currentRow 1 [] []
    [[.int 1], [.int 2]] (by decide)
  exact ⟨frame, hframe, hiff.mpr (by decide)⟩

/-- Behind the last row there is nothing, but the last row counts itself. -/
theorem rows_frame_clipped :
    aggregateFrames [[.int 1], [.int 2]] ["x"] .count "x" [] ⟨.rows, .following 1, .following 1⟩ =
        .ok [.int 1, .int 1] ∧
      ∀ p, ¬ InRowsFrame (.following 1) (.following 1) 1 2 p := by
  refine ⟨rfl, fun p hp => ?_⟩
  have hstart : ((1 : Nat) : Int) + ((1 : UInt64).toNat : Int) ≤ p := hp.2.1
  have hlt := hp.1
  grind

end Archon
