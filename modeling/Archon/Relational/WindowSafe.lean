import Archon.Lib.Program
import Archon.Relational.AggregateLaw
import Archon.Relational.WindowLaw

/-!
# Archon.Relational.WindowSafe

Window calls over a rectangular table: when they return a value or an error,
and what an integer sum over a frame is.

Every position of a frame is a position of its partition
(`resolveFrame_eq_ok`), so the only index out of range is the one into the sort
values that a `RANGE` frame without a sort column never collected.
-/

namespace Archon

open Outcome List

variable {call : WindowCall}
variable {orderVals : List Value} {pos : Nat} {frame : WindowFrame}
variable {columns : List String} {part : List Row} {orderIndices : List (Nat × Bool)}

/-! ## Rows long enough -/

/-- The sort columns are columns of the rows. -/
def IndicesFit (orderIndices : List (Nat × Bool)) (part : List Row) : Prop :=
  ∀ r ∈ part, ∀ i ∈ orderIndices, i.1 < r.length

theorem tiedOn_eq_ok {a b : Row} (ha : ∀ i ∈ orderIndices, i.1 < a.length)
    (hb : ∀ i ∈ orderIndices, i.1 < b.length) : ∃ tied, (tiedOn a b orderIndices : Outcome ε Bool) =
      .ok tied := by
  induction orderIndices with
  | nil => exact ⟨true, rfl⟩
  | cons i is ih =>
    obtain ⟨hai, ha⟩ := forall_mem_cons.mp ha
    obtain ⟨hbi, hb⟩ := forall_mem_cons.mp hb
    simp only [tiedOn, index_getD hai, index_getD hbi, Except.ok_bind]
    split
    · exact ih ha hb
    · simp

theorem rankRows_eq_ok {dense : Bool} (h : IndicesFit orderIndices part) {prev : Option Row}
    (hprev : ∀ r ∈ prev, ∀ i ∈ orderIndices, i.1 < r.length) (pos : Nat) (rank denseRank : Int64) :
    ∃ vals, (rankRows orderIndices dense pos rank denseRank prev part : Outcome ε _) =
      .ok vals := by
  induction part generalizing pos rank denseRank prev with
  | nil => exact ⟨[], rfl⟩
  | cons cur part ih =>
    obtain ⟨hcur, hpart⟩ := forall_mem_cons.mp h
    obtain ⟨tied, htied⟩ : ∃ tied, (tiedWith prev cur orderIndices : Outcome ε Bool) =
        .ok tied := by
      cases prev with
      | none => exact ⟨true, rfl⟩
      | some r => exact tiedOn_eq_ok (hprev r rfl) hcur
    have hnext : ∀ r ∈ some cur, ∀ i ∈ orderIndices, i.1 < r.length := by simpa using hcur
    obtain ⟨vs, hvs⟩ := ih hpart hnext (pos + 1)
      (if tied then rank else Int64.ofNat pos + 1) (if tied then denseRank else denseRank + 1)
    simp [rankRows_cons, htied, hvs]

theorem shiftRows_returns (hrect : Rectangular columns part) (column : String)
    (default : Option Literal)
    (target : Int64 → Int64) : (shiftRows part columns column default target).Returns := by
  refine returns_bind (returns_okOr _ _) fun idx hidx => returns_mapM fun pos _ => ?_
  have hlt : idx < columns.length := by
    rw [okOr_eq_ok, columnPosition, findIdx?_eq_some_iff_getElem] at hidx
    exact hidx.1
  dsimp only
  split
  · next ht =>
    have hrow : (index part (target (Int64.ofNat pos)).toInt.toNat : Outcome ExecError Row) =
        .ok part[(target (Int64.ofNat pos)).toInt.toNat] :=
      index_eq_ok.mpr (getElem?_eq_getElem ht.2)
    rw [hrow, Except.ok_bind, index_getD]
    · trivial
    · rw [hrect _ (getElem_mem ht.2)]
      exact hlt
  · trivial

variable {rows : List Row} {peers : Nat → Outcome ε Bool} {m p s e : Nat} {vals : List Value}
  {func : AggregateFunc} {column : String} {a b : Int64}

theorem evalAggregate_returns (hrect : Rectangular columns rows) (func : AggregateFunc)
    (column : String) : (evalAggregate func column columns rows).Returns := by
  by_cases hc : column ∈ columns
  · cases func <;> simp only [evalAggregate, columnPosition_eq_some hc, okOr, Except.ok_bind,
      mapM_index_column hc hrect] <;> trivial
  · cases func <;> simp only [evalAggregate, columnPosition_eq_none hc] <;> trivial

/-! ## Frames lie in their partition -/

theorem peerStart_eq_ok (h : ∀ p < m, ∃ b, peers p = .ok b) (hp : p < m) :
    ∃ s, peerStart peers p = .ok s := by
  induction p with
  | zero => exact ⟨0, rfl⟩
  | succ p ih =>
    obtain ⟨b, hb⟩ := h p (by omega)
    rw [peerStart, hb]
    cases b with
    | false => exact ⟨p + 1, rfl⟩
    | true => exact ih (by omega)

theorem peerEnd_eq_ok (h : ∀ p < m, ∃ b, peers p = .ok b) (fuel : Nat) (hp : p < m) :
    ∃ e, peerEnd peers m fuel p = .ok e ∧ e < m := by
  induction fuel generalizing p with
  | zero => exact ⟨p, rfl, hp⟩
  | succ fuel ih =>
    rw [peerEnd]
    split
    · next hlt =>
      obtain ⟨b, hb⟩ := h (p + 1) hlt
      rw [hb]
      cases b with
      | false => exact ⟨p, rfl, hp⟩
      | true => exact ih hlt
    · exact ⟨p, rfl, hp⟩

theorem resolveBound_lt (bound : FrameBound) (hpos : pos < m) : resolveBound bound pos m < m := by
  cases bound <;> simp only [resolveBound] <;> omega

theorem valueRange_snd_lt {low high : Option Value} (hpos : 0 < vals.length) :
    (valueRange low high vals).2 < vals.length := by
  unfold valueRange
  dsimp only
  split
  · next s e _ hlast =>
    have hmem := mem_of_getLast? hlast
    exact mem_range.mp (mem_of_mem_filter hmem)
  · exact hpos

theorem resolveRangeByValue_eq_ok (hpos : pos < vals.length) (start stop : FrameBound) :
    ∃ low high, (resolveRangeByValue vals pos start stop : Outcome ε _) =
      .ok (valueRange low high vals) := by
  have hcur : (index vals pos : Outcome ε Value) = .ok (vals.getD pos .null) := index_getD hpos
  rw [resolveRangeByValue, hcur]
  exact ⟨_, _, rfl⟩

/-- The end of a frame is a position of the partition, unless a `RANGE` frame
has no sort column. -/
theorem resolveFrame_eq_ok (hfit : IndicesFit orderIndices part) (hpos : pos < part.length)
    (hvals : frame.kind = .range → orderIndices.length ≤ 1 → orderVals.length = part.length) :
    ∃ s e, (resolveFrame frame pos orderVals orderIndices part : Outcome ε _) = .ok (s, e) ∧
      e < part.length := by
  obtain ⟨kind, start, stop⟩ := frame
  cases kind with
  | rows => exact ⟨_, _, rfl, resolveBound_lt stop hpos⟩
  | range =>
    by_cases hlen : orderIndices.length > 1
    · have hpeers : ∀ p < part.length, ∃ b, (do
          let a ← (index part p : Outcome ε Row)
          let b ← index part pos
          tiedOn a b orderIndices) = .ok b := by
        intro p hp
        have ha : (index part p : Outcome ε Row) = .ok part[p] :=
          index_eq_ok.mpr (getElem?_eq_getElem hp)
        have hb : (index part pos : Outcome ε Row) = .ok part[pos] :=
          index_eq_ok.mpr (getElem?_eq_getElem hpos)
        rw [ha, hb]
        exact tiedOn_eq_ok (hfit _ (getElem_mem hp)) (hfit _ (getElem_mem hpos))
      obtain ⟨ps, hps⟩ := peerStart_eq_ok hpeers hpos
      obtain ⟨pe, hpe, hlt⟩ := peerEnd_eq_ok hpeers part.length hpos
      simp only [resolveFrame, if_pos hlen, hps, hpe]
      refine ⟨_, _, rfl, ?_⟩
      split <;> omega
    · have hlen' : orderVals.length = part.length := hvals rfl (by omega)
      have hpos' : pos < orderVals.length := by omega
      obtain ⟨low, high, hrange⟩ : ∃ low high,
          (resolveRangeByValue orderVals pos start stop : Outcome ε _) = _ :=
        resolveRangeByValue_eq_ok hpos' start stop
      simp only [resolveFrame, if_neg hlen, hrange]
      exact ⟨_, _, rfl, hlen' ▸ valueRange_snd_lt (by omega)⟩

/-! ## Calls -/

/-- A `RANGE` frame without a sort column whose bounds are not offsets. -/
def Unframed (call : WindowCall) : Prop :=
  match call.func, call.spec.frame with
  | .agg _ _, some frame =>
    call.spec.orderBy = [] ∧ frame.kind = .range ∧
      isNumericBound frame.start = false ∧ isNumericBound frame.stop = false
  | _, _ => False

theorem orderValues_eq_ok (hfit : IndicesFit orderIndices part) :
    ∃ vals, (orderValues frame orderIndices part : Outcome ε _) = .ok vals ∧
      (frame.kind = .range → orderIndices.length = 1 → vals.length = part.length) := by
  obtain ⟨kind, start, stop⟩ := frame
  cases kind with
  | rows => exact ⟨[], rfl, fun h => by cases h⟩
  | range =>
    rcases orderIndices with _ | ⟨⟨oi, desc⟩, _ | ⟨i, is⟩⟩
    · exact ⟨[], rfl, fun _ h => by cases h⟩
    · have hvals : (part.mapM fun r => (index r oi : Outcome ε Value)) =
          .ok (part.map fun r => r.getD oi .null) :=
        Except.mapM_of_ok fun r hr => index_getD (hfit r hr _ (.head _))
      exact ⟨_, hvals, fun _ _ => length_map _⟩
    · exact ⟨[], rfl, fun _ h => by cases h⟩

/-- The value of a resolved frame is the aggregate of its rows. -/
theorem frameValue_eq
    (h : (resolveFrame frame pos orderVals orderIndices part : Outcome ExecError _) = .ok (s, e))
    (he : e < part.length) :
    frameValue part columns func column orderIndices frame orderVals pos =
      if s > e then .ok (if func = .count then .int 0 else .null)
      else evalAggregate func column columns ((part.drop s).take (e + 1 - s)) := by
  simp only [frameValue, h, Except.ok_bind]
  split
  · rfl
  · next hle => rw [mapM_index_range' (by omega), Except.ok_bind]

/-- Unless it lacks a sort column, a frame is refused or every position has
one. -/
theorem aggregateFrames_cases (hfit : IndicesFit orderIndices part)
    (hframe : frame.kind = .range → orderIndices = [] →
      (isNumericBound frame.start || isNumericBound frame.stop) = true) :
    (∃ e, aggregateFrames part columns func column orderIndices frame = .error (.err e)) ∨
    ∃ orderVals, aggregateFrames part columns func column orderIndices frame =
        (List.range part.length).mapM
          (frameValue part columns func column orderIndices frame orderVals) ∧
      ∀ pos < part.length, ∃ s e,
        (resolveFrame frame pos orderVals orderIndices part : Outcome ExecError _) = .ok (s, e) ∧
          e < part.length := by
  rw [aggregateFrames_eq]
  split
  · exact Or.inl ⟨_, rfl⟩
  · next hok =>
    obtain ⟨orderVals, hvals, hlen⟩ : ∃ vals,
        (orderValues frame orderIndices part : Outcome ExecError _) = .ok vals ∧ _ :=
      orderValues_eq_ok hfit
    refine Or.inr ⟨orderVals, by rw [hvals, Except.ok_bind], fun pos hpos => ?_⟩
    refine resolveFrame_eq_ok hfit hpos fun hkind hle => hlen hkind ?_
    by_contra hne
    have hnil : orderIndices = [] := eq_nil_of_length_eq_zero (by omega)
    exact hok ⟨hkind, hframe hkind hnil, hne⟩

theorem aggregateFrames_returns (hrect : Rectangular columns part) (func : AggregateFunc)
    (column : String) (hfit : IndicesFit orderIndices part)
    (hframe : frame.kind = .range → orderIndices = [] →
      (isNumericBound frame.start || isNumericBound frame.stop) = true) :
    (aggregateFrames part columns func column orderIndices frame).Returns := by
  rcases aggregateFrames_cases hfit hframe with ⟨e, he⟩ | ⟨orderVals, hvals, hresolve⟩
  · rw [he]
    trivial
  · rw [hvals]
    refine returns_mapM fun pos hpos => ?_
    obtain ⟨s, e, hse, he⟩ := hresolve pos (mem_range.mp hpos)
    rw [frameValue_eq hse he]
    split
    · trivial
    · exact evalAggregate_returns (fun r hr => hrect r (mem_of_mem_drop
        (mem_of_mem_take hr))) func column

theorem windowValues_returns (hrect : Rectangular columns part)
    (hfit : IndicesFit (orderColumns columns call.spec.orderBy) part) (hframe : ¬ Unframed call) :
    (windowValues call columns (orderColumns columns call.spec.orderBy) part).Returns := by
  have hrank (dense : Bool) : (rankRows (orderColumns columns call.spec.orderBy) dense 0 1 1 none
      part : Outcome ExecError _).Returns := by
    obtain ⟨vals, hvals⟩ : ∃ vals, (rankRows (orderColumns columns call.spec.orderBy) dense 0 1 1
        none part : Outcome ExecError _) = .ok vals := rankRows_eq_ok hfit (by simp) 0 1 1
    rw [hvals]
    trivial
  cases hfunc : call.func with
  | rowNumber =>
    simp only [windowValues, hfunc]
    trivial
  | rank => simp [windowValues, hfunc, hrank false]
  | denseRank => simp [windowValues, hfunc, hrank true]
  | lag column offset default | lead column offset default =>
    simp [windowValues, hfunc, shiftRows_returns hrect column default _]
  | agg func column =>
    simp only [windowValues, hfunc]
    refine aggregateFrames_returns hrect func column hfit fun hkind hnil => ?_
    have horder : call.spec.orderBy = [] := map_eq_nil_iff.mp hnil
    cases hspec : call.spec.frame with
    | none =>
      rw [hspec, horder] at hkind
      cases hkind
    | some frame =>
      rw [hspec] at hkind
      simp only [Unframed, hfunc, hspec] at hframe
      by_contra hnumeric
      simp only [Bool.or_eq_true, not_or, Bool.not_eq_true] at hnumeric
      exact hframe ⟨horder, hkind, hnumeric⟩

/-- The first row of an unframed call reads a sort value that is not there. -/
theorem windowValues_unframed (hframe : Unframed call) (hpart : part ≠ []) :
    windowValues call columns (orderColumns columns call.spec.orderBy) part = .error .panic := by
  obtain ⟨func, partitionBy, orderBy, frame⟩ := call
  cases func with
  | agg func column =>
    cases frame with
    | none => cases hframe
    | some frame =>
      obtain ⟨kind, start, stop⟩ := frame
      obtain ⟨horder, hkind, hstart, hstop⟩ := hframe
      subst horder hkind
      obtain ⟨r, rows, rfl⟩ := exists_cons_of_ne_nil hpart
      change aggregateFrames (r :: rows) columns func column [] ⟨.range, start, stop⟩ = _
      rw [aggregateFrames_eq, if_neg (by simp [hstart, hstop])]
      change (List.range (rows.length + 1)).mapM (frameValue (r :: rows) columns func column []
        ⟨.range, start, stop⟩ []) = _
      rw [range_succ_eq_map]
      rfl
  | _ => cases hframe

theorem columnIndices_returns (columns : List String) (missing : String → ExecError)
    (keyColumns : List String) : (columnIndices columns missing keyColumns).Returns := by
  induction keyColumns with
  | nil => trivial
  | cons c cs ih =>
    refine returns_bind (returns_okOr _ _) fun i _ => ?_
    exact returns_bind ih fun is _ => returns_ok _

theorem mem_columns_of_sortIndices {orderBy : List OrderBy} {indices : List (Nat × Bool)}
    (h : sortIndices columns orderBy = .ok indices) : ∀ ob ∈ orderBy, ob.column ∈ columns := by
  intro ob hob
  obtain ⟨i, -, hi⟩ := Except.exists_mem_of_mapM_eq_ok h ob hob
  obtain ⟨idx, hidx, -⟩ := hi.bind_ok
  by_contra hc
  rw [columnPosition_eq_none hc] at hidx
  cases hidx

theorem orderBy_of_unframed (hframe : Unframed call) : call.spec.orderBy = [] := by
  unfold Unframed at hframe
  split at hframe
  · exact hframe.1
  · exact hframe.elim

/-- An unknown partition column is an error. -/
theorem evalWindowCall_returns_missing (hpart : ¬ ∀ c ∈ call.spec.partitionBy, c ∈ columns) :
    (evalWindowCall call columns rows).Returns := by
  refine returns_bind (columnIndices_returns _ _ _) fun is his => ?_
  exact absurd (mem_columns_of_columnIndices his) hpart

section

variable {call : WindowCall} {rows : List Row} (hrect : Rectangular columns rows)

include hrect

theorem rectangular_sortedPartition (spec : WindowSpec) (k : Row) :
    Rectangular columns ((sortedPartition columns rows spec k).map Prod.snd) := by
  intro r hr
  obtain ⟨x, hx, rfl⟩ := mem_map.mp hr
  exact hrect _ (mem_of_getElem? (mem_sortedPartition.mp hx).1)

theorem indicesFit_sortedPartition {spec : WindowSpec}
    (horder : ∀ ob ∈ spec.orderBy, ob.column ∈ columns) (k : Row) :
    IndicesFit (orderColumns columns spec.orderBy)
      ((sortedPartition columns rows spec k).map Prod.snd) := by
  intro r hr i hi
  obtain ⟨ob, hob, rfl⟩ := mem_map.mp hi
  rw [rectangular_sortedPartition hrect spec k r hr]
  exact idxOf_lt_length_iff.mpr (horder ob hob)

theorem evalWindowCall_returns (hframe : ¬ Unframed call) :
    (evalWindowCall call columns rows).Returns := by
  by_cases hpart : ∀ c ∈ call.spec.partitionBy, c ∈ columns
  · by_cases horder : ∀ ob ∈ call.spec.orderBy, ob.column ∈ columns
    · rw [evalWindowCall_eq hpart horder hrect]
      refine returns_bind (returns_mapM fun k _ => ?_) fun valss _ => returns_ok _
      exact windowValues_returns (rectangular_sortedPartition hrect _ k)
        (indicesFit_sortedPartition hrect horder k) hframe
    · refine returns_bind (columnIndices_returns _ _ _) fun _ _ => ?_
      refine returns_bind (returns_mapM fun ob _ => ?_) fun os hos => ?_
      · exact returns_bind (returns_okOr _ _) fun i _ => returns_ok _
      · exact absurd (mem_columns_of_sortIndices hos) horder
  · exact evalWindowCall_returns_missing hpart

/-- A call over a rectangular table comes back unless it is unframed and there
is a row to evaluate it for. -/
theorem evalWindowCall_returns_iff :
    (evalWindowCall call columns rows).Returns ↔
      ¬ (Unframed call ∧ rows ≠ [] ∧ ∀ c ∈ call.spec.partitionBy, c ∈ columns) := by
  constructor
  · rintro h ⟨hframe, hrows, hpart⟩
    have horder : ∀ ob ∈ call.spec.orderBy, ob.column ∈ columns := by
      rw [orderBy_of_unframed hframe]
      simp
    have hlen := length_pos_iff.mpr hrows
    have hkeys : partitionKeys columns rows call.spec ≠ [] :=
      ne_nil_of_mem (mem_sortedPartition_self columns call.spec hlen).1
    obtain ⟨k, ks, hcons⟩ := exists_cons_of_ne_nil hkeys
    obtain ⟨r, hr, rfl⟩ := mem_map.mp (mem_sortedKeys.mp (hcons ▸ mem_cons_self :
      k ∈ partitionKeys columns rows call.spec))
    obtain ⟨i, hi, rfl⟩ := mem_iff_getElem.mp hr
    have hmem := (mem_sortedPartition_self columns call.spec hi).2
    rw [evalWindowCall_eq hpart horder hrect, hcons] at h
    have hfirst := returns_mapM_iff.mp (returns_of_bind h) [] _ ks rfl (by simp)
    rw [windowValues_unframed hframe (ne_nil_of_mem (mem_map_of_mem hmem))] at hfirst
    exact hfirst
  · intro h
    by_cases hframe : Unframed call
    · by_cases hpart : ∀ c ∈ call.spec.partitionBy, c ∈ columns
      · have hrows : rows = [] := by
          by_contra hrows
          exact h ⟨hframe, hrows, hpart⟩
        have horder : ∀ ob ∈ call.spec.orderBy, ob.column ∈ columns := by
          simp [orderBy_of_unframed hframe]
        rw [evalWindowCall_eq hpart horder hrect, hrows]
        trivial
      · exact evalWindowCall_returns_missing hpart
    · exact evalWindowCall_returns hrect hframe

theorem length_evalWindowCall {out : List Value}
    (h : evalWindowCall call columns rows = .ok out) : out.length = rows.length := by
  obtain ⟨is, his, h'⟩ := h.bind_ok
  obtain ⟨os, hos, -⟩ := h'.bind_ok
  exact ((evalWindowCall_eq_ok_iff (mem_columns_of_columnIndices his)
    (mem_columns_of_sortIndices hos) hrect).mp h).1

/-- The calls of a select list come back exactly when the first one without a
value does. -/
theorem applyWindowFuncs_returns_iff {windowFuncs : List (String × WindowCall)} :
    (applyWindowFuncs ⟨columns, rows⟩ windowFuncs).Returns ↔
      ∀ pre w post, windowFuncs = pre ++ w :: post →
        (∀ x ∈ pre, ∃ out, evalWindowCall x.2 columns rows = .ok out) →
        (evalWindowCall w.2 columns rows).Returns := by
  rw [← returns_mapM_iff (f := fun w : String × WindowCall => evalWindowCall w.2 columns rows)]
  refine ⟨returns_of_bind, fun h => returns_bind h fun outputs houtputs => ?_⟩
  refine returns_bind (returns_mapM fun x hx => ?_) fun rows' _ => returns_ok _
  obtain ⟨i, hi, rfl⟩ := mem_mapIdx.mp hx
  refine returns_bind (returns_mapM fun output houtput => ?_) fun extra _ => returns_ok _
  obtain ⟨w, -, hw⟩ := Except.mem_of_mapM_eq_ok houtputs output houtput
  rw [index_getD]
  · trivial
  · rw [length_evalWindowCall hrect hw]
    exact hi

end

/-! ## Offsets -/

/-- The position `LAG` or `LEAD` looks at, as the code computes it and over all
integers. -/
def shiftTarget (func : WindowFunc) (pos : Nat) : Option (Int64 × Int) :=
  match func with
  | .lag _ offset _ => some (Int64.ofNat pos - offset, pos - offset.toInt)
  | .lead _ offset _ => some (Int64.ofNat pos + offset, pos + offset.toInt)
  | _ => none

/-- No position of a partition of `m` rows makes the addition overflow. -/
def ShiftsExact (func : WindowFunc) (m : Nat) : Prop :=
  ∀ pos < m, ∀ t ∈ shiftTarget func pos, t.1.toInt = t.2

/-- The offset leaves room for the last position of `m` rows. -/
def OffsetFits (func : WindowFunc) (m : Nat) : Prop :=
  match func with
  | .lag _ offset _ => m = 0 ∨ m - 2 ^ 63 ≤ offset.toInt
  | .lead _ offset _ => m = 0 ∨ offset.toInt ≤ 2 ^ 63 - m
  | _ => True

theorem fitsInt64_toInt (n : Int64) : FitsInt64 n.toInt :=
  ⟨Int64.le_toInt n, Int64.toInt_lt n⟩

theorem toInt_sub_eq_iff : (a - b).toInt = a.toInt - b.toInt ↔ FitsInt64 (a.toInt - b.toInt) := by
  have h : a - b = Int64.ofInt (a.toInt - b.toInt) := by simp
  rw [h, toInt_ofInt_eq_iff]

theorem toInt_add_eq_iff : (a + b).toInt = a.toInt + b.toInt ↔ FitsInt64 (a.toInt + b.toInt) := by
  have h : a + b = Int64.ofInt (a.toInt + b.toInt) := by simp
  rw [h, toInt_ofInt_eq_iff]

theorem shiftsExact_iff (func : WindowFunc) (hm : m < 2 ^ 63) :
    ShiftsExact func m ↔ OffsetFits func m := by
  have hpos : ∀ pos < m, (Int64.ofNat pos).toInt = pos :=
    fun pos hlt => Int64.toInt_ofNat_of_lt (by omega)
  cases func with
  | lag column offset default =>
    have hexact : ShiftsExact (.lag column offset default) m ↔
        ∀ pos < m, FitsInt64 ((pos : Int) - offset.toInt) := by
      refine forall₂_congr fun pos hlt => ?_
      simp only [shiftTarget, Option.mem_some_iff, forall_eq', ← hpos pos hlt]
      exact toInt_sub_eq_iff
    have hfits := fitsInt64_toInt offset
    rw [hexact]
    simp only [OffsetFits, FitsInt64] at hfits ⊢
    constructor
    · intro h
      have := h (m - 1)
      omega
    · omega
  | lead column offset default =>
    have hexact : ShiftsExact (.lead column offset default) m ↔
        ∀ pos < m, FitsInt64 ((pos : Int) + offset.toInt) := by
      refine forall₂_congr fun pos hlt => ?_
      simp only [shiftTarget, Option.mem_some_iff, forall_eq', ← hpos pos hlt]
      exact toInt_add_eq_iff
    have hfits := fitsInt64_toInt offset
    rw [hexact]
    simp only [OffsetFits, FitsInt64] at hfits ⊢
    constructor
    · intro h
      have := h (m - 1)
      omega
    · omega
  | _ => simp [ShiftsExact, shiftTarget, OffsetFits]

/-- Window calls over a rectangular table come back unless the first one
without a value is a `RANGE` call without a sort column and bounds that are not
offsets, on a table with rows; the positions of `LAG` and `LEAD` overflow
exactly when the offset leaves no room for the last row of a partition. -/
theorem window_returns_iff (columns : List String) (rows : List Row)
    (hrect : Rectangular columns rows) (hlen : rows.length < 2 ^ 63) :
    (∀ windowFuncs : List (String × WindowCall),
      (applyWindowFuncs ⟨columns, rows⟩ windowFuncs).Returns ↔
        ∀ pre w post, windowFuncs = pre ++ w :: post →
          (∀ x ∈ pre, ∃ out, evalWindowCall x.2 columns rows = .ok out) →
          ¬ (Unframed w.2 ∧ rows ≠ [] ∧ ∀ c ∈ w.2.spec.partitionBy, c ∈ columns)) ∧
    ∀ (call : WindowCall) (k : Row),
      ShiftsExact call.func (sortedPartition columns rows call.spec k).length ↔
        OffsetFits call.func (sortedPartition columns rows call.spec k).length := by
  refine ⟨fun windowFuncs => ?_, fun call k => shiftsExact_iff call.func ?_⟩
  · simp only [applyWindowFuncs_returns_iff hrect, evalWindowCall_returns_iff hrect]
  · have hle : (sortedPartition columns rows call.spec k).length ≤ rows.length := by
      rw [(sortedPartition_perm columns rows call.spec k).length_eq]
      exact (length_filter_le _ _).trans_eq (by simp [enumerated])
    omega

/-- Two rows: a `RANGE` sum with a sort column next to `LAG(x, 1)`. -/
theorem window_returns_iff_lag :
    (applyWindowFuncs ⟨["x"], [[.int 1], [.int 2]]⟩
        [("s", ⟨.agg .sum "x", [], [⟨"x", false⟩],
            some ⟨.range, .unboundedPreceding, .currentRow⟩⟩),
          ("l", ⟨.lag "x" 1 none, [], [⟨"x", false⟩], none⟩)]).Returns ∧
      ShiftsExact (.lag "x" 1 none) (sortedPartition ["x"] [[.int 1], [.int 2]]
        ⟨[], [⟨"x", false⟩], none⟩ []).length := by
  obtain ⟨hreturns, hshifts⟩ := window_returns_iff ["x"] [[.int 1], [.int 2]]
    (by simp [Rectangular]) (by simp)
  have hlength := (sortedPartition_perm ["x"] [[.int 1], [.int 2]]
    ⟨[], [⟨"x", false⟩], none⟩ []).length_eq
  refine ⟨(hreturns _).mpr fun pre w post hsplit _ hno => ?_,
    (hshifts ⟨.lag "x" 1 none, [], [⟨"x", false⟩], none⟩ []).mpr (.inr (hlength ▸ by decide))⟩
  -- neither call lacks a sort column
  have hw : w ∈ pre ++ w :: post := by simp
  rw [← hsplit] at hw
  simp only [mem_cons, not_mem_nil, or_false] at hw
  obtain rfl | rfl := hw
  · cases hno.1.1
  · exact hno.1

/-- `SUM(x) OVER (RANGE UNBOUNDED PRECEDING)`: one row is enough to index the
empty list of its sort values. -/
theorem range_without_order_by_panics :
    ¬ (applyWindowFuncs ⟨["x"], [[.int 1]]⟩
      [("sum(x)",
        ⟨.agg .sum "x", [], [], some ⟨.range, .unboundedPreceding, .currentRow⟩⟩)]).Returns := by
  intro h
  have hrect : Rectangular ["x"] [[.int 1]] := by simp [Rectangular]
  have hcall := (applyWindowFuncs_returns_iff hrect).mp h [] _ [] rfl (by simp)
  exact (evalWindowCall_returns_iff hrect).mp hcall ⟨⟨rfl, rfl, rfl, rfl⟩, by simp, by simp⟩

/-! ## Integer sums -/

/-- The sum over a frame is the exact one exactly when that is an `i64`. -/
theorem frameValue_sum {c : String} (hc : c ∈ columns) (hrect : Rectangular columns part)
    (hints : IntColumn (columnValues columns c part))
    (h : (resolveFrame frame pos orderVals orderIndices part : Outcome ExecError _) = .ok (s, e))
    (he : e < part.length) :
    ∃ r, frameValue part columns .sum c orderIndices frame orderVals pos = .ok r ∧
      (IsExactSum (columnValues columns c ((part.drop s).take (e + 1 - s))) r ↔
        FitsInt64 (integers (columnValues columns c ((part.drop s).take (e + 1 - s)))).sum) := by
  have hslice : Rectangular columns ((part.drop s).take (e + 1 - s)) :=
    fun r hr => hrect r (mem_of_mem_drop (mem_of_mem_take hr))
  have hints' : IntColumn (columnValues columns c ((part.drop s).take (e + 1 - s))) := by
    simp only [columnValues, map_take, map_drop]
    exact fun v hv => hints v (mem_of_mem_drop (mem_of_mem_take hv))
  rw [frameValue_eq h he]
  split
  · next hgt =>
    have hnone : e + 1 - s = 0 := by omega
    rw [hnone]
    simp [IsExactSum, columnValues, integers, FitsInt64]
  · exact ⟨_, evalAggregate_sum hc hslice, isExactSum_sumValues_iff hints'⟩

/-- An integer `SUM` is exact exactly when the exact sum is an `i64`, over a
group and over every frame of a window, and it does not depend on the order of
the rows. -/
theorem sum_exact_iff (columns : List String) (c : String) (rows : List Row) (hc : c ∈ columns)
    (hrect : Rectangular columns rows) (hints : IntColumn (columnValues columns c rows)) :
    (∃ r, evalAggregate .sum c columns rows = .ok r ∧
      (IsExactSum (columnValues columns c rows) r ↔
        FitsInt64 (integers (columnValues columns c rows)).sum)) ∧
    (∀ rows' : List Row, rows'.Perm rows →
      evalAggregate .sum c columns rows' = evalAggregate .sum c columns rows) ∧
    ∀ (orderIndices : List (Nat × Bool)) (frame : WindowFrame), IndicesFit orderIndices rows →
      (frame.kind = .range → orderIndices = [] →
        (isNumericBound frame.start || isNumericBound frame.stop) = true) →
      (∃ e, aggregateFrames rows columns .sum c orderIndices frame = .error (.err e)) ∨
      ∃ vals orderVals, aggregateFrames rows columns .sum c orderIndices frame = .ok vals ∧
        ∀ pos < rows.length, ∃ s e r,
          (resolveFrame frame pos orderVals orderIndices rows : Outcome ExecError _) = .ok (s, e) ∧
          vals[pos]? = some r ∧
          (IsExactSum (columnValues columns c ((rows.drop s).take (e + 1 - s))) r ↔
            FitsInt64
              (integers (columnValues columns c ((rows.drop s).take (e + 1 - s)))).sum) := by
  refine ⟨⟨_, evalAggregate_sum hc hrect, isExactSum_sumValues_iff hints⟩, fun rows' h => ?_,
    fun orderIndices frame hfit hframe => ?_⟩
  · have hrect' : Rectangular columns rows' := fun r hr => hrect r (h.mem_iff.mp hr)
    rw [evalAggregate_sum hc hrect, evalAggregate_sum hc hrect']
    exact congrArg Except.ok (sumValues_perm hints (h.map _))
  · refine (aggregateFrames_cases hfit hframe).imp_right ?_
    rintro ⟨orderVals, hvals, hresolve⟩
    let value (pos : Nat) : Value :=
      (frameValue rows columns .sum c orderIndices frame orderVals pos).toOption.getD .null
    have hvalue : ∀ pos ∈ List.range rows.length,
        frameValue rows columns .sum c orderIndices frame orderVals pos = .ok (value pos) := by
      intro pos hpos
      obtain ⟨s, e, hse, he⟩ := hresolve pos (mem_range.mp hpos)
      obtain ⟨r, hr, -⟩ := frameValue_sum hc hrect hints hse he
      simp [value, hr, Except.toOption]
    refine ⟨_, orderVals, hvals.trans (Except.mapM_of_ok hvalue), fun pos hpos => ?_⟩
    obtain ⟨s, e, hse, he⟩ := hresolve pos hpos
    obtain ⟨r, hr, hexact⟩ := frameValue_sum hc hrect hints hse he
    refine ⟨s, e, r, hse, ?_, hexact⟩
    have hsame := (hvalue pos (mem_range.mpr hpos)).symm.trans hr
    simp [hpos, Except.ok.inj hsame]

theorem sum_exact_iff_small :
    ∃ r, evalAggregate .sum "x" ["x"] [[.int 1], [.null], [.int 2]] = .ok r ∧
      IsExactSum [.int 1, .null, .int 2] r := by
  obtain ⟨r, hr, hiff⟩ := (sum_exact_iff ["x"] "x" [[.int 1], [.null], [.int 2]] (by simp)
    (by simp [Rectangular]) (by simp [IntColumn, columnValues])).1
  exact ⟨r, hr, hiff.mpr (by decide)⟩

/-- The sum of the largest number and one is the least number. -/
theorem sum_wraps :
    evalAggregate .sum "x" ["x"] [[.int Int64.maxValue], [.int 1]] = .ok (.int Int64.minValue) := by
  rfl

end Archon
