import Archon.Relational.Planner

/-!
# Archon.Relational.Estimate

The planner's estimates as probabilities.  The denominators multiply along
the expression, so a fraction stays within `u64`, and at most one, as long as
their product does and no `IN` list has more than 100 values.
-/

namespace Archon

namespace Expr

/-- The product of the denominators of the leaves. -/
def weight : Expr → Nat
  | .and l r | .or l r => l.weight * r.weight
  | .not inner => inner.weight
  | .cmp _ .eq _ | .cmp _ .ne _ | .cmpColumn _ .eq _ => 10
  | .isNull _ _ => 20
  | .like _ _ => 5
  | .inInt _ _ => 100
  | _ => 3

/-- No `IN` list has more than `n` values. -/
def ListsWithin (n : Nat) : Expr → Prop
  | .and l r | .or l r => l.ListsWithin n ∧ r.ListsWithin n
  | .not inner => inner.ListsWithin n
  | .inInt _ values => values.length ≤ n
  | _ => True

/-- Conditions joined by `AND` alone. -/
def isConjunction : Expr → Bool
  | .and l r => l.isConjunction && r.isConjunction
  | e => e.isAtom

def num (e : Expr) : Nat := (selectivity e).1.toNat

def den (e : Expr) : Nat := (selectivity e).2.toNat

/-- The product of the numerators of the conditions of a conjunction. -/
def share : Expr → Nat
  | .and l r => l.share * r.share
  | .inInt _ values => max values.length 1
  | e => e.num

/-- Each step of `selectivity` has its result in `u64`. -/
def Fits : Expr → Prop
  | .and l r => l.Fits ∧ r.Fits ∧ l.num * r.num < UInt64.size ∧ l.den * r.den < UInt64.size
  | .or l r => l.Fits ∧ r.Fits ∧ l.num * r.den + r.num * l.den < UInt64.size ∧
      l.num * r.num ≤ l.num * r.den + r.num * l.den ∧ l.den * r.den < UInt64.size
  | .not inner => inner.Fits
  | .inInt _ values => values.length < UInt64.size
  | _ => True

/-- The fraction is a probability, computed without wrapping. -/
structure IsProbability (e : Expr) : Prop where
  fits : e.Fits
  pos : 0 < e.num
  le : e.num ≤ e.den

end Expr

/-! ## Machine words -/

section

variable {a b c d : UInt64}

theorem toNat_mul_of_fits (h : a.toNat * b.toNat < UInt64.size) :
    (a * b).toNat = a.toNat * b.toNat := by
  exact Nat.mod_eq_of_lt h

theorem toNat_ite_le (a b c d : UInt64) :
    (if a ≤ b then c else d).toNat = if a.toNat ≤ b.toNat then c.toNat else d.toNat := by
  rw [apply_ite UInt64.toNat]
  rfl

theorem toNat_max_one (a : UInt64) : (max a 1).toNat = max a.toNat 1 :=
  (toNat_ite_le a 1 1 a).trans Nat.max_def.symm

theorem toNat_min (a b : UInt64) : (min a b).toNat = min a.toNat b.toNat :=
  (toNat_ite_le a b a b).trans Nat.min_def.symm

theorem toNat_orNum (h : a.toNat * d.toNat + c.toNat * b.toNat < UInt64.size)
    (hac : a.toNat * c.toNat ≤ a.toNat * d.toNat + c.toNat * b.toNat) :
    (a * d + c * b - a * c).toNat =
      a.toNat * d.toNat + c.toNat * b.toNat - a.toNat * c.toNat := by
  have hprod := @toNat_mul_of_fits a c (by omega)
  have hsum : (a * d + c * b).toNat = a.toNat * d.toNat + c.toNat * b.toNat := by
    simpa using Nat.mod_eq_of_lt h
  rw [UInt64.toNat_sub_of_le _ _ (by rw [UInt64.le_iff_toNat_le]; omega), hsum, hprod]

theorem divCeil_le {n : UInt64} (hb : 0 < b.toNat) (h : a.toNat ≤ n.toNat * b.toNat) :
    ∃ q, (divCeil a b : Outcome ε UInt64) = .ok q ∧ q.toNat ≤ n.toNat := by
  have hne : b ≠ 0 := by
    rintro rfl
    exact absurd hb (by decide)
  refine ⟨_, if_neg hne, ?_⟩
  split
  · next hmod =>
    -- with a remainder the quotient is smaller still
    have hmod' : 0 < a.toNat % b.toNat := by simpa [UInt64.lt_iff_toNat_lt] using hmod
    have hlt : a.toNat / b.toNat < n.toNat := by
      rw [Nat.div_lt_iff_lt_mul hb]
      refine Nat.lt_of_le_of_ne h fun heq => ?_
      simp [heq] at hmod'
    exact Nat.le_trans (Nat.mod_le _ _) hlt
  · rw [UInt64.toNat_div]
    exact Nat.div_le_of_le_mul (by rwa [Nat.mul_comm])

end

/-! ## Fractions -/

namespace Expr

variable {e l r : Expr}

theorem and_toNat (h : (Expr.and l r).Fits) :
    (Expr.and l r).num = max (l.num * r.num) 1 ∧ (Expr.and l r).den = l.den * r.den :=
  ⟨by rw [num, selectivity, toNat_max_one, toNat_mul_of_fits h.2.2.1]; rfl,
    toNat_mul_of_fits h.2.2.2⟩

theorem or_toNat (h : (Expr.or l r).Fits) :
    let n := l.num * r.den + r.num * l.den - l.num * r.num
    (Expr.or l r).num = (if l.den * r.den ≤ n then 1 else max n 1) ∧
      (Expr.or l r).den = if l.den * r.den ≤ n then 1 else l.den * r.den := by
  obtain ⟨-, -, hsum, hle, hden⟩ := h
  have hnum := toNat_orNum hsum hle
  simp only [num, den, selectivity, UInt64.le_iff_toNat_le, hnum, toNat_mul_of_fits hden]
  split
  · next h => exact ⟨(if_pos h).symm, (if_pos h).symm⟩
  · next h =>
    refine ⟨Eq.trans ?_ (if_neg h).symm, (toNat_mul_of_fits hden).trans (if_neg h).symm⟩
    rw [toNat_max_one, hnum]

theorem not_toNat (h : e.num ≤ e.den) : (Expr.not e).num = max (e.den - e.num) 1 := by
  have hle := UInt64.le_iff_toNat_le.mpr h
  rw [num, selectivity, toNat_max_one, if_pos hle, UInt64.toNat_sub_of_le _ _ hle]
  rfl

theorem weight_pos (e : Expr) : 0 < e.weight := by
  induction e using Expr.connectives with
  | and l r ihl ihr | or l r ihl ihr => exact Nat.mul_pos ihl ihr
  | not inner ih => exact ih
  | atom e he =>
    unfold weight
    split <;> simp_all [isAtom]

theorem weight_le_mul (l r : Expr) :
    l.weight ≤ l.weight * r.weight ∧ r.weight ≤ l.weight * r.weight :=
  ⟨Nat.le_mul_of_pos_right _ r.weight_pos, Nat.le_mul_of_pos_left _ l.weight_pos⟩

theorem atom_toNat (he : e.isAtom = true) {n : Nat} (h1 : 1 ≤ n) (hn : n < UInt64.size)
    (hl : e.ListsWithin n) : e.Fits ∧ 0 < e.num ∧ e.den = e.weight ∧
      (e.num < e.weight ∨ e.num ≤ n ∧ e.weight = 100) := by
  cases e with
  | and | or | not => cases he
  | inInt column values =>
    replace hl : values.length ≤ n := hl
    have hval : (Expr.inInt column values).num = max values.length 1 :=
      UInt64.toNat_ofNat_of_lt' (by omega)
    exact ⟨Nat.lt_of_le_of_lt hl hn, by omega, rfl, .inr ⟨by omega, rfl⟩⟩
  | cmp column op value | cmpColumn column op other =>
    cases op <;> simp [Fits, num, den, selectivity, weight]
  | isNull column negated => cases negated <;> simp [Fits, num, den, selectivity, weight]
  | _ => simp [Fits, num, den, selectivity, weight]

theorem IsProbability.of_weight (hl : e.ListsWithin 100) (hw : 2 * e.weight < UInt64.size) :
    e.IsProbability ∧ e.den ≤ e.weight := by
  induction e using Expr.connectives with
  | and l r ihl ihr =>
    have hle := l.weight_le_mul r
    simp only [weight] at hw ⊢
    obtain ⟨⟨hfl, hpl, hll⟩, hdl⟩ := ihl hl.1 (by omega)
    obtain ⟨⟨hfr, hpr, hlr⟩, hdr⟩ := ihr hl.2 (by omega)
    have hden := Nat.mul_le_mul hdl hdr
    have hnum := Nat.mul_le_mul hll hlr
    have hpos := Nat.mul_pos hpl hpr
    have hfits : (Expr.and l r).Fits := ⟨hfl, hfr, by omega, by omega⟩
    obtain ⟨h1, h2⟩ := and_toNat hfits
    exact ⟨⟨hfits, by omega, by omega⟩, by omega⟩
  | or l r ihl ihr =>
    have hle := l.weight_le_mul r
    simp only [weight] at hw ⊢
    obtain ⟨⟨hfl, hpl, hll⟩, hdl⟩ := ihl hl.1 (by omega)
    obtain ⟨⟨hfr, hpr, hlr⟩, hdr⟩ := ihr hl.2 (by omega)
    have hden := Nat.mul_le_mul hdl hdr
    have had := Nat.mul_le_mul_right r.den hll
    have hcb := Nat.mul_le_mul_left l.den hlr
    have hac := Nat.mul_le_mul_left l.num hlr
    rw [Nat.mul_comm l.den r.num] at hcb
    have hfits : (Expr.or l r).Fits := ⟨hfl, hfr, by omega, by omega, by omega⟩
    obtain ⟨h1, h2⟩ := or_toNat hfits
    split at h1 <;> split at h2 <;> exact ⟨⟨hfits, by omega, by omega⟩, by omega⟩
  | not inner ih =>
    obtain ⟨⟨hf, hp, hle⟩, hd⟩ := ih hl hw
    have hnum := not_toNat hle
    exact ⟨⟨hf, by omega, by show _ ≤ inner.den; omega⟩, hd⟩
  | atom e he =>
    obtain ⟨hf, hp, hd, hle⟩ := atom_toNat he (by decide) (by decide) hl
    exact ⟨⟨hf, hp, by omega⟩, by omega⟩

theorem or_lt {a b c d : Nat} (hab : a < b) (hcd : c < d) : a * d + c * b - a * c < b * d := by
  obtain ⟨x, rfl⟩ := Nat.exists_eq_add_of_lt hab
  obtain ⟨y, rfl⟩ := Nat.exists_eq_add_of_lt hcd
  grind

/-- With fewer than 100 values in each list no fraction reaches one, and the
denominator is the whole product. -/
theorem Fits.den_eq (hf : e.Fits) (hl : e.ListsWithin 99) :
    0 < e.num ∧ e.num < e.weight ∧ e.den = e.weight := by
  induction e using Expr.connectives with
  | and l r ihl ihr =>
    obtain ⟨hpl, hll, hdl⟩ := ihl hf.1 hl.1
    obtain ⟨hpr, hlr, hdr⟩ := ihr hf.2.1 hl.2
    obtain ⟨h1, h2⟩ := and_toNat hf
    have hnum := Nat.mul_lt_mul'' hll hlr
    have hpos := Nat.mul_pos hpl hpr
    rw [h2, hdl, hdr, weight]
    omega
  | or l r ihl ihr =>
    obtain ⟨hpl, hll, hdl⟩ := ihl hf.1 hl.1
    obtain ⟨hpr, hlr, hdr⟩ := ihr hf.2.1 hl.2
    obtain ⟨h1, h2⟩ := or_toNat hf
    have hlt := or_lt hll hlr
    have hac := Nat.mul_le_mul_left l.num (Nat.le_of_lt hlr)
    have hcb := Nat.mul_pos hpr l.weight_pos
    rw [h1, h2, hdl, hdr, if_neg (by omega), if_neg (by omega), weight]
    omega
  | not inner ih =>
    obtain ⟨hp, hlt, hd⟩ := ih hf hl
    rw [not_toNat (by omega), weight]
    exact ⟨by omega, by omega, hd⟩
  | atom e he =>
    obtain ⟨-, hp, hd, hle⟩ := atom_toNat he (by decide) (by decide) hl
    omega

theorem IsProbability.weight_lt (h : e.IsProbability) (hl : e.ListsWithin 99) :
    e.weight < UInt64.size := by
  rw [← (h.fits.den_eq hl).2.2]
  exact (selectivity e).2.toNat_lt_size

/-- A condition of a conjunction has the numerator and denominator of the table. -/
theorem atom_share (he : e.isAtom = true) :
    0 < e.share ∧ e.den = e.weight ∧ (e.Fits ↔ e.share < UInt64.size) ∧
      (e.Fits → e.num = e.share) := by
  cases e with
  | and | or | not => cases he
  | inInt column values =>
    have hone : 1 < UInt64.size := by decide
    simp only [share, Fits]
    exact ⟨by omega, rfl, by omega, fun hf => UInt64.toNat_ofNat_of_lt' (by omega)⟩
  | cmp column op value | cmpColumn column op other =>
    cases op <;> simp [Fits, num, den, share, selectivity, weight, UInt64.size]
  | isNull column negated =>
    cases negated <;> simp [Fits, num, den, share, selectivity, weight, UInt64.size]
  | _ => simp [Fits, num, den, share, selectivity, weight, UInt64.size]

/-- A conjunction multiplies both, and wraps exactly when a product leaves `u64`. -/
theorem conjunction_share (he : e.isConjunction = true) :
    0 < e.share ∧ (e.Fits ↔ e.share < UInt64.size ∧ e.weight < UInt64.size) ∧
      (e.Fits → e.num = e.share ∧ e.den = e.weight) := by
  induction e using Expr.connectives with
  | and l r ihl ihr =>
    simp only [isConjunction, Bool.and_eq_true] at he
    obtain ⟨hpl, hfl, hl⟩ := ihl he.1
    obtain ⟨hpr, hfr, hr⟩ := ihr he.2
    have hw := l.weight_le_mul r
    have hsl := Nat.le_mul_of_pos_right l.share hpr
    have hsr := Nat.le_mul_of_pos_left r.share hpl
    have hpos := Nat.mul_pos hpl hpr
    have hvalues : (Expr.and l r).Fits → (Expr.and l r).num = l.share * r.share ∧
        (Expr.and l r).den = l.weight * r.weight := by
      intro hf
      obtain ⟨h1, h2⟩ := and_toNat hf
      rw [h1, h2, (hl hf.1).1, (hl hf.1).2, (hr hf.2.1).1, (hr hf.2.1).2]
      exact ⟨by omega, rfl⟩
    refine ⟨hpos, ⟨fun hf => ?_, fun ⟨hs, hd⟩ => ?_⟩, hvalues⟩
    · have hnum := hf.2.2
      rwa [(hl hf.1).1, (hl hf.1).2, (hr hf.2.1).1, (hr hf.2.1).2] at hnum
    · simp only [share, weight] at hs hd
      have hl' := hfl.mpr ⟨by omega, by omega⟩
      have hr' := hfr.mpr ⟨by omega, by omega⟩
      refine ⟨hl', hr', ?_⟩
      rw [(hl hl').1, (hl hl').2, (hr hr').1, (hr hr').2]
      exact ⟨hs, hd⟩
  | or | not => cases he
  | atom e hatom =>
    obtain ⟨hpos, hden, hfits, hnum⟩ := atom_share hatom
    have hweight : e.weight < UInt64.size := hden ▸ (selectivity e).2.toNat_lt_size
    exact ⟨hpos, by simp [hfits, hweight], fun hf => ⟨hnum hf, hden⟩⟩

theorem isProbability_conjunction (he : e.isConjunction = true) :
    e.IsProbability ↔ e.share ≤ e.weight ∧ e.weight < UInt64.size := by
  obtain ⟨hpos, hfits, hvalues⟩ := conjunction_share he
  constructor
  · intro ⟨hf, _, hle⟩
    obtain ⟨hnum, hden⟩ := hvalues hf
    exact ⟨by omega, (hfits.mp hf).2⟩
  · intro ⟨hle, hw⟩
    have hf := hfits.mpr ⟨by omega, hw⟩
    obtain ⟨hnum, hden⟩ := hvalues hf
    exact ⟨hf, by omega, by omega⟩

end Expr

/-! ## Plans -/

/-- Over the estimate of the filter, the rest of the plan makes no larger one. -/
theorem planSelect_estimate (gpu : Bool) {stmt : SelectStatement} {stats : TableStats}
    (h : ∀ e, stmt.filter = some e →
      e.IsProbability ∧ stats.rowCount.toNat * e.num < UInt64.size) :
    ∃ plan, (planSelect gpu stmt stats : Outcome ε Plan) = .ok plan ∧
      plan.estimatedRows.toNat ≤ max stats.rowCount.toNat 1 := by
  have hgroups : ∀ p : UInt64, ∃ q, (divCeil p 10 : Outcome ε UInt64) = .ok q ∧
      q.toNat ≤ p.toNat := fun p => divCeil_le (by decide) (Nat.le_mul_of_pos_right _ (by decide))
  unfold planSelect
  cases hfilter : stmt.filter with
  | none =>
    obtain ⟨q, hq, hle⟩ := hgroups stats.rowCount
    cases hg : stmt.groupBy.isEmpty <;> cases ha : stmt.aggregates.isEmpty <;>
      cases hl : stmt.limit <;> simp [hq, toNat_max_one, toNat_min] <;> omega
  | some e =>
    obtain ⟨⟨-, hpos, hle⟩, hfits⟩ := h e hfilter
    have hfilter : (stats.rowCount * (selectivity e).1).toNat ≤ stats.rowCount.toNat * e.den := by
      rw [toNat_mul_of_fits hfits]
      exact Nat.mul_le_mul_left _ hle
    obtain ⟨p, hp, hple⟩ := @divCeil_le _ _ ε _ (Nat.lt_of_lt_of_le hpos hle) hfilter
    obtain ⟨q, hq, hqle⟩ := hgroups p
    cases hg : stmt.groupBy.isEmpty <;> cases ha : stmt.aggregates.isEmpty <;>
      cases hl : stmt.limit <;> simp [hp, hq, toNat_max_one, toNat_min] <;> omega

/-- The fraction of a conjunction is a probability exactly when the product of
its numerators is at most that of its denominators and the latter is in `u64`.
Any fraction is one if twice its weight is in `u64`, and only if its weight is;
a plan then estimates no more rows than there are, provided their number times
the weight is in `u64`. -/
theorem selectivity_probability (e : Expr) :
    (e.isConjunction = true →
      (e.IsProbability ↔ e.share ≤ e.weight ∧ e.weight < UInt64.size)) ∧
      (e.ListsWithin 100 → 2 * e.weight < UInt64.size → e.IsProbability) ∧
      (e.ListsWithin 99 → e.IsProbability → e.weight < UInt64.size) ∧
      ∀ (gpu : Bool) (stmt : SelectStatement) (stats : TableStats),
        (∀ e, stmt.filter = some e → e.ListsWithin 100 ∧ 2 * e.weight < UInt64.size ∧
          stats.rowCount.toNat * e.weight < UInt64.size) →
        (∀ e, stmt.filter = some e → stats.rowCount.toNat * e.num < UInt64.size) ∧
        ∃ plan, (planSelect gpu stmt stats : Outcome ε Plan) = .ok plan ∧
          plan.estimatedRows.toNat ≤ max stats.rowCount.toNat 1 := by
  refine ⟨Expr.isProbability_conjunction, fun hl hw => (Expr.IsProbability.of_weight hl hw).1,
    fun hl h => h.weight_lt hl,
    fun gpu stmt stats h => ?_⟩
  have hfits : ∀ e, stmt.filter = some e →
      e.IsProbability ∧ stats.rowCount.toNat * e.num < UInt64.size := by
    intro e he
    obtain ⟨hl, hw, hrows⟩ := h e he
    obtain ⟨hp, hden⟩ := Expr.IsProbability.of_weight hl hw
    have hnum := Nat.mul_le_mul_left stats.rowCount.toNat (Nat.le_trans hp.le hden)
    exact ⟨hp, by omega⟩
  exact ⟨fun e he => (hfits e he).2, planSelect_estimate gpu hfits⟩

/-- Of 1000 rows, `a = 0 AND (b IN (1, 2) OR NOT c LIKE 'x%')` keeps at most
1000; 19 conditions `a = 0` still make a probability. -/
theorem selectivity_probability_filters :
    ((List.replicate 18 (.cmp "a" .eq (.int 0))).foldl Expr.and
        (.cmp "a" .eq (.int 0))).IsProbability ∧
      ∃ e, e = Expr.and (.cmp "a" .eq (.int 0)) (.or (.inInt "b" [1, 2]) (.not (.like "c" "x%"))) ∧
        e.IsProbability ∧ e.weight < UInt64.size ∧
        ∃ plan, (planSelect false ⟨[], true, .named "t" none, some e, [], [], [], [], [], none,
            some 10, none, []⟩ ⟨1000⟩ : Outcome Unit Plan) = .ok plan ∧
          plan.estimatedRows.toNat ≤ 1000 := by
  refine ⟨((@selectivity_probability Unit _).1 (by decide)).mpr (by decide), _, rfl, ?_⟩
  obtain ⟨-, hif, honly, hplan⟩ := selectivity_probability (.and (.cmp "a" .eq (.int 0))
    (.or (.inInt "b" [1, 2]) (.not (.like "c" "x%"))))
  have hprobability := hif (by simp [Expr.ListsWithin]) (by decide)
  refine ⟨hprobability, honly (by simp [Expr.ListsWithin]) hprobability, ?_⟩
  refine (hplan false _ ⟨1000⟩ fun e he => ?_).2
  cases he
  exact ⟨by simp [Expr.ListsWithin], by decide, by decide⟩

/-- `a IN (0, …)` with 101 values keeps more rows than there are; the
denominator of 20 conditions `a = 0` leaves `u64`. -/
theorem selectivity_improbable :
    ¬ (Expr.inInt "a" (List.replicate 101 0)).IsProbability ∧
      ¬ ((List.replicate 19 (.cmp "a" .eq (.int 0))).foldl Expr.and
        (.cmp "a" .eq (.int 0))).IsProbability := by
  refine ⟨fun h => absurd h.le (by decide), fun h => ?_⟩
  exact absurd (h.weight_lt (by simp [Expr.ListsWithin])) (by decide)

end Archon
