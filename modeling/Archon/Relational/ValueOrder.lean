import Archon.Relational.Value
import Mathlib.Data.List.Dedup
import Mathlib.Order.Basic

/-!
# Archon.Relational.ValueOrder

The order of values and rows (`crates/tpt-archon-relational/src/executor/value.rs`)
is linear, so `sort` sorts; it agrees with `==` but for NaN and the negative
zero (`value_order_lawful`).  On rows without floats and vectors `sort` and
`dedup` together leave each row once.
-/

namespace Archon

open Value List

open Std (TransCmp OrientedCmp LawfulEqCmp)

/-! ## Slices -/

theorem sliceCmp_eq_compareLex (cmp : α → α → Ordering) : sliceCmp cmp = List.compareLex cmp := by
  funext as bs
  induction as generalizing bs with
  | nil => cases bs <;> rfl
  | cons a as ih =>
    cases bs with
    | nil => rfl
    | cons b bs => rw [sliceCmp, List.compareLex_cons_cons, ih]

instance sliceCmp_transCmp (cmp : α → α → Ordering) [TransCmp cmp] : TransCmp (sliceCmp cmp) := by
  rw [sliceCmp_eq_compareLex]
  infer_instance

instance sliceCmp_lawfulEqCmp (cmp : α → α → Ordering) [LawfulEqCmp cmp] :
    LawfulEqCmp (sliceCmp cmp) := by
  rw [sliceCmp_eq_compareLex]
  infer_instance

/-! ## Values -/

def F32.bitsCmp (x y : F32) : Ordering := compare x.bits y.bits

instance : TransCmp F32.bitsCmp := inferInstanceAs (TransCmp (compareOn F32.bits))

instance : TransCmp F32.totalCmp := inferInstanceAs (TransCmp (compareOn F32.totalKey))

instance : LawfulEqCmp F32.bitsCmp where
  eq_of_compare {x y} h := by
    have hbits : x.bits = y.bits := LawfulEqCmp.eq_of_compare h
    cases x
    cases y
    exact congrArg F32.mk hbits

instance : LawfulEqCmp F32.totalCmp where
  eq_of_compare {x y} h := by
    have hkey : x.totalKey = y.totalKey := LawfulEqCmp.eq_of_compare h
    have hx := x.bits.toNat_lt
    have hy := y.bits.toNat_lt
    have hbits : x.bits.toNat = y.bits.toNat := by
      unfold F32.totalKey at hkey
      split at hkey <;> split at hkey <;> omega
    cases x
    cases y
    exact congrArg F32.mk (UInt32.toNat_inj.mp hbits)

/-- The order of vectors: by length, then by bits. -/
def vectorCmp : List F32 → List F32 → Ordering :=
  compareLex (compareOn List.length) (sliceCmp F32.bitsCmp)

instance : TransCmp vectorCmp := by
  unfold vectorCmp
  infer_instance

theorem cmp_vector (a b : List F32) : Value.cmp (.vector a) (.vector b) = vectorCmp a b := by
  show (compare a.length b.length).then _ = (compare a.length b.length).then _
  cases hlen : compare a.length b.length with
  | lt => rfl
  | gt => rfl
  | eq =>
    replace hlen := Nat.compare_eq_eq.mp hlen
    induction a generalizing b with
    | nil =>
      cases b with
      | nil => rfl
      | cons => contradiction
    | cons x a ih =>
      cases b with
      | nil => contradiction
      | cons y b =>
        have hrest := ih b (Nat.succ.inj hlen)
        simp only [zip_cons_cons, map_cons, sliceCmp,
          F32.bitsCmp] at hrest ⊢
        cases compare x.bits y.bits with
        | lt | gt => rfl
        | eq => exact hrest

instance : OrientedCmp Value.cmp where
  eq_swap {a b} := by
    cases a <;> cases b
    case int.int a b => exact Std.OrientedOrd.eq_swap
    case float.float a b => exact @OrientedCmp.eq_swap _ F32.totalCmp _ a b
    case text.text a b => exact Std.OrientedOrd.eq_swap
    case bool.bool a b => exact Std.OrientedOrd.eq_swap
    case vector.vector a b =>
      rw [cmp_vector, cmp_vector]
      exact OrientedCmp.eq_swap
    all_goals rfl

instance : TransCmp Value.cmp where
  isLE_trans {a b c} hab hbc := by
    cases a <;> cases b <;> first | contradiction | skip
    all_goals cases c <;> first | rfl | contradiction | skip
    case int.int a b c => exact Std.TransOrd.isLE_trans hab hbc
    case float.float a b c => exact @TransCmp.isLE_trans _ F32.totalCmp _ a b c hab hbc
    case text.text a b c => exact Std.TransOrd.isLE_trans hab hbc
    case bool.bool a b c => exact Std.TransOrd.isLE_trans hab hbc
    case vector.vector a b c =>
      rw [cmp_vector] at *
      exact TransCmp.isLE_trans hab hbc

instance : LawfulEqCmp Value.cmp where
  eq_of_compare {a b} h := by
    cases a <;> cases b <;> first | cases h | skip
    case int.int a b => exact congrArg Value.int (@LawfulEqCmp.eq_of_compare _ compare _ a b h)
    case float.float a b =>
      exact congrArg Value.float (@LawfulEqCmp.eq_of_compare _ F32.totalCmp _ a b h)
    case text.text a b => exact congrArg Value.text (@LawfulEqCmp.eq_of_compare _ compare _ a b h)
    case bool.bool a b => exact congrArg Value.bool (@LawfulEqCmp.eq_of_compare _ compare _ a b h)
    case vector.vector a b =>
      rw [cmp_vector, vectorCmp, compareLex, Ordering.then_eq_eq] at h
      exact congrArg Value.vector (@LawfulEqCmp.eq_of_compare _ (sliceCmp F32.bitsCmp) _ a b h.2)
    all_goals rfl

instance : TransCmp rowCmp := inferInstanceAs (TransCmp (sliceCmp Value.cmp))

instance : LawfulEqCmp rowCmp := inferInstanceAs (LawfulEqCmp (sliceCmp Value.cmp))

theorem bne_gt_eq_isLE (o : Ordering) : (o != .gt) = o.isLE := by cases o <;> rfl

theorem sortRows_perm (rows : List Row) : (sortRows rows).Perm rows := mergeSort_perm ..

theorem sortRows_pairwise (rows : List Row) :
    (sortRows rows).Pairwise fun a b => (rowCmp a b).isLE = true := by
  have h : (sortRows rows).Pairwise fun a b => (rowCmp a b != .gt) = true := by
    refine pairwise_mergeSort (fun a b c hab hbc => ?_) (fun a b => ?_) rows
    · rw [bne_gt_eq_isLE] at *
      exact TransCmp.isLE_trans hab hbc
    · rw [@OrientedCmp.eq_swap _ rowCmp _ b a]
      cases rowCmp a b <;> rfl
  simpa only [bne_gt_eq_isLE] using h

/-! ## Rows without floats and vectors -/

/-- A value on which `==` and the order are exact. -/
def Value.Plain : Value → Prop
  | .float _ => False
  | .vector _ => False
  | _ => True

def PlainRow (row : Row) : Prop := ∀ v ∈ row, v.Plain

theorem Value.eq_iff {a b : Value} (ha : a.Plain) : a.eq b = true ↔ a = b := by
  cases a with
  | float | vector => exact ha.elim
  | _ => cases b <;> (unfold eq; simp)

theorem Value.eq_of_cmp {a b : Value} (ha : a.Plain) (h : a.cmp b = .eq) : a = b := by
  cases a <;> cases b <;> first | contradiction | rfl | skip
  all_goals exact congrArg _ (Std.LawfulEqOrd.eq_of_compare h)

theorem sliceEq_iff {eq : α → α → Bool} {as bs : List α}
    (h : ∀ a ∈ as, ∀ b ∈ bs, eq a b = true ↔ a = b) : sliceEq eq as bs = true ↔ as = bs := by
  induction as generalizing bs with
  | nil => cases bs <;> simp [sliceEq]
  | cons a as ih =>
    cases bs with
    | nil => simp [sliceEq]
    | cons b bs =>
      have hrest := @ih bs fun x hx y hy => h x (.tail _ hx) y (.tail _ hy)
      simp [sliceEq, h a (.head _) b (.head _), hrest]

theorem rowEq_iff {a b : Row} (ha : PlainRow a) : rowEq a b = true ↔ a = b :=
  sliceEq_iff fun x hx _ _ => eq_iff (ha x hx)

theorem eq_of_rowCmp {a b : Row} (ha : PlainRow a) (h : rowCmp a b = .eq) : a = b := by
  induction a generalizing b with
  | nil =>
    cases b with
    | nil => rfl
    | cons => contradiction
  | cons x a ih =>
    obtain ⟨hx, ha⟩ := forall_mem_cons.mp ha
    cases b with
    | nil => contradiction
    | cons y b =>
      obtain ⟨hxy, hab⟩ := Ordering.then_eq_eq.mp h
      rw [eq_of_cmp hx hxy, ih ha hab]

variable {rows : List Row}

theorem containsRow_iff (h : ∀ r ∈ rows, PlainRow r) (row : Row) :
    containsRow rows row = true ↔ row ∈ rows := by
  rw [containsRow, any_eq_true]
  constructor
  · rintro ⟨r, hr, heq⟩
    rwa [← (rowEq_iff (h r hr)).mp heq]
  · exact fun hr => ⟨row, hr, (rowEq_iff (h row hr)).mpr rfl⟩

/-- Rows in order that are each at most the other are one. -/
theorem eq_of_isLE {a b : Row} (ha : PlainRow a) (hab : (rowCmp a b).isLE = true)
    (hba : (rowCmp b a).isLE = true) : a = b :=
  eq_of_rowCmp ha (OrientedCmp.isLE_antisymm hab hba)

/-- The rest of `dedup` on ascending rows: every row but the last one kept. -/
theorem dedupRows_go {prev : Row} (hp : PlainRow prev) (h : ∀ r ∈ rows, PlainRow r)
    (hs : (prev :: rows).Pairwise fun a b => (rowCmp a b).isLE = true) :
    (dedupRows.go prev rows).Nodup ∧ ∀ x, x ∈ dedupRows.go prev rows ↔ x ∈ rows ∧ x ≠ prev := by
  induction rows generalizing prev with
  | nil => simp [dedupRows.go]
  | cons r rows ih =>
    obtain ⟨hr, h⟩ := forall_mem_cons.mp h
    obtain ⟨hprev, hrest⟩ := pairwise_cons.mp hs
    rw [dedupRows.go]
    by_cases heq : r = prev
    · subst heq
      rw [if_pos ((rowEq_iff hr).mpr rfl)]
      obtain ⟨hnd, hmem⟩ := ih hr h hrest
      refine ⟨hnd, fun x => (hmem x).trans ?_⟩
      simp only [mem_cons]
      tauto
    · rw [if_neg fun he => heq ((rowEq_iff hr).mp he)]
      obtain ⟨hnd, hmem⟩ := ih hr h hrest
      refine ⟨nodup_cons.mpr ⟨fun hin => ((hmem r).mp hin).2 rfl, hnd⟩, fun x => ?_⟩
      rw [mem_cons, mem_cons, hmem x]
      constructor
      · rintro (rfl | ⟨hx, hne⟩)
        · exact ⟨.inl rfl, heq⟩
        · refine ⟨.inr hx, ?_⟩
          rintro rfl
          -- a row equal to `prev` behind `r` would make `r` equal to it
          exact heq (eq_of_isLE hr ((pairwise_cons.mp hrest).1 x hx)
            (hprev r (.head _)))
      · rintro ⟨rfl | hx, hne⟩
        · exact .inl rfl
        · by_cases hxr : x = r
          · exact .inl hxr
          · exact .inr ⟨hx, hxr⟩

/-- `sort` and `dedup` leave each row once. -/
theorem dedup_sort (h : ∀ r ∈ rows, PlainRow r) :
    (dedupRows (sortRows rows)).Nodup ∧ ∀ x, x ∈ dedupRows (sortRows rows) ↔ x ∈ rows := by
  have hmem : ∀ x, x ∈ sortRows rows ↔ x ∈ rows := fun x => (sortRows_perm rows).mem_iff
  have hs := sortRows_pairwise rows
  have hp : ∀ r ∈ sortRows rows, PlainRow r := fun r hr => h r ((hmem r).mp hr)
  simp only [← hmem]
  generalize sortRows rows = sorted at hs hp
  cases sorted with
  | nil => simp [dedupRows]
  | cons r rest =>
    obtain ⟨hr, hp⟩ := forall_mem_cons.mp hp
    obtain ⟨hnd, hin⟩ := dedupRows_go hr hp hs
    rw [dedupRows]
    grind

/-! ## `==` -/

/-- Neither a NaN nor the negative zero. -/
def F32.Ordinary (x : F32) : Prop := x.isNaN = false ∧ x.bits ≠ 0x80000000

/-- All floats in it are ordinary. -/
def Value.Ordinary : Value → Prop
  | .float x => x.Ordinary
  | .vector v => ∀ x ∈ v, x.Ordinary
  | _ => True

theorem F32.eq_iff {x y : F32} (hx : x.Ordinary) (hy : y.Ordinary) : x.eq y = true ↔ x = y := by
  constructor
  · intro h
    have hmagnitude : x.magnitude = y.magnitude := by
      simpa [F32.eq, partialCmp, hx.1, hy.1, Std.compare_eq_iff_eq] using h
    have hxz : x.bits.toNat ≠ 0x80000000 := fun he => hx.2 (UInt32.toNat_inj.mp he)
    have hyz : y.bits.toNat ≠ 0x80000000 := fun he => hy.2 (UInt32.toNat_inj.mp he)
    have hbits : x.bits.toNat = y.bits.toNat := by
      unfold magnitude at hmagnitude
      split at hmagnitude <;> split at hmagnitude <;> omega
    exact congrArg F32.mk (UInt32.toNat_inj.mp hbits)
  · rintro rfl
    simp [F32.eq, partialCmp, hx.1]

theorem Value.eq_iff_of_ordinary {a b : Value} (ha : a.Ordinary) (hb : b.Ordinary) :
    a.eq b = true ↔ a = b := by
  cases a <;> cases b
  case float.float x y =>
    rw [float.injEq]
    exact F32.eq_iff ha hb
  case vector.vector v w =>
    rw [vector.injEq]
    exact sliceEq_iff fun x hx y hy => F32.eq_iff (ha x hx) (hb y hy)
  all_goals
    unfold eq
    simp

/-- **The order of values** is a linear one, and agrees with `==` where no
float is a NaN or the negative zero. -/
theorem value_order_lawful :
    (∀ a : Value, a.cmp a = .eq) ∧
    (∀ a b : Value, a.cmp b = (b.cmp a).swap) ∧
    (∀ a b : Value, (a.cmp b).isLE → (b.cmp a).isLE → a = b) ∧
    (∀ a b c : Value, (a.cmp b).isLE → (b.cmp c).isLE → (a.cmp c).isLE) ∧
    (∀ a b : Value, (a.cmp b).isLE ∨ (b.cmp a).isLE) ∧
    ∀ a b : Value, a.Ordinary → b.Ordinary → (a.cmp b = .eq ↔ a.eq b = true) := by
  refine ⟨fun a => Std.ReflCmp.compare_self, fun a b => OrientedCmp.eq_swap,
    fun a b hab hba => ?_, fun a b c => TransCmp.isLE_trans, fun a b => ?_, fun a b ha hb => ?_⟩
  · exact LawfulEqCmp.eq_of_compare (OrientedCmp.isLE_antisymm hab hba)
  · rw [@OrientedCmp.eq_swap _ cmp _ b a]
    cases a.cmp b <;> simp
  · rw [eq_iff_of_ordinary ha hb, LawfulEqCmp.compare_eq_iff_eq]

end Archon
