import Archon.Lib.Distinct
import Archon.Relational.Names
import Archon.Relational.RowLaw

/-!
# Archon.Relational.Checks

What the checks of a candidate row establish: its keys clash with those of no
other row, the columns that must not be `NULL` are not, and the `CHECK`s
without subqueries are true.

An `INSERT` checks its rows before they have their ids, so all of this is about
constraints that do not mention the implicit id column.
-/

namespace Archon

open Outcome List

variable {id : Nat} {excludeId : Option Nat}

/-! ## Equality -/

theorem F32.eq_swap (x y : F32) : x.eq y = y.eq x := by
  unfold F32.eq F32.partialCmp
  grind

theorem sliceEq_swap {eq : α → α → Bool} (h : ∀ a b, eq a b = eq b a) (xs ys : List α) :
    sliceEq eq xs ys = sliceEq eq ys xs := by
  induction xs generalizing ys with
  | nil => cases ys <;> rfl
  | cons x xs ih =>
    cases ys with
    | nil => rfl
    | cons y ys => simp [sliceEq, h x y, ih ys]

theorem Value.eq_swap (v w : Value) : v.eq w = w.eq v := by
  cases v with
  | int a => cases w with
    | int b => exact BEq.comm
    | _ => rfl
  | float a => cases w with
    | float b => exact a.eq_swap b
    | _ => rfl
  | text a => cases w with
    | text b => exact BEq.comm
    | _ => rfl
  | vector a => cases w with
    | vector b => exact sliceEq_swap F32.eq_swap a b
    | _ => rfl
  | bool a => cases w with
    | bool b => exact BEq.comm
    | _ => rfl
  | null => cases w <;> rfl

theorem rowEq_swap (a b : Row) : rowEq a b = rowEq b a := sliceEq_swap Value.eq_swap a b

theorem Value.isNull_of_eq {v w : Value} (h : v.eq w = true) : v.isNull = w.isNull := by
  cases v <;> cases w <;> first | rfl | cases h

theorem hasNull_of_rowEq {a b : Row} (h : rowEq a b = true) : hasNull a = hasNull b := by
  induction a generalizing b with
  | nil =>
    cases b with
    | nil => rfl
    | cons w b => cases h
  | cons v a ih =>
    cases b with
    | nil => cases h
    | cons w b =>
      obtain ⟨hv, ha⟩ := (Bool.and_eq_true _ _).mp h
      have htail := ih ha
      simp only [hasNull, any_cons] at htail ⊢
      rw [Value.isNull_of_eq hv, htail]

/-! ## The implicit id -/

/-- The rows differ in their first column at most. -/
def SameButId (a b : Row) : Prop := ∀ i, i ≠ 0 → a[i]? = b[i]?

theorem SameButId.refl (a : Row) : SameButId a a := fun _ _ => rfl

theorem SameButId.symm {a b : Row} (h : SameButId a b) : SameButId b a :=
  fun i hi => (h i hi).symm

theorem withImplicitId_sameButId {slots : List Nat} {row row' : Row}
    (h : withImplicitId slots id row = .ok row') : SameButId row row' := by
  obtain ⟨-, rfl⟩ | ⟨-, rfl⟩ := withImplicitId_ok h
  · exact .refl _
  · exact fun i hi => (getElem?_set_ne (Ne.symm hi)).symm

/-- The first column is the implicit id. -/
def Schema.HasId (schema : Schema) : Prop := schema.columns.head? = some "id"

variable {schema : Schema} {group : List String} {a b row : Row}

theorem Schema.HasId.indexOf_ne_zero (h : schema.HasId) {c : String} (hc : c ≠ "id") {i : Nat}
    (hi : schema.indexOf c = some i) : i ≠ 0 := by
  intro h0
  subst h0
  unfold Schema.indexOf columnPosition at hi
  cases hcols : schema.columns with
  | nil => simp [hcols] at hi
  | cons d cols =>
    have hd : d = "id" := by simpa [Schema.HasId, hcols] using h
    have hdc : d = c := by simpa [hcols, findIdx?_cons] using hi
    exact hc (hdc.symm.trans hd)

/-! ## Keys -/

/-- A key is read from the slots of its columns. -/
theorem keyOf_congr (h : ∀ c ∈ group, ∀ i, schema.indexOf c = some i → a[i]? = b[i]?) :
    (keyOf schema a group : Outcome DbError Row) = keyOf schema b group := by
  induction group with
  | nil => rfl
  | cons c group ih =>
    obtain ⟨hc, hgroup⟩ := forall_mem_cons.mp h
    unfold keyOf
    cases hi : schema.indexOf c with
    | none => rfl
    | some i => simp [expect, index_congr (hc i hi), ih hgroup]

/-- Keys without the id do not depend on it. -/
theorem keyOf_sameButId (hs : schema.HasId) (hg : "id" ∉ group) (h : SameButId a b) :
    (keyOf schema a group : Outcome DbError Row) = keyOf schema b group :=
  keyOf_congr fun _ hc i hi => h i (hs.indexOf_ne_zero (fun heq => hg (heq ▸ hc)) hi)

/-- The rows have the same key, free of `NULL`, in a group of columns that must
be unique. -/
def Clash (schema : Schema) (a b : Row) : Prop :=
  ∃ group ∈ uniqueGroups schema, "id" ∉ group ∧ ∃ k k',
    (keyOf schema a group : Outcome DbError Row) = .ok k ∧
    (keyOf schema b group : Outcome DbError Row) = .ok k' ∧ hasNull k = false ∧ rowEq k k' = true

theorem Clash.symm (h : Clash schema a b) : Clash schema b a := by
  obtain ⟨group, hmem, hid, k, k', ha, hb, hnull, heq⟩ := h
  have hnull' : hasNull k' = false := by rw [← hasNull_of_rowEq heq, hnull]
  exact ⟨group, hmem, hid, k', k, hb, ha, hnull', by rw [rowEq_swap, heq]⟩

theorem Clash.sameButId (hs : schema.HasId) {a' b' : Row} (ha : SameButId a a')
    (hb : SameButId b b') (h : Clash schema a b) : Clash schema a' b' := by
  obtain ⟨group, hmem, hid, k, k', hk, hk', hrest⟩ := h
  rw [keyOf_sameButId hs hid ha] at hk
  rw [keyOf_sameButId hs hid hb] at hk'
  exact ⟨group, hmem, hid, k, k', hk, hk', hrest⟩

theorem anyWithKey_eq_false {key : Row} {rows : List Row}
    (h : (anyWithKey schema group key rows : Outcome DbError Bool) = .ok false) :
    ∀ r ∈ rows, ∃ k, (keyOf schema r group : Outcome DbError Row) = .ok k ∧ rowEq k key =
      false := by
  induction rows with
  | nil => simp
  | cons r rows ih =>
    obtain ⟨k, hk, h⟩ := h.bind_ok
    cases heq : rowEq k key with
    | true => simp [heq] at h
    | false =>
      simp only [heq] at h
      intro r' hr'
      obtain rfl | hr' := mem_cons.mp hr'
      · exact ⟨k, hk, heq⟩
      · exact ih h r' hr'

variable {rt : ReadTable} {out : List (Nat × Row)} {r : Row}

/-- The rows of a table with the given ids. -/
theorem ReadTable.rows_ok {ids : List Nat} (h : rt.rows ids = .ok out) :
    (id, r) ∈ out ↔ id ∈ ids ∧ rt.rowAt id = .ok (some r) := by
  induction ids generalizing out with
  | nil =>
    cases h
    simp
  | cons k ids ih =>
    obtain ⟨row?, hrow, h⟩ := h.bind_ok
    cases row? with
    | none =>
      rw [ih h, mem_cons]
      constructor
      · exact fun ⟨hid, hr⟩ => ⟨.inr hid, hr⟩
      · rintro ⟨rfl | hid, hr⟩
        · grind
        · exact ⟨hid, hr⟩
    | some row =>
      obtain ⟨rest, hrest, h⟩ := h.bind_ok
      cases h
      rw [mem_cons, mem_cons, ih hrest]
      constructor
      · rintro (⟨rfl, rfl⟩ | ⟨hid, hr⟩)
        · exact ⟨.inl rfl, hrow⟩
        · exact ⟨.inr hid, hr⟩
      · rintro ⟨rfl | hid, hr⟩
        · rw [hrow] at hr
          cases hr
          simp
        · exact .inr ⟨hid, hr⟩

theorem allRows_ok (h : allRows rt excludeId = .ok out) :
    (id, r) ∈ out ↔ id < rt.nextRowId ∧ some id ≠ excludeId ∧ rt.rowAt id = .ok (some r) := by
  rw [ReadTable.rows_ok h, mem_filter, mem_range, decide_eq_true_eq, and_assoc]

/-- The loop over the groups of columns that must be unique, with a test for
each key. -/
def checkKeys (schema : Schema) (row : Row) (taken : List String → Row → Outcome DbError Bool) :
    List (List String) → Outcome DbError Unit
  | [] => return ()
  | group :: groups => do
    let key ← keyOf schema row group
    if hasNull key then checkKeys schema row taken groups
    else if ← taken group key then Outcome.fail (.uniqueViolation (",".intercalate group))
    else checkKeys schema row taken groups

theorem checkUnique_eq (rt : ReadTable) (row : Row) (excludeId : Option Nat)
    (groups : List (List String)) :
    checkUnique rt row excludeId groups = checkKeys rt.schema row (fun group key => do
      let rows ← allRows rt excludeId
      anyWithKey rt.schema group key (rows.map Prod.snd)) groups := by
  induction groups with
  | nil => rfl
  | cons group groups ih => simp [checkUnique, checkKeys, ih]

theorem checkBatch_eq (schema : Schema) (row : Row) (others : List Row)
    (groups : List (List String)) :
    checkBatch schema row others groups =
      checkKeys schema row (fun group key => anyWithKey schema group key others) groups := by
  induction groups with
  | nil => rfl
  | cons group groups ih => simp [checkBatch, checkKeys, ih]

theorem checkKeys_ok {taken : List String → Row → Outcome DbError Bool}
    {groups : List (List String)} (h : checkKeys schema row taken groups = .ok ()) :
    ∀ group ∈ groups, ∀ k, (keyOf schema row group : Outcome DbError Row) = .ok k →
      hasNull k = false → taken group k = .ok false := by
  induction groups with
  | nil => simp
  | cons g groups ih =>
    intro group hmem k hk hnull
    obtain ⟨key, hkey, h⟩ := h.bind_ok
    split at h
    · next hn =>
      obtain rfl | hmem := mem_cons.mp hmem
      · rw [hkey] at hk
        grind
      · exact ih h group hmem k hk hnull
    · obtain ⟨found, hfound, h⟩ := h.bind_ok
      cases found with
      | true => cases h
      | false =>
        obtain rfl | hmem := mem_cons.mp hmem
        · rw [hkey] at hk
          cases hk
          exact hfound
        · exact ih h group hmem k hk hnull

/-- A key that is not taken is not that of `r`. -/
theorem noClash_of_keys (h : ∀ group ∈ uniqueGroups schema, ∀ k,
      (keyOf schema row group : Outcome DbError Row) = .ok k → hasNull k = false →
        ∃ k', (keyOf schema r group : Outcome DbError Row) = .ok k' ∧ rowEq k' k = false) :
    ¬ Clash schema row r := by
  rintro ⟨group, hmem, -, k, k', hk, hk', hnull, heq⟩
  obtain ⟨k'', hk'', hneq⟩ := h group hmem k hk hnull
  rw [hk'] at hk''
  cases hk''
  simp [rowEq_swap, heq] at hneq

/-- A row that passed clashes with no other row of the table. -/
theorem checkUnique_noClash (h : checkUnique rt row excludeId (uniqueGroups rt.schema) = .ok ())
    (hid : id < rt.nextRowId) (hne : some id ≠ excludeId) (hr : rt.rowAt id = .ok (some r)) :
    ¬ Clash rt.schema row r := by
  rw [checkUnique_eq] at h
  refine noClash_of_keys fun group hmem k hk hnull => ?_
  obtain ⟨rows, hrows, hfound⟩ := Except.bind_eq_ok.mp (checkKeys_ok h group hmem k hk hnull)
  refine anyWithKey_eq_false hfound r (mem_map.mpr ⟨(id, r), ?_, rfl⟩)
  exact (allRows_ok hrows).mpr ⟨hid, hne, hr⟩

/-- Nor with any other row of the batch. -/
theorem checkBatch_noClash {others : List Row}
    (h : checkBatch schema row others (uniqueGroups schema) = .ok ()) :
    ∀ r ∈ others, ¬ Clash schema row r := by
  rw [checkBatch_eq] at h
  intro r hr
  refine noClash_of_keys fun group hmem k hk hnull => ?_
  exact anyWithKey_eq_false (checkKeys_ok h group hmem k hk hnull) r hr

/-! ## NOT NULL -/

/-- The columns that must not be `NULL` are not, but perhaps the id. -/
def NotNullHolds (schema : Schema) (row : Row) : Prop :=
  ∀ c ∈ schema.notNull, c ≠ "id" →
    ∃ i v, schema.indexOf c = some i ∧ row[i]? = some v ∧ v.isNull = false

theorem checkNotNull_ok {cols : List String} (h : checkNotNull schema row cols = .ok ()) :
    ∀ c ∈ cols, ∃ i v, schema.indexOf c = some i ∧ row[i]? = some v ∧ v.isNull = false := by
  induction cols with
  | nil => simp
  | cons c cols ih =>
    obtain ⟨i, hi, h⟩ := h.bind_ok
    obtain ⟨v, hv, h⟩ := h.bind_ok
    cases hn : v.isNull with
    | true => simp [hn] at h
    | false =>
      simp only [hn] at h
      intro c' hc'
      obtain rfl | hc' := mem_cons.mp hc'
      · exact ⟨i, v, expect_eq_ok.mp hi, index_eq_ok.mp hv, hn⟩
      · exact ih h c' hc'

theorem NotNullHolds.sameButId (hs : schema.HasId) (hab : SameButId a b)
    (h : NotNullHolds schema a) : NotNullHolds schema b := by
  intro c hc hne
  obtain ⟨i, v, hi, hv, hnull⟩ := h c hc hne
  exact ⟨i, v, hi, (hab i (hs.indexOf_ne_zero hne hi)) ▸ hv, hnull⟩

/-! ## CHECK -/

/-- The `CHECK`s without subqueries that do not mention the id are true. -/
def ChecksHold (schema : Schema) (row : Row) : Prop :=
  ∀ e ∈ schema.checks, e.isPlain = true →
    (∀ c ∈ e.columnNames, slotOf schema.columns c ≠ some 0) →
      evalExprScoped schema.columns row [] [] e = .ok (some true)

theorem checkExprs_ok {v : ReadView} {depth : Nat} {exprs : List Expr}
    (h : checkExprs v depth schema row exprs = .ok ()) :
    ∀ e ∈ exprs, e.isPlain = true →
      evalExprScoped schema.columns row [] [] e = .ok (some true) := by
  induction exprs with
  | nil => simp
  | cons e exprs ih =>
    obtain ⟨cache, -, h⟩ := h.bind_ok
    obtain ⟨ok, hok, h⟩ := h.bind_ok
    cases ok with
    | false => cases h
    | true =>
      intro e' he' hplain
      obtain rfl | he' := mem_cons.mp he'
      · exact (passes_of_isPlain hplain).mp hok
      · exact ih h e' he' hplain

theorem ChecksHold.sameButId (hab : SameButId a b) (h : ChecksHold schema a) :
    ChecksHold schema b := by
  intro e he hplain hid
  rw [← h e he hplain hid]
  refine evalExprScoped_congr_find fun c hc => ?_
  rw [evalExprScoped.find, evalExprScoped.find, findValue_congr fun i hi => (hab i ?_).symm]
  intro h0
  exact hid c hc (h0 ▸ hi)

/-- What a row must satisfy on its own. -/
structure RowHolds (schema : Schema) (row : Row) : Prop where
  notNull : NotNullHolds schema row
  checks : ChecksHold schema row

theorem RowHolds.sameButId (hs : schema.HasId) (hab : SameButId a b) (h : RowHolds schema a) :
    RowHolds schema b :=
  ⟨h.notNull.sameButId hs hab, h.checks.sameButId hab⟩

/-! ## Candidate rows -/

section

variable {v : ReadView} {depth : Nat} {rt : ReadTable}

/-- What a row that passed all checks has passed. -/
structure Passed (v : ReadView) (depth : Nat) (rt : ReadTable) (row : Row)
    (excludeId : Option Nat) : Prop where
  notNull : checkNotNull rt.schema row rt.schema.notNull = .ok ()
  unique : checkUnique rt row excludeId (uniqueGroups rt.schema) = .ok ()
  exprs : checkExprs v depth rt.schema row rt.schema.checks = .ok ()
  foreign : checkForeignKeys v rt.schema row rt.schema.foreignKeys = .ok ()

theorem enforceConstraints_ok (h : enforceConstraints v depth rt row excludeId = .ok ()) :
    Passed v depth rt row excludeId := by
  obtain ⟨_, hnull, h⟩ := h.bind_ok
  obtain ⟨_, hunique, h⟩ := h.bind_ok
  obtain ⟨_, hexprs, h⟩ := h.bind_ok
  exact ⟨hnull, hunique, hexprs, h⟩

theorem Passed.rowHolds (h : Passed v depth rt row excludeId) : RowHolds rt.schema row :=
  ⟨fun c hc _ => checkNotNull_ok h.notNull c hc,
    fun e he hplain _ => checkExprs_ok h.exprs e he hplain⟩

theorem checkRows_ok {before rows : List Row} (h : checkRows v depth rt before rows = .ok ()) :
    ∀ row ∈ rows, Passed v depth rt row none := by
  induction rows generalizing before with
  | nil => simp
  | cons r rows ih =>
    obtain ⟨_, hr, h⟩ := h.bind_ok
    obtain ⟨-, -, h⟩ := h.bind_ok
    intro row hrow
    obtain rfl | hrow := mem_cons.mp hrow
    · exact enforceConstraints_ok hr
    · exact ih h row hrow

end

end Archon
