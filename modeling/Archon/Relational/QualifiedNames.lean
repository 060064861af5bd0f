import Archon.Lib.Lookup
import Archon.Relational.Names
import Archon.Relational.Predicate
import Archon.Relational.RowLaw

/-!
# Archon.Relational.QualifiedNames

What `q.c` stands for in `WHERE`, `HAVING` and `ON`, against the column `c` of
the nearest `FROM` or `JOIN` item called `q`.

The source looks a qualified name up among strings.  The columns of the first
item are listed bare and those of the others under their qualified names; to
the queries inside its `WHERE` a query lists all of them qualified, to those
inside its `HAVING` as they are, and `ON` sees no enclosing query.
-/

namespace Archon

open List Option

/-! ## Levels -/

/-- How a column is listed where names are looked up. -/
inductive Listing where
  | qualified
  | bare
  | hidden
deriving DecidableEq

/-- A column of a row: of an item of a `FROM` clause, or computed. -/
structure Field where
  item : Option String
  column : String
  listing : Listing

namespace Field

/-- The name it is listed under. -/
def shown (f : Field) : String :=
  match f.item, f.listing with
  | some label, .qualified => qualify label f.column
  | _, _ => f.column

/-- Column `c` of an item `q`. -/
def isColumn (q c : String) (f : Field) : Bool := f.item == some q && f.column == c

/-- It is listed as `q.c`. -/
def listedAs (q c : String) (f : Field) : Bool := f.isColumn q c && f.listing == .qualified

/-- It can be found under its last part. -/
def endsIn (c : String) (f : Field) : Bool := f.column == c && f.listing != .hidden

def hide (f : Field) : Field := { f with listing := .hidden }

end Field

/-- A query on one of its rows: the items of its `FROM` and the columns of the
row. -/
structure Level where
  labels : List String
  fields : List Field

/-- Columns belong to the items, and have no dots in their names. -/
structure Level.Proper (level : Level) : Prop where
  labels : ∀ f ∈ level.fields, ∀ q, f.item = some q → q ∈ level.labels
  noDots : ∀ f ∈ level.fields, hasDot f.column = false

/-- All columns are listed. -/
def Level.Listed (level : Level) : Prop :=
  ∀ f ∈ level.fields, f.listing ≠ .hidden ∧ (f.item = none → f.listing = .bare)

def Level.columns (level : Level) : List String := level.fields.map Field.shown

def Level.hide (level : Level) : Level := { level with fields := level.fields.map Field.hide }

/-- Column `c` of the nearest item `q`. -/
def meaning (q c : String) : List (Level × Row) → Option Value
  | [] => none
  | (level, row) :: outer =>
    if q ∈ level.labels then readFirst (Field.isColumn q c) level.fields row
    else meaning q c outer

/-- The nearest item `q` has a column `c`. -/
def Defines (q c : String) : List Level → Prop
  | [] => False
  | level :: outer =>
    if q ∈ level.labels then ∃ f ∈ level.fields, f.isColumn q c = true else Defines q c outer

/-- A row for each level. -/
def Shaped (levels : List Level) (rows : List Row) : Prop :=
  rows.map List.length = levels.map fun level => level.fields.length

/-- The name is not misread: the column is listed under it; or it is bare, the
first with its last part, and no item `q` lists a column `c`.  Where there is
no such column, none is listed under the name, nor, if `q` is an item here, has
any column that last part. -/
structure Faithful (q c : String) (qualifiers : List String) (levels : List Level) : Prop where
  defined : Defines q c levels →
    ∀ f, (levels.flatMap Level.fields).find? (Field.isColumn q c) = some f →
      f.listing = .qualified ∨ f.listing = .bare ∧ q ∈ qualifiers ∧
        (∀ g ∈ levels.flatMap Level.fields, g.listedAs q c = false) ∧
        ∀ g ∈ (levels.flatMap Level.fields).takeWhile (fun g => !g.isColumn q c),
          g.endsIn c = false
  undefined : ¬ Defines q c levels →
    (∀ g ∈ levels.flatMap Level.fields, g.listedAs q c = false) ∧
      (q ∈ qualifiers → ∀ g ∈ levels.flatMap Level.fields, g.endsIn c = false)

/-! ## Lookups -/

section

variable {columns : List String} {row : Row} {p : String → Bool}

theorem lookupColumn_eq (h : columns.length = row.length) :
    (lookupColumn columns row p : Outcome ε (Option Value)) = .ok (readFirst p columns row) := by
  unfold lookupColumn readFirst
  cases hi : columns.findIdx? p with
  | none => rfl
  | some i =>
    have hlt : i < row.length := h ▸ (findIdx?_eq_some_iff_findIdx_eq.mp hi).1
    have hv : row[i]? = some row[i] := getElem?_eq_getElem hlt
    simp [Outcome.index_eq_ok.mpr hv]

theorem lookupOuter_eq {scopes : List Scope} (h : ∀ s ∈ scopes, s.1.length = s.2.length) :
    (lookupOuter p scopes : Outcome ε (Option Value)) =
      .ok (readFirst p (scopes.flatMap Prod.fst) (scopes.flatMap Prod.snd)) := by
  induction scopes with
  | nil => rfl
  | cons s scopes ih =>
    obtain ⟨columns, row⟩ := s
    have hs := h (columns, row) (.head _)
    rw [lookupOuter, lookupColumn_eq hs, ih fun s hs => h s (.tail _ hs),
      flatMap_cons, flatMap_cons, readFirst_append hs]
    cases readFirst p columns row <;> rfl

/-- A qualified name: as it is in all scopes, then by its last part. -/
theorem findValue_qualify {q c : String} (hc : hasDot c = false) {outer : List Scope}
    {qualifiers : List String} (hq : qualifiers ≠ [])
    (h : ∀ s ∈ (columns, row) :: outer, s.1.length = s.2.length) :
    (findValue (qualify q c) columns row outer qualifiers : Outcome ε (Option Value)) =
      .ok ((readFirst (· == qualify q c) (((columns, row) :: outer).flatMap Prod.fst)
        (((columns, row) :: outer).flatMap Prod.snd)).or
        (if q ∈ qualifiers then readFirst (unqualified · == c)
          (((columns, row) :: outer).flatMap Prod.fst) (((columns, row) :: outer).flatMap Prod.snd)
        else none)) := by
  have hown := h (columns, row) (.head _)
  have houter : ∀ s ∈ outer, s.1.length = s.2.length := fun s hs => h s (.tail _ hs)
  have hempty : qualifiers.isEmpty = false := by simpa using hq
  simp only [flatMap_cons, readFirst_append hown]
  unfold findValue
  simp only [lookupColumn_eq hown, lookupOuter_eq houter, hasDot_qualify, qualifier_qualify hc,
    unqualified_qualify hc, hempty]
  cases readFirst (· == qualify q c) columns row with
  | some v => rfl
  | none =>
    cases readFirst (· == qualify q c) (outer.flatMap Prod.fst) (outer.flatMap Prod.snd) with
    | some v => rfl
    | none =>
      by_cases hmem : q ∈ qualifiers
      · cases readFirst (unqualified · == c) columns row <;> simp [hmem]
      · simp [hmem]

end

/-! ## Names -/

namespace Field

variable {f : Field} {q c : String}

variable (hf : hasDot f.column = false)
include hf

theorem shown_eq (hlisted : f.listing ≠ .hidden) (hc : hasDot c = false) :
    (f.shown == qualify q c) = f.listedAs q c := by
  obtain ⟨item, column, listing⟩ := f
  change hasDot column = false at hf
  have hbare : (column == qualify q c) = false := by
    refine beq_false_of_ne fun h => ?_
    simp [h, hasDot_qualify] at hf
  cases item with
  | none => simp [shown, listedAs, isColumn, hbare]
  | some label =>
    cases listing with
    | hidden => exact absurd rfl hlisted
    | bare => simp [shown, listedAs, hbare]
    | qualified =>
      rw [Bool.eq_iff_iff]
      simp only [shown, listedAs, isColumn, beq_iff_eq, Bool.and_eq_true, Option.some.injEq,
        and_true]
      constructor
      · intro h
        constructor
        · rw [← qualifier_qualify hf label, h, qualifier_qualify hc]
        · rw [← unqualified_qualify hf label, h, unqualified_qualify hc]
      · rintro ⟨rfl, rfl⟩
        rfl

theorem unqualified_shown : unqualified f.shown = f.column := by
  unfold shown
  split
  · exact unqualified_qualify hf _
  · exact unqualified_of_noDot hf

theorem shown_endsIn (hlisted : f.listing ≠ .hidden) : (unqualified f.shown == c) = f.endsIn c := by
  rw [unqualified_shown hf, endsIn]
  simp [hlisted]

end Field

/-! ## Slots -/

section

variable {q c : String} {qualifiers : List String} {levels : List Level}

/-- Where the source finds the name among the columns. -/
def foundAt (q c : String) (qualifiers : List String) (fields : List Field) : Option Nat :=
  (fields.findIdx? (Field.listedAs q c)).or
    (if q ∈ qualifiers then fields.findIdx? (Field.endsIn c) else none)

theorem foundAt_bind (fields : List Field) {values : Row} (h : values.length = fields.length) :
    (foundAt q c qualifiers fields).bind (values[·]?) =
      (readFirst (Field.listedAs q c) fields values).or
        (if q ∈ qualifiers then readFirst (Field.endsIn c) fields values else none) := by
  unfold foundAt readFirst
  cases hi : fields.findIdx? (Field.listedAs q c) with
  | none => split <;> simp
  | some i =>
    have hlt : i < values.length := h ▸ (findIdx?_eq_some_iff_findIdx_eq.mp hi).1
    simp [getElem?_eq_getElem hlt]

open Classical in
/-- Where the column is. -/
noncomputable def definedAt (q c : String) (levels : List Level) : Option Nat :=
  if Defines q c levels then (levels.flatMap Level.fields).findIdx? (Field.isColumn q c) else none

theorem meaning_eq (hp : ∀ level ∈ levels, level.Proper) {rows : List Row}
    (hrows : Shaped levels rows) :
    meaning q c (levels.zip rows) = (definedAt q c levels).bind (rows.flatten[·]?) := by
  induction levels generalizing rows with
  | nil => simp [meaning, definedAt]
  | cons level levels ih =>
    cases rows with
    | nil => cases hrows
    | cons row rows =>
      obtain ⟨hrow, hrest⟩ := List.cons.inj hrows
      have hlevel := hp level (.head _)
      have ih := ih (fun l hl => hp l (.tail level hl)) hrest
      have hwide : level.fields.length = row.length := hrow.symm
      by_cases hq : q ∈ level.labels
      · by_cases hf : ∃ f ∈ level.fields, f.isColumn q c = true
        · have hdef : Defines q c (level :: levels) := by simpa [Defines, hq] using hf
          obtain ⟨i, hi⟩ := isSome_iff_exists.mp
            (findIdx?_isSome.trans (any_eq_true.mpr hf))
          have hlt : i < row.length := hwide ▸ (findIdx?_eq_some_iff_findIdx_eq.mp hi).1
          simp [meaning, hq, definedAt, hdef, hi, readFirst, getElem?_append_left hlt]
        · have hdef : ¬ Defines q c (level :: levels) := by simpa [Defines, hq] using hf
          have hnone : readFirst (Field.isColumn q c) level.fields row = none :=
            readFirst_eq_none (by simpa using hf)
          simp [meaning, hq, definedAt, hdef, hnone]
      · have hnone : ∀ f ∈ level.fields, f.isColumn q c = false := by
          intro f hf
          refine Bool.eq_false_iff.mpr fun h => hq (hlevel.labels f hf q ?_)
          simp only [Field.isColumn, Bool.and_eq_true, beq_iff_eq] at h
          exact h.1
        have hdef : Defines q c (level :: levels) ↔ Defines q c levels := by
          simp [Defines, hq]
        rw [zip_cons_cons, meaning, if_neg hq, ih, definedAt, definedAt]
        by_cases hd : Defines q c levels
        · have happend := @readFirst_append _ _ (Field.isColumn q c) level.fields
            (levels.flatMap Level.fields) row rows.flatten hwide
          rw [readFirst_eq_none hnone] at happend
          rw [if_pos hd, if_pos (hdef.mpr hd)]
          exact happend.symm
        · grind

theorem Defines.exists_field (h : Defines q c levels) :
    ∃ f ∈ levels.flatMap Level.fields, f.isColumn q c = true := by
  induction levels with
  | nil => exact h.elim
  | cons level levels ih =>
    rw [Defines] at h
    split at h
    · obtain ⟨f, hf, hcolumn⟩ := h
      exact ⟨f, by simp [hf], hcolumn⟩
    · obtain ⟨f, hf, hcolumn⟩ := ih h
      exact ⟨f, mem_append_right _ hf, hcolumn⟩

/-- Found at the first column `c` of an item `q`. -/
theorem foundAt_eq_some_iff {f : Field} {before after : List Field}
    (hbefore : ∀ g ∈ before, g.isColumn q c = false) (hf : f.isColumn q c = true) :
    foundAt q c qualifiers (before ++ f :: after) = some before.length ↔
      f.listing = .qualified ∨ f.listing = .bare ∧ q ∈ qualifiers ∧
        (∀ g ∈ before ++ f :: after, g.listedAs q c = false) ∧
        ∀ g ∈ before, g.endsIn c = false := by
  have hcolumn : f.column = c := by
    simp only [Field.isColumn, Bool.and_eq_true, beq_iff_eq] at hf
    exact hf.2
  constructor
  · intro h
    by_cases hl : f.listing = .qualified
    · exact .inl hl
    · refine .inr ?_
      unfold foundAt at h
      cases hi : (before ++ f :: after).findIdx? (Field.listedAs q c) with
      | some i =>
        rw [hi] at h
        cases h
        have hlisted := (findIdx?_append_cons.mp hi).2
        simp [Field.listedAs, hl] at hlisted
      | none =>
        rw [hi] at h
        by_cases hq : q ∈ qualifiers
        · rw [if_pos hq] at h
          obtain ⟨hfirst, hends⟩ := findIdx?_append_cons.mp h
          have hbare : f.listing = .bare := by
            cases hlisting : f.listing with
            | qualified => exact absurd hlisting hl
            | bare => rfl
            | hidden => simp [Field.endsIn, hlisting] at hends
          exact ⟨hbare, hq, findIdx?_eq_none_iff.mp hi, hfirst⟩
        · grind
  · rintro (hl | ⟨hl, hq, hlisted, hfirst⟩)
    · have hlisted : f.listedAs q c = true := by simp [Field.listedAs, hf, hl]
      have hi : (before ++ f :: after).findIdx? (Field.listedAs q c) = some before.length := by
        refine findIdx?_append_cons.mpr ⟨fun g hg => ?_, hlisted⟩
        simp [Field.listedAs, hbefore g hg]
      rw [foundAt, hi, some_or]
    · have hends : f.endsIn c = true := by simp [Field.endsIn, hcolumn, hl]
      simp [foundAt, findIdx?_eq_none_iff.mpr hlisted, hq, findIdx?_append_cons.mpr
        ⟨hfirst, hends⟩]

/-- The name is found where the column is exactly if it is not misread. -/
theorem foundAt_eq_iff : foundAt q c qualifiers (levels.flatMap Level.fields) =
    definedAt q c levels ↔
    Faithful q c qualifiers levels := by
  by_cases hd : Defines q c levels
  · obtain ⟨f, hf⟩ := isSome_iff_exists.mp (find?_isSome.mpr hd.exists_field)
    obtain ⟨hcolumn, before, after, hfields, hbefore⟩ := find?_eq_some_iff_append.mp hf
    have hbefore : ∀ g ∈ before, g.isColumn q c = false := by simpa using hbefore
    have hat : definedAt q c levels = some before.length := by
      simp [definedAt, hd, hfields, findIdx?_append_cons.mpr ⟨hbefore, hcolumn⟩]
    have hwhile : (before ++ f :: after).takeWhile (fun g => !g.isColumn q c) = before := by
      rw [takeWhile_append_of_pos (by simpa using hbefore)]
      simp [hcolumn]
    rw [hat, hfields, foundAt_eq_some_iff hbefore hcolumn]
    constructor
    · intro h
      refine ⟨fun _ g hg => ?_, fun hn => absurd hd hn⟩
      rw [hf] at hg
      cases hg
      rwa [hfields, hwhile]
    · intro h
      have h := h.defined hd f hf
      rwa [hfields, hwhile] at h
  · rw [definedAt, if_neg hd]
    simp only [foundAt, or_eq_none_iff, findIdx?_eq_none_iff, ite_eq_right_iff]
    exact ⟨fun h => ⟨fun hn => absurd hn hd, fun _ => h⟩, fun h => h.undefined hd⟩

/-- A name means what it says on all rows exactly if it is not misread. -/
theorem reads_meaning_iff (hp : ∀ level ∈ levels, level.Proper) :
    (∀ rows, Shaped levels rows →
      (foundAt q c qualifiers (levels.flatMap Level.fields)).bind (rows.flatten[·]?) =
        meaning q c (levels.zip rows)) ↔ Faithful q c qualifiers levels := by
  have hlen : ∀ rows, Shaped levels rows →
      rows.flatten.length = (levels.flatMap Level.fields).length := by
    intro rows hrows
    rw [length_flatten, hrows, length_flatMap]
  rw [← foundAt_eq_iff, ← @slot_eq_iff Value (levels.flatMap Level.fields).length _ _
    (fun i hi => ?_) (fun i hi => ?_) (.int 0) .null (by simp)]
  · constructor
    · intro h values hvalues
      let sizes := levels.map fun level => level.fields.length
      have hsum : sizes.sum = values.length := by rw [hvalues, length_flatMap]
      have hshaped : Shaped levels (sizes.splitLengths values) :=
        map_splitLengths_length values sizes hsum.le
      have h := h _ hshaped
      rwa [meaning_eq hp hshaped, flatten_splitLengths values sizes hsum.ge] at h
    · intro h rows hrows
      rw [meaning_eq hp hrows]
      exact h rows.flatten (hlen rows hrows)
  · unfold foundAt at hi
    rcases or_eq_some_iff.mp hi with hi | ⟨-, hi⟩
    · exact (findIdx?_eq_some_iff_findIdx_eq.mp hi).1
    · split at hi
      · exact (findIdx?_eq_some_iff_findIdx_eq.mp hi).1
      · cases hi
  · unfold definedAt at hi
    split at hi
    · exact (findIdx?_eq_some_iff_findIdx_eq.mp hi).1
    · cases hi

end

/-! ## Scopes -/

/-- The scopes of levels on their rows. -/
def scopesOf (levels : List Level) (rows : List Row) : List Scope :=
  (levels.zip rows).map fun (level, row) => (level.columns, row)

section

variable {q c : String} {qualifiers : List String} {own : Level} {outer levels : List Level}
  {row : Row} {rows : List Row}

theorem scopesOf_wide (h : Shaped levels rows) : ∀ s ∈ scopesOf levels rows, s.1.length =
    s.2.length := by
  induction levels generalizing rows with
  | nil => simp [scopesOf]
  | cons level levels ih =>
    cases rows with
    | nil => cases h
    | cons row rows =>
      obtain ⟨hrow, hrest⟩ := List.cons.inj h
      exact forall_mem_cons.mpr ⟨by simpa [Level.columns] using hrow.symm, ih hrest⟩

/-- The names in scope, and the values. -/
theorem scopesOf_unzip (h : Shaped levels rows) :
    (scopesOf levels rows).flatMap Prod.fst = (levels.flatMap Level.fields).map Field.shown ∧
      (scopesOf levels rows).flatMap Prod.snd = rows.flatten := by
  have hzip : scopesOf levels rows = (levels.map Level.columns).zip rows := zip_map_left.symm
  have hlen : (levels.map Level.columns).length = rows.length := by
    simpa [Shaped] using (congrArg List.length h).symm
  rw [hzip, map_flatMap]
  simp only [flatMap_def, map_fst_zip hlen.le, map_snd_zip hlen.ge]
  exact ⟨rfl, trivial⟩

/-- What the source finds in listed levels. -/
theorem findValue_levels (hc : hasDot c = false) (hq : qualifiers ≠ [])
    (hp : ∀ level ∈ own :: outer, level.Proper) (hl : ∀ level ∈ own :: outer, level.Listed)
    (h : Shaped (own :: outer) (row :: rows)) :
    (findValue (qualify q c) own.columns row (scopesOf outer rows) qualifiers :
        Outcome ε (Option Value)) =
      .ok ((foundAt q c qualifiers ((own :: outer).flatMap Level.fields)).bind
        ((row :: rows).flatten[·]?)) := by
  have hfields : ∀ f ∈ (own :: outer).flatMap Level.fields,
      hasDot f.column = false ∧ f.listing ≠ .hidden := by
    intro f hf
    obtain ⟨level, hlevel, hf⟩ := mem_flatMap.mp hf
    exact ⟨(hp level hlevel).noDots f hf, (hl level hlevel f hf).1⟩
  have hlen : (row :: rows).flatten.length = ((own :: outer).flatMap Level.fields).length := by
    rw [length_flatten, h, length_flatMap]
  have hscopes : scopesOf (own :: outer) (row :: rows) =
      (own.columns, row) :: scopesOf outer rows := rfl
  have hwide := scopesOf_wide h
  rw [hscopes] at hwide
  have hexact : ∀ f ∈ (own :: outer).flatMap Level.fields,
      ((· == qualify q c) ∘ Field.shown) f = f.listedAs q c :=
    fun f hf => Field.shown_eq (hfields f hf).1 (hfields f hf).2 hc
  have hends : ∀ f ∈ (own :: outer).flatMap Level.fields,
      ((unqualified · == c) ∘ Field.shown) f = f.endsIn c :=
    fun f hf => Field.shown_endsIn (hfields f hf).1 (hfields f hf).2
  rw [findValue_qualify hc hq hwide, ← hscopes, (scopesOf_unzip h).1, (scopesOf_unzip h).2,
    foundAt_bind _ hlen, readFirst_map, readFirst_map, readFirst_congr hexact,
      readFirst_congr hends]

/-- A lookup means what it says exactly if the name is not misread. -/
theorem find_iff (find : Row → List Row → Outcome ε (Option Value))
    (hp : ∀ level ∈ own :: outer, level.Proper)
    (hfind : ∀ row rows, Shaped (own :: outer) (row :: rows) → find row rows =
      .ok ((foundAt q c qualifiers ((own :: outer).flatMap Level.fields)).bind
        ((row :: rows).flatten[·]?))) :
    (∀ row rows, Shaped (own :: outer) (row :: rows) →
      find row rows = .ok (meaning q c ((own, row) :: outer.zip rows))) ↔
      Faithful q c qualifiers (own :: outer) := by
  rw [← reads_meaning_iff hp]
  constructor
  · intro h rows hrows
    cases rows with
    | nil => cases hrows
    | cons row rows => exact Except.ok.inj ((hfind row rows hrows).symm.trans (h row rows hrows))
  · intro h row rows hrows
    rw [hfind row rows hrows]
    exact congrArg Except.ok (h (row :: rows) hrows)

/-- `WHERE` and `HAVING` see the enclosing queries. -/
theorem findValue_iff (hc : hasDot c = false) (hq : qualifiers ≠ [])
    (hp : ∀ level ∈ own :: outer, level.Proper) (hl : ∀ level ∈ own :: outer, level.Listed) :
    (∀ row rows, Shaped (own :: outer) (row :: rows) →
      (findValue (qualify q c) own.columns row (scopesOf outer rows) qualifiers :
          Outcome ε (Option Value)) = .ok (meaning q c ((own, row) :: outer.zip rows))) ↔
      Faithful q c qualifiers (own :: outer) :=
  find_iff _ hp fun _ _ => findValue_levels hc hq hp hl

theorem meaning_hide (q c : String) (levels : List Level) (rows : List Row) :
    meaning q c ((levels.map Level.hide).zip rows) = meaning q c (levels.zip rows) := by
  induction levels generalizing rows with
  | nil => rfl
  | cons level levels ih =>
    cases rows with
    | nil => rfl
    | cons row rows =>
      have hhide : readFirst (Field.isColumn q c) level.hide.fields row =
          readFirst (Field.isColumn q c) level.fields row := readFirst_map Field.hide level.fields
      simp only [map_cons, zip_cons_cons, meaning, ih, hhide]
      rfl

theorem Level.Proper.hide {level : Level} (h : level.Proper) : level.hide.Proper :=
  ⟨forall_mem_map.mpr h.labels, forall_mem_map.mpr h.noDots⟩

theorem foundAt_hide (hrows : Shaped (own :: outer) (row :: rows)) :
    (foundAt q c qualifiers ((own :: outer.map Level.hide).flatMap Level.fields)).bind
        ((row :: rows).flatten[·]?) =
      (foundAt q c qualifiers own.fields).bind (row[·]?) := by
  have hwide : own.fields.length = row.length := (List.cons.inj hrows).1.symm
  have hhidden : ∀ f ∈ (outer.map Level.hide).flatMap Level.fields, f.listing = .hidden := by
    intro f hf
    obtain ⟨_, hlevel, hf⟩ := mem_flatMap.mp hf
    obtain ⟨level, -, rfl⟩ := mem_map.mp hlevel
    obtain ⟨g, -, rfl⟩ := mem_map.mp hf
    rfl
  have hlisted : ∀ f ∈ (outer.map Level.hide).flatMap Level.fields, f.listedAs q c = false :=
    fun f hf => by simp [Field.listedAs, hhidden f hf]
  have hends : ∀ f ∈ (outer.map Level.hide).flatMap Level.fields, f.endsIn c = false :=
    fun f hf => by simp [Field.endsIn, hhidden f hf]
  have hlen : (row :: rows).flatten.length =
      ((own :: outer.map Level.hide).flatMap Level.fields).length := by
    rw [length_flatten, hrows]
    simp [Level.hide, Function.comp_def]
  rw [foundAt_bind _ hlen, foundAt_bind _ hwide.symm, flatMap_cons, flatten_cons,
    readFirst_append hwide, readFirst_append hwide, readFirst_eq_none hlisted,
    readFirst_eq_none hends, or_none, or_none]

/-- `ON` does not. -/
theorem findValue_on_iff (hc : hasDot c = false) (hq : qualifiers ≠ [])
    (hp : ∀ level ∈ own :: outer, level.Proper) (hl : own.Listed) :
    (∀ row rows, Shaped (own :: outer) (row :: rows) →
      (findValue (qualify q c) own.columns row [] qualifiers : Outcome ε (Option Value)) =
        .ok (meaning q c ((own, row) :: outer.zip rows))) ↔
      Faithful q c qualifiers (own :: outer.map Level.hide) := by
  have hproper : ∀ level ∈ own :: outer.map Level.hide, level.Proper := by
    obtain ⟨hown, houter⟩ := forall_mem_cons.mp hp
    exact forall_mem_cons.mpr ⟨hown, forall_mem_map.mpr fun l hl => (houter l hl).hide⟩
  have hshaped : ∀ rows, Shaped (own :: outer.map Level.hide) rows ↔ Shaped (own :: outer)
      rows := by
    simp [Shaped, Level.hide, Function.comp_def]
  rw [← find_iff (ε := ε) (fun row _ => findValue (qualify q c) own.columns row []
    qualifiers) hproper]
  · simp [hshaped, meaning, meaning_hide]
  · intro row rows hrows
    have hfind : (findValue (qualify q c) own.columns row (scopesOf [] []) qualifiers :
        Outcome ε (Option Value)) = .ok ((foundAt q c qualifiers ([own].flatMap Level.fields)).bind
          ([row].flatten[·]?)) := by
      refine findValue_levels hc hq (by simpa using hp own (.head _)) (by simpa using hl) ?_
      simpa [Shaped] using (List.cons.inj hrows).1
    grind [foundAt_hide ((hshaped _).mp hrows), scopesOf]

end

/-! ## The clauses of a query -/

/-- An item of a `FROM` clause, by its name or alias. -/
structure Item where
  label : String
  columns : List String

def Item.fields (listing : Listing) (item : Item) : List Field :=
  item.columns.map fun c => ⟨some item.label, c, listing⟩

section

variable (base : Item) (joins : List Item)

/-- The columns as `WHERE` lists them. -/
def whereLevel : Level where
  labels := base.label :: joins.map Item.label
  fields := base.fields .bare ++ joins.flatMap (Item.fields .qualified)

/-- The columns as `ON` and the queries inside `WHERE` list them. -/
def scopeLevel : Level where
  labels := base.label :: joins.map Item.label
  fields := base.fields .qualified ++ joins.flatMap (Item.fields .qualified)

/-- `HAVING` lists the columns left by grouping, and computed ones. -/
def havingLevel (fields : List Field) : Level where
  labels := base.label :: joins.map Item.label
  fields := fields

/-- A computed column, such as an aggregate. -/
def Field.Computed (f : Field) : Prop :=
  f.item = none ∧ f.listing = .bare ∧ hasDot f.column = false

variable {base joins}

theorem Item.columns_bare (item : Item) : (item.fields .bare).map Field.shown = item.columns := by
  simp [Item.fields, Function.comp_def, Field.shown]

theorem Item.columns_qualified (item : Item) :
    (item.fields .qualified).map Field.shown = item.columns.map (qualify item.label) := by
  simp [Item.fields, Field.shown]

theorem whereLevel_columns : (whereLevel base joins).columns =
    base.columns ++ joins.flatMap fun i => i.columns.map (qualify i.label) := by
  simp [Level.columns, whereLevel, Item.columns_bare, map_flatMap,
    Item.columns_qualified]

theorem scopeLevel_columns : (scopeLevel base joins).columns =
    base.columns.map (qualify base.label) ++
      joins.flatMap fun i => i.columns.map (qualify i.label) := by
  simp [Level.columns, scopeLevel, map_flatMap, Item.columns_qualified]

/-- The code qualifies what has no dot. -/
theorem qualifyBare_whereLevel (hdots : ∀ c ∈ base.columns, hasDot c = false) :
    qualifyBare base.label (whereLevel base joins).columns = (scopeLevel base joins).columns := by
  rw [whereLevel_columns, scopeLevel_columns, qualifyBare, map_append, map_flatMap]
  congr 1
  · exact map_congr_left fun c hc => by simp [hdots c hc]
  · refine congrArg (List.flatMap · joins) (funext fun i => ?_)
    simp [hasDot_qualify]

theorem fields_proper {listing : Listing}
    (hdots : ∀ i ∈ base :: joins, ∀ c ∈ i.columns, hasDot c = false) :
    ∀ f ∈ base.fields listing ++ joins.flatMap (Item.fields .qualified),
      (∀ q, f.item = some q → q ∈ base.label :: joins.map Item.label) ∧ f.item ≠ none ∧
        hasDot f.column = false ∧ (f.listing = listing ∨ f.listing = .qualified) := by
  intro f hf
  rcases mem_append.mp hf with hf | hf
  · obtain ⟨c, hc, rfl⟩ := mem_map.mp hf
    simp [hdots base (.head _) c hc]
  · obtain ⟨i, hi, hf⟩ := mem_flatMap.mp hf
    obtain ⟨c, hc, rfl⟩ := mem_map.mp hf
    grind

theorem level_proper {listing : Listing} (hlisting : listing ≠ .hidden)
    (hdots : ∀ i ∈ base :: joins, ∀ c ∈ i.columns, hasDot c = false) :
    Level.Proper ⟨base.label :: joins.map Item.label,
        base.fields listing ++ joins.flatMap (Item.fields .qualified)⟩ ∧
      Level.Listed ⟨base.label :: joins.map Item.label,
        base.fields listing ++ joins.flatMap (Item.fields .qualified)⟩ := by
  have h := @fields_proper base joins listing hdots
  refine ⟨⟨fun f hf => (h f hf).1, fun f hf => (h f hf).2.2.1⟩, fun f hf => ⟨?_, ?_⟩⟩
  · rcases (h f hf).2.2.2 with h | h <;> simp [h, hlisting]
  · exact fun hnone => absurd hnone (h f hf).2.1

end

/-- The reference resolves to a table with the columns of the item. -/
def Reads (v : ReadView) (run : Runner) (ctes : List CTE) (binding : Option RecursiveBinding)
    (r : TableRef) (item : Item) : Prop :=
  r.name = item.label ∧ ∃ rows, resolveTableRef v run r ctes binding = .ok ⟨item.columns, rows⟩

section

variable {v : ReadView} {run : Runner} {ctes : List CTE} {binding : Option RecursiveBinding}

theorem joinTables_columns {base : String} {qualifiers : List String} {joins : List Join}
    {items : List Item} {table table' : Table}
    (hjoins : List.Forall₂ (fun j i => Reads v run ctes binding j.table i) joins items)
    (h : joinTables v run base ctes binding qualifiers joins table = .ok table') :
    table'.columns = table.columns ++ items.flatMap fun i => i.columns.map (qualify i.label) := by
  induction hjoins generalizing table with
  | nil =>
    cases h
    simp
  | cons hitem _ ih =>
    obtain ⟨hname, rows, hrows⟩ := hitem
    rw [joinTables, hrows, Except.ok_bind] at h
    obtain ⟨joined, -, h⟩ := h.bind_ok
    grind

theorem joined_columns {source : FromClause} {base : Item} {joins : List Item} {table : Table}
    (hbase : Reads v run ctes binding source.table base)
    (hjoins : List.Forall₂ (fun j i => Reads v run ctes binding j.table i) source.joins joins)
    (h : source.joined v run ctes binding = .ok table) :
    table.columns = (whereLevel base joins).columns := by
  obtain ⟨-, rows, hrows⟩ := hbase
  obtain ⟨-, -, h⟩ := h.bind_ok
  rw [hrows] at h
  rw [joinTables_columns hjoins h, whereLevel_columns]

end

/-- `t CROSS JOIN u`. -/
def crossTU : FromClause := ⟨[], .named "t" none, [⟨.cross, .named "u" none, none⟩]⟩

/-- `SELECT * FROM t CROSS JOIN u WHERE EXISTS (SELECT * FROM t [AS label] WHERE
label.a = 2 AND label.a = u.b)`. -/
def selectInner (aliasName : Option String) (label : String) : SelectStatement :=
  selectStar ⟨[], .named "t" none, [⟨.cross, .named "u" none, none⟩]⟩
    (some (.existsQuery (selectStar ⟨[], .named "t" aliasName, []⟩
      (some (.and (.cmp (qualify label "a") .eq (.int 2))
        (.cmpColumn (qualify label "a") .eq "u.b"))))))

end Archon
