import Archon.Relational.RowLaw
import Archon.Relational.ValueOrder
import Mathlib.Data.Finset.Basic

/-!
# Archon.Relational.SetOperations

`UNION`, `INTERSECT` and `EXCEPT` of the source against those of SQL
(`run_compound` of `crates/tpt-archon-relational/src/database/select.rs`).

The two agree but for `EXCEPT`, which in the source keeps the duplicates of
its left operand.  A row kept twice stays so until a later `UNION` or
`INTERSECT` takes the duplicates out, or a later `EXCEPT` takes out the row
(`Settled`); so the result is SQL's exactly when every row that an `EXCEPT`
keeps twice is settled behind it (`compound_sql_iff`).
-/

namespace Archon

open Multiset

/-! ## The operations on multisets -/

section

variable {α : Type} [DecidableEq α]

/-- What SQL makes of two multisets of rows. -/
def SetOperation.sql : SetOperation → Multiset α → Multiset α → Multiset α
  | .union true, l, r => l + r
  | .union false, l, r => (l.toFinset ∪ r.toFinset).val
  | .intersect, l, r => (l.toFinset ∩ r.toFinset).val
  | .except, l, r => (l.toFinset \ r.toFinset).val

/-- What the source makes of them: `EXCEPT` keeps duplicates. -/
def SetOperation.combine : SetOperation → Multiset α → Multiset α → Multiset α
  | .except, l, r => l.filter (· ∉ r)
  | op, l, r => op.sql l r

/-- The value of a chain, from left to right. -/
def chain (step : SetOperation → Multiset α → Multiset α → Multiset α) (first : Multiset α)
    (operands : List (SetOperation × List α)) : Multiset α :=
  operands.foldl (fun value operand => step operand.1 value operand.2) first

/-- An operation behind an `EXCEPT` makes up for a row that was kept twice. -/
def Settled (row : α) (operands : List (SetOperation × List α)) : Prop :=
  ∃ operand ∈ operands, operand.1 = .union false ∨ operand.1 = .intersect ∨
    operand.1 = .except ∧ row ∈ operand.2

/-- Every row that an `EXCEPT` of the chain would keep twice is settled behind
it. -/
def DuplicatesSettled (first : List α) (operands : List (SetOperation × List α)) : Prop :=
  ∀ before right behind row, operands = before ++ (.except, right) :: behind → row ∉ right →
    2 ≤ (chain SetOperation.sql first before).count row → Settled row behind

/-! ## Counting one row -/

/-- How often a row is in the result, from how often it is in the operands. -/
def SetOperation.sqlCount : SetOperation → Nat → Nat → Nat
  | .union true, l, r => l + r
  | .union false, l, r => if 0 < l ∨ 0 < r then 1 else 0
  | .intersect, l, r => if 0 < l ∧ 0 < r then 1 else 0
  | .except, l, r => if 0 < l ∧ ¬ 0 < r then 1 else 0

theorem count_val (s : Finset α) (x : α) : s.val.count x = if x ∈ s then 1 else 0 :=
  count_eq_of_nodup s.nodup

theorem SetOperation.count_sql (op : SetOperation) (l r : Multiset α) (x : α) :
    (op.sql l r).count x = op.sqlCount (l.count x) (r.count x) := by
  cases op with
  | union all =>
    cases all with
    | true => exact count_add ..
    | false => simp only [sql, sqlCount, count_val, Finset.mem_union, mem_toFinset,
        count_pos]
  | intersect => simp only [sql, sqlCount, count_val, Finset.mem_inter, mem_toFinset,
      count_pos]
  | except => simp only [sql, sqlCount, count_val, Finset.mem_sdiff, mem_toFinset,
      count_pos]

/-- The same for the source. -/
def SetOperation.combineCount : SetOperation → Nat → Nat → Nat
  | .except, l, r => if 0 < r then 0 else l
  | op, l, r => op.sqlCount l r

theorem SetOperation.count_combine (op : SetOperation) (l r : Multiset α) (x : α) :
    (op.combine l r).count x = op.combineCount (l.count x) (r.count x) := by
  cases op with
  | except =>
    rw [combine, combineCount]
    by_cases hx : x ∈ r <;> simp [hx]
  | union all => exact (SetOperation.union all).count_sql l r x
  | intersect => exact SetOperation.intersect.count_sql l r x

/-- The source never has a row less often than SQL, and has none of its own. -/
theorem SetOperation.count_le (op : SetOperation) {l s : Nat} (r : Nat) (hle : s ≤ l)
    (hpos : 0 < l → 0 < s) :
    op.sqlCount s r ≤ op.combineCount l r ∧ (0 < op.combineCount l r → 0 < op.sqlCount s r) := by
  cases op with
  | union all =>
    cases all <;> simp only [combineCount, sqlCount]
    · split_ifs <;> omega
    · omega
  | intersect | except => grind [combineCount, sqlCount]

/-- The operation takes out what the source has too often of a row that the
right operand has `r` times. -/
def SetOperation.Settles (op : SetOperation) (r : Nat) : Prop :=
  op = .union false ∨ op = .intersect ∨ op = .except ∧ 0 < r

/-- One step: the counts agree afterwards, or `later` makes up for it. -/
theorem SetOperation.count_eq_iff (op : SetOperation) {l s : Nat} (r : Nat) (hle : s ≤ l)
    (hpos : 0 < l → 0 < s) (later : Prop) :
    (op.combineCount l r = op.sqlCount s r ∨ later) ↔
      (l = s ∨ op.Settles r ∨ later) ∧ (op = .except → ¬ 0 < r → 2 ≤ s → later) := by
  by_cases hl : later
  · simp [hl]
  · cases op with
    | union all =>
      cases all <;> simp only [combineCount, sqlCount, Settles]
      · split_ifs <;> simp <;> omega
      · simp
    | intersect | except =>
      simp only [hl, combineCount, sqlCount, Settles]
      split_ifs <;> simp <;> omega

/-! ## Chains -/

/-- The rows an `EXCEPT` of the chain keeps twice, one row at a time. -/
def SettledAt (row : α) : Nat → List (SetOperation × List α) → Prop
  | _, [] => True
  | n, (op, right) :: operands =>
    (op = .except → ¬ 0 < right.count row → 2 ≤ n → Settled row operands) ∧
      SettledAt row (op.sqlCount n (right.count row)) operands

section

variable (operands : List (SetOperation × List α))

/-- The counts of a row in the two values of a chain agree at its end exactly
when every difference, that there was at the start or that an `EXCEPT` makes,
is settled. -/
theorem count_chain_iff {row : α} {l s : Multiset α}
    (hle : s.count row ≤ l.count row) (hpos : 0 < l.count row → 0 < s.count row) :
    (chain SetOperation.combine l operands).count row =
        (chain SetOperation.sql s operands).count row ↔
      (l.count row = s.count row ∨ Settled row operands) ∧ SettledAt row (s.count row)
        operands := by
  induction operands generalizing l s with
  | nil => simp [chain, SettledAt, Settled]
  | cons operand operands ih =>
    obtain ⟨op, right⟩ := operand
    have hcode := op.count_combine l right row
    have hsql := op.count_sql s right row
    rw [coe_count] at hcode hsql
    obtain ⟨hle', hpos'⟩ := op.count_le (right.count row) hle hpos
    rw [← hcode, ← hsql] at hle' hpos'
    refine (ih hle' hpos').trans ?_
    rw [hcode, hsql, op.count_eq_iff _ hle hpos, SettledAt, and_assoc]
    simp [Settled, SetOperation.Settles]

theorem settledAt_iff {row : α} {s : Multiset α} :
    SettledAt row (s.count row) operands ↔
      ∀ before right behind, operands = before ++ (.except, right) :: behind → row ∉ right →
        2 ≤ (chain SetOperation.sql s before).count row → Settled row behind := by
  induction operands generalizing s with
  | nil => simp [SettledAt]
  | cons operand operands ih =>
    obtain ⟨op, right⟩ := operand
    have hsql := op.count_sql s right row
    rw [coe_count] at hsql
    rw [SettledAt, ← hsql, ih]
    constructor
    · rintro ⟨hhere, hthere⟩ before right' behind heq hrow hcount
      cases before with
      | nil =>
        cases heq
        exact hhere rfl (by simpa [List.count_pos_iff] using hrow) hcount
      | cons operand' before =>
        cases heq
        exact hthere before right' behind rfl hrow hcount
    · intro h
      refine ⟨?_, fun before right' behind heq hrow hcount => ?_⟩
      · rintro rfl hrow hcount
        exact h [] right operands rfl (by simpa [List.count_pos_iff] using hrow) hcount
      · exact h ((op, right) :: before) right' behind (by rw [heq]; rfl) hrow hcount

end

/-- The value of the source's chain is SQL's exactly when every row that an
`EXCEPT` keeps twice is settled. -/
theorem chain_eq_iff (first : List α) (operands : List (SetOperation × List α)) :
    chain SetOperation.combine first operands = chain SetOperation.sql first operands ↔
      DuplicatesSettled first operands := by
  rw [ext]
  constructor
  · intro h before right behind row
    have hrow := (count_chain_iff operands (Nat.le_refl _) id).mp (h row)
    exact settledAt_iff operands |>.mp hrow.2 before right behind
  · intro h row
    refine (count_chain_iff operands (Nat.le_refl _) id).mpr ⟨.inl rfl, ?_⟩
    exact (settledAt_iff operands).mpr fun before right behind => h before right behind row

end

/-! ## The source -/

/-- The rows a `SELECT` of a compound statement returns. -/
def selectedRows (v : ReadView) (depth : Nat) (params : Params) (stmt : SelectStatement) :
    List Row :=
  match runSelectScoped v depth stmt params [] [] none with
  | .ok rs => rs.rows
  | .error _ => []

/-- The operations of a compound statement with the rows of their right
operands. -/
def CompoundStatement.operands (stmt : CompoundStatement) (v : ReadView) (depth : Nat)
    (params : Params) : List (SetOperation × List Row) :=
  stmt.operations.map fun operation =>
    (operation.1, selectedRows v depth params operation.2)

variable {rows right : List Row} {v : ReadView} {depth : Nat} {params : Params}

theorem coe_dedup_sort (h : ∀ r ∈ rows, PlainRow r) :
    (dedupRows (sortRows rows) : Multiset Row) = rows.toFinset.val := by
  obtain ⟨hnd, hmem⟩ := dedup_sort h
  refine (Multiset.Nodup.ext (coe_nodup.mpr hnd) rows.toFinset.nodup).mpr fun x => ?_
  simp [hmem x]

/-- The rows after one operation, as the loop of `run_compound` computes
them. -/
def setStep (op : SetOperation) (rows right : List Row) : List Row :=
  match op with
  | .union true => rows ++ right
  | .union false => dedupRows (sortRows (rows ++ right))
  | .intersect => dedupRows (sortRows (rows.filter (containsRow right)))
  | .except => rows.filter fun row => !containsRow right row

theorem coe_setStep (op : SetOperation) (hrows : ∀ r ∈ rows, PlainRow r)
    (hright : ∀ r ∈ right, PlainRow r) :
    (setStep op rows right : Multiset Row) = op.combine rows right := by
  cases op with
  | union all =>
    cases all with
    | true => rfl
    | false =>
      rw [setStep, coe_dedup_sort fun r hr => (List.mem_append.mp hr).elim (hrows r) (hright r)]
      refine congrArg Finset.val (Finset.ext fun x => ?_)
      simp
  | intersect =>
    rw [setStep, coe_dedup_sort fun r hr => hrows r (List.mem_of_mem_filter hr)]
    refine congrArg Finset.val (Finset.ext fun x => ?_)
    simp [containsRow_iff hright]
  | except =>
    refine congrArg _ (List.filter_congr fun x _ => ?_)
    simp [← containsRow_iff hright]

theorem plain_setStep {op : SetOperation} (hrows : ∀ r ∈ rows, PlainRow r)
    (hright : ∀ r ∈ right, PlainRow r) : ∀ r ∈ setStep op rows right, PlainRow r := by
  have happ : ∀ r ∈ rows ++ right, PlainRow r :=
    fun r hr => (List.mem_append.mp hr).elim (hrows r) (hright r)
  have hfilter : ∀ p : Row → Bool, ∀ r ∈ rows.filter p, PlainRow r :=
    fun p r hr => hrows r (List.mem_of_mem_filter hr)
  cases op with
  | union all =>
    cases all with
    | true => exact happ
    | false => exact fun r hr => happ r (((dedup_sort happ).2 r).mp hr)
  | intersect => exact fun r hr => hfilter _ r (((dedup_sort (hfilter _)).2 r).mp hr)
  | except => exact hfilter _

theorem applySetOperations_ok {columns : List String}
    {operations : List (SetOperation × SelectStatement)} {out : List Row}
    (hrows : ∀ r ∈ rows, PlainRow r)
    (hplain : ∀ o ∈ operations, ∀ r ∈ selectedRows v depth params o.2, PlainRow r)
    (h : applySetOperations v depth params columns operations rows = .ok out) :
    (out : Multiset Row) = chain SetOperation.combine rows
      (operations.map fun o => (o.1, selectedRows v depth params o.2)) := by
  induction operations generalizing rows with
  | nil =>
    cases h
    rfl
  | cons operation operations ih =>
    obtain ⟨op, right⟩ := operation
    obtain ⟨rs, hrs, h⟩ := h.bind_ok
    obtain ⟨-, h⟩ := Outcome.unless_eq_ok.mp h
    obtain ⟨hright, hplain⟩ := List.forall_mem_cons.mp hplain
    have hsel : selectedRows v depth params right = rs.rows := by rw [selectedRows, hrs]
    rw [hsel] at hright
    have hstep := ih (plain_setStep hrows hright) hplain h
    rw [hstep, List.map_cons, chain, chain, List.foldl_cons, coe_setStep op hrows hright, hsel]

/-- `ORDER BY` permutes. -/
theorem sortByColumns_perm {rowOf : α → Row} {indices : List (Nat × Bool)} {xs ys : List α}
    (h : (sortByColumns rowOf indices xs : Outcome ε (List α)) = .ok ys) : ys.Perm xs := by
  unfold sortByColumns at h
  split at h
  next =>
    cases h
    exact List.mergeSort_perm ..
  next => cases h

theorem runCompound_ok {stmt : CompoundStatement} {rs : ResultSet} (hlimit : stmt.limit = none)
    (hplain : ∀ s ∈ stmt.first :: stmt.operations.map Prod.snd,
      ∀ r ∈ selectedRows v depth params s, PlainRow r)
    (h : runCompound v depth stmt params = .ok rs) :
    (rs.rows : Multiset Row) = chain SetOperation.combine
      (selectedRows v depth params stmt.first) (stmt.operands v depth params) := by
  obtain ⟨first, hfirst, h⟩ := h.bind_ok
  obtain ⟨rows, hrows, h⟩ := h.bind_ok
  have hperm : rs.rows.Perm rows := by
    dsimp only at h
    rw [hlimit] at h
    split at h
    next =>
      cases h
      exact .refl _
    next =>
      obtain ⟨indices, -, h⟩ := h.bind_ok
      obtain ⟨sorted, hsorted, h⟩ := h.bind_ok
      cases h
      exact sortByColumns_perm hsorted
  have hsel : selectedRows v depth params stmt.first = first.rows := by rw [selectedRows, hfirst]
  obtain ⟨hp, hps⟩ := List.forall_mem_cons.mp hplain
  rw [hsel] at hp
  have hchain := applySetOperations_ok hp (fun o ho => hps o.2 (List.mem_map_of_mem ho)) hrows
  rw [hsel, CompoundStatement.operands, ← hchain, coe_eq_coe]
  exact hperm

/-! ## Set operations -/

/-- The rows of a compound statement without `LIMIT` are those of SQL exactly
when every row that an `EXCEPT` keeps twice is settled behind it. -/
theorem compound_sql_iff (db : Database) {depth : Nat} {params : Params}
    {stmt : CompoundStatement} {rs : ResultSet} (hlimit : stmt.limit = none)
    (hplain : ∀ s ∈ stmt.first :: stmt.operations.map Prod.snd,
      ∀ r ∈ selectedRows db.readView depth params s, PlainRow r)
    (h : runCompound db.readView depth stmt params = .ok rs) :
    (rs.rows : Multiset Row) = chain SetOperation.sql
        (selectedRows db.readView depth params stmt.first)
        (stmt.operands db.readView depth params) ↔
      DuplicatesSettled (selectedRows db.readView depth params stmt.first)
        (stmt.operands db.readView depth params) := by
  rw [runCompound_ok hlimit hplain h, chain_eq_iff]

/-- `SELECT a FROM name`. -/
def selectA (name : String) : SelectStatement where
  columns := ["a"]
  star := false
  table := .named name none
  filter := none
  joins := []
  groupBy := []
  aggregates := []
  windowFuncs := []
  orderBy := []
  orderByCosine := none
  limit := none
  having := none
  withCtes := []

/-- `SELECT a FROM t EXCEPT SELECT a FROM name`. -/
def exceptFrom (name : String) : CompoundStatement where
  first := selectA "t"
  operations := [(.except, selectA name)]
  orderBy := []
  limit := none

/-- Tables `t` and `u` of one column, with the row 1 twice in `t`. -/
def twiceInT : List ClientCall :=
  [.execute createT [], .execute (.createTable ⟨"u", [⟨"a", .int, []⟩], []⟩) [],
    .execute (insertT 1) [], .execute (insertT 1) []]

theorem twiceInT_run : ∃ db, Reaches 1 (fun _ _ => True) .empty db ∧
    selectedRows db.readView 1 [] (selectA "t") = [[.int 1], [.int 1]] ∧
    selectedRows db.readView 1 [] (selectA "u") = [] ∧
    runCompound db.readView 1 (exceptFrom "t") [] = .ok ⟨["a"], [], none⟩ ∧
    runCompound db.readView 1 (exceptFrom "u") [] = .ok ⟨["a"], [[.int 1], [.int 1]], none⟩ := by
  obtain ⟨db, hr, ht, hu, ⟨_, h₁, rfl⟩, _, h₂, rfl⟩ := exists_run (P := fun db =>
      selectedRows db.readView 1 [] (selectA "t") = [[.int 1], [.int 1]] ∧
      selectedRows db.readView 1 [] (selectA "u") = [] ∧
      (∃ rs, runCompound db.readView 1 (exceptFrom "t") [] = .ok rs ∧ rs = ⟨["a"], [], none⟩) ∧
      ∃ rs, runCompound db.readView 1 (exceptFrom "u") [] = .ok rs ∧
        rs = ⟨["a"], [[.int 1], [.int 1]], none⟩) 1 twiceInT (by decide +kernel)
  exact ⟨db, hr, ht, hu, h₁, h₂⟩

/-- A row that is twice on the left and also on the right is taken out. -/
theorem compound_sql_iff_exceptFrom :
    ∃ db rs, Reaches 1 (fun _ _ => True) .empty db ∧
      runCompound db.readView 1 (exceptFrom "t") [] = .ok rs ∧
      (rs.rows : Multiset Row) = chain SetOperation.sql
        (selectedRows db.readView 1 [] (selectA "t"))
        ((exceptFrom "t").operands db.readView 1 []) := by
  obtain ⟨db, hr, ht, -, hrun, -⟩ := twiceInT_run
  have hplain : ∀ s ∈ [selectA "t", selectA "t"],
      ∀ r ∈ selectedRows db.readView 1 [] s, PlainRow r := by
    simp [ht, PlainRow, Value.Plain]
  refine ⟨db, _, hr, hrun, (compound_sql_iff db rfl hplain hrun).mpr ?_⟩
  intro before right behind row heq hrow hcount
  cases before with
  | cons => simp [CompoundStatement.operands, exceptFrom] at heq
  | nil =>
    obtain ⟨rfl, rfl⟩ : right = [[.int 1], [.int 1]] ∧ behind = [] := by
      simpa [CompoundStatement.operands, exceptFrom, ht, eq_comm] using heq
    have hmem := count_pos.mp (Nat.lt_of_lt_of_le Nat.two_pos hcount)
    exact absurd (ht ▸ hmem) hrow

/-- `EXCEPT` keeps a row twice. -/
theorem except_keeps_duplicates :
    ∃ db rs, Reaches 1 (fun _ _ => True) .empty db ∧
      runCompound db.readView 1 (exceptFrom "u") [] = .ok rs ∧
      (∀ s ∈ [selectA "t", selectA "u"], ∀ r ∈ selectedRows db.readView 1 [] s, PlainRow r) ∧
      (rs.rows : Multiset Row) ≠ chain SetOperation.sql
        (selectedRows db.readView 1 [] (selectA "t"))
        ((exceptFrom "u").operands db.readView 1 []) := by
  obtain ⟨db, hr, ht, hu, -, hrun⟩ := twiceInT_run
  refine ⟨db, _, hr, hrun, by simp [ht, hu, PlainRow, Value.Plain], ?_⟩
  simp only [exceptFrom, CompoundStatement.operands, List.map_cons, List.map_nil, ht, hu]
  decide

end Archon
