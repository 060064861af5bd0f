import Archon.Pgwire.Task

/-!
# Archon.Pgwire.DataRows

The two encoders of data rows: `write_data_row` of the message writer and
`send_query_results` of the task.

The task's tells NULL from every value (`isNull_of_columns`).  The writer gives
NULL the length of the empty text and then overwrites the end of the row with the
length of the message, so the two agree only on rows that end in that length
(`dataRow_faithful_iff`).
-/

namespace Archon

open TaskMessage List

namespace MessageWriter

variable {floatText : F32 → Text} {cols : List ColumnDesc} {row row' : Row} {v : Value}

/-- Values whose length is not negative as an `i32`. -/
def Measured (floatText : F32 → Text) (row : Row) : Prop :=
  ∀ v ∈ row, (encodeValue floatText v false).length < 2147483648

/-- The length field of a column in the task's encoding, -1 for NULL. -/
def columnLength (floatText : F32 → Text) (v : Value) : Nat :=
  if v.isNull then 4294967295 else (encodeValue floatText v false).length

theorem prescribedColumn_eq (v : Value) : prescribedColumn floatText v false =
    len32 (columnLength floatText v) ++ encodeValue floatText v false := by
  cases v <;> rfl

theorem length_encodeValue (v : Value) : (encodeValue floatText v false).length =
    if v.isNull then 0 else columnLength floatText v := by
  cases v <;> rfl

theorem columnLength_lt (h : (encodeValue floatText v false).length < 2147483648) :
    columnLength floatText v < UInt32.size ∧
      (v.isNull ↔ 2147483648 ≤ columnLength floatText v) := by
  have hsize : UInt32.size = 4294967296 := rfl
  by_cases hnull : v.isNull
  · simp [columnLength, hnull]
  · simp [columnLength, hnull]
    omega

theorem len32_inj {a b : Nat} (ha : a < UInt32.size) (hb : b < UInt32.size)
    (h : len32 a = len32 b) : a = b := by
  simp only [len32, beBytes_four, List.cons.injEq] at h
  rw [← ofBe32_beBytes ha, ← ofBe32_beBytes hb, h.1, h.2.1, h.2.2.1, h.2.2.2.1]

/-- The task's encoding says which columns are NULL. -/
theorem isNull_of_columns (hrow : Measured floatText row) (hrow' : Measured floatText row')
    (h : (row.flatMap fun v => prescribedColumn floatText v false) =
      row'.flatMap fun v => prescribedColumn floatText v false) :
    row.map Value.isNull = row'.map Value.isNull := by
  have hfour : ∀ n, (len32 n).length = 4 := fun n => length_beBytes 4 n
  induction row generalizing row' with
  | nil =>
    cases row' with
    | nil => rfl
    | cons v' row' =>
      have hlength := congrArg List.length h
      simp [prescribedColumn_eq, hfour] at hlength
      omega
  | cons v row ih =>
    cases row' with
    | nil =>
      have hlength := congrArg List.length h
      simp [prescribedColumn_eq, hfour] at hlength
    | cons v' row' =>
      obtain ⟨hv, hrow⟩ := forall_mem_cons.mp hrow
      obtain ⟨hv', hrow'⟩ := forall_mem_cons.mp hrow'
      obtain ⟨hlt, hnull⟩ := columnLength_lt hv
      obtain ⟨hlt', hnull'⟩ := columnLength_lt hv'
      simp only [flatMap_cons, prescribedColumn_eq, append_assoc] at h
      obtain ⟨hlen, hrest⟩ := append_inj h (by rw [hfour, hfour])
      have heq := len32_inj hlt hlt' hlen
      have hsame : v.isNull = v'.isNull := by rw [Bool.eq_iff_iff, hnull, hnull', heq]
      have hmore :=
          (append_inj hrest (by rw [length_encodeValue, length_encodeValue, hsame, heq])).2
      simp only [← prescribedColumn_eq] at hmore
      simp [hsame, ih hrow hrow' hmore]

/-- The writer's columns are the task's exactly if none is NULL. -/
theorem dataColumns_iff (hcols : ∀ col ∈ cols, col.format ≠ 1)
    (hlength : cols.length = row.length) :
    (dataColumns floatText cols row = row.flatMap fun v => prescribedColumn floatText v false) ↔
      ∀ v ∈ row, v ≠ .null := by
  induction row generalizing cols with
  | nil => simp [dataColumns]
  | cons v row ih =>
    cases cols with
    | nil => cases hlength
    | cons col cols =>
      obtain ⟨hcol, hcols⟩ := forall_mem_cons.mp hcols
      have hformat : (col.format == 1) = false := by simpa using hcol
      have hcolumns : dataColumns floatText (col :: cols) (v :: row) =
          len32 (encodeValue floatText v false).length ++ encodeValue floatText v false ++
            dataColumns floatText cols row := by
        simp [dataColumns, hformat]
      have hsize : (len32 (encodeValue floatText v false).length ++ encodeValue floatText v
          false).length =
          (prescribedColumn floatText v false).length := by
        simp [prescribedColumn_eq, len32]
      have hfirst : len32 (encodeValue floatText v false).length ++ encodeValue floatText v false =
          prescribedColumn floatText v false ↔ v ≠ .null := by
        cases v with
        | null => simp [prescribedColumn, encodeValue]; decide
        | _ => simp [prescribedColumn]
      rw [hcolumns, flatMap_cons, forall_mem_cons, ← hfirst,
        ← ih hcols (Nat.succ.inj hlength)]
      exact ⟨fun h => append_inj h hsize, fun h => by rw [h.1, h.2]⟩

/-- Both encodings of a column have the same length, and only NULL differs, in
its four bytes. -/
theorem column_eq (v : Value) : ∃ front a b, a.length = 4 ∧ b.length = 4 ∧
    len32 (encodeValue floatText v false).length ++ encodeValue floatText v false = front ++ a ∧
    prescribedColumn floatText v false = front ++ b := by
  have hfour : ∀ n, (len32 n).length = 4 := fun n => length_beBytes 4 n
  by_cases hnull : v = .null
  · subst hnull
    exact ⟨[], len32 0, i32 (-1), hfour 0, rfl, rfl, rfl⟩
  · have hsame : prescribedColumn floatText v false =
        len32 (encodeValue floatText v false).length ++ encodeValue floatText v false := by
      cases v with
      | null => exact absurd rfl hnull
      | _ => rfl
    generalize hcol : len32 (encodeValue floatText v false).length ++
      encodeValue floatText v false = column at hsame ⊢
    have hlong : 4 ≤ column.length := by simp [← hcol, hfour]
    refine ⟨column.take (column.length - 4), column.drop (column.length - 4),
      column.drop (column.length - 4), ?_, ?_, ?_, ?_⟩ <;> simp [hsame] <;> omega

/-- The last column, of which the last four bytes are overwritten. -/
theorem written_dataRow_concat (hcols : ∀ col ∈ cols, col.format ≠ 1) {col : ColumnDesc}
    (hcol : col.format ≠ 1) (hlength : cols.length = row.length) (v : Value) :
    ((written floatText [.dataRow (cols ++ [col]) (row ++ [v])]).drop 5 =
        TaskMessage.payload floatText (.dataRow (row ++ [v])) ↔
      (∀ v ∈ row, v ≠ .null) ∧
        len32 ((TaskMessage.payload floatText (.dataRow (row ++ [v]))).length + 5) <:+
          TaskMessage.payload floatText (.dataRow (row ++ [v]))) := by
  obtain ⟨front, a, b, ha, hb, hwriter, htask⟩ := @column_eq floatText v
  have hformat : (col.format == 1) = false := by simpa using hcol
  have hfour : ∀ n, (len32 n).length = b.length := fun n => (length_beBytes 4 n).trans hb.symm
  generalize hpre : len16 (row ++ [v]).length ++
    (row.flatMap fun v => prescribedColumn floatText v false) ++ front = pre
  have hpayload : TaskMessage.payload floatText (.dataRow (row ++ [v])) = pre ++ b := by
    simp [TaskMessage.payload, htask, ← hpre]
  have hsent : (written floatText [.dataRow (cols ++ [col]) (row ++ [v])]).drop 5 =
      (len16 (row ++ [v]).length ++ dataColumns floatText cols row ++ front) ++
        len32 ((len16 (row ++ [v]).length ++ dataColumns floatText cols row ++
          front).length + 9) := by
    have hbody : body floatText (.dataRow (cols ++ [col]) (row ++ [v])) =
        (len16 (row ++ [v]).length ++ dataColumns floatText cols row ++ front) ++ a := by
      simp only [body, dataColumns, zip_append hlength, flatMap_append,
        length_append, hlength, append_assoc, ← hwriter]
      simp [hformat]
    have hwritten : written floatText [.dataRow (cols ++ [col]) (row ++ [v])] =
        finish (start [] BackendTag.DATA_ROW ++
          body floatText (.dataRow (cols ++ [col]) (row ++ [v]))) := rfl
    rw [hwritten, hbody, finish_start _ _ ha]
    rfl
  have hsize : (pre ++ b).length + 5 = pre.length + 9 := by simp [hb]
  rw [hsent, hpayload, hsize, ← dataColumns_iff hcols hlength]
  constructor
  · intro h
    obtain ⟨hfront, hlast⟩ := append_inj' h (hfour _)
    rw [hfront] at hlast
    exact ⟨by simpa [← hpre] using hfront, pre, by rw [hlast]⟩
  · rintro ⟨hcolumns, rest, hrest⟩
    have hlast := (append_inj' hrest (hfour _)).2
    rw [hcolumns, hpre, hlast]

end MessageWriter

open MessageWriter

/-- What the writer sends behind tag and length is the task's payload exactly if
no value but the last is NULL and the payload ends in the length of the message;
the task's payload says which columns are NULL, a value having the length of its
bytes and NULL the length -1. -/
theorem dataRow_faithful_iff (floatText : F32 → Text) (cols : List ColumnDesc) (row : Row)
    (hcols : ∀ col ∈ cols, col.format ≠ 1) (hlength : cols.length = row.length) :
    ((written floatText [.dataRow cols row]).drop 5 = payload floatText (.dataRow row) ↔
        (∀ v ∈ row.dropLast, v ≠ .null) ∧
        len32 ((payload floatText (.dataRow row)).length + 5) <:+
          payload floatText (.dataRow row)) ∧
      ∀ row', Measured floatText row → Measured floatText row' →
        payload floatText (.dataRow row) =
          payload floatText (.dataRow row') →
        row.map Value.isNull = row'.map Value.isNull := by
  refine ⟨?_, fun row' hrow hrow' h => isNull_of_columns hrow hrow' ?_⟩
  · obtain rfl | ⟨row, v, rfl⟩ := row.eq_nil_or_concat
    · obtain rfl := length_eq_zero_iff.mp hlength
      have hsent : (written floatText [.dataRow [] []]).drop 5 = [0, 7] := by
        simp [written, write, body, finish, start, splice, len32, len16, beBytes, leBytes,
          dataColumns]
      have hpayload : payload floatText (.dataRow []) = [0, 0] := rfl
      rw [hsent, hpayload]
      decide
    · obtain rfl | ⟨cols, col, rfl⟩ := cols.eq_nil_or_concat
      · simp at hlength
      · rw [concat_eq_append, concat_eq_append] at *
        rw [forall_mem_append] at hcols
        simpa using written_dataRow_concat hcols.1 (hcols.2 col (by simp))
          (by simpa using hlength) v
  · exact (append_inj h (by simp [len16])).2

/-- A row of a number and four bytes that happen to be the length of its
message. -/
theorem dataRow_faithful_length :
    (written (fun _ => []) [.dataRow [⟨[], 0, 0, 25, -1, -1, 0⟩, ⟨[], 0, 0, 25, -1, -1, 0⟩]
      [.int 7, .text "\x00\x00\x00\x14"]]).drop 5 =
    payload (fun _ => []) (.dataRow [.int 7, .text "\x00\x00\x00\x14"]) :=
  (dataRow_faithful_iff (fun _ => []) [⟨[], 0, 0, 25, -1, -1, 0⟩, ⟨[], 0, 0, 25, -1, -1, 0⟩]
    [.int 7, .text "\x00\x00\x00\x14"] (by simp) rfl).1.mpr (by decide)

/-- The writer's message for a NULL is that for the empty text, and a single
number is overwritten. -/
theorem null_as_empty :
    written (fun _ => []) [.dataRow [⟨[], 0, 0, 25, -1, -1, 0⟩, ⟨[], 0, 0, 25, -1, -1, 0⟩]
        [.null, .int 7]] =
      written (fun _ => []) [.dataRow [⟨[], 0, 0, 25, -1, -1, 0⟩, ⟨[], 0, 0, 25, -1, -1, 0⟩]
        [.text "", .int 7]] ∧
      (written (fun _ => []) [.dataRow [⟨[], 0, 0, 25, -1, -1, 0⟩] [.int 7]]).drop 5 ≠
        payload (fun _ => []) (.dataRow [.int 7]) := by
  decide

end Archon
