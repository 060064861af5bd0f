import Archon.Relational.Effects

/-!
# Archon.Relational.Sound

An invariant of the whole database: every table is in order, and every open
transaction, of the database or of a session, fits the tables it has touched.

What a schema and a stored row must satisfy is a parameter, `StorageLaw`:
the statements preserve the invariant of any law their rows obey.
-/

namespace Archon

variable {db : Database} {txns : TableTxns} {ts ts' : TableStorage}
  {txn : Transaction}

/-- What is asked of schemas and of encoded rows. -/
structure StorageLaw where
  schema : Schema → Prop
  row : Schema → Bytes → Prop

/-- The law that asks for nothing. -/
def StorageLaw.any : StorageLaw := ⟨fun _ => True, fun _ _ => True⟩

/-- A table in order. -/
structure TableStorage.Sound (L : StorageLaw) (ts : TableStorage) : Prop where
  schema : L.schema ts.schema
  mvcc : ts.mvcc.Ordered
  versions : ∀ id, (ts.mvcc.versions.find? id).isSome → id < ts.nextRowId
  rows : ∀ id bytes, ts.tree.find? id = some bytes → id < ts.nextRowId ∧ L.row ts.schema bytes

/-- A transaction that fits the table: it began in the past, and wrote rows
with ids handed out. -/
structure TableStorage.Holds (L : StorageLaw) (ts : TableStorage) (txn : Transaction) : Prop where
  snapshot : txn.snapshot ≤ ts.mvcc.clock
  writes : ∀ id bytes, txn.getWrite id = some bytes → id < ts.nextRowId ∧
    (bytes = mvccWrapTombstone ∨ ∃ b, bytes = MVCC_LIVE :: b ∧ L.row ts.schema b)

/-- The parts of a transaction fit their tables. -/
structure Database.Fits (L : StorageLaw) (db : Database) (txns : TableTxns) :
    Prop where
  names : (txns.map Prod.fst).Nodup
  held : ∀ name txn, txns.lookup name = some txn →
    ∃ ts, db.table name = some ts ∧ ts.Holds L txn

/-- The invariant; `hidden` are transactions set aside while another one is
in the database's place. -/
structure Database.Sound (L : StorageLaw) (hidden : List TableTxns)
    (db : Database) : Prop where
  names : (db.tables.map Prod.fst).Nodup
  tables : ∀ name ts, db.table name = some ts → ts.Sound L
  active : db.Fits L db.activeTxns
  idle : db.inTransaction = false → db.activeTxns = []
  sessions : ∀ sid st, db.sessionTxns.find? sid = some st → db.Fits L st.activeTxns
  hidden : ∀ txns ∈ hidden, db.Fits L txns

variable {L : StorageLaw} {hidden : List TableTxns}

/-- What obeys `L` obeys `L'`. -/
structure StorageLaw.Implies (L L' : StorageLaw) : Prop where
  schema : ∀ schema, L.schema schema → L'.schema schema
  row : ∀ schema bytes, L.row schema bytes → L'.row schema bytes

/-- Every law implies the one that asks for nothing. -/
theorem StorageLaw.implies_any (L : StorageLaw) : L.Implies .any :=
  ⟨fun _ _ => trivial, fun _ _ _ => trivial⟩

section

variable {L' : StorageLaw} (hL : L.Implies L')
include hL

/-- A table sound for a law is sound for what it implies. -/
theorem TableStorage.Sound.mono (h : ts.Sound L) : ts.Sound L' :=
  ⟨hL.schema _ h.schema, h.mvcc, h.versions, fun id bytes hb => (h.rows id bytes hb).imp_right
    (hL.row _ bytes)⟩

theorem TableStorage.Holds.mono (h : ts.Holds L txn) : ts.Holds L' txn := by
  refine ⟨h.snapshot, fun id bytes hb => ⟨(h.writes id bytes hb).1, ?_⟩⟩
  exact (h.writes id bytes hb).2.imp_right fun ⟨b, hb, hrow⟩ => ⟨b, hb, hL.row _ b hrow⟩

theorem Database.Fits.mono (h : db.Fits L txns) : db.Fits L' txns := by
  refine ⟨h.names, fun name txn ht => ?_⟩
  obtain ⟨ts, hts, hh⟩ := h.held name txn ht
  exact ⟨ts, hts, hh.mono hL⟩

theorem Database.Sound.mono (h : db.Sound L hidden) : db.Sound L' hidden :=
  ⟨h.names, fun name ts hts => (h.tables name ts hts).mono hL, h.active.mono hL, h.idle,
    fun sid st hst => (h.sessions sid st hst).mono hL, fun txns ht => (h.hidden txns ht).mono hL⟩

end

/-- Soundness without a law on the rows. -/
theorem Database.Sound.any (h : db.Sound L hidden) : db.Sound .any hidden :=
  h.mono L.implies_any

/-! ## Tables that move on -/

/-- The table after some statements: the schema stays, ids and the clock only
grow. -/
structure TableStorage.Evolves (ts ts' : TableStorage) : Prop where
  schema : ts'.schema = ts.schema
  nextRowId : ts.nextRowId ≤ ts'.nextRowId
  clock : ts.mvcc.clock ≤ ts'.mvcc.clock

theorem TableStorage.Evolves.refl (ts : TableStorage) : ts.Evolves ts :=
  ⟨rfl, Nat.le_refl _, Nat.le_refl _⟩

theorem TableStorage.Evolves.trans {ts'' : TableStorage} (h : ts.Evolves ts')
    (h' : ts'.Evolves ts'') : ts.Evolves ts'' :=
  ⟨h'.schema.trans h.schema, Nat.le_trans h.nextRowId h'.nextRowId, Nat.le_trans h.clock h'.clock⟩

/-- A transaction still fits a table that has evolved. -/
theorem TableStorage.Holds.evolves (h : ts.Holds L txn) (he : ts.Evolves ts') :
    ts'.Holds L txn := by
  refine ⟨Nat.le_trans h.snapshot he.clock, fun id bytes hb => ?_⟩
  obtain ⟨hid, hw⟩ := h.writes id bytes hb
  rw [he.schema]
  exact ⟨Nat.lt_of_lt_of_le hid he.nextRowId, hw⟩

/-- A buffered write of a row that meets the law fits. -/
theorem TableStorage.Holds.write (h : ts.Holds L txn) {id : Nat} {bytes : Bytes}
    (hid : id < ts.nextRowId)
    (hb : bytes = mvccWrapTombstone ∨ ∃ b, bytes = MVCC_LIVE :: b ∧ L.row ts.schema b) :
    ts.Holds L (MvccStore.write txn id bytes) := by
  refine ⟨h.snapshot, fun k b hk => ?_⟩
  simp only [MvccStore.write, Transaction.getWrite, SortedMap.find?_insert] at hk
  split at hk
  · next hkid =>
    cases hk
    exact ⟨hkid ▸ hid, hb⟩
  · exact h.writes k b hk

/-- Storing a row that meets the law keeps a table sound. -/
theorem TableStorage.Sound.insert (h : ts.Sound L) {id : Nat} {bytes : Bytes}
    (hid : id < ts.nextRowId) (hrow : L.row ts.schema bytes)
    (vectorIndexes : List (String × IvfFlatIndex)) :
    TableStorage.Sound L { ts with tree := ts.tree.insert id bytes, vectorIndexes } := by
  refine ⟨h.schema, h.mvcc, h.versions, fun k b hb => ?_⟩
  simp only [SortedMap.find?_insert] at hb
  split at hb
  · next hk =>
    cases hb
    exact ⟨hk ▸ hid, hrow⟩
  · exact h.rows k b hb

/-- Taking a row out keeps a table sound. -/
theorem TableStorage.Sound.discard (h : ts.Sound L) (id : Nat) : (ts.discard id).Sound L := by
  refine ⟨h.schema, h.mvcc, h.versions, fun k b hb => ?_⟩
  have hb : (ts.tree.erase id).find? k = some b := hb
  rw [SortedMap.find?_erase] at hb
  split at hb
  · contradiction
  · exact h.rows k b hb

/-- A commit does not turn the clock back. -/
theorem MvccStore.clock_commit (s : MvccStore) (txn : Transaction) :
    s.clock ≤ (s.commit txn).2.clock := by
  grind [MvccStore.commit]

/-! ## Replacing a part of the database -/

namespace Database

/-- The part of a transaction on a table fits it. -/
theorem Fits.holds (h : db.Fits L txns) {n : String} (hts : db.table n = some ts)
    (t : Transaction) (ht : txns.lookup n = some t) : ts.Holds L t := by
  obtain ⟨ts', hts', hh⟩ := h.held n t ht
  rw [hts] at hts'
  cases hts'
  exact hh

/-- The open transaction on a table fits it. -/
theorem Sound.holds (h : db.Sound L hidden) {n : String} (hts : db.table n = some ts) :
    ∀ t, db.activeTxn n = some t → ts.Holds L t := h.active.holds hts

variable {name : String}

/-- Replacing a table, when the transactions open on it still fit. -/
theorem Fits.setTable (h : db.Fits L txns) (hts : db.table name = some ts)
    (hold : ∀ txn, txns.lookup name = some txn → ts.Holds L txn → ts'.Holds L txn) :
    (db.setTable name ts').Fits L txns := by
  refine ⟨h.names, fun n txn htxn => ?_⟩
  obtain ⟨t, ht, hh⟩ := h.held n txn htxn
  by_cases hn : n = name
  · subst hn
    rw [hts] at ht
    cases ht
    exact ⟨ts', by simp [hts], hold txn htxn hh⟩
  · exact ⟨t, by simpa [hn] using ht, hh⟩

/-- A sound table that has evolved can take the old one's place. -/
theorem Sound.setTable (h : db.Sound L hidden) (hts : db.table name = some ts) (hs : ts'.Sound L)
    (he : ts.Evolves ts') : (db.setTable name ts').Sound L hidden := by
  have hold : ∀ txn, ts.Holds L txn → ts'.Holds L txn := fun txn hh => hh.evolves he
  refine ⟨by simpa using h.names, fun n t ht => ?_, h.active.setTable hts fun _ _ => hold _,
    h.idle, fun sid st hst => (h.sessions sid st hst).setTable hts fun _ _ => hold _,
    fun txns ht => (h.hidden txns ht).setTable hts fun _ _ => hold _⟩
  by_cases hn : n = name
  · subst hn
    simp only [table_setTable, hts] at ht
    cases ht
    exact hs
  · simp only [table_setTable, if_neg hn] at ht
    exact h.tables n t ht

/-- Transactions that fit can become the active ones. -/
theorem Sound.setActive (h : db.Sound L hidden) (ht : db.Fits L txns)
    (hidle : db.inTransaction = true) : Database.Sound L hidden { db with activeTxns := txns } :=
  ⟨h.names, h.tables, ⟨ht.names, ht.held⟩, fun hin => absurd hin (by simp [hidle]),
    fun sid st hst => ⟨(h.sessions sid st hst).names, (h.sessions sid st hst).held⟩,
    fun txns hm => ⟨(h.hidden txns hm).names, (h.hidden txns hm).held⟩⟩

/-- One of several transactions may be replaced by one that fits. -/
theorem Fits.setTxn (h : db.Fits L txns) (hts : db.table name = some ts) (hh : ts.Holds L txn) :
    db.Fits L (modifyKey name (fun _ => txn) txns) := by
  refine ⟨by simpa [map_fst_modifyKey] using h.names, fun n t ht => ?_⟩
  rw [lookup_modifyKey] at ht
  split at ht
  · next hn =>
    obtain ⟨-, -, rfl⟩ := Option.map_eq_some_iff.mp ht
    exact hn ▸ ⟨ts, hts, hh⟩
  · exact h.held n t ht

/-- Opening a transaction on a table keeps the database sound. -/
theorem Sound.ensureTxn (h : db.Sound L hidden) (hin : db.inTransaction = true) (name : String) :
    (db.ensureTxn name).Sound L hidden := by
  unfold Database.ensureTxn
  split
  · exact h
  · next hnone =>
    split
    · exact h
    · next ts hts =>
      refine h.setActive ⟨?_, fun n txn htxn => ?_⟩ hin
      · have hfresh : name ∉ db.activeTxns.map Prod.fst := by
          intro hm
          obtain ⟨⟨n, t⟩, ht, rfl⟩ := List.mem_map.mp hm
          exact hnone (by simp [activeTxn, lookup_of_mem h.active.names ht])
        simpa using List.Nodup.append h.active.names (List.nodup_singleton name)
          (by simpa using hfresh)
      · rw [lookup_append] at htxn
        rcases Option.or_eq_some_iff.mp htxn with htxn | ⟨-, htxn⟩
        · exact h.active.held n txn htxn
        · rw [lookup_cons_eq] at htxn
          split at htxn
          · next hn =>
            cases htxn
            exact hn ▸ ⟨ts, hts, Nat.le_refl _, fun id bytes hb => by cases hb⟩
          · contradiction

end Database

end Archon
