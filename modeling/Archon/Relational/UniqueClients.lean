import Archon.Relational.UniqueRows

/-!
# Archon.Relational.UniqueClients

Uniqueness for any number of clients, each of which sees the committed rows
under its own open transaction.  A client checks its rows against what it sees,
never against what another open transaction has buffered; so the keys stay
unique as long as only one of the open transactions has inserted or updated
rows of a table.
-/

namespace Archon

open Program Database TableStorage SortedMap Transaction

variable {db db' : Database} {params : Params}
variable {depth : Nat} {name : String} {hidden : List TableTxns}

/-! ## Rows under a transaction -/

section

variable {ts ts' : TableStorage} {txn : Transaction}

/-- Fewer stored rows are fewer rows. -/
theorem TableStorage.rowsUnder_submap (hs : ts'.schema = ts.schema)
    (ht : Submap ts'.tree.find? ts.tree.find?) (txn : Option Transaction) :
    Submap (ts'.rowsUnder txn) (ts.rowsUnder txn) := by
  intro id row hrow
  rw [rowsUnder_eq_some] at hrow ⊢
  have hdecode : ts'.decode id = ts.decode id := by
    unfold decode
    rw [hs]
  unfold currentRow currentBytes at hrow ⊢
  rw [hdecode] at hrow
  cases hw : txn.bind (·.getWrite id) with
  | some bytes =>
    rw [hw] at hrow
    cases bytes <;> exact hrow
  | none =>
    rw [hw] at hrow
    cases hb : ts'.tree.find? id with
    | none => simp [hb] at hrow
    | some b => simpa [hb, ht id b hb] using hrow

theorem TableStorage.rowsUnder_congr (hs : ts'.schema = ts.schema)
    (ht : ∀ id, ts'.tree.find? id = ts.tree.find? id) (txn : Option Transaction) :
    ts'.rowsUnder txn = ts.rowsUnder txn := by
  funext id
  apply Option.ext
  intro row
  constructor
  · exact rowsUnder_submap hs (fun k b hb => (ht k).symm.trans hb) txn id row
  · exact rowsUnder_submap hs.symm (fun k b hb => (ht k).trans hb) txn id row

/-- A transaction that only deletes sees committed rows. -/
theorem Transaction.OnlyDeletes.submap (h : txn.OnlyDeletes) (ts : TableStorage) :
    Submap (ts.rowsUnder (some txn)) (ts.rowsUnder none) := by
  intro id row hrow
  rw [rowsUnder_eq_some] at hrow ⊢
  unfold currentRow currentBytes at hrow
  rw [Option.bind_some] at hrow
  cases hw : txn.getWrite id with
  | none =>
    rw [hw] at hrow
    exact hrow
  | some bytes => simp [hw, h id bytes hw, mvccWrapTombstone] at hrow

theorem Transaction.OnlyDeletes.overlay_submap (h : txn.OnlyDeletes) (tree : SortedMap Nat Bytes) :
    Submap (txn.overlay tree) tree.find? := by
  intro id bytes hb
  cases hw : txn.getWrite id with
  | none => simpa [overlay, hw] using hb
  | some b => grind [overlay_of_write hw, h id b hw, writtenRow, mvccWrapTombstone]

/-- What a transaction sees is what its commit leaves. -/
theorem TableStorage.rowsUnder_overlay {L : StorageLaw} (hh : ts.Holds L txn)
    (hs : ts'.schema = ts.schema) (ht : ∀ id, ts'.tree.find? id = txn.overlay ts.tree id) :
    ts'.rowsUnder none = ts.rowsUnder (some txn) := by
  have hdecode : ts'.decode = ts.decode := by
    unfold decode
    rw [hs]
  funext id
  unfold rowsUnder currentRow currentBytes
  rw [hdecode, Option.bind_some, ht]
  cases hw : txn.getWrite id with
  | none => simp [overlay, hw]
  | some bytes =>
    obtain rfl | ⟨b, rfl, -⟩ := (hh.writes id bytes hw).2
    · simp [overlay_of_write hw, writtenRow, mvccWrapTombstone]
    · simp [overlay_of_write hw, writtenRow]

end

/-! ## Clients -/

/-- The open transaction of a client on a table: of the database itself, or of
a session. -/
def Database.txnOf (db : Database) : Option Nat → String → Option Transaction
  | none, n => db.activeTxn n
  | some sid, n => db.sessionTxn sid n

theorem Database.txnOf_setSession (db : Database) (sid : Nat) (st : SessionTxn) (c : Option Nat)
    (n : String) : (db.setSession sid st).txnOf c n =
      if c = some sid then st.activeTxns.lookup n else db.txnOf c n := by
  cases c with
  | none => rfl
  | some s =>
    by_cases hs : s = sid
    · simp [txnOf, sessionTxn, setSession, hs]
    · simp [txnOf, sessionTxn, setSession, find?_insert, hs]

theorem Database.activeTxn_enterSession (db : Database) (sid : Nat) (n : String) :
    (db.enterSession sid).activeTxn n = db.txnOf (some sid) n := by
  simp only [enterSession, txnOf, sessionTxn]
  cases db.sessionTxns.find? sid <;> rfl

variable {sid id : Nat} {L : StorageLaw} {n : String} {stmt : Statement}

/-- The transactions after a statement within a session. -/
theorem Database.txnOf_leaveSession {after : Database}
    (hs : after.sessionTxns = (db.enterSession sid).sessionTxns) (c : Option Nat) (n : String) :
    (after.leaveSession sid db).txnOf c n =
      if c = some sid then after.activeTxn n else db.txnOf c n := by
  have hfind : after.sessionTxns.find? sid = some { inTransaction := true } := by
    rw [hs]
    simp [enterSession, setSession]
  cases c with
  | none => rfl
  | some s =>
    by_cases hss : s = sid
    · simp [txnOf, sessionTxn, leaveSession, hfind, activeTxn, hss]
    · have hfind' : after.sessionTxns.find? s = db.sessionTxns.find? s := by
        simp [hs, enterSession, setSession, find?_insert, hss]
      simp [txnOf, sessionTxn, leaveSession, hfind,
        find?_insert, hss, hfind']

/-- An open transaction is on a table that is there. -/
theorem Database.Sound.txnOf_table (h : db.Sound L hidden) {c : Option Nat} {txn : Transaction}
    (htxn : db.txnOf c n = some txn) : ∃ ts, db.table n = some ts ∧ ts.Holds L txn := by
  cases c with
  | none => exact h.active.held n txn htxn
  | some sid =>
    obtain ⟨st, hst, hl⟩ := Option.bind_eq_some_iff.mp htxn
    exact (h.sessions sid st hst).held n txn hl

/-- Nobody sees two rows that clash, and of the open transactions on a table
only one has inserted or updated rows. -/
structure ClientsKeyed (db : Database) : Prop where
  committed : ∀ n ts, db.table n = some ts → Distinct (Clash ts.schema) (ts.rowsUnder none)
  clients : ∀ c n ts txn, db.table n = some ts → db.txnOf c n = some txn →
    Distinct (Clash ts.schema) (ts.rowsUnder (some txn))
  writer : ∀ n, ∃ w, ∀ c, c ≠ w → ∀ txn, db.txnOf c n = some txn → txn.OnlyDeletes

/-- The tables hold the same rows. -/
def SameStored (db db' : Database) : Prop :=
  ∀ n ts', db'.table n = some ts' → ∃ ts, db.table n = some ts ∧ ts'.schema = ts.schema ∧
    ∀ id, ts'.tree.find? id = ts.tree.find? id

theorem SameStored.of_tables (h : db'.tables = db.tables) : SameStored db db' := by
  intro n ts' hts'
  refine ⟨ts', ?_, rfl, fun _ => rfl⟩
  rw [table, ← h]
  exact hts'

namespace ClientsKeyed

variable {db db' : Database}

variable (h : ClientsKeyed db)
include h

theorem close (hstored : SameStored db db')
    (htxns : ∀ c n txn, db'.txnOf c n = some txn → db.txnOf c n = some txn) : ClientsKeyed db' := by
  refine ⟨fun n ts' hts' => ?_, fun c n ts' txn hts' htxn => ?_, fun n => ?_⟩
  · obtain ⟨ts, hts, hs, ht⟩ := hstored n ts' hts'
    rw [hs, rowsUnder_congr hs ht]
    exact h.committed n ts hts
  · obtain ⟨ts, hts, hs, ht⟩ := hstored n ts' hts'
    rw [hs, rowsUnder_congr hs ht]
    exact h.clients c n ts txn hts (htxns c n txn htxn)
  · obtain ⟨w, hw⟩ := h.writer n
    exact ⟨w, fun c hc txn htxn => hw c hc txn (htxns c n txn htxn)⟩

/-- Writes of client `w` into its transaction on table `name`. -/
theorem buffer (hstored : SameStored db db') {w : Option Nat}
    (hothers : ∀ c n, c ≠ w → db'.txnOf c n = db.txnOf c n)
    (hrest : ∀ n, n ≠ name → db'.txnOf w n = db.txnOf w n)
    (hkeyed : ∀ ts txn, db'.table name = some ts → db'.txnOf w name = some txn →
      Distinct (Clash ts.schema) (ts.rowsUnder (some txn)))
    (hwriter : (∀ c, c ≠ w → ∀ txn, db.txnOf c name = some txn → txn.OnlyDeletes) ∨
      ((∀ txn, db.txnOf w name = some txn → txn.OnlyDeletes) →
        ∀ txn, db'.txnOf w name = some txn → txn.OnlyDeletes)) : ClientsKeyed db' := by
  have hsame : ∀ c n, ¬ (c = w ∧ n = name) → db'.txnOf c n = db.txnOf c n := by
    intro c n hne
    by_cases hc : c = w
    · subst hc
      exact hrest n fun hn => hne ⟨rfl, hn⟩
    · exact hothers c n hc
  refine ⟨fun n ts' hts' => ?_, fun c n ts' txn hts' htxn => ?_, fun n => ?_⟩
  · obtain ⟨ts, hts, hs, ht⟩ := hstored n ts' hts'
    rw [hs, rowsUnder_congr hs ht]
    exact h.committed n ts hts
  · by_cases hcn : c = w ∧ n = name
    · obtain ⟨rfl, rfl⟩ := hcn
      exact hkeyed ts' txn hts' htxn
    · obtain ⟨ts, hts, hs, ht⟩ := hstored n ts' hts'
      rw [hs, rowsUnder_congr hs ht]
      exact h.clients c n ts txn hts (hsame c n hcn ▸ htxn)
  · by_cases hn : n = name
    · subst hn
      obtain hsole | hdeletes := hwriter
      · exact ⟨w, fun c hc txn htxn => hsole c hc txn (hothers c n hc ▸ htxn)⟩
      · obtain ⟨v, hv⟩ := h.writer n
        refine ⟨v, fun c hc txn htxn => ?_⟩
        by_cases hcw : c = w
        · subst hcw
          exact hdeletes (hv c hc) txn htxn
        · exact hv c hc txn (hothers c n hcw ▸ htxn)
    · obtain ⟨v, hv⟩ := h.writer n
      exact ⟨v, fun c hc txn htxn => hv c hc txn (hsame c n (fun hand => hn hand.2) ▸ htxn)⟩

/-- A change of the stored rows of tables: each table keeps its rows unique and
loses rows only, or nobody else has written rows of it. -/
theorem store (htables : ∀ n ts', db'.table n = some ts' → ∃ ts, db.table n = some ts ∧
      ts'.schema = ts.schema ∧ Distinct (Clash ts'.schema) (ts'.rowsUnder none) ∧
      (Submap ts'.tree.find? ts.tree.find? ∨
        ∀ c txn, db'.txnOf c n = some txn → txn.OnlyDeletes))
    (htxns : ∀ c n txn, db'.txnOf c n = some txn → db.txnOf c n = some txn) : ClientsKeyed db' := by
  refine ⟨fun n ts' hts' => ?_, fun c n ts' txn hts' htxn => ?_, fun n => ?_⟩
  · obtain ⟨ts, -, -, hkeyed, -⟩ := htables n ts' hts'
    exact hkeyed
  · obtain ⟨ts, hts, hs, hkeyed, hsub | hdeletes⟩ := htables n ts' hts'
    · rw [hs]
      exact (h.clients c n ts txn hts (htxns c n txn htxn)).submap
        (rowsUnder_submap hs hsub _)
    · exact hkeyed.submap ((hdeletes c txn htxn).submap ts')
  · obtain ⟨w, hw⟩ := h.writer n
    exact ⟨w, fun c hc txn htxn => hw c hc txn (htxns c n txn htxn)⟩

end ClientsKeyed

/-! ## Statements on one table -/

/-- Tables that have lost rows only. -/
def Shrunk (db db' : Database) : Prop :=
  ∀ n ts', db'.table n = some ts' → ∃ ts, db.table n = some ts ∧ ts'.schema = ts.schema ∧
    Submap ts'.tree.find? ts.tree.find?

theorem Shrunk.refl (db : Database) : Shrunk db db := fun _ ts hts => ⟨ts, hts, rfl, .refl _⟩

theorem Shrunk.dropRow {db₀ : Database} (h : Shrunk db₀ db) (hdrop : db.dropRow name id = .ok db') :
    Shrunk db₀ db' := by
  obtain ⟨ts, hts, ⟨-, txn, -, rfl⟩ | ⟨-, rfl⟩⟩ := dropRow_ok hdrop
  · exact h
  · intro n ts' hts'
    by_cases hn : n = name
    · subst hn
      rw [table_setTable_self hts] at hts'
      cases hts'
      obtain ⟨ts₀, hts₀, hs, hsub⟩ := h n ts hts
      refine ⟨ts₀, hts₀, hs, fun k b hb => hsub k b ?_⟩
      have herase : (ts.tree.erase id).find? k = some b := hb
      rw [find?_erase] at herase
      split at herase
      · cases herase
      · exact herase
    · exact h n ts' (by simpa [hn] using hts')

/-- The open transaction on the table has buffered no row. -/
def Database.DeletesOnly (name : String) (db : Database) : Prop :=
  ∀ txn, db.activeTxn name = some txn → txn.OnlyDeletes

theorem Database.DeletesOnly.touch (h : db.DeletesOnly name) :
    (touch name db).2.DeletesOnly name := by
  intro txn htxn
  obtain hsame | ⟨-, ts, -, hbegin⟩ := db.activeTxn_touch name name
  · exact h txn (hsame ▸ htxn)
  · rw [hbegin] at htxn
    cases htxn
    intro id bytes hw
    cases hw

theorem Database.DeletesOnly.dropRow (h : db.DeletesOnly name)
    (hdrop : db.dropRow name id = .ok db') : db'.DeletesOnly name := by
  obtain ⟨ts, -, ⟨-, txn, htxn, rfl⟩ | ⟨-, rfl⟩⟩ := dropRow_ok hdrop
  · intro txn' htxn' k bytes hw
    simp only [activeTxn_setTxn, htxn] at htxn'
    cases htxn'
    rw [getWrite, MvccStore.write, find?_insert] at hw
    split at hw
    · grind
    · exact h txn htxn k bytes hw
  · exact h

/-- What taking rows away leaves of the stored rows and of the open
transaction. -/
structure Deleting (name : String) (db db' : Database) : Prop where
  shrunk : Shrunk db db'
  deletes : db.DeletesOnly name → db'.DeletesOnly name

theorem Deleting.refl (db : Database) : Deleting name db db := ⟨.refl db, fun h => h⟩

theorem Deleting.touch (h : Deleting name db db') : Deleting name db (touch name db').2 := by
  obtain ⟨txns, htxns, -⟩ := db'.touch_txns name
  refine ⟨?_, fun hd => (h.deletes hd).touch⟩
  rw [htxns]
  exact h.shrunk

theorem Deleting.dropRow {s s' : Database} (h : Deleting name db s)
    (hdrop : s.dropRow name id = .ok s') : Deleting name db s' :=
  ⟨h.shrunk.dropRow hdrop, fun hd => (h.deletes hd).dropRow hdrop⟩

theorem runDelete_deleting (h : db.Sound L hidden) {stmt : DeleteStatement}
    (hret : (runDelete depth stmt db).1.Returns) :
    Deleting stmt.table db (runDelete depth stmt db).2 := by
  rw [runDelete_eq] at hret ⊢
  refine matchingLoop_inv (fun s hs => hs.touch) (fun schema n id gone hid => ?_) h (.refl db) hret
  cases gone with
  | false => exact keeps_pure fun s hs => ⟨hs.1.2, hs.1⟩
  | true =>
    refine keeps_update (fun s hs => hs.1.2) fun s s' hs hdrop => ?_
    obtain ⟨⟨hready, hdel⟩, -⟩ := hs
    have hmoves := hready.dropRow (P := fun _ => True) (hready.lt hid) trivial hdrop
    exact ⟨hdel.dropRow hdrop, hready.moves hmoves, hdel.dropRow hdrop⟩

/-- The table an `INSERT` or `UPDATE` writes. -/
def Statement.writesTo : Statement → Option String
  | .insert i => some i.table
  | .update u => some u.table
  | _ => none

/-- A query or change of rows takes rows away, unless it writes them. -/
theorem execute_deleting (h : db.Sound .any hidden) (hq : stmt.isQueryOrDml = true)
    (hret : (execute depth stmt params db).1.Returns) :
    stmt.writesTo = some stmt.target ∨ Deleting stmt.target db
      (execute depth stmt params db).2 := by
  cases stmt with
  | select | selectLiteral | compound => exact .inr (.refl db)
  | insert | update => exact .inl rfl
  | delete d =>
    simp only [execute, affecting_run, returns_map] at hret ⊢
    exact .inr (runDelete_deleting h hret)
  | _ => cases hq

/-! ## Calls -/

/-- The client a call acts as: a session that has no transaction open acts on
the database itself. -/
def ClientCall.client (db : Database) : ClientCall → Option Nat
  | .execute _ _ => none
  | .inSession sid _ _ => if db.sessionInTransaction sid then some sid else none

/-- No other open transaction has inserted or updated rows of the table that
the call writes. -/
def SoleWriter (db : Database) (c : ClientCall) : Prop :=
  ∀ n, c.stmt.writesTo = some n → ∀ c', c' ≠ c.client db → ∀ txn, db.txnOf c' n = some txn →
    txn.OnlyDeletes

theorem DmlFrame.sameStored {P : Nat → Prop} (h : DmlFrame name P db db')
    (hin : db.inTransaction = true) : SameStored db db' := by
  intro n ts' hts'
  obtain ⟨ts, hts, -, hf⟩ := h.table_some hts'
  exact ⟨ts, hts, hf.evolves.schema, fun id => by rw [(hf.kept hin).1]⟩

theorem ClientsKeyed.keyed {cur : Database} (h : ClientsKeyed db) (c : Option Nat)
    (htables : cur.tables = db.tables) (htxns : ∀ n, cur.activeTxn n = db.txnOf c n) :
    cur.Keyed := by
  intro n schema hschema
  obtain ⟨ts, hts, rfl⟩ := Option.map_eq_some_iff.mp hschema
  have hts' : db.table n = some ts := by
    rw [table, ← htables]
    exact hts
  have hseen : cur.seen n = ts.rowsUnder (db.txnOf c n) := by
    funext id
    simp [seen, hts, htxns]
  rw [hseen]
  cases htxn : db.txnOf c n with
  | none => exact h.committed n ts hts'
  | some txn => exact h.clients c n ts txn hts' htxn

theorem Database.Keyed.distinct (h : db.Keyed) {ts : TableStorage} (hts : db.table n = some ts) :
    Distinct (Clash ts.schema) (ts.rowsUnder (db.activeTxn n)) := by
  have hseen : db.seen n = ts.rowsUnder (db.activeTxn n) := by
    funext id
    simp [seen, hts]
  rw [← hseen]
  exact h n ts.schema (by simp [schemaOf, hts])

section

variable (hk : ClientsKeyed db) (h : db.Sound constraintLaw []) (hq : stmt.isQueryOrDml = true)
  (hs : SchemaSafe db stmt)
include hk h hq hs

/-- A query or change of rows on the database itself. -/
theorem ClientsKeyed.execute
    (hw : ∀ n, stmt.writesTo = some n → ∀ c, c ≠ none → ∀ txn, db.txnOf c n = some txn →
      txn.OnlyDeletes) (hret : (execute depth stmt params db).1.Returns) :
    ClientsKeyed (execute depth stmt params db).2 := by
  have hframe := execute_dmlFrame h.any hq hret
  have hdeleting := execute_deleting h.any hq hret
  have hkeyed := execute_keyed h (hk.keyed none rfl fun _ => rfl) hq hs hret
  have hsound := execute_sound h (hs.obeys depth) hret
  generalize (Archon.execute depth stmt params db).2 = db' at hframe hdeleting hkeyed hsound
  have hothers : ∀ c n, c ≠ none → db'.txnOf c n = db.txnOf c n := by
    intro c n hc
    cases c with
    | none => exact absurd rfl hc
    | some sid => simp [txnOf, sessionTxn, hframe.sessions]
  cases hin : db.inTransaction with
  | true =>
    refine hk.buffer (hframe.sameStored hin) hothers hframe.rest (fun ts txn hts htxn => ?_) ?_
    · have hdistinct := hkeyed.distinct hts
      rwa [show db'.activeTxn stmt.target = some txn from htxn] at hdistinct
    · exact hdeleting.imp (hw _) fun hdel => hdel.deletes
  | false =>
    have hnone : ∀ n, db'.activeTxn n = none := by
      simp [activeTxn, hsound.idle (hframe.inTransaction.trans hin)]
    have htxns : ∀ c n txn, db'.txnOf c n = some txn → c ≠ none ∧ db.txnOf c n = some txn := by
      intro c n txn htxn
      cases c with
      | none => exact absurd htxn (by simp [txnOf, hnone])
      | some sid => exact ⟨by simp, hothers (some sid) n (by simp) ▸ htxn⟩
    refine hk.store (fun n ts' hts' => ?_) fun c n txn htxn => (htxns c n txn htxn).2
    obtain ⟨ts, hts, hsame, hf⟩ := hframe.table_some hts'
    have hdistinct := hkeyed.distinct hts'
    rw [hnone] at hdistinct
    refine ⟨ts, hts, hf.evolves.schema, hdistinct, ?_⟩
    by_cases hn : n = stmt.target
    · subst hn
      obtain hwrites | hdel := hdeleting
      · exact .inr fun c txn htxn => hw _ hwrites c (htxns c _ txn htxn).1 txn
          (htxns c _ txn htxn).2
      · obtain ⟨t, ht, -, hsub⟩ := hdel.shrunk _ ts' hts'
        rw [hts] at ht
        cases ht
        exact .inl hsub
    · rw [hsame hn]
      exact .inl (.refl _)

theorem ClientsKeyed.session
    (hw : ∀ n, stmt.writesTo = some n → ∀ c, c ≠ some sid → ∀ txn, db.txnOf c n = some txn →
      txn.OnlyDeletes) (hret : (Archon.execute depth stmt params (db.enterSession sid)).1.Returns) :
    ClientsKeyed ((Archon.execute depth stmt params (db.enterSession sid)).2.leaveSession
      sid db) := by
  have hframe := execute_dmlFrame (h.any.enterSession sid) hq hret
  have hdeleting := execute_deleting (h.any.enterSession sid) hq hret
  have hkeyed := execute_keyed (h.enterSession sid)
    (hk.keyed (some sid) rfl (db.activeTxn_enterSession sid)) hq (hs.anywhere _) hret
  generalize (Archon.execute depth stmt params (db.enterSession sid)).2 = after
    at hframe hdeleting hkeyed
  have htxns := txnOf_leaveSession hframe.sessions
  have hown : ∀ n, (after.leaveSession sid db).txnOf (some sid) n = after.activeTxn n := by grind
  have hothers : ∀ c n, c ≠ some sid → (after.leaveSession sid db).txnOf c n = db.txnOf c n := by
    grind
  have hrest : ∀ n, n ≠ stmt.target →
      (after.leaveSession sid db).txnOf (some sid) n = db.txnOf (some sid) n := by
    intro n hn
    rw [hown, hframe.rest n hn, db.activeTxn_enterSession]
  refine hk.buffer (hframe.sameStored rfl) hothers hrest (fun ts txn hts htxn => ?_) ?_
  · have hdistinct := hkeyed.distinct hts
    rwa [← hown, htxn] at hdistinct
  · refine hdeleting.imp (hw _) fun hdel hd txn htxn => ?_
    rw [hown] at htxn
    exact hdel.deletes (fun t ht => hd t (db.activeTxn_enterSession sid _ ▸ ht)) txn htxn

end

end Archon
