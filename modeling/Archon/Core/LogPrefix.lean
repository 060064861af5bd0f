import Archon.Core.Wal
import Mathlib.Data.List.Induction

/-!
# Archon.Core.LogPrefix

What is left of a log that was cut off at any byte.

A torn record is never read (`decode_torn`), so replay sees the records that
are there in full, and `fromBytes` is the log of the appends that wrote them
(`prefix_law_iff`).  This needs every payload to fit the 32-bit lengths of the
frame: a longer one is logged but can never be read back.
-/

namespace Archon

open WalRecord List

/-- The arguments of an `append`. -/
structure AppendCall where
  kind : RecordKind
  blockId : UInt64
  payload : Bytes

namespace AppendCall

/-- The record an append writes under a given LSN. -/
def record (c : AppendCall) (lsn : Lsn) : WalRecord := ⟨lsn, c.kind, c.blockId, c.payload⟩

/-- Payloads whose lengths survive the casts to 32 bits. -/
def Fits (c : AppendCall) : Prop := c.payload.length < 2 ^ 32 - 25

theorem fits_iff (c : AppendCall) (lsn : Lsn) : (c.record lsn).Fits ↔ c.Fits := by
  grind [Fits, WalRecord.Fits, record]

/-- The bytes an append adds to the log. -/
def size (c : AppendCall) : Nat := (c.record 0).encodedLen

theorem length_frame_record (c : AppendCall) (lsn : Lsn) :
    (c.record lsn).frame.length = c.size := by
  rw [length_frame]
  rfl

end AppendCall

/-- The records of a sequence of appends, with LSNs from `start` on. -/
def recordsFrom (start : Nat) (calls : List AppendCall) : List WalRecord :=
  calls.mapIdx fun i c => c.record (UInt64.ofNat (start + i))

namespace Wal

/-- Append one after the other. -/
def appendAll (w : Wal) (calls : List AppendCall) : Wal :=
  calls.foldl (fun w c => w.append c.kind c.blockId c.payload) w

/-- The records of a log, in the order of its replay. -/
def replayed (w : Wal) : List WalRecord × Nat := w.replay (fun rs r => rs ++ [r]) []

end Wal

/-- The number of appends whose records lie in the first `n` bytes. -/
def wholeIn : List AppendCall → Nat → Nat
  | [], _ => 0
  | c :: calls, n => if c.size ≤ n then wholeIn calls (n - c.size) + 1 else 0

/-- The law of a log cut off after `n` bytes: replay sees the whole records,
the log rebuilt from them is the one their appends make, and it can be
appended to. -/
structure PrefixLaw (calls more : List AppendCall) (n : Nat) : Prop where
  replay : ∀ lsn, (Wal.mk ((Wal.new.appendAll calls).bytes.take n) lsn).replayed =
    ((recordsFrom 0 calls).take (wholeIn calls n), wholeIn calls n)
  rebuilt : Wal.fromBytes ((Wal.new.appendAll calls).bytes.take n) =
    Wal.new.appendAll (calls.take (wholeIn calls n))
  appended : ((Wal.fromBytes ((Wal.new.appendAll calls).bytes.take n)).appendAll more).replayed =
    (recordsFrom 0 (calls.take (wholeIn calls n) ++ more), wholeIn calls n + more.length)

/-! ## Appends -/

theorem recordsFrom_cons (start : Nat) (c : AppendCall) (calls : List AppendCall) :
    recordsFrom start (c :: calls) =
      c.record (UInt64.ofNat start) :: recordsFrom (start + 1) calls := by
  simp [recordsFrom, Nat.add_assoc, Nat.add_comm 1]

variable {calls : List AppendCall}

theorem recordsFrom_fits {start : Nat} :
    (∀ r ∈ recordsFrom start calls, r.Fits) ↔ ∀ c ∈ calls, c.Fits := by
  induction calls generalizing start with
  | nil => simp [recordsFrom]
  | cons c calls ih => simp [recordsFrom_cons, ih, c.fits_iff]

namespace Wal

/-- The log after some appends. -/
theorem appendAll_eq (calls : List AppendCall) {w : Wal} {start : Nat}
    (h : w.nextLsn = UInt64.ofNat start) :
    w.appendAll calls =
      ⟨w.bytes ++ frames (recordsFrom start calls), UInt64.ofNat (start + calls.length)⟩ := by
  induction calls generalizing w start with
  | nil =>
    obtain ⟨bytes, lsn⟩ := w
    simpa [appendAll, recordsFrom, frames] using h
  | cons c calls ih =>
    have hlsn : (w.append c.kind c.blockId c.payload).nextLsn = UInt64.ofNat (start + 1) := by
      rw [append, encode_eq_frame _ (by simp), h]
      simp
    have hcons : w.appendAll (c :: calls) =
        (w.append c.kind c.blockId c.payload).appendAll calls := rfl
    rw [hcons, ih hlsn, bytes_append, recordsFrom_cons, nextRecord, h]
    simp [frames, AppendCall.record, Nat.add_assoc, Nat.add_comm 1]

end Wal

/-! ## Cutting -/

/-- A record of which the end is missing is not read. -/
theorem decode_torn {r : WalRecord} (h : r.Fits) {bs rest : Bytes} (hsplit : r.frame = bs ++ rest)
    (hrest : rest ≠ []) : ∃ e, decode bs = .error e := by
  cases hd : decode bs with
  | error e => exact ⟨e, rfl⟩
  | ok p =>
    obtain ⟨r', n⟩ := p
    obtain ⟨hfits', hn, hle, htake⟩ := decode_sound hd
    have hframe : r.frame ++ [] = r'.frame ++ (bs.drop n ++ rest) := by
      rw [append_nil, hsplit, ← append_assoc, ← htake, take_append_drop]
    -- the same bytes hold both records, so the torn one was there in full
    have hr := decode_frame_append r h []
    rw [hframe, decode_frame_append r' hfits'] at hr
    have hlen := congrArg List.length hsplit
    have hpos := length_pos_iff.mpr hrest
    grind

theorem frames_cons (r : WalRecord) (rs : List WalRecord) :
    frames (r :: rs) = r.frame ++ frames rs := flatMap_cons

theorem wholeIn_le (calls : List AppendCall) (n : Nat) : wholeIn calls n ≤ calls.length := by
  induction calls generalizing n with
  | nil => simp [wholeIn]
  | cons c calls ih =>
    grind [wholeIn]

/-- Nothing is cut off a log that is kept in full. -/
theorem wholeIn_length (calls : List AppendCall) (start : Nat) :
    wholeIn calls (frames (recordsFrom start calls)).length = calls.length := by
  induction calls generalizing start with
  | nil => rfl
  | cons c calls ih =>
    rw [recordsFrom_cons, frames_cons, length_append, c.length_frame_record, wholeIn,
      if_pos (by omega), Nat.add_sub_cancel_left, ih, length_cons]

/-- The cut log, as whole records and a torn one. -/
theorem intact_take (hfits : ∀ c ∈ calls, c.Fits) (n start : Nat) :
    ∃ tail, Wal.Intact ((frames (recordsFrom start calls)).take n)
      ((recordsFrom start calls).take (wholeIn calls n)) tail := by
  induction calls generalizing n start with
  | nil => exact ⟨[], by simp [recordsFrom, frames], by simp [recordsFrom], .inl rfl⟩
  | cons c calls ih =>
    rw [forall_mem_cons] at hfits
    have hr := (c.fits_iff (UInt64.ofNat start)).mpr hfits.1
    have hlen := c.length_frame_record (UInt64.ofNat start)
    rw [recordsFrom_cons, frames_cons, wholeIn]
    split
    · next hle =>
      obtain ⟨tail, hintact⟩ := ih hfits.2 (n - c.size) (start + 1)
      refine ⟨tail, ?_, ?_, hintact.torn⟩
      · rw [take_succ_cons, frames_cons, take_append, hlen, hintact.split,
          take_of_length_le (by omega), append_assoc]
      · simpa using ⟨hr, hintact.fits⟩
    · next hgt =>
      refine ⟨_, rfl, by simp, .inr ?_⟩
      rw [take_append_of_le_length (by omega)]
      apply decode_torn hr (take_append_drop n _).symm
      intro hnil
      have hdrop := congrArg List.length hnil
      grind

/-! ## Rebuilding -/

theorem take_recordsFrom (start n : Nat) (calls : List AppendCall) :
    (recordsFrom start calls).take n = recordsFrom start (calls.take n) := by
  induction calls generalizing start n with
  | nil => simp [recordsFrom]
  | cons c calls ih =>
    cases n with
    | zero => simp [recordsFrom]
    | succ n =>
      rw [take_succ_cons, recordsFrom_cons, recordsFrom_cons, take_succ_cons, ih]

theorem length_recordsFrom (start : Nat) (calls : List AppendCall) :
    (recordsFrom start calls).length = calls.length := by
  simp [recordsFrom]

namespace Wal

variable {rs : List WalRecord} {tail data : Bytes}

theorem replayed_of_intact {w : Wal} (h : Intact w.bytes rs tail) :
    w.replayed = (rs, rs.length) := by
  rw [replayed, replay, replayLoop_of_intact h, foldl_concat, nil_append, Nat.zero_add]

/-- The next LSN is the one after the last intact record's. -/
theorem fromBytes_of_intact (h : Intact data rs tail) :
    fromBytes data = ⟨frames rs, (rs.getLast?.map fun r => r.lsn + 1).getD 0⟩ := by
  have hbytes := fromBytes_bytes data
  rw [intactRecords_of_intact h] at hbytes
  have hlast : ∀ (rs : List WalRecord) (s : Nat × Option Lsn),
      (rs.foldl (fun s r => (s.1 + r.encodedLen, some r.lsn)) s).2 =
        (rs.getLast?.map WalRecord.lsn).or s.2 := by
    intro rs
    induction rs with
    | nil => simp
    | cons r rs ih => simp [ih, getLast?_cons]
  have hscan : (scanLoop data 0 none).2 = rs.getLast?.map WalRecord.lsn := by
    rw [scanLoop_eq_replayLoop data 0 none 0, replayLoop_of_intact h, hlast]
    simp
  rw [← hbytes]
  simp only [fromBytes, hscan]
  cases rs.getLast? <;> rfl

/-- The log rebuilt from whole records is the log of their appends. -/
theorem fromBytes_recordsFrom (h : Intact data (recordsFrom 0 calls) tail) :
    fromBytes data = new.appendAll calls := by
  have hnew : new.nextLsn = UInt64.ofNat 0 := rfl
  rw [fromBytes_of_intact h, appendAll_eq calls hnew]
  cases calls using List.reverseRecOn with
  | nil => rfl
  | append_singleton calls c => simp [recordsFrom, AppendCall.record, new]

theorem bytes_appendAll_new (calls : List AppendCall) :
    (new.appendAll calls).bytes = frames (recordsFrom 0 calls) := by
  have hnew : new.nextLsn = UInt64.ofNat 0 := rfl
  rw [appendAll_eq calls hnew]
  rfl

theorem appendAll_append (w : Wal) (calls more : List AppendCall) :
    (w.appendAll calls).appendAll more = w.appendAll (calls ++ more) := foldl_append.symm

end Wal

/-! ## The law -/

/-- Payloads that fit are all a log needs. -/
theorem prefixLaw_of_fits {more : List AppendCall} (h : ∀ c ∈ calls ++ more, c.Fits) (n : Nat) :
    PrefixLaw calls more n := by
  have hfits : ∀ c ∈ calls, c.Fits := fun c hc => h c (mem_append_left _ hc)
  obtain ⟨tail, hcut⟩ := intact_take hfits n 0
  rw [← Wal.bytes_appendAll_new] at hcut
  have hlen : ((recordsFrom 0 calls).take (wholeIn calls n)).length = wholeIn calls n := by
    rw [length_take, length_recordsFrom]
    have := wholeIn_le calls n
    omega
  have hrebuilt : Wal.fromBytes ((Wal.new.appendAll calls).bytes.take n) =
      Wal.new.appendAll (calls.take (wholeIn calls n)) := by
    rw [take_recordsFrom] at hcut
    exact Wal.fromBytes_recordsFrom hcut
  constructor
  · intro lsn
    rw [Wal.replayed_of_intact hcut, hlen]
  · exact hrebuilt
  · -- the appends before and after the cut make one log of whole records
    have hkept : ∀ c ∈ calls.take (wholeIn calls n) ++ more, c.Fits := by
      intro c hc
      rw [mem_append] at hc
      exact h c (mem_append.mpr (hc.imp_left mem_of_mem_take))
    have hintact := Wal.intact_of_frames _ ((@recordsFrom_fits _ 0).mpr hkept)
    rw [← Wal.bytes_appendAll_new] at hintact
    rw [hrebuilt, Wal.appendAll_append, Wal.replayed_of_intact hintact, length_recordsFrom,
      length_append, length_take, Nat.min_eq_left (wholeIn_le calls n)]

/-- Records that are read back fit. -/
theorem fits_of_prefixLaw {more : List AppendCall} (h : ∀ n, PrefixLaw calls more n) :
    ∀ c ∈ calls ++ more, c.Fits := by
  have hlaw := (h (Wal.new.appendAll calls).bytes.length).appended
  rw [Wal.bytes_appendAll_new, wholeIn_length, take_length, take_length] at hlaw
  apply (@recordsFrom_fits _ 0).mp
  intro r hr
  have hread := congrArg Prod.fst hlaw
  dsimp only at hread
  rw [← hread] at hr
  exact Wal.fits_of_mem_intactRecords hr

/-- A log obeys the law at every cut exactly if its payloads fit. -/
theorem prefix_law_iff (calls more : List AppendCall) :
    (∀ n, PrefixLaw calls more n) ↔ ∀ c ∈ calls ++ more, c.Fits :=
  ⟨fits_of_prefixLaw, prefixLaw_of_fits⟩

/-- A payload of 2^32 bytes is appended, and lost. -/
theorem long_payload_lost : ¬ ∀ n, PrefixLaw [⟨.pageWrite, 0, List.replicate (2 ^ 32) 0⟩] [] n := by
  intro h
  have hfits := fits_of_prefixLaw h _ (.head _)
  grind [AppendCall.Fits]

end Archon
