import Archon.Lib.Bytes
import Archon.Lib.Except

/-!
# Archon.Core.Zerocopy

The bounds-checked little-endian `Cursor` (writer) and `Reader` of
`crates/tpt-archon-core/src/zerocopy.rs`.  Each read or write is one `take`
of a fixed number of bytes, so each has one lemma for the step over an
appended buffer and, for reads, one lemma saying what a success determines.
-/

namespace Archon

open List

/-- A read or write would exceed the buffer. -/
structure OutOfSpace where
  needed : Nat
  available : Nat
  deriving DecidableEq, Repr

/-! ## The writer -/

/-- A writer over a mutable slice: the slice and the bytes written so far. -/
structure Cursor where
  buf : Bytes
  pos : Nat

namespace Cursor

def new (buf : Bytes) : Cursor := ⟨buf, 0⟩

/-- Reserve the next `data.length` bytes and copy `data` over them. -/
def putBytes (c : Cursor) (data : Bytes) : Except OutOfSpace Cursor :=
  let available := c.buf.length - c.pos
  if available < data.length then .error ⟨data.length, available⟩
  else .ok ⟨splice c.buf c.pos data, c.pos + data.length⟩

def putU8 (c : Cursor) (v : UInt8) : Except OutOfSpace Cursor := c.putBytes [v]

def putU32 (c : Cursor) (v : UInt32) : Except OutOfSpace Cursor :=
  c.putBytes (leBytes 4 v.toNat)

def putU64 (c : Cursor) (v : UInt64) : Except OutOfSpace Cursor :=
  c.putBytes (leBytes 8 v.toNat)

/-- One write step: what was written so far is extended by `data`, and the
rest of the slice shrinks by as much. -/
theorem putBytes_append (pre data rest : Bytes) (h : data.length ≤ rest.length) :
    ∃ rest', putBytes ⟨pre ++ rest, pre.length⟩ data =
      .ok ⟨(pre ++ data) ++ rest', (pre ++ data).length⟩ ∧
      rest'.length + data.length = rest.length := by
  refine ⟨rest.drop data.length, ?_, by rw [length_drop]; omega⟩
  have hs : splice (pre ++ rest) pre.length data =
      (pre ++ data) ++ rest.drop data.length := by
    simp [splice]
  simp only [putBytes, length_append, hs]
  rw [if_neg (by omega)]

end Cursor

/-! ## The reader -/

/-- A reader over a slice: the slice and the bytes consumed so far. -/
structure Reader where
  buf : Bytes
  pos : Nat

namespace Reader

def new (buf : Bytes) : Reader := ⟨buf, 0⟩

def remaining (r : Reader) : Nat := r.buf.length - r.pos

/-- Consume the next `n` bytes. -/
def take (r : Reader) (n : Nat) : Except OutOfSpace (Bytes × Reader) :=
  if r.remaining < n then .error ⟨n, r.remaining⟩
  else .ok ((r.buf.drop r.pos).take n, ⟨r.buf, r.pos + n⟩)

def readU8 (r : Reader) : Except OutOfSpace (UInt8 × Reader) := do
  let (b, r) ← r.take 1
  return (UInt8.ofNat (ofLeBytes b), r)

def readU32 (r : Reader) : Except OutOfSpace (UInt32 × Reader) := do
  let (b, r) ← r.take 4
  return (UInt32.ofNat (ofLeBytes b), r)

def readU64 (r : Reader) : Except OutOfSpace (UInt64 × Reader) := do
  let (b, r) ← r.take 8
  return (UInt64.ofNat (ofLeBytes b), r)

def readBytes (r : Reader) (n : Nat) : Except OutOfSpace (Bytes × Reader) := r.take n

variable {post b : Bytes} {n : Nat} {v : UInt8} {r : Reader}

/-- One read step: the next `n` bytes are returned and consumed. -/
theorem take_of_drop {x : Bytes} (h : r.buf.drop r.pos = x ++ post) (hn : x.length = n) :
    r.take n = .ok (x, ⟨r.buf, r.pos + n⟩) := by
  have hl := congrArg List.length h
  rw [length_drop, length_append] at hl
  rw [take, if_neg (by rw [remaining]; omega), h, take_append_of_length hn]

/-- A reader that has not run past its buffer. -/
def Valid (r : Reader) : Prop := r.pos ≤ r.buf.length

/-- `r'` continues `r` after consuming exactly the bytes `b`. -/
def Read (r : Reader) (b : Bytes) (r' : Reader) : Prop :=
  r'.buf = r.buf ∧ r'.pos = r.pos + b.length ∧ r'.Valid ∧
    r.buf.take r'.pos = r.buf.take r.pos ++ b

variable {r' : Reader}

theorem read_of_take (hv : r.Valid) (h : r.take n = .ok (b, r')) : b.length = n ∧ r.Read b r' := by
  rw [take] at h
  by_cases hn : r.remaining < n
  · rw [if_pos hn] at h; contradiction
  · rw [if_neg hn] at h
    rw [remaining] at hn
    rw [Valid] at hv
    injection h with h
    injection h with hb hr
    subst hb hr
    have hl : ((r.buf.drop r.pos).take n).length = n := by
      rw [length_take, length_drop]; omega
    refine ⟨hl, rfl, by rw [hl], ?_, take_add⟩
    show r.pos + n ≤ r.buf.length
    omega

theorem read_of_readU8 (hv : r.Valid) (h : r.readU8 = .ok (v, r')) : r.Read [v] r' := by
  obtain ⟨⟨b, s⟩, ht, he⟩ := h.bind_ok
  obtain ⟨hl, hr⟩ := read_of_take hv ht
  obtain ⟨x, rfl⟩ := length_eq_one_iff.mp hl
  simp only [ofLeBytes] at he
  obtain ⟨rfl, rfl⟩ := he
  simpa using hr

theorem read_of_readU32 {v : UInt32} (hv : r.Valid) (h : r.readU32 = .ok (v, r')) :
    r.Read (leBytes 4 v.toNat) r' := by
  obtain ⟨⟨b, s⟩, ht, he⟩ := h.bind_ok
  obtain ⟨hl, hr⟩ := read_of_take hv ht
  obtain ⟨rfl, rfl⟩ := he
  have hb : ofLeBytes b < 256 ^ 4 := hl ▸ ofLeBytes_lt b
  rw [UInt32.toNat_ofNat', Nat.mod_eq_of_lt (by exact hb), ← hl, leBytes_ofLeBytes]
  exact hr

theorem read_of_readU64 {v : UInt64} (hv : r.Valid) (h : r.readU64 = .ok (v, r')) :
    r.Read (leBytes 8 v.toNat) r' := by
  obtain ⟨⟨b, s⟩, ht, he⟩ := h.bind_ok
  obtain ⟨hl, hr⟩ := read_of_take hv ht
  obtain ⟨rfl, rfl⟩ := he
  have hb : ofLeBytes b < 256 ^ 8 := hl ▸ ofLeBytes_lt b
  rw [UInt64.toNat_ofNat', Nat.mod_eq_of_lt (by exact hb), ← hl, leBytes_ofLeBytes]
  exact hr

/-- Consecutive reads consume the concatenation. -/
theorem Read.trans {r'' : Reader} {c : Bytes} (h : r.Read b r') (h' : r'.Read c r'') :
    r.Read (b ++ c) r'' := by
  obtain ⟨hb, hp, _, ht⟩ := h
  obtain ⟨hb', hp', hv', ht'⟩ := h'
  refine ⟨hb'.trans hb, ?_, hv', ?_⟩
  · rw [hp', hp, length_append, Nat.add_assoc]
  · rw [← hb, ht', hb, ht, append_assoc]

theorem readU8_of_drop (h : r.buf.drop r.pos = [v] ++ post) :
    r.readU8 = .ok (v, ⟨r.buf, r.pos + 1⟩) := by
  rw [readU8, take_of_drop h length_singleton]
  simp [ofLeBytes]

theorem readU32_of_drop {v : UInt32} (h : r.buf.drop r.pos = leBytes 4 v.toNat ++ post) :
    r.readU32 = .ok (v, ⟨r.buf, r.pos + 4⟩) := by
  rw [readU32, take_of_drop h (length_leBytes _ _)]
  simp only [Except.ok_bind, Except.pure_eq_ok]
  rw [ofLeBytes_leBytes_of_lt (by exact v.toNat_lt), UInt32.ofNat_toNat]

theorem readU64_of_drop {v : UInt64} (h : r.buf.drop r.pos = leBytes 8 v.toNat ++ post) :
    r.readU64 = .ok (v, ⟨r.buf, r.pos + 8⟩) := by
  rw [readU64, take_of_drop h (length_leBytes _ _)]
  simp only [Except.ok_bind, Except.pure_eq_ok]
  rw [ofLeBytes_leBytes_of_lt (by exact v.toNat_lt), UInt64.ofNat_toNat]

end Reader

end Archon
