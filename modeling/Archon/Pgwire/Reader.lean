import Archon.Lib.BigEndian
import Archon.Pgwire.Message

/-!
# Archon.Pgwire.Reader

The incremental frontend parser `MessageReader`
(`crates/out-archon-pgwire/src/codec/mod.rs`).

The parser throws the tag byte away and parses every message as a startup
message; it waits forever on an empty payload; and it counts payload bytes
that are already in the buffer again at every feed, so it can reach for more
than it has.  `frames_read_iff` says exactly which streams, cut how, are read
as they should be.
-/

namespace Archon

open List

variable {buf c rest : Bytes} {msg : FrontendMessage} {a b k pos : Nat} {tag : UInt8}

/-! ## Parsing one message -/

/-- The body as a string, without the zeros at its end; empty if it is not
UTF-8. -/
def stringFromBody (body : Bytes) : Text :=
  let chars := ((String.fromUTF8? ⟨body.toArray⟩).map String.toList).getD []
  (chars.reverse.dropWhile (· = Char.ofNat 0)).reverse

def parseStartup (body : Bytes) : Except CodecError FrontendMessage :=
  let parts := (stringFromBody body).splitOn (Char.ofNat 0)
  .ok (.startup ⟨3, 0, (parts.filter (· ≠ [])).filterMap (splitOnce [Char.ofNat 0])⟩)

def parseFrontendMessage (tag : UInt8) (body : Bytes) : Except CodecError FrontendMessage :=
  if tag = 0 then parseStartup body
  else if tag = 81 then .ok (.query (stringFromBody body))
  else if tag = 88 then .ok .terminate
  else if tag = 112 then .ok (.password (stringFromBody body))
  else if tag ∈ [80, 66, 68, 69, 83, 67] then .ok .parse
  else .error (.unexpectedTag tag)

/-- The tags `parse_frontend_message` knows. -/
def SupportedTag (tag : UInt8) : Prop := tag ∈ [0, 81, 88, 112, 80, 66, 68, 69, 83, 67]

/-! ## The reader -/

inductive ReaderState where
  | tag
  | length
  | body (len : Nat) (tag : UInt8) (bodyPos : Nat)
  deriving DecidableEq

structure MessageReader where
  buf : Bytes
  state : ReaderState
  deriving DecidableEq

inductive FeedError where
  | codec (e : CodecError)
  | panic
  | outOfFuel
  deriving DecidableEq

namespace MessageReader

def new : MessageReader := ⟨[], .tag⟩

/-- The loop of `feed`: the messages completed, and the reader it leaves. -/
def feedLoop : Nat → MessageReader → Except FeedError (List FrontendMessage × MessageReader)
  | 0, _ => .error .outOfFuel
  | fuel + 1, r =>
    match r.state with
    | .tag =>
      match r.buf with
      | [] => .ok ([], r)
      | _ :: rest => feedLoop fuel ⟨rest, .length⟩
    | .length =>
      match r.buf with
      | b0 :: b1 :: b2 :: b3 :: rest =>
        let len := ofBe32 b0 b1 b2 b3
        -- the state is `Length` here, so the tag is always 0
        if len < 4 then .error (.codec (.invalidLength len))
        else feedLoop fuel ⟨rest, .body (len - 4) 0 0⟩
      | _ => .ok ([], r)
    | .body len tag bodyPos =>
      let available := min r.buf.length (len - bodyPos)
      if available = 0 then .ok ([], r)
      else if bodyPos + available < len then .ok ([], ⟨r.buf, .body len tag (bodyPos + available)⟩)
      -- `drain(0..len)` panics if the buffer is shorter
      else if r.buf.length < len then .error .panic
      else
        match parseFrontendMessage tag (r.buf.take len) with
        | .error e => .error (.codec e)
        | .ok msg =>
          (feedLoop fuel ⟨r.buf.drop len, .tag⟩).map fun (msgs, r) => (msg :: msgs, r)

/-- Every round of the loop takes at least one byte off the buffer. -/
def feed (r : MessageReader) (bytes : Bytes) :
    Except FeedError (List FrontendMessage × MessageReader) :=
  feedLoop ((r.buf ++ bytes).length + 1) { r with buf := r.buf ++ bytes }

/-- Feed chunk after chunk: what each feed returns. -/
def feedAll : MessageReader → List Bytes → Except FeedError (List (List FrontendMessage))
  | _, [] => .ok []
  | r, chunk :: chunks =>
    match r.feed chunk with
    | .error e => .error e
    | .ok (msgs, r) => (feedAll r chunks).map fun rest => msgs :: rest

/-! ### The loop, one round at a time -/

/-- Fuel beyond the length of the buffer makes no difference. -/
theorem feedLoop_fuel {r : MessageReader} {fuel fuel' : Nat} (h : r.buf.length < fuel)
    (h' : r.buf.length < fuel') : feedLoop fuel r = feedLoop fuel' r := by
  induction fuel generalizing r fuel' with
  | zero => omega
  | succ fuel ih =>
    obtain _ | fuel' := fuel'
    · omega
    obtain ⟨buf, state⟩ := r
    cases state with
    | tag =>
      cases buf with
      | nil => rfl
      | cons b rest =>
        exact ih (r := ⟨rest, .length⟩) (by simpa using h) (by simpa using h')
    | length =>
      obtain _ | ⟨b0, _ | ⟨b1, _ | ⟨b2, _ | ⟨b3, rest⟩⟩⟩⟩ := buf
      · rfl
      · rfl
      · rfl
      · rfl
      · simp only [length_cons] at h h'
        simp only [feedLoop]
        split
        · rfl
        · exact ih (by simp only; omega) (by simp only; omega)
    | body len tag bodyPos =>
      simp only [feedLoop]
      split
      · rfl
      · next hav =>
        split
        · rfl
        · split
          · rfl
          · next hdone hlen =>
            simp only at h h' hav hlen
            have hshort : ((buf.drop len).length < fuel) ∧
                (buf.drop len).length < fuel' := by
              rw [length_drop]
              omega
            rw [ih (r := ⟨buf.drop len, .tag⟩) hshort.1 hshort.2]

/-- The loop with just enough fuel. -/
def run (r : MessageReader) : Except FeedError (List FrontendMessage × MessageReader) :=
  feedLoop (r.buf.length + 1) r

theorem feed_eq_run (r : MessageReader) (bytes : Bytes) :
    r.feed bytes = run ⟨r.buf ++ bytes, r.state⟩ := rfl

theorem run_tag_cons (b : UInt8) (rest : Bytes) :
    run ⟨b :: rest, .tag⟩ = run ⟨rest, .length⟩ := rfl

theorem run_length_short (h : buf.length < 4) : run ⟨buf, .length⟩ = .ok ([], ⟨buf, .length⟩) := by
  obtain _ | ⟨b0, _ | ⟨b1, _ | ⟨b2, _ | ⟨b3, rest⟩⟩⟩⟩ := buf
  · rfl
  · rfl
  · rfl
  · rfl
  · grind

theorem feedLoop_length (fuel : Nat) (b0 b1 b2 b3 : UInt8) (rest : Bytes) :
    feedLoop (fuel + 1) ⟨b0 :: b1 :: b2 :: b3 :: rest, .length⟩ =
      if ofBe32 b0 b1 b2 b3 < 4 then .error (.codec (.invalidLength (ofBe32 b0 b1 b2 b3)))
      else feedLoop fuel ⟨rest, .body (ofBe32 b0 b1 b2 b3 - 4) 0 0⟩ := rfl

theorem run_length {n : Nat} (h : n + 4 < UInt32.size) (rest : Bytes) :
    run ⟨beBytes 4 (n + 4) ++ rest, .length⟩ = run ⟨rest, .body n 0 0⟩ := by
  have hlen := ofBe32_beBytes h
  rw [beBytes_four, run]
  simp only [cons_append]
  rw [feedLoop_length, hlen]
  apply feedLoop_fuel
  · grind
  · simp

/-- Nothing of the payload is there, or there is no payload. -/
theorem run_body_idle {len : Nat} (h : buf = [] ∨ len ≤ pos) :
    run ⟨buf, .body len tag pos⟩ = .ok ([], ⟨buf, .body len tag pos⟩) := by
  have hav : min buf.length (len - pos) = 0 := by
    obtain rfl | h := h
    · simp
    · omega
  simp [run, feedLoop, hav]

/-- Part of the payload is there, and is counted. -/
theorem run_body_short {len : Nat} (h : pos + buf.length < len) :
    run ⟨buf, .body len tag pos⟩ = .ok ([], ⟨buf, .body len tag (pos + buf.length)⟩) := by
  have hav : min buf.length (len - pos) = buf.length := by omega
  simp [run, feedLoop, hav, h]

/-- The count says that the payload is complete, the buffer does not. -/
theorem run_body_panic {len : Nat} (hpos : pos < len) (hbuf : buf.length < len)
    (h : len ≤ pos + buf.length) : run ⟨buf, .body len tag pos⟩ = .error .panic := by
  simp only [run, feedLoop]
  rw [if_neg (by omega), if_neg (by omega), if_pos hbuf]

theorem run_body_done {payload : Bytes} (hpos : pos < payload.length)
    (hparse : parseFrontendMessage tag payload = .ok msg) :
    run ⟨payload ++ rest, .body payload.length tag pos⟩ =
      (run ⟨rest, .tag⟩).map fun (msgs, r) => (msg :: msgs, r) := by
  have hlen : (payload ++ rest).length = payload.length + rest.length := length_append
  have hrest : feedLoop (payload ++ rest).length ⟨rest, .tag⟩ = run ⟨rest, .tag⟩ :=
    feedLoop_fuel (by show rest.length < _; omega) (Nat.lt_succ_self _)
  rw [run]
  simp only [feedLoop]
  grind

end MessageReader

/-! ## Frames -/

/-- A frontend message on the wire. -/
structure WireFrame where
  tag : UInt8
  payload : Bytes
  deriving DecidableEq

namespace WireFrame

/-- Tag, length and payload. -/
def bytes (f : WireFrame) : Bytes := f.tag :: beBytes 4 (f.payload.length + 4) ++ f.payload

/-- A supported tag, and a payload the length field can count. -/
structure Valid (f : WireFrame) : Prop where
  tag : SupportedTag f.tag
  length : f.payload.length + 4 < UInt32.size

/-- The message of a frame: its own tag, its own payload. -/
def message (f : WireFrame) : Option FrontendMessage :=
  (parseFrontendMessage f.tag f.payload).toOption

theorem length_bytes (f : WireFrame) : f.bytes.length = 5 + f.payload.length := by
  simp [bytes]
  omega

/-- The frames with the positions they end at, the first of them starting at
`offset`. -/
def endings : Nat → List WireFrame → List (Nat × WireFrame)
  | _, [] => []
  | offset, f :: fs => (offset + f.bytes.length, f) :: endings (offset + f.bytes.length) fs

/-- The messages of the frames that end after `a` and not after `b`. -/
def due (ends : List (Nat × WireFrame)) (a b : Nat) : List FrontendMessage :=
  ends.filterMap fun e => if a < e.1 ∧ e.1 ≤ b then e.2.message else none

/-- What each feed should return: the messages whose last byte it brings. -/
def replies (ends : List (Nat × WireFrame)) : Nat → List Bytes → List (List FrontendMessage)
  | _, [] => []
  | a, chunk :: chunks => due ends a (a + chunk.length) :: replies ends (a + chunk.length) chunks

/-- The positions at which a feed ends. -/
def feedEnds : Nat → List Bytes → List Nat
  | _, [] => []
  | a, chunk :: chunks => (a + chunk.length) :: feedEnds (a + chunk.length) chunks

/-- The payload bytes counted at feeds that end inside a payload of length `n`
that starts at `start`. -/
def counted (start n : Nat) (ends : List Nat) : Nat :=
  ((ends.filter fun b => start < b ∧ b < start + n).map (· - start)).sum

/-- Startup messages with a payload, cut so that the payload bytes counted at
feeds that end inside a payload do not add up to its length. -/
def Readable (ends : List Nat) : Nat → List WireFrame → Prop
  | _, [] => True
  | offset, f :: fs =>
    f.tag = 0 ∧ f.payload ≠ [] ∧ counted (offset + 5) f.payload.length ends < f.payload.length ∧
      Readable ends (offset + f.bytes.length) fs

end WireFrame

/-! ## The reader inside a frame -/

namespace MessageReader

open WireFrame

/-- The reader after `k` bytes of a frame, `pos` payload bytes counted. -/
def within (f : WireFrame) (k pos : Nat) : MessageReader :=
  if k = 0 then .new
  else if k < 5 then ⟨(f.bytes.take k).drop 1, .length⟩
  else ⟨(f.bytes.take k).drop 5, .body f.payload.length 0 pos⟩

variable {f : WireFrame}

/-- Before the payload, feeding more is as good as feeding all at once. -/
theorem feed_within_header (hk : k < 5) (c : Bytes) :
    (within f k 0).feed c = run ⟨f.bytes.take k ++ c, .tag⟩ := by
  rw [feed_eq_run]
  obtain _ | k := k
  · rfl
  · simp [within, hk, bytes, run_tag_cons]

/-- A feed that ends in the header. -/
theorem feed_within_short (hk : k < 5) (hc : f.bytes.take k ++ c = f.bytes.take (k + c.length))
    (hm : k + c.length < 5) : (within f k 0).feed c = .ok ([], within f (k + c.length) 0) := by
  rw [feed_within_header hk, hc]
  cases hm' : k + c.length with
  | zero => rfl
  | succ m =>
    have hm4 : m < 4 := by omega
    have htake : f.bytes.take (m + 1) = f.tag :: (beBytes 4 (f.payload.length + 4)).take m := by
      rw [bytes, cons_append, take_succ_cons,
        take_append_of_le_length (by simpa using Nat.le_of_lt hm4)]
    rw [htake, run_tag_cons, run_length_short (by simp; omega)]
    simp [within, htake, show m + 1 < 5 by omega]

section

variable (hf : f.payload.length + 4 < UInt32.size) (hpos : k < 5 → pos = 0)
include hf hpos

/-- A feed that reaches the payload. -/
theorem feed_within_payload
    (hc : f.bytes.take k ++ c = f.tag :: beBytes 4 (f.payload.length + 4) ++ rest)
    (hk : k ≤ f.bytes.length) :
    (within f k pos).feed c = run ⟨rest, .body f.payload.length 0 pos⟩ := by
  by_cases h5 : k < 5
  · rw [hpos h5, feed_within_header h5, hc, cons_append, run_tag_cons, run_length hf]
  · have hdrop : (f.bytes.take k).drop 5 ++ c = rest := by
      have hlen : 5 ≤ (f.bytes.take k).length := by grind
      have hall := congrArg (List.drop 5) hc
      rw [drop_append_of_le_length hlen] at hall
      assumption
    rw [feed_eq_run, within, if_neg (by omega), if_neg h5]
    simp [hdrop]

/-- A feed that ends inside the frame: nothing is returned, and payload bytes
in the buffer are counted, whether or not they were counted before. -/
theorem feed_within
    (hlt : pos < f.payload.length) (hc : f.bytes.take k ++ c = f.bytes.take (k + c.length))
    (hm : k + c.length < f.bytes.length) :
    (within f k pos).feed c =
      if pos + (k + c.length - 5) < f.payload.length then
        .ok ([], within f (k + c.length) (pos + (k + c.length - 5)))
      else .error .panic := by
  have hlen := f.length_bytes
  by_cases h5 : k + c.length < 5
  · have hk : k < 5 := by omega
    have hsub : k + c.length - 5 = 0 := by omega
    obtain rfl := hpos hk
    rw [feed_within_short hk hc h5, hsub, if_pos (by omega)]
  · have hbuf : f.bytes.take (k + c.length) = f.tag :: beBytes 4 (f.payload.length + 4) ++
        f.payload.take (k + c.length - 5) := by
      have hheader : (f.tag :: beBytes 4 (f.payload.length + 4)).length = 5 := by simp
      rw [bytes, take_append, hheader, take_of_length_le (by omega)]
    have hshort : (f.payload.take (k + c.length - 5)).length = k + c.length - 5 := by grind
    have hnext : within f (k + c.length) (pos + (k + c.length - 5)) =
        ⟨f.payload.take (k + c.length - 5),
          .body f.payload.length 0 (pos + (k + c.length - 5))⟩ := by
      rw [within, if_neg (by omega), if_neg h5, hbuf]
      simp
    rw [feed_within_payload hf hpos (hc.trans hbuf) (by omega), hnext]
    by_cases hzero : k + c.length - 5 = 0
    · rw [run_body_idle (.inl (length_eq_zero_iff.mp (hshort.trans hzero))), hzero,
        if_pos (by omega), Nat.add_zero]
    · split
      · next hcount =>
        rw [run_body_short (by rwa [hshort]), hshort]
      · next hcount => exact run_body_panic hlt (by omega) (by omega)

/-- A feed that brings the last byte of the frame: it is parsed with the tag
0, and the reader starts afresh. -/
theorem feed_last {y : Bytes} (hlt : pos < f.payload.length) (hk : k ≤ f.bytes.length)
    (hc : f.bytes.take k ++ c = f.bytes ++ y)
    (hparse : parseFrontendMessage 0 f.payload = .ok msg) :
    (within f k pos).feed c =
      (MessageReader.new.feed y).map fun (msgs, r) => (msg :: msgs, r) := by
  have hall : f.bytes.take k ++ c =
      f.tag :: beBytes 4 (f.payload.length + 4) ++ (f.payload ++ y) := by
    rw [hc, bytes, append_assoc]
  rw [feed_within_payload hf hpos hall hk, run_body_done hlt hparse]
  rfl

end

/-- The reader never gets past an empty payload. -/
theorem feed_empty (hf : f.payload.length + 4 < UInt32.size) (hempty : f.payload = []) {y : Bytes}
    (hk : k < 5) (hc : f.bytes.take k ++ c = f.bytes ++ y) :
    ∃ r, (within f k 0).feed c = .ok ([], r) := by
  have hall : f.bytes.take k ++ c =
      f.tag :: beBytes 4 (f.payload.length + 4) ++ (f.payload ++ y) := by
    rw [hc, bytes, append_assoc]
  have hlen := f.length_bytes
  refine ⟨⟨f.payload ++ y, .body f.payload.length 0 0⟩, ?_⟩
  rw [feed_within_payload hf (fun _ => rfl) hall (by omega),
    run_body_idle (.inr (by simp [hempty]))]

end MessageReader

/-! ## Whole streams -/

namespace WireFrame

theorem message_zero (f : WireFrame) (hf : f.Valid)
    (hparse : parseFrontendMessage 0 f.payload = .ok msg) : f.message = some msg ↔ f.tag = 0 := by
  have hmsg : msg = .startup _ := (Except.ok.inj hparse).symm
  constructor
  · intro h
    by_contra hne
    obtain ⟨tag, payload⟩ := f
    obtain ⟨hsupported, -⟩ := hf
    simp only [SupportedTag, mem_cons, not_mem_nil, or_false] at hsupported
    rw [hmsg] at h
    obtain rfl | rfl | rfl | rfl | rfl | rfl | rfl | rfl | rfl | rfl := hsupported
    · exact hne rfl
    all_goals cases h
  · intro h
    rw [message, h, hparse]
    rfl

/-- The message of a valid frame. -/
theorem Valid.message {f : WireFrame} (hf : f.Valid) : ∃ msg, f.message = some msg := by
  obtain ⟨tag, payload⟩ := f
  obtain ⟨hsupported, -⟩ := hf
  simp only [SupportedTag, mem_cons, not_mem_nil, or_false] at hsupported
  obtain rfl | rfl | rfl | rfl | rfl | rfl | rfl | rfl | rfl | rfl := hsupported
  all_goals exact ⟨_, rfl⟩

variable {offset : Nat} {fs : List WireFrame} {e : Nat × WireFrame}

/-- Later frames end later. -/
theorem lt_of_mem_endings (h : e ∈ endings offset fs) : offset < e.1 := by
  induction fs generalizing offset with
  | nil => cases h
  | cons f fs ih =>
    have hlen := f.length_bytes
    obtain rfl | h := mem_cons.mp h
    · omega
    · have hlt := ih h
      omega

variable {ends : List (Nat × WireFrame)}

/-- Nothing is due before the first frame ends. -/
theorem due_eq_nil (h : ∀ e ∈ ends, b < e.1) : due ends a b = [] := by
  refine filterMap_eq_nil_iff.mpr fun e he => if_neg ?_
  have hlt := h e he
  omega

/-- What has ended is not due again. -/
theorem due_cons_of_le (h : e.1 ≤ a) : due (e :: ends) a b = due ends a b := by
  grind [due]

theorem replies_cons_of_le (h : e.1 ≤ a) (chunks : List Bytes) :
    replies (e :: ends) a chunks = replies ends a chunks := by
  induction chunks generalizing a with
  | nil => rfl
  | cons c chunks ih => rw [replies, replies, due_cons_of_le h, ih (by omega)]

/-- The frame that ends in a feed comes first; the rest is as if the feed had
started at its end. -/
theorem due_cons {f : WireFrame} {e : Nat} (hmsg : f.message = some msg) (ha : a < e) (hb : e ≤ b) :
    due ((e, f) :: endings e fs) a b = msg :: due (endings e fs) e b := by
  rw [due, filterMap_cons, if_pos ⟨ha, hb⟩, hmsg]
  refine congrArg (msg :: ·) (filterMap_congr fun x hx => ?_)
  have hlt := lt_of_mem_endings hx
  have hiff : (a < x.1 ∧ x.1 ≤ b) ↔ (e < x.1 ∧ x.1 ≤ b) := by omega
  simp [hiff]

theorem counted_cons (start n b : Nat) (ends : List Nat) :
    counted start n (b :: ends) =
      (if start < b ∧ b < start + n then b - start else 0) + counted start n ends := by
  unfold counted
  grind

theorem counted_eq_zero {start n : Nat} {ends : List Nat} (h : ∀ b ∈ ends, start + n ≤ b) :
    counted start n ends = 0 := by
  induction ends with
  | nil => rfl
  | cons b ends ih =>
    have hb := h b (.head _)
    rw [counted_cons, if_neg (by omega), ih fun c hc => h c (.tail _ hc)]

theorem le_of_mem_feedEnds {chunks : List Bytes} (h : b ∈ feedEnds a chunks) : a ≤ b := by
  induction chunks generalizing a with
  | nil => cases h
  | cons c chunks ih =>
    obtain rfl | h := mem_cons.mp h
    · omega
    · have hle := ih h
      omega

/-- A feed that ends before a frame does not matter to it. -/
theorem readable_cons (h : b ≤ offset) (ends : List Nat) (fs : List WireFrame) :
    Readable (b :: ends) offset fs ↔ Readable ends offset fs := by
  induction fs generalizing offset with
  | nil => rfl
  | cons f fs ih =>
    have hzero : counted (offset + 5) f.payload.length (b :: ends) =
        counted (offset + 5) f.payload.length ends := by
      rw [counted_cons, if_neg (by omega), Nat.zero_add]
    rw [Readable, Readable, hzero, ih (by omega)]

end WireFrame

namespace MessageReader

open WireFrame

theorem feedAll_ok {r r' : MessageReader} {msgs : List FrontendMessage}
    (h : r.feed c = .ok (msgs, r')) (cs : List Bytes) (head : List FrontendMessage)
    (rest : List (List FrontendMessage)) :
    feedAll r (c :: cs) = .ok (head :: rest) ↔ msgs = head ∧ feedAll r' cs = .ok rest := by
  rw [feedAll, h]
  dsimp only
  cases feedAll r' cs with
  | error | ok => simp [Except.map]

/-- A feed that completes a frame and goes on with `y` on a fresh reader. -/
theorem feedAll_last {r : MessageReader} {y : Bytes}
    (h : r.feed c = (MessageReader.new.feed y).map fun (msgs, r) => (msg :: msgs, r))
    (cs : List Bytes) (first : FrontendMessage) (head : List FrontendMessage)
    (rest : List (List FrontendMessage)) :
    feedAll r (c :: cs) = .ok ((first :: head) :: rest) ↔
      msg = first ∧ feedAll .new (y :: cs) = .ok (head :: rest) := by
  rw [feedAll, feedAll, h]
  cases MessageReader.new.feed y with
  | error e => simp [Except.map]
  | ok out =>
    obtain ⟨msgs, r'⟩ := out
    dsimp only [Except.map]
    cases feedAll r' cs with
    | error e => simp
    | ok all => simp [and_assoc]

variable {later : Bytes} {f : WireFrame}

section

variable (hstream : f.bytes.drop k ++ later = c ++ rest) (hk : k ≤ f.bytes.length)
include hstream hk

/-- Where a chunk ends inside the frame. -/
theorem chunk_within (hm : k + c.length ≤ f.bytes.length) :
    f.bytes.take k ++ c = f.bytes.take (k + c.length) ∧
      f.bytes.drop (k + c.length) ++ later = rest := by
  have hlen : c.length ≤ (f.bytes.drop k).length := by grind
  have hchunk := congrArg (List.take c.length) hstream
  rw [take_append_of_le_length hlen, take_left] at hchunk
  have hrest := congrArg (List.drop c.length) hstream
  rw [drop_append_of_le_length hlen, drop_left, drop_drop] at hrest
  exact ⟨by rw [take_add, hchunk], hrest⟩

/-- Where a chunk reaches the end of the frame. -/
theorem chunk_last (hm : f.bytes.length ≤ k + c.length) :
    ∃ y, c = f.bytes.drop k ++ y ∧ f.bytes.take k ++ c = f.bytes ++ y ∧ later = y ++ rest := by
  have hlen : (f.bytes.drop k).length ≤ c.length := by grind
  have hchunk := congrArg (List.take (f.bytes.drop k).length) hstream
  rw [take_left, take_append_of_le_length hlen] at hchunk
  have hlater := congrArg (List.drop (f.bytes.drop k).length) hstream
  rw [drop_left, drop_append_of_le_length hlen] at hlater
  have hc : c = f.bytes.drop k ++ c.drop (f.bytes.drop k).length := by
    conv_lhs => rw [← take_append_drop (f.bytes.drop k).length c, ← hchunk]
  refine ⟨c.drop (f.bytes.drop k).length, hc, ?_, hlater⟩
  conv_lhs => rw [hc]
  rw [← append_assoc, take_append_drop]

end

/-- From inside a frame on, given the streams that start after it. -/
theorem feedAll_within_iff {fs : List WireFrame} (hf : f.Valid) (s : Nat)
    (ih : ∀ chunks : List Bytes, fs.flatMap bytes = chunks.flatten →
      (feedAll .new chunks = .ok (replies (endings (s + f.bytes.length) fs) (s + f.bytes.length)
        chunks) ↔ Readable (feedEnds (s + f.bytes.length) chunks) (s + f.bytes.length) fs))
    (chunks : List Bytes) (k pos : Nat) (hpos : k < 5 → pos = 0)
    (hlt : f.payload ≠ [] → pos < f.payload.length) (hk : k < f.bytes.length)
    (hstream : f.bytes.drop k ++ fs.flatMap bytes = chunks.flatten) :
    feedAll (within f k pos) chunks = .ok (replies (endings s (f :: fs)) (s + k) chunks) ↔
      f.tag = 0 ∧ f.payload ≠ [] ∧
        pos + counted (s + 5) f.payload.length (feedEnds (s + k) chunks) < f.payload.length ∧
        Readable (feedEnds (s + k) chunks) (s + f.bytes.length) fs := by
  have hlen := f.length_bytes
  induction chunks generalizing k pos with
  | nil =>
    have hempty := congrArg List.length hstream
    simp only [length_append, length_drop, flatten_nil, length_nil] at hempty
    omega
  | cons c cs ihc =>
    have hends : feedEnds (s + k) (c :: cs) =
        (s + (k + c.length)) :: feedEnds (s + (k + c.length)) cs := by
      rw [feedEnds, Nat.add_assoc]
    by_cases hm : k + c.length < f.bytes.length
    · -- the feed ends inside the frame
      obtain ⟨hc, hrest⟩ := chunk_within hstream (Nat.le_of_lt hk) (Nat.le_of_lt hm)
      have hnothing : due (endings s (f :: fs)) (s + k) (s + k + c.length) = [] := by
        refine due_eq_nil fun e he => ?_
        obtain rfl | he := mem_cons.mp he
        · simp only
          omega
        · have hlater := lt_of_mem_endings he
          omega
      have hcount : counted (s + 5) f.payload.length (feedEnds (s + k) (c :: cs)) =
          (k + c.length - 5) +
            counted (s + 5) f.payload.length (feedEnds (s + (k + c.length)) cs) := by
        rw [hends, counted_cons]
        split <;> omega
      have hlater : Readable (feedEnds (s + k) (c :: cs)) (s + f.bytes.length) fs ↔
          Readable (feedEnds (s + (k + c.length)) cs) (s + f.bytes.length) fs := by
        rw [hends]
        exact readable_cons (by omega) _ _
      rw [hcount, hlater, replies, hnothing, Nat.add_assoc s k, ← Nat.add_assoc pos]
      by_cases hcounted : f.payload = [] ∨ pos + (k + c.length - 5) < f.payload.length
      · have hfeed : (within f k pos).feed c =
            .ok ([], within f (k + c.length) (pos + (k + c.length - 5))) := by
          by_cases hempty : f.payload = []
          · have h5 : k + c.length < 5 := by simp [hempty] at hlen; omega
            obtain rfl := hpos (by omega)
            rw [feed_within_short (by omega) hc h5, Nat.sub_eq_zero_of_le (Nat.le_of_lt h5)]
          · rw [feed_within hf.length hpos (hlt hempty) hc hm,
              if_pos (hcounted.resolve_left hempty)]
        rw [feedAll_ok hfeed, eq_self_iff_true, true_and]
        refine ihc _ _ ?_ (fun hne => hcounted.resolve_left hne) hm hrest
        omega
      · rw [not_or] at hcounted
        have hfeed : (within f k pos).feed c = .error .panic := by
          rw [feed_within hf.length hpos (hlt hcounted.1) hc hm, if_neg hcounted.2]
        rw [feedAll, hfeed]
        constructor
        · intro h
          cases h
        · rintro ⟨-, -, hsmall, -⟩
          omega
    · -- the feed brings its last byte
      obtain ⟨y, hcy, hc, hlater⟩ := chunk_last hstream (Nat.le_of_lt hk) (Nat.le_of_not_lt hm)
      have hpos' : s + k + c.length = s + f.bytes.length + y.length := by
        have hsize := congrArg List.length hcy
        rw [length_append, length_drop] at hsize
        omega
      obtain ⟨first, hfirst⟩ := hf.message
      have hreplies : replies (endings s (f :: fs)) (s + k) (c :: cs) =
          (first :: due (endings (s + f.bytes.length) fs) (s + f.bytes.length)
            (s + f.bytes.length + y.length)) ::
            replies (endings (s + f.bytes.length) fs) (s + f.bytes.length + y.length) cs := by
        rw [replies, endings, due_cons hfirst (by omega) (by omega),
          replies_cons_of_le (by simp only; omega), hpos']
      have hends' : feedEnds (s + k) (c :: cs) = feedEnds (s + f.bytes.length) (y :: cs) := by
        rw [feedEnds, feedEnds, hpos']
      have hcount : counted (s + 5) f.payload.length (feedEnds (s + k) (c :: cs)) = 0 := by
        refine counted_eq_zero fun b hb => ?_
        rw [hends'] at hb
        have hle := le_of_mem_feedEnds hb
        omega
      rw [hreplies, hcount, hends']
      by_cases hempty : f.payload = []
      · have h5 : k < 5 := by simp [hempty] at hlen; omega
        obtain rfl := hpos h5
        obtain ⟨r, hfeed⟩ := feed_empty hf.length hempty h5 hc
        simp [feedAll_ok hfeed, hempty]
      · have hparse : parseFrontendMessage 0 f.payload = .ok _ := rfl
        have hfeed := feed_last hf.length hpos (hlt hempty) (Nat.le_of_lt hk) hc hparse
        have hmsg := message_zero f hf hparse
        rw [hfirst, Option.some.injEq, eq_comm] at hmsg
        rw [feedAll_last hfeed, hmsg, ← ih (y :: cs) (by rw [flatten_cons]; exact hlater),
          replies]
        simp [hempty, hlt hempty]

theorem feedAll_nothing {chunks : List Bytes} (h : chunks.flatten = []) (s : Nat) :
    feedAll .new chunks = .ok (replies [] s chunks) := by
  induction chunks generalizing s with
  | nil => rfl
  | cons c cs ih =>
    rw [flatten_cons, append_eq_nil_iff] at h
    obtain ⟨rfl, hcs⟩ := h
    have hfeed : MessageReader.new.feed [] = .ok ([], .new) := rfl
    exact (feedAll_ok hfeed cs _ _).mpr ⟨rfl, ih hcs _⟩

theorem feedAll_iff (frames : List WireFrame) (hvalid : ∀ f ∈ frames, f.Valid) (s : Nat)
    (chunks : List Bytes) (hcut : frames.flatMap bytes = chunks.flatten) :
    feedAll .new chunks = .ok (replies (endings s frames) s chunks) ↔
      Readable (feedEnds s chunks) s frames := by
  induction frames generalizing s chunks with
  | nil => exact ⟨fun _ => trivial, fun _ => feedAll_nothing hcut.symm s⟩
  | cons f fs ih =>
    have hf := hvalid f (.head _)
    have hlen := f.length_bytes
    have hnext := fun cs hcs => ih (fun g hg => hvalid g (.tail _ hg))
      (s + f.bytes.length) cs hcs
    have hwithin := feedAll_within_iff hf s hnext chunks 0 0 (fun _ => rfl)
      (fun hne => length_pos_of_ne_nil hne) (by omega) (by simpa using hcut)
    simp only [Nat.zero_add] at hwithin
    exact hwithin

end MessageReader

/-- However a stream of frames is cut, every feed returns the messages whose
last byte it brings exactly if all of them are startup messages with a payload
and no payload is cut so that its bytes are counted twice too often. -/
theorem frames_read_iff (frames : List WireFrame) (hvalid : ∀ f ∈ frames, f.Valid)
    (chunks : List Bytes) (hcut : frames.flatMap WireFrame.bytes = chunks.flatten) :
    MessageReader.feedAll .new chunks =
        .ok (WireFrame.replies (WireFrame.endings 0 frames) 0 chunks) ↔
      WireFrame.Readable (WireFrame.feedEnds 0 chunks) 0 frames :=
  MessageReader.feedAll_iff frames hvalid 0 chunks hcut

/-- Two startup messages in three chunks, of which one ends the first and starts
the second. -/
theorem frames_read_chunks :
    MessageReader.feedAll .new [[0, 0, 0], [0, 6, 65, 0, 0, 0, 0], [0, 5, 66]] =
      .ok (WireFrame.replies (WireFrame.endings 0 [⟨0, [65, 0]⟩, ⟨0, [66]⟩]) 0
        [[0, 0, 0], [0, 6, 65, 0, 0, 0, 0], [0, 5, 66]]) := by
  refine (frames_read_iff [⟨0, [65, 0]⟩, ⟨0, [66]⟩] ?_
    [[0, 0, 0], [0, 6, 65, 0, 0, 0, 0], [0, 5, 66]] rfl).mpr
    ⟨rfl, by simp, by decide, rfl, by simp, by decide, trivial⟩
  rw [forall_mem_cons, forall_mem_singleton]
  exact ⟨⟨by simp [SupportedTag], by decide⟩, by simp [SupportedTag], by decide⟩

/-- A query in one piece is not read as a query, and a startup message in three
pieces makes the reader panic. -/
theorem query_misread :
    MessageReader.feedAll .new [(WireFrame.mk 81 [65]).bytes] ≠
        .ok (WireFrame.replies (WireFrame.endings 0 [⟨81, [65]⟩]) 0
          [(WireFrame.mk 81 [65]).bytes]) ∧
      MessageReader.feedAll .new [[0, 0, 0, 0, 7, 65], [66], [67]] = .error .panic := by
  refine ⟨fun hread => ?_, ?_⟩
  · have hvalid : ∀ f ∈ [WireFrame.mk 81 [65]], f.Valid := by
      intro f hf
      obtain rfl := mem_singleton.mp hf
      exact ⟨by simp [SupportedTag], by decide⟩
    have htag := ((MessageReader.feedAll_iff _ hvalid 0 _ (by simp)).mp hread).1
    exact absurd htag (by decide)
  · decide

end Archon
