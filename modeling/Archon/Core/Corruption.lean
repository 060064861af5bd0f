import Archon.Core.Page
import Archon.Core.Wal

/-!
# Archon.Core.Corruption

Damage that the checksums of log records and page blocks detect.

A string followed by its checksum leaves a fixed remainder in the register, so
a change within four bytes shows wherever it falls, also across the edge of the
checksum (`crc32_eq_iff`, `Crc.absorbAll_burst`).  In a log record the two
length fields stand outside of this argument: they bind each other, so that one
damaged byte cannot change the length of what is read (`length_of_damaged`).
-/

namespace Archon

open List

/-- A change within four bytes of a string and its checksum does not leave a
string and its checksum. -/
theorem checked_burst {data data' stored stored' pre xs ys post : Bytes}
    (hstored : stored.length = 4) (hstored' : stored'.length = 4)
    (h : crc32 data = UInt32.ofNat (ofLeBytes stored))
    (h' : crc32 data' = UInt32.ofNat (ofLeBytes stored'))
    (hsplit : data ++ stored = pre ++ xs ++ post) (hsplit' : data' ++ stored' = pre ++ ys ++ post)
    (hlen : xs.length = ys.length) (h4 : xs.length ≤ 4) : xs = ys := by
  have hreg := (crc32_eq_iff hstored).mp h
  have hreg' := (crc32_eq_iff hstored').mp h'
  rw [hsplit] at hreg
  rw [hsplit'] at hreg'
  exact Crc.absorbAll_burst crcPoly_msb hlen (by omega) (hreg.trans hreg'.symm)

theorem ofLeBytes_crc (data : Bytes) :
    crc32 data = UInt32.ofNat (ofLeBytes (leBytes 4 (crc32 data).toNat)) := by
  rw [ofLeBytes_leBytes_of_lt (UInt32.toNat_lt _), UInt32.ofNat_toNat]

/-! ## Page blocks -/

/-- What is accepted is the image of a page or was never written. -/
theorem decodeBlock_eq_ok_iff {block : Bytes} {page : Page} :
    decodeBlock block = .ok page ↔
      block = encodePageBlock page ∨ block = List.replicate BLOCK_SIZE 0 ∧ page = .zeroed := by
  constructor
  · intro h
    unfold decodeBlock at h
    split at h
    · next hlen =>
      split at h
      · next hzero =>
        cases h
        refine .inr ⟨eq_replicate_iff.mpr ⟨hlen, ?_⟩, rfl⟩
        simpa using hzero
      · dsimp only at h
        split at h
        · contradiction
        · next hcrc =>
          cases h
          left
          have hdrop : (block.drop PAGE_SIZE).length = PAGE_CRC := by
            rw [length_drop, hlen, BLOCK_SIZE]
            omega
          have hstored : leBytes PAGE_CRC (crc32 (block.take PAGE_SIZE)).toNat =
              block.drop PAGE_SIZE := by
            have hlt : ofLeBytes (block.drop PAGE_SIZE) < 2 ^ 32 := by
              simpa [hdrop, PAGE_CRC] using ofLeBytes_lt (block.drop PAGE_SIZE)
            rw [Decidable.not_not.mp hcrc, UInt32.toNat_ofNat', Nat.mod_eq_of_lt hlt, ← hdrop,
              leBytes_ofLeBytes]
          rw [encodePageBlock, hstored, take_append_drop]
    · contradiction
  · rintro (rfl | ⟨rfl, rfl⟩)
    · exact decodeBlock_encodePageBlock page
    · exact decodeBlock_zero BLOCK_SIZE rfl

/-- **Page blocks**: a page reads back from its image; an image changed within
four bytes is corrupt, unless it has become the block of zeros; and nothing
else than images and the block of zeros is accepted. -/
theorem page_block_codec :
    (∀ page, decodeBlock (encodePageBlock page) = .ok page) ∧
    (∀ page pre xs ys post, encodePageBlock page = pre ++ xs ++ post → xs.length ≤ 4 →
      ys.length = xs.length → ys ≠ xs →
      pre ++ ys ++ post = List.replicate BLOCK_SIZE 0 ∨
        decodeBlock (pre ++ ys ++ post) = .error .corrupt) ∧
    ∀ block page, decodeBlock block = .ok page ↔
      block = encodePageBlock page ∨ block = List.replicate BLOCK_SIZE 0 ∧ page = .zeroed := by
  refine ⟨decodeBlock_encodePageBlock, ?_, fun _ _ => decodeBlock_eq_ok_iff⟩
  intro page pre xs ys post himage h4 hlen hne
  have hsize : (pre ++ ys ++ post).length = BLOCK_SIZE := by
    rw [← length_encodePageBlock page, himage]
    simp [hlen]
  cases hd : decodeBlock (pre ++ ys ++ post) with
  | ok page' =>
    obtain hblock | ⟨hzero, _⟩ := decodeBlock_eq_ok_iff.mp hd
    · exfalso
      exact hne (checked_burst (length_leBytes 4 _) (length_leBytes 4 _)
        (ofLeBytes_crc page.bytes) (ofLeBytes_crc page'.bytes) himage hblock.symm hlen.symm
        h4).symm
    · exact .inl hzero
  | error e =>
    right
    -- of the right size, a block is refused only for its checksum
    unfold decodeBlock at hd
    rw [dif_pos hsize] at hd
    split at hd
    · contradiction
    · dsimp only at hd
      split at hd
      · cases hd
        rfl
      · contradiction

/-! ## Log records -/

namespace WalRecord

/-- The two length fields of a record. -/
theorem length_fields (r : WalRecord) (tail : Bytes) :
    (r.frame ++ tail).take 4 = leBytes 4 (HEADER_LEN + r.payload.length + 4) ∧
      ((r.frame ++ tail).drop 21).take 4 = leBytes 4 r.payload.length := by
  constructor
  · rw [frame, append_assoc, append_assoc, take_append_of_length (length_leBytes 4 _)]
  · have hsplit : r.frame ++ tail = (leBytes 4 (HEADER_LEN + r.payload.length + 4) ++
        leBytes 8 r.lsn.toNat ++ [r.kind.toU8] ++ leBytes 8 r.blockId.toNat) ++
        (leBytes 4 r.payload.length ++
          (r.payload ++ (leBytes 4 (crc32 r.body).toNat ++ tail))) := by
      simp [frame, body]
    rw [hsplit, drop_append_of_length (by simp), take_append_of_length (length_leBytes 4 _)]

theorem leBytes_four_inj {m n : Nat} (hm : m < 2 ^ 32) (hn : n < 2 ^ 32)
    (h : leBytes 4 m = leBytes 4 n) : m = n := by
  have heq := congrArg ofLeBytes h
  rwa [ofLeBytes_leBytes_of_lt hm, ofLeBytes_leBytes_of_lt hn] at heq

/-- Records read from the same bytes but for one have payloads of one length:
only one of the two length fields can be damaged. -/
theorem length_of_damaged {r r' : WalRecord} (hr : r.Fits) (hr' : r'.Fits)
    {pre post tail rest : Bytes} {b b' : UInt8} (h : r.frame ++ tail = pre ++ b :: post)
    (h' : r'.frame ++ rest = pre ++ b' :: post) : r'.payload.length = r.payload.length := by
  have hf : r.payload.length + 25 < 2 ^ 32 := hr
  have hf' : r'.payload.length + 25 < 2 ^ 32 := hr'
  obtain ⟨htotal, hpayload⟩ := r.length_fields tail
  obtain ⟨htotal', hpayload'⟩ := r'.length_fields rest
  rw [h] at htotal hpayload
  rw [h'] at htotal' hpayload'
  by_cases hpos : pre.length < 4
  · have hdrop : ∀ x : UInt8, (pre ++ x :: post).drop 21 = post.drop (20 - pre.length) := by
      intro x
      rw [drop_append, drop_of_length_le (by omega), nil_append,
        show 21 - pre.length = 20 - pre.length + 1 by omega, drop_succ_cons]
    rw [hdrop] at hpayload hpayload'
    exact leBytes_four_inj (by omega) (by omega) (hpayload'.symm.trans hpayload)
  · have htake : ∀ x : UInt8, (pre ++ x :: post).take 4 = pre.take 4 := by
      intro x
      exact take_append_of_le_length (by omega)
    rw [htake] at htotal htotal'
    have hlen := leBytes_four_inj (by simp [HEADER_LEN]; omega) (by simp [HEADER_LEN]; omega)
      (htotal'.symm.trans htotal)
    omega

/-- **Damage is detected**: with one byte of a record changed, the record is
not read, whatever follows. -/
theorem damaged_rejected (r : WalRecord) (hlen : r.payload.length < 2 ^ 32 - 25) {out : Bytes}
    (hout : out.length = r.encodedLen) {pre post : Bytes} {b b' : UInt8}
    (henc : r.encode out = .ok (pre ++ b :: post, r.encodedLen)) (hne : b' ≠ b) (tail : Bytes)
    (res : WalRecord × Nat) : decode (pre ++ b' :: post ++ tail) ≠ .ok res := by
  intro hd
  obtain ⟨r', n⟩ := res
  have hfits : r.Fits := by
    rw [Fits]
    omega
  have hframe : r.frame = pre ++ b :: post := by
    rw [encode_eq_frame r hout] at henc
    injection henc with henc
    exact congrArg Prod.fst henc
  obtain ⟨hfits', hn, _, htake⟩ := decode_sound hd
  have hsplit' : r'.frame ++ (pre ++ b' :: post ++ tail).drop n = pre ++ b' :: (post ++ tail) := by
    rw [← htake]
    simp
  have hsplit : r.frame ++ tail = pre ++ b :: (post ++ tail) := by simp [hframe]
  have hpayload := length_of_damaged hfits hfits' hsplit hsplit'
  -- so what was read is the damaged record, no more and no less
  have hframe' : r'.frame = pre ++ b' :: post := by
    have hsame : r'.frame.length = (pre ++ b' :: post).length := by
      have hold := congrArg List.length hframe
      simp only [length_frame, encodedLen, hpayload, length_append] at hold ⊢
      omega
    have hcons : r'.frame ++ (pre ++ b' :: post ++ tail).drop n = (pre ++ b' :: post) ++ tail := by
      simpa using hsplit'
    exact (append_inj hcons hsame).1
  by_cases hpos : pre.length < 4
  · -- the total length is the same, so it is not damaged
    have hfield := (r.length_fields []).1
    have hfield' := (r'.length_fields []).1
    rw [hpayload, ← hfield, hframe, hframe'] at hfield'
    have hbyte := congrArg (fun bs : Bytes => bs[pre.length]?) hfield'
    exact hne (by simpa [hpos] using hbyte)
  · have hdrop : ∀ x : UInt8, (pre ++ x :: post).drop 4 = pre.drop 4 ++ [x] ++ post := by
      intro x
      rw [drop_append_of_le_length (by omega), append_assoc]
      rfl
    have hchecked : ∀ q : WalRecord, q.frame.drop 4 = q.body ++ leBytes 4 (crc32 q.body).toNat := by
      intro q
      rw [frame, append_assoc, drop_append_of_length (length_leBytes 4 _)]
    have hbody := hchecked r
    have hbody' := hchecked r'
    rw [hframe, hdrop] at hbody
    rw [hframe', hdrop] at hbody'
    have hsame := checked_burst (length_leBytes 4 _) (length_leBytes 4 _) (ofLeBytes_crc r.body)
      (ofLeBytes_crc r'.body) hbody.symm hbody'.symm rfl (by simp)
    simp only [List.cons.injEq, and_true] at hsame
    exact hne hsame.symm

/-- A commit record with its first byte changed. -/
theorem damaged_rejected_commit : ∃ pre b post,
    (⟨0, .commit, 0, []⟩ : WalRecord).encode (List.replicate 29 0) = .ok (pre ++ b :: post, 29) ∧
      ∀ res, decode (pre ++ (b + 1) :: post ++ [7]) ≠ .ok res := by
  let r : WalRecord := ⟨0, .commit, 0, []⟩
  have hout : (List.replicate 29 (0 : UInt8)).length = r.encodedLen := by
    simp [encodedLen, HEADER_LEN, r]
  have hframe : r.frame = [] ++ UInt8.ofNat 25 :: (leBytes 3 (25 / 256) ++ r.body ++
      leBytes 4 (crc32 r.body).toNat) := by
    simp [frame, leBytes, HEADER_LEN, r]
  have henc := encode_eq_frame r hout
  rw [hframe] at henc
  exact ⟨_, _, _, henc, damaged_rejected r (by simp [r]) hout henc (by decide) [7]⟩

end WalRecord

end Archon
