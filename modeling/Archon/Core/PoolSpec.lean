import Archon.Core.Page

/-!
# Archon.Core.PoolSpec

What the operations of the buffer pool can do, said once for each: the ways a
frame is acquired (`Acquire`), a block is pinned (`Pinning`) and a frame is
flushed (`Flush`).  What a pool keeps true is shown from these.
-/

namespace Archon

open BufferPool List

variable {b : BlockId} {f : Frame} {idx : Nat}

variable {D : Type} {p : BufferPool D}
variable {x : Except StorageError Nat × BufferPool D}

/-! ## Frames -/

variable {i : Nat} {g : Frame → Frame} {q : Frame} {frames : List Frame}

/-- Every frame is the changed one or an old one elsewhere. -/
theorem frame_modifyFrame (hf : p.frames[idx]? = some f)
    (hq : (p.modifyFrame idx g).frames[i]? = some q) :
    (i = idx ∧ q = g f) ∨ (i ≠ idx ∧ p.frames[i]? = some q) := by
  rw [getElem?_modifyFrame] at hq
  by_cases hi : idx = i
  · subst hi
    simp only [if_true, hf, Option.map_some, Option.some.injEq] at hq
    exact .inl ⟨rfl, hq.symm⟩
  · rw [if_neg hi] at hq
    exact .inr ⟨Ne.symm hi, hq⟩

/-- Every frame is an old one or the new one. -/
theorem frame_push (hq : (frames ++ [f])[i]? = some q) : frames[i]? = some q ∨ q = f := by
  rw [getElem?_append] at hq
  split at hq
  · exact .inl hq
  · exact .inr (mem_singleton.mp (mem_of_getElem? hq))

theorem getElem?_pushFrame (hq : frames[i]? = some q) : (frames ++ [f])[i]? = some q := by
  rw [List.getElem?_append_left (List.getElem?_eq_some_iff.mp hq).1, hq]

theorem find_eq_none (h : ∀ (i : Nat) (f : Frame), p.frames[i]? = some f → f.blockId ≠ b) :
    p.find b = none := by
  rw [find, findIdx?_eq_none_iff]
  intro f hf
  obtain ⟨i, hi⟩ := getElem?_of_mem hf
  simpa using h i f hi

/-- A frame that keeps its block does not make another block resident. -/
theorem find_modifyFrame_none (hf : p.frames[idx]? = some f) (hid : (g f).blockId = f.blockId)
    (h : p.find b = none) : (p.modifyFrame idx g).find b = none := by
  apply find_eq_none
  intro i q hq
  obtain ⟨rfl, rfl⟩ | ⟨_, hq⟩ := frame_modifyFrame hf hq
  · rw [hid]
    exact find_none h i f hf
  · exact find_none h i q hq

/-- A block of a device is not the id of an unused frame. -/
theorem ne_max_of_lt {n : BlockId} (h : b < n) : b ≠ BLOCK_ID_MAX := by
  rw [UInt64.lt_iff_toNat_lt] at h
  have := n.toNat_lt
  have hmax : BLOCK_ID_MAX.toNat = UInt64.size - 1 := rfl
  grind

theorem not_pinned_of_evictable {steal : Bool} {s : PageState} (h : evictable steal s = true)
    (n : UInt32) : s ≠ .pinned n := by
  rintro rfl
  exact Bool.noConfusion h

/-! ## Acquiring a frame -/

/-- A frame can be had: a free one, a new one, or one eviction may take. -/
def BufferPool.HasRoom (p : BufferPool D) : Prop :=
  p.frames.any (·.state = .free) ∨ p.frames.length < p.capacity ∨ p.victim.isSome

variable [BlockDevice D]

/-- The ways a frame is acquired. -/
inductive Acquire (p : BufferPool D) : Except StorageError Nat × BufferPool D → Prop where
  | found (idx : Nat) (f : Frame) : p.frames[idx]? = some f → f.state = .free →
      Acquire p (.ok idx, p)
  | pushed : p.frames.length < p.capacity → Acquire p (.ok p.frames.length,
      { p with frames := p.frames ++ [⟨BLOCK_ID_MAX, .zeroed, .free, false⟩] })
  | freed (idx : Nat) (f : Frame) (device : D) : p.victim = some idx → p.frames[idx]? = some f →
      evictable p.steal f.state = true → p.writeBack idx = (.ok (), device) →
      Acquire p (.ok idx, { p.modifyFrame idx
        (fun f => { f with state := .free, dirtyIntent := false }) with
        device, lru := p.lru.erase idx })
  /-- The write-back failed. -/
  | refused (idx : Nat) (f : Frame) (e : StorageError) (device : D) : p.frames[idx]? = some f →
      evictable p.steal f.state = true → p.writeBack idx = (.error e, device) →
      Acquire p (.error e, { p with device })
  | full (e : StorageError) : ¬ p.HasRoom → Acquire p (.error e, p)

theorem acquire_spec (p : BufferPool D) : Acquire p p.acquireFrame := by
  rw [acquireFrame]
  cases hfree : p.frames.findIdx? fun f => f.state = .free with
  | some idx =>
    obtain ⟨hlt, hp, _⟩ := findIdx?_eq_some_iff_getElem.mp hfree
    exact .found idx _ (getElem?_eq_getElem hlt) (of_decide_eq_true hp)
  | none =>
    by_cases hroom : p.frames.length < p.capacity
    · simpa [hroom] using .pushed hroom
    · simp only [if_neg hroom, evict]
      cases hv : p.victim with
      | none =>
        have hfull : ¬ p.HasRoom := by
          simpa [HasRoom, hroom, hv] using hfree
        simp only
        split <;> exact .full _ hfull
      | some idx =>
        obtain ⟨f, hf, he⟩ := victim_some hv
        simp only
        cases hw : p.writeBack idx with
        | mk r device =>
          cases r with
          | error e => exact .refused idx f e device hf he hw
          | ok u => exact .freed idx f device hv hf he hw

/-- Without stealing there is nothing to write back. -/
theorem writeBack_noSteal (hf : p.frames[idx]? = some f) (he : evictable p.steal f.state = true)
    (hsteal : p.steal = false) : p.writeBack idx = (.ok (), p.device) := by
  have hclean : f.state ≠ .dirty := by
    intro hd
    rw [hd, hsteal] at he
    exact Bool.noConfusion he
  simp [writeBack, hf, hclean]

/-- The frame handed out is free. -/
theorem Acquire.frame {p' : BufferPool D} (h : Acquire p (.ok idx, p')) :
    ∃ f, p'.frames[idx]? = some f ∧ f.state = .free := by
  cases h with
  | found _ f hf hfree => exact ⟨f, hf, hfree⟩
  | pushed _ => exact ⟨_, getElem?_concat_length, rfl⟩
  | freed _ f device _ hf _ _ => exact ⟨_, getElem?_modifyFrame_self hf _, rfl⟩

section

variable (h : Acquire p x)
include h

/-- No block becomes resident. -/
theorem Acquire.absent (hb : b ≠ BLOCK_ID_MAX) (habs : p.find b = none) : x.2.find b = none := by
  cases h with
  | found _ _ _ _ => exact habs
  | pushed _ =>
    apply find_eq_none
    intro i f hf
    obtain hf | rfl := frame_push hf
    · exact find_none habs i f hf
    · exact Ne.symm hb
  | freed idx f device _ hf _ _ =>
    exact find_modifyFrame_none (g := fun f => { f with state := .free, dirtyIntent := false })
      hf rfl habs
  | refused | full => exact habs

/-- Making room in a pool that does not steal writes nothing. -/
theorem Acquire.quiet (hsteal : p.steal = false) : x.2.device = p.device := by
  cases h with
  | freed idx f device _ hf he hw =>
    exact (congrArg Prod.snd ((writeBack_noSteal hf he hsteal).symm.trans hw)).symm
  | refused idx f e device hf he hw => cases (writeBack_noSteal hf he hsteal).symm.trans hw
  | _ => rfl

theorem Acquire.steal : x.2.steal = p.steal := by
  cases h <;> rfl

theorem Acquire.ok_iff (hsteal : p.steal = false) : (∃ idx, x.1 = .ok idx) ↔ p.HasRoom := by
  cases h with
  | found idx f hf hfree =>
    have hany : p.frames.any (·.state = .free) :=
      any_eq_true.mpr ⟨f, mem_of_getElem? hf, by simp [hfree]⟩
    simp [HasRoom, hany]
  | pushed hlt => simp [HasRoom, hlt]
  | freed idx f device hv _ _ _ => simp [HasRoom, hv]
  | refused idx f e device hf he hw => cases (writeBack_noSteal hf he hsteal).symm.trans hw
  | full e hfull => simp [hfull]

end

/-- Reserving acquires a frame, unless the block is resident. -/
theorem reserve_spec (p : BufferPool D) (b : BlockId) :
    (∃ idx, p.find b = some idx ∧ p.reserve b = (.ok (), p)) ∨
      ∃ r, p.find b = none ∧ Acquire p (r, (p.reserve b).2) ∧
        (p.reserve b).1 = r.map fun _ => () := by
  have hspec := acquire_spec p
  rw [reserve]
  cases p.find b with
  | some idx => exact .inl ⟨idx, rfl, rfl⟩
  | none =>
    generalize p.acquireFrame = r at hspec
    obtain ⟨_ | _, p'⟩ := r <;> exact .inr ⟨_, rfl, hspec, rfl⟩

/-! ## Pinning a block -/

/-- The ways a block is pinned. -/
inductive Pinning (p : BufferPool D) (b : BlockId) :
    Except StorageError Nat × BufferPool D → Prop where
  | hit (idx : Nat) (f : Frame) : p.find b = some idx → p.frames[idx]? = some f → f.blockId = b →
      Pinning p b (.ok idx, (p.pinFrame idx).touch idx)
  | failed (r : Except StorageError Nat) (p' : BufferPool D) (e : StorageError) :
      p.find b = none → Acquire p (r, p') →
      (r = .error e ∨ (∃ idx, r = .ok idx) ∧
        (readBlock p'.device b (List.replicate BLOCK_SIZE 0) >>= decodeBlock) = .error e) →
      Pinning p b (.error e, p')
  | loaded (idx : Nat) (f : Frame) (p' : BufferPool D) (bytes : Bytes) (page : Page) :
      p.find b = none → Acquire p (.ok idx, p') → p'.frames[idx]? = some f → f.state = .free →
      readBlock p'.device b (List.replicate BLOCK_SIZE 0) = .ok bytes → decodeBlock bytes =
        .ok page →
      Pinning p b (.ok idx, (p'.modifyFrame idx fun _ => ⟨b, page, .pinned 1, false⟩).touch idx)

theorem pin_spec (p : BufferPool D) (b : BlockId) : Pinning p b (p.pin b) := by
  rw [pin]
  cases hfind : p.find b with
  | some idx =>
    obtain ⟨f, hf, hid⟩ := find_some hfind
    exact .hit idx f hfind hf hid
  | none =>
    have hspec := acquire_spec p
    simp only [load]
    generalize p.acquireFrame = r at hspec
    obtain ⟨e | idx, p'⟩ := r
    · exact .failed _ p' e hfind hspec (.inl rfl)
    · obtain ⟨f, hf, hfree⟩ := hspec.frame
      dsimp only
      cases hread : readBlock p'.device b (List.replicate BLOCK_SIZE 0) with
      | error e => exact .failed _ p' e hfind hspec (.inr ⟨⟨idx, rfl⟩, by rw [hread]; rfl⟩)
      | ok bytes =>
        dsimp only
        cases hdecode : decodeBlock bytes with
        | error e =>
          exact .failed _ p' e hfind hspec (.inr ⟨⟨idx, rfl⟩, by rw [hread]; exact hdecode⟩)
        | ok page => exact .loaded idx f p' bytes page hfind hspec hf hfree hread hdecode

theorem repinned_pinned (f : Frame) : ∃ n, repinned f = .pinned n := by
  rw [repinned]
  cases f.state <;> exact ⟨_, rfl⟩

/-- The frame handed out is pinned and holds the block. -/
theorem Pinning.frame {p' : BufferPool D} (h : Pinning p b (.ok idx, p')) :
    ∃ f n, p'.frames[idx]? = some f ∧ f.blockId = b ∧ f.state = .pinned n := by
  cases h with
  | hit _ f _ hf hid =>
    obtain ⟨n, hn⟩ := repinned_pinned f
    exact ⟨_, n, getElem?_modifyFrame_self hf _, hid, hn⟩
  | loaded _ f p' bytes page _ _ hf _ _ _ =>
    exact ⟨_, 1, getElem?_modifyFrame_self hf _, rfl, rfl⟩

theorem Pinning.quiet (h : Pinning p b x) (hsteal : p.steal = false) : x.2.device = p.device := by
  cases h with
  | hit _ _ _ _ _ => rfl
  | failed _ _ _ _ hacquire _ | loaded _ _ _ _ _ _ hacquire _ _ _ _ => exact hacquire.quiet hsteal

theorem Pinning.steal (h : Pinning p b x) : x.2.steal = p.steal := by
  cases h with
  | hit _ _ _ _ _ => rfl
  | failed _ _ _ _ hacquire _ | loaded _ _ _ _ _ _ hacquire _ _ _ _ => exact hacquire.steal

/-- A fetch pins the block and reads its frame. -/
theorem fetch_eq (p : BufferPool D) (b : BlockId) :
    p.fetch b = ((p.pin b).1.map (p.pin b).2.pageAt, (p.pin b).2) := by
  rw [fetch]
  obtain ⟨_ | _, p'⟩ := p.pin b <;> rfl

/-! ## Flushing -/

/-- The ways an iteration of the flush loop can go. -/
inductive Flush (p : BufferPool D) : Except StorageError Unit × BufferPool D → Prop where
  | idle : Flush p (.ok (), p)
  | written (idx : Nat) (f : Frame) (device : D) : p.frames[idx]? = some f → needsFlush f = true →
      writeBlock p.device f.blockId (encodePageBlock f.page) = (.ok (), device) →
      Flush p (.ok (), { p.modifyFrame idx flushed with device })
  | refused (idx : Nat) (f : Frame) (e : StorageError) (device : D) : p.frames[idx]? = some f →
      writeBlock p.device f.blockId (encodePageBlock f.page) = (.error e, device) →
      Flush p (.error e, { p with device })

theorem flush_spec (p : BufferPool D) (idx : Nat) : Flush p (p.flushFrame idx) := by
  rw [flushFrame]
  cases hf : p.frames[idx]? with
  | none => exact .idle
  | some f =>
    dsimp only
    split
    · next hflush =>
      cases hw : writeBlock p.device f.blockId (encodePageBlock f.page) with
      | mk r device =>
        cases r with
        | error e => exact .refused idx f e device hf hw
        | ok u => exact .written idx f device hf hflush hw
    · exact .idle

/-- What every iteration and the final sync keep, a flush keeps. -/
theorem flushAll_keeps (inv : BufferPool D → Prop) (hframe : ∀ {q x}, inv q → Flush q x → inv x.2)
    (hsync : ∀ {q}, inv q → inv { q with device := (sync q.device).2 }) (h : inv p) :
    inv p.flushAll.2 := by
  have hloop : ∀ k, inv (p.flushLoop k).2 := by
    intro k
    induction k with
    | zero => exact h
    | succ k ih =>
      rw [flushLoop]
      generalize p.flushLoop k = r at ih
      obtain ⟨_ | _, p'⟩ := r
      · exact ih
      · exact hframe ih (flush_spec p' k)
  have hall := hloop p.frames.length
  rw [flushAll]
  generalize p.flushLoop p.frames.length = r at hall ⊢
  obtain ⟨_ | _, p'⟩ := r
  · exact hall
  · exact hsync hall

end Archon
