import Archon.Core.PoolSpec

/-!
# Archon.Core.Pool

What the buffer pool keeps true.  `PoolInv p content written` says that `p`
is a no-steal cache of the logical store `content`: resident pages are
current, blocks without a modified frame are current on the device, and
every modified frame belongs to a block in `written`.

One lemma per operation: acquiring, pinning and unpinning frames never touch
the device, staging a page changes `content` at one block, and flushing
writes only blocks in `written` and ends with the device equal to `content`.
A pool that steals is coherent when the same pool without stealing is; there
eviction writes a dirty frame back (`PoolInv.acquire`).
-/

namespace Archon

open BufferPool

variable {f : Frame} {idx : Nat}

variable {D : Type} [BlockDevice D] [AtomicWrites D]
variable {x : Except StorageError Nat × BufferPool D}

/-- `p` is a coherent no-steal cache of `content` whose modified frames all
belong to `written` blocks. -/
structure PoolInv (p : BufferPool D) (content : Contents)
    (written : BlockId → Prop) : Prop where
  noSteal : p.steal = false
  lru_lt : ∀ i ∈ p.lru, i < p.frames.length
  /-- Outside of an operation a frame is marked modified iff a flush writes it. -/
  intent : ∀ (i : Nat) (f : Frame), p.frames[i]? = some f → f.dirtyIntent = BufferPool.needsFlush f
  touched : ∀ (i : Nat) (f : Frame), p.frames[i]? = some f → f.dirtyIntent = true →
    f.blockId < blockCount p.device ∧ written f.blockId
  page : ∀ (i : Nat) (f : Frame), p.frames[i]? = some f → f.blockId < blockCount p.device →
    content f.blockId = .ok f.page
  clean : ∀ b, b < blockCount p.device → content b = decodeBlock (block p.device b) ∨
    ∃ (i : Nat) (f : Frame), p.frames[i]? = some f ∧ f.blockId = b ∧ f.dirtyIntent = true
  unique : ∀ (i j : Nat) (f g : Frame), p.frames[i]? = some f → p.frames[j]? = some g → f.blockId =
    g.blockId →
    f.blockId < blockCount p.device → i = j

namespace PoolInv

variable {p : BufferPool D} {content : Contents}
  {written : BlockId → Prop}

theorem new (d : D) (capacity : Nat) (hc : 0 < capacity) :
    PoolInv (BufferPool.new d capacity hc).noSteal (fun b => decodeBlock (block d b)) written where
  noSteal := rfl
  lru_lt := by simp [BufferPool.new, BufferPool.noSteal]
  intent := by simp [BufferPool.new, BufferPool.noSteal]
  touched := by simp [BufferPool.new, BufferPool.noSteal]
  page := by simp [BufferPool.new, BufferPool.noSteal]
  clean := fun _ _ => .inl rfl
  unique := by simp [BufferPool.new, BufferPool.noSteal]

section

variable (h : PoolInv p content written)
include h

/-- The recency list may change freely as long as it names frames. -/
theorem withLru {lru : List Nat} (hl : ∀ i ∈ lru, i < p.frames.length) :
    PoolInv { p with lru } content written :=
  ⟨h.noSteal, hl, h.intent, h.touched, h.page, h.clean, h.unique⟩

theorem touch (hi : idx < p.frames.length) : PoolInv (p.touch idx) content written := by
  apply h.withLru
  intro i hm
  rcases List.mem_append.mp hm with hm | hm
  · exact h.lru_lt i (List.mem_of_mem_erase hm)
  · rw [List.mem_singleton.mp hm]
    exact hi

section

variable (hf : p.frames[idx]? = some f) (g : Frame → Frame)
  (hintent : (g f).dirtyIntent = needsFlush (g f))
include hf hintent

/-- Replacing the frame at `idx` and moving to a new logical store that
differs only where the new frame is modified. -/
theorem modifyFrame_update
    {content' : Contents} {written' : BlockId → Prop} (htouched : (g f).dirtyIntent = true →
      (g f).blockId < blockCount p.device ∧ written' (g f).blockId)
    (hpage : (g f).blockId < blockCount p.device → content' (g f).blockId = .ok (g f).page)
    (hkeep : f.dirtyIntent = true → ((g f).dirtyIntent = true ∧ (g f).blockId = f.blockId) ∨
      content f.blockId = decodeBlock (block p.device f.blockId))
    (hunique : ∀ (j : Nat) (q : Frame), p.frames[j]? = some q → (g f).blockId = q.blockId →
      (g f).blockId < blockCount p.device → idx = j)
    (hwritten : ∀ b, written b → written' b)
    (hcontent : ∀ b, content' b = content b ∨ ((g f).blockId = b ∧ (g f).dirtyIntent = true)) :
    PoolInv (p.modifyFrame idx g) content' written' := by
  refine ⟨h.noSteal, ?_, ?_, ?_, ?_, ?_, ?_⟩
  · intro i hi
    show i < (p.frames.modify idx g).length
    simpa using h.lru_lt i hi
  · intro i q hq
    rcases frame_modifyFrame hf hq with ⟨_, rfl⟩ | ⟨_, hq⟩
    · exact hintent
    · exact h.intent i q hq
  · intro i q hq hd
    rcases frame_modifyFrame hf hq with ⟨_, rfl⟩ | ⟨_, hq⟩
    · exact htouched hd
    · exact ⟨(h.touched i q hq hd).1, hwritten _ (h.touched i q hq hd).2⟩
  · intro i q hq hlt
    rcases frame_modifyFrame hf hq with ⟨_, rfl⟩ | ⟨hi, hq⟩
    · exact hpage hlt
    · rcases hcontent q.blockId with hc | ⟨hid, _⟩
      · exact hc.trans (h.page i q hq hlt)
      · exact absurd (hunique i q hq hid (hid ▸ hlt)).symm hi
  · intro b hb
    rcases hcontent b with hc | ⟨hid, hd⟩
    · rw [hc]
      rcases h.clean b hb with hc | ⟨i, q, hq, hqb, hqd⟩
      · exact .inl hc
      · by_cases hi : idx = i
        · subst hi
          rw [hf] at hq
          cases hq
          rcases hkeep hqd with ⟨hd, hid⟩ | hdev
          · exact .inr ⟨idx, g f, getElem?_modifyFrame_self hf g, hid.trans hqb, hd⟩
          · rw [hqb] at hdev
            exact .inl hdev
        · refine .inr ⟨i, q, ?_, hqb, hqd⟩
          simp [getElem?_modifyFrame, hi, hq]
    · exact .inr ⟨idx, g f, getElem?_modifyFrame_self hf g, hid, hd⟩
  · intro i j q r hq hr hid hlt
    rcases frame_modifyFrame hf hq with ⟨hi, rfl⟩ | ⟨_, hq'⟩ <;>
      rcases frame_modifyFrame hf hr with ⟨hj, rfl⟩ | ⟨_, hr'⟩
    · rw [hi, hj]
    · rw [hi]
      exact hunique j r hr' hid hlt
    · rw [hj]
      exact (hunique i q hq' hid.symm (hid ▸ hlt)).symm
    · exact h.unique i j q r hq' hr' hid hlt

/-- Replacing the frame at `idx` keeps the pool coherent when the new frame
is, and when a modified old frame stays modified under its block id. -/
theorem modifyFrame (htouched : (g f).dirtyIntent = true →
      (g f).blockId < blockCount p.device ∧ written (g f).blockId)
    (hpage : (g f).blockId < blockCount p.device → content (g f).blockId = .ok (g f).page)
    (hkeep : f.dirtyIntent = true → (g f).dirtyIntent = true ∧ (g f).blockId = f.blockId)
    (hunique : ∀ (j : Nat) (q : Frame), p.frames[j]? = some q → (g f).blockId = q.blockId →
      (g f).blockId < blockCount p.device → idx = j) :
    PoolInv (p.modifyFrame idx g) content written :=
  h.modifyFrame_update hf g hintent htouched hpage (fun hd => .inl (hkeep hd)) hunique
    (fun _ hb => hb) fun _ => .inl rfl

end

/-- Changing only the state of a frame, consistently with its intent. -/
theorem modifyState (hf : p.frames[idx]? = some f)
    {s : Frame → PageState} (hs : f.dirtyIntent = BufferPool.needsFlush { f with state := s f }) :
    PoolInv (p.modifyFrame idx fun f => { f with state := s f }) content written := by
  refine h.modifyFrame hf _ hs (h.touched idx f hf) (h.page idx f hf) (fun hd => ⟨hd, rfl⟩) ?_
  intro j q hq hid hlt
  exact h.unique idx j f q hf hq hid hlt

end

/-! ## Making room -/

theorem lt_length {l : List Frame} {i : Nat} (h : l[i]? = some f) : i < l.length :=
  (List.getElem?_eq_some_iff.mp h).1

theorem push (h : PoolInv p content written) : PoolInv
    { p with frames := p.frames ++ [⟨BLOCK_ID_MAX, .zeroed, .free, false⟩] } content written := by
  -- the new frame is outside of every device
  have hmax : ¬ BLOCK_ID_MAX < blockCount p.device := fun hlt => ne_max_of_lt hlt rfl
  refine ⟨h.noSteal, ?_, ?_, ?_, ?_, ?_, ?_⟩
  · intro i hi
    have := h.lru_lt i hi
    grind
  · intro i f hf
    rcases frame_push hf with hf | rfl
    · exact h.intent i f hf
    · rfl
  · intro i f hf
    rcases frame_push hf with hf | rfl
    · exact h.touched i f hf
    · exact fun hd => absurd hd (by simp)
  · intro i f hf
    rcases frame_push hf with hf | rfl
    · exact h.page i f hf
    · exact fun hlt => absurd hlt hmax
  · intro b hb
    rcases h.clean b hb with hc | ⟨i, f, hf, hrest⟩
    · exact .inl hc
    · exact .inr ⟨i, f, getElem?_pushFrame hf, hrest⟩
  · intro i j f g hf hg hid hlt
    rcases frame_push hf with hf | rfl
    · rcases frame_push hg with hg | rfl
      · exact h.unique i j f g hf hg hid hlt
      · rw [hid] at hlt
        exact absurd hlt hmax
    · exact absurd hlt hmax

/-- Writing the current page of a block to the device. -/
theorem writeBlock (h : PoolInv p content written) {b : BlockId} {page : Page}
    (hb : b < blockCount p.device) (hc : content b = .ok page) :
    PoolInv { p with device := (writeBlock p.device b (encodePageBlock page)).2 } content
      written := by
  have hcount := AtomicWrites.count_write p.device b (encodePageBlock page)
  refine ⟨h.noSteal, h.lru_lt, h.intent, ?_, ?_, ?_, ?_⟩
  · simpa only [hcount] using h.touched
  · simpa only [hcount] using h.page
  · intro c hlt
    rw [show blockCount _ = _ from hcount] at hlt
    rw [AtomicWrites.block_write p.device hb (length_encodePageBlock page)]
    by_cases hcb : c = b
    · simpa [hcb, decodeBlock_encodePageBlock] using .inl hc
    · simp [hcb, h.clean c hlt]
  · simpa only [hcount] using h.unique

section

variable (h : PoolInv p.noSteal content written)
include h

/-- Writing the victim back, if it is dirty, brings its block up to date. -/
theorem writeBack (hf : p.frames[idx]? = some f) (hpin : ∀ n, f.state ≠ .pinned n) :
    ∃ device, p.writeBack idx = (.ok (), device) ∧ blockCount device = blockCount p.device ∧
      PoolInv { p.noSteal with device } content written ∧
      (f.dirtyIntent = true → content f.blockId = decodeBlock (block device f.blockId)) := by
  have hintent := h.intent idx f hf
  rw [BufferPool.writeBack, hf]
  by_cases hdirty : f.state = .dirty
  · have hb : f.blockId < blockCount p.device :=
      (h.touched idx f hf (by simp [hintent, needsFlush, hdirty])).1
    have hpage := h.page idx f hf hb
    have hok := AtomicWrites.write_ok p.device hb (length_encodePageBlock f.page)
    have hblock := AtomicWrites.block_write p.device hb (length_encodePageBlock f.page) f.blockId
    refine ⟨_, ?_, AtomicWrites.count_write p.device _ _, h.writeBlock hb hpage, ?_⟩
    · simp only [if_pos hdirty]
      exact Prod.ext hok rfl
    · intro _
      rw [hblock, if_pos rfl, decodeBlock_encodePageBlock, hpage]
  · -- neither dirty nor pinned: not modified
    have hclean : f.dirtyIntent = false := by
      rw [hintent, needsFlush]
      cases hs : f.state with
      | dirty => exact absurd hs hdirty
      | pinned n => exact absurd hs (hpin n)
      | _ => rfl
    exact ⟨p.device, by simp [hdirty], rfl, h, by simp [hclean]⟩

theorem acquire (hacquire : Acquire p x) :
    PoolInv x.2.noSteal content written ∧ blockCount x.2.device = blockCount p.device := by
  cases hacquire with
  | found _ _ _ _ => exact ⟨h, rfl⟩
  | pushed _ => exact ⟨h.push, rfl⟩
  | freed idx f device _ hf he hw =>
    obtain ⟨_, hw', hcount, hinv, hcur⟩ := h.writeBack hf (not_pinned_of_evictable he)
    cases hw.symm.trans hw'
    have hfreed := hinv.modifyFrame_update hf
      (fun f => { f with state := .free, dirtyIntent := false }) rfl (by simp)
      (hinv.page idx f hf) (fun hd => .inr (hcur hd))
      (fun j q hq hid hlt => hinv.unique idx j f q hf hq hid hlt) (fun _ hw => hw)
      (fun _ => .inl rfl)
    refine ⟨hfreed.withLru fun i hi => ?_, hcount⟩
    show i < (p.frames.modify idx _).length
    rw [List.length_modify]
    exact h.lru_lt i (List.mem_of_mem_erase hi)
  | refused idx f e device hf he hw =>
    obtain ⟨_, hw', _⟩ := h.writeBack hf (not_pinned_of_evictable he)
    cases hw.symm.trans hw'
  | full _ _ => exact ⟨h, rfl⟩

/-! ## Pinning -/

/-- A block that is not resident is loaded with its current page. -/
theorem pinning {b : BlockId} (hpin : Pinning p b x) :
    PoolInv x.2.noSteal content written ∧ blockCount x.2.device = blockCount p.device := by
  cases hpin with
  | hit idx f _ hf _ =>
    obtain ⟨n, hn⟩ := repinned_pinned f
    have hinv : PoolInv (p.noSteal.pinFrame idx) content written := by
      refine h.modifyState hf ?_
      -- a dirty frame carries its intent into the pin
      rw [needsFlush, hn]
    exact ⟨hinv.touch (lt_length (getElem?_modifyFrame_self hf _)), rfl⟩
  | failed _ _ _ _ hacquire _ =>
    obtain ⟨hinv, hcount⟩ := h.acquire hacquire
    exact ⟨hinv, hcount⟩
  | loaded idx f p' bytes page hfind hacquire hf hfree hread hdecode =>
    obtain ⟨hinv, hcount⟩ := h.acquire hacquire
    -- the device served the block, so it has it
    have hb : b < blockCount p'.device := by
      by_contra hb
      obtain ⟨e, he⟩ := AtomicWrites.read_out p'.device (List.replicate BLOCK_SIZE 0) hb
      cases he.symm.trans hread
    have habs := find_none (hacquire.absent (ne_max_of_lt hb) hfind)
    obtain rfl := AtomicWrites.read_block p'.device hread
    have hclean : f.dirtyIntent = false := by
      rw [hinv.intent idx f hf, needsFlush, hfree]
    -- no frame holds `b`, so the device does
    have hcur : content b = .ok page := by
      rcases hinv.clean b hb with hc | ⟨i, q, hq, hqb, _⟩
      · exact hc.trans hdecode
      · exact absurd hqb (habs i q hq)
    have hloaded := hinv.modifyFrame hf (fun _ => ⟨b, page, .pinned 1, false⟩) rfl (by simp)
      (fun _ => hcur) (by simp [hclean]) (fun j q hq hid _ => absurd hid.symm (habs j q hq))
    exact ⟨hloaded.touch (lt_length (getElem?_modifyFrame_self hf _)), hcount⟩

/-! ## Pools that do not steal -/

theorem of_noSteal (hsteal : p.steal = false) : PoolInv p content written := by
  have hp : p.noSteal = p := by rw [BufferPool.noSteal, ← hsteal]
  rwa [hp] at h

end

section

variable (h : PoolInv p content written)
include h

theorem toNoSteal : PoolInv p.noSteal content written :=
  ⟨rfl, h.lru_lt, h.intent, h.touched, h.page, h.clean, h.unique⟩

section

variable (b : BlockId)

theorem reserve : PoolInv (p.reserve b).2 content written ∧ (p.reserve b).2.device = p.device := by
  obtain ⟨_, _, hr⟩ | ⟨_, _, hacquire, _⟩ := reserve_spec p b
  · rw [hr]
    exact ⟨h, rfl⟩
  · exact ⟨(h.toNoSteal.acquire hacquire).1.of_noSteal (hacquire.steal.trans h.noSteal),
      hacquire.quiet h.noSteal⟩

theorem pin : PoolInv (p.pin b).2 content written ∧ (p.pin b).2.device = p.device :=
  ⟨(h.toNoSteal.pinning (pin_spec p b)).1.of_noSteal ((pin_spec p b).steal.trans h.noSteal),
    (pin_spec p b).quiet h.noSteal⟩

theorem fetch : PoolInv (p.fetch b).2 content written ∧ (p.fetch b).2.device = p.device := by
  rw [fetch_eq]
  exact h.pin b

theorem unpin : PoolInv (p.unpin b) content written := by
  rw [BufferPool.unpin]
  cases hfind : p.find b with
  | none => exact h
  | some idx =>
    obtain ⟨f, hf, _⟩ := find_some hfind
    refine h.modifyState hf ?_
    have hi := h.intent idx f hf
    rw [needsFlush] at hi ⊢
    rw [unpinned]
    cases hs : f.state with
    | pinned n =>
      by_cases hn : n > 1
      · simp [if_pos hn]
      · cases hd : f.dirtyIntent <;> simp [if_neg hn]
    | _ => rw [hs] at hi; exact hi

end

end

/-! ## Staging a page -/

/-- `content` with the page of one block replaced. -/
def update (content : Contents) (b : BlockId) (page : Page) :
    Contents := fun c => if c = b then .ok page else content c

/-- Writing through a pinned frame changes the logical store at its block. -/
theorem stage (h : PoolInv p content written) {b : BlockId} {n : UInt32}
    (hf : p.frames[idx]? = some f) (hid : f.blockId = b) (hs : f.state = .pinned n)
    (hb : b < blockCount p.device) (page : Page) :
    PoolInv (p.modifyFrame idx fun f => { f with dirtyIntent := true, page := page })
      (update content b page) (fun c => c = b ∨ written c) := by
  refine h.modifyFrame_update hf _ ?_ (fun _ => ⟨hid ▸ hb, .inl hid⟩) ?_ (fun _ => .inl ⟨rfl, rfl⟩)
    (fun j q hq he hlt => h.unique idx j f q hf hq he hlt) (fun _ hw => .inr hw) ?_
  · rw [needsFlush, hs]
  · intro _
    exact if_pos hid
  · intro c
    by_cases hc : c = b
    · exact .inr ⟨hid.trans hc.symm, rfl⟩
    · exact .inl (if_neg hc)

/-! ## Flushing -/

/-- What flushing guarantees: only `written` blocks reach the device. -/
structure Flushing (p : BufferPool D) (content : Contents)
    (written : BlockId → Prop) (p' : BufferPool D) : Prop where
  inv : PoolInv p' content written
  count : blockCount p'.device = blockCount p.device
  block : ∀ b, ¬ written b → block p'.device b = block p.device b
  length : p'.frames.length = p.frames.length

theorem Flushing.refl (h : PoolInv p content written) : Flushing p content written p :=
  ⟨h, rfl, fun _ _ => rfl, rfl⟩

theorem Flushing.trans {p' p'' : BufferPool D} (h : Flushing p content written p')
    (h' : Flushing p' content written p'') : Flushing p content written p'' :=
  ⟨h'.inv, h'.count.trans h.count, fun b hb => (h'.block b hb).trans (h.block b hb),
    h'.length.trans h.length⟩

section

variable (h : PoolInv p content written)
include h

/-- One flush iteration succeeds and leaves its frame unmodified. -/
theorem flushFrame (idx : Nat) :
    ∃ p', p.flushFrame idx = (.ok (), p') ∧ Flushing p content written p' ∧
      ∀ (i : Nat) (f : Frame), p'.frames[i]? = some f →
        if i = idx then f.dirtyIntent = false else p.frames[i]? = some f := by
  rw [BufferPool.flushFrame]
  cases hf : p.frames[idx]? with
  | none =>
    refine ⟨p, rfl, .refl h, ?_⟩
    intro i f hi
    by_cases he : i = idx
    · grind
    · simp [he, hi]
  | some f =>
    have hint := h.intent idx f hf
    cases hd : needsFlush f with
    | false =>
      refine ⟨p, by simp only [hd]; rfl, .refl h, ?_⟩
      intro i q hq
      by_cases he : i = idx
      · grind
      · simp [he, hq]
    | true =>
      obtain ⟨hb, hw⟩ := h.touched idx f hf (hint.trans hd)
      have hpage := h.page idx f hf hb
      have hok := AtomicWrites.write_ok p.device hb (length_encodePageBlock f.page)
      have hcount := AtomicWrites.count_write p.device f.blockId (encodePageBlock f.page)
      have hblock := AtomicWrites.block_write p.device hb (length_encodePageBlock f.page)
      have hdev := h.writeBlock hb hpage
      obtain ⟨r, d, hwr⟩ : ∃ r d, BlockDevice.writeBlock p.device f.blockId
        (encodePageBlock f.page) = (r, d) := ⟨_, _, rfl⟩
      rw [hwr] at hok hcount hblock hdev
      subst hok
      have hcur : content f.blockId = decodeBlock (block d f.blockId) := by
        rw [hblock, if_pos rfl, decodeBlock_encodePageBlock, hpage]
      have hnew : PoolInv { p with device := d, frames := p.frames.modify idx flushed }
          content written := by
        refine hdev.modifyFrame_update hf flushed ?_ (fun hd => by contradiction)
          (fun _ => hpage) (fun _ => .inr hcur)
          (fun j q hq hid hlt => hdev.unique idx j f q hf hq hid hlt) (fun _ hw => hw)
          fun _ => .inl rfl
        rw [flushed]
        cases f.state <;> rfl
      refine ⟨_, by simp only [hd, hwr, if_true], ⟨hnew, hcount, ?_, List.length_modify ..⟩, ?_⟩
      · intro b hnw
        rw [hblock, if_neg]
        rintro rfl
        exact hnw hw
      · intro i q hq
        have hq' := (getElem?_modifyFrame p idx flushed i).symm.trans hq
        by_cases he : i = idx
        · subst he
          rw [if_pos rfl, hf] at hq'
          cases hq'
          rw [if_pos rfl]
          rfl
        · simpa [(Ne.symm he), he] using hq'

/-- The first `k` iterations leave the first `k` frames unmodified. -/
theorem flushLoop (k : Nat) :
    ∃ p', p.flushLoop k = (.ok (), p') ∧ Flushing p content written p' ∧
      ∀ (i : Nat) (f : Frame), i < k → p'.frames[i]? = some f → f.dirtyIntent = false := by
  induction k with
  | zero => exact ⟨p, rfl, .refl h, fun _ _ hi => absurd hi (Nat.not_lt_zero _)⟩
  | succ k ih =>
    obtain ⟨q, hq, hflush, hdone⟩ := ih
    obtain ⟨q', hq', hflush', hframe⟩ := hflush.inv.flushFrame k
    refine ⟨q', by rw [BufferPool.flushLoop, hq]; exact hq', hflush.trans hflush', ?_⟩
    intro i f hi hf
    have hfr := hframe i f hf
    by_cases he : i = k
    · rwa [if_pos he] at hfr
    · rw [if_neg he] at hfr
      exact hdone i f (by omega) hfr

/-- A flush fails at most in its final `sync`, and the device then holds the
logical store. -/
theorem flushAll :
    ∃ (d : D) (p' : BufferPool D), p.flushAll = ((sync d).1, p') ∧ Flushing p content written p' ∧
      ∀ b, b < blockCount p'.device → content b = decodeBlock (block p'.device b) := by
  obtain ⟨q, hq, hflush, hdone⟩ := h.flushLoop p.frames.length
  have hcount := AtomicWrites.count_sync q.device
  have hblock := AtomicWrites.block_sync q.device
  have hq' := hflush.inv
  refine ⟨q.device, { q with device := (sync q.device).2 }, ?_,
    ⟨⟨hq'.noSteal, hq'.lru_lt, hq'.intent, ?_,
    ?_, ?_, ?_⟩, hcount.trans hflush.count, ?_, hflush.length⟩, ?_⟩
  · rw [BufferPool.flushAll, hq]
  · simpa only [hcount] using hq'.touched
  · simpa only [hcount] using hq'.page
  · simpa only [hcount, hblock] using hq'.clean
  · simpa only [hcount] using hq'.unique
  · intro b hb
    rw [hblock]
    exact hflush.block b hb
  · intro b hb
    rw [show blockCount _ = _ from hcount] at hb
    rw [hblock]
    rcases hq'.clean b hb with hc | ⟨i, f, hf, _, hd⟩
    · exact hc
    · have hi := lt_length hf
      rw [hflush.length] at hi
      grind

end

end PoolInv

end Archon
