import Archon.Core.PoolSpec
import Mathlib.Data.List.Nodup

/-!
# Archon.Core.PoolShape

Sequences of buffer pool calls, and what holds of the frames and of the
recency list in every pool they reach, on any device: reads, writes and syncs
may fail at any time.

`PoolShape` is what every call keeps; `pool_represented` is read off it.
-/

namespace Archon

open BlockDevice BufferPool

variable {g : Frame → Frame}

/-! ## Calls -/

/-- A call on a pool over a device of type `D`. -/
inductive PoolCall (D : Type) where
  | fetch (b : BlockId)
  /-- With what the caller does to the page. -/
  | fetchMut (b : BlockId) (modify : Page → Page)
  | reserve (b : BlockId)
  | unpin (b : BlockId)
  | flushAll
  | noSteal
  /-- With what the caller does to the device. -/
  | deviceMut (modify : D → D)

inductive PoolReply where
  | page (r : Except StorageError Page)
  | done (r : Except StorageError Unit)

namespace BufferPool

variable {D : Type} [BlockDevice D]

/-- Fetch a page for modification and modify it: the page as it was found. -/
def modifyPage (p : BufferPool D) (b : BlockId) (modify : Page → Page) :
    Except StorageError Page × BufferPool D :=
  match p.fetchMut b with
  | (.error e, p) => (.error e, p)
  | (.ok idx, p) =>
    (.ok (p.pageAt idx), p.modifyFrame idx fun f => { f with page := modify f.page })

/-- One call. -/
def call (p : BufferPool D) : PoolCall D → PoolReply × BufferPool D
  | .fetch b => let (r, p) := p.fetch b; (.page r, p)
  | .fetchMut b modify => let (r, p) := p.modifyPage b modify; (.page r, p)
  | .reserve b => let (r, p) := p.reserve b; (.done r, p)
  | .unpin b => (.done (.ok ()), p.unpin b)
  | .flushAll => let (r, p) := p.flushAll; (.done r, p)
  | .noSteal => (.done (.ok ()), p.noSteal)
  | .deviceMut modify => (.done (.ok ()), { p with device := modify p.device })

end BufferPool

/-- The block a call is about. -/
def PoolCall.block? {D : Type} : PoolCall D → Option BlockId
  | .fetch b | .fetchMut b _ | .reserve b | .unpin b => some b
  | _ => none

/-- The call is about a block of the device. -/
def PoolCall.InRange {D : Type} [BlockDevice D] (call : PoolCall D) (p : BufferPool D) : Prop :=
  ∀ b, call.block? = some b → b < blockCount p.device

/-! ## Shape -/

/-- The frames and the recency list fit together. -/
structure PoolShape {D : Type} (p : BufferPool D) : Prop where
  size : p.frames.length ≤ p.capacity
  ids : ∀ (i j : Nat) (f g : Frame), p.frames[i]? = some f → p.frames[j]? = some g →
    f.blockId = g.blockId → f.blockId ≠ BLOCK_ID_MAX → i = j
  unused : ∀ (i : Nat) (f : Frame), p.frames[i]? = some f → f.blockId = BLOCK_ID_MAX →
    f.state = .free
  lru_nodup : p.lru.Nodup
  mem_lru : ∀ i, i ∈ p.lru ↔ ∃ f, p.frames[i]? = some f ∧ f.state ≠ .free

/-- A pinned frame keeps its block and is not freed. -/
def PinnedStay {D : Type} (p p' : BufferPool D) : Prop :=
  ∀ (i : Nat) (f : Frame) (n : UInt32), p.frames[i]? = some f → f.state = .pinned n →
    ∃ g, p'.frames[i]? = some g ∧ g.blockId = f.blockId ∧ g.state ≠ .free

section

variable {D : Type}

theorem PinnedStay.refl (p : BufferPool D) : PinnedStay p p := by
  intro i f n hf hs
  exact ⟨f, hf, rfl, by simp [hs]⟩

theorem PinnedStay.modifyFrame {p p' : BufferPool D} (h : PinnedStay p p') {idx : Nat} {f : Frame}
    (hf : p'.frames[idx]? = some f)
    (hg : f.state ≠ .free → (g f).blockId = f.blockId ∧ (g f).state ≠ .free) :
    PinnedStay p (p'.modifyFrame idx g) := by
  intro i q n hq hs
  obtain ⟨q', hq', hid, hused⟩ := h i q n hq hs
  rw [getElem?_modifyFrame]
  by_cases hi : idx = i
  · subst hi
    cases hf.symm.trans hq'
    obtain ⟨hid', hused'⟩ := hg hused
    exact ⟨g f, by simp [hf], hid'.trans hid, hused'⟩
  · exact ⟨q', by simp [hi, hq'], hid, hused⟩

namespace PoolShape

variable {p : BufferPool D}

theorem new (d : D) (capacity : Nat) (hc : 0 < capacity) :
    PoolShape (BufferPool.new d capacity hc) where
  size := Nat.zero_le _
  ids := by simp [BufferPool.new]
  unused := by simp [BufferPool.new]
  lru_nodup := List.nodup_nil
  mem_lru := by simp [BufferPool.new]

section

variable (h : PoolShape p)
include h

/-- The device and the steal setting do not matter. -/
theorem withDevice (device : D) (steal : Bool) :
    PoolShape { p with device, steal } := ⟨h.size, h.ids, h.unused, h.lru_nodup, h.mem_lru⟩

variable {f : Frame} {idx : Nat}

section

variable (hf : p.frames[idx]? = some f)
include hf

/-- A frame is replaced, and the recency list follows its state. -/
theorem replace (lru : List Nat)
    (hid : ∀ (j : Nat) (q : Frame), p.frames[j]? = some q → (g f).blockId = q.blockId →
      (g f).blockId ≠ BLOCK_ID_MAX → idx = j)
    (hunused : (g f).blockId = BLOCK_ID_MAX → (g f).state = .free) (hnodup : lru.Nodup)
    (hlru : ∀ i, i ∈ lru ↔ if i = idx then (g f).state ≠ .free else i ∈ p.lru) :
    PoolShape { p.modifyFrame idx g with lru } := by
  constructor
  · show (p.frames.modify idx g).length ≤ p.capacity
    simpa using h.size
  · intro i j q r hq hr heq hmax
    obtain ⟨rfl, rfl⟩ | ⟨_, hqold⟩ := frame_modifyFrame hf hq
    · obtain ⟨rfl, rfl⟩ | ⟨_, hold⟩ := frame_modifyFrame hf hr
      · rfl
      · exact hid j r hold heq hmax
    · obtain ⟨rfl, rfl⟩ | ⟨_, hold⟩ := frame_modifyFrame hf hr
      · exact (hid i q hqold heq.symm (heq ▸ hmax)).symm
      · exact h.ids i j q r hqold hold heq hmax
  · intro i q hq hmax
    obtain ⟨rfl, rfl⟩ | ⟨_, hq⟩ := frame_modifyFrame hf hq
    · exact hunused hmax
    · exact h.unused i q hq hmax
  · exact hnodup
  · intro i
    rw [hlru]
    by_cases hi : i = idx
    · subst hi
      rw [getElem?_modifyFrame_self hf]
      simp
    · simp [hi, h.mem_lru, getElem?_modifyFrame, (Ne.symm hi)]

/-- The frame keeps its block, and is free or not as before. -/
theorem modifyFrame (hid : (g f).blockId = f.blockId)
    (hfree : (g f).state = .free ↔ f.state = .free) : PoolShape (p.modifyFrame idx g) := by
  refine h.replace hf p.lru ?_ ?_ h.lru_nodup ?_
  · intro j q hq heq hmax
    exact h.ids idx j f q hf hq (hid ▸ heq) (hid ▸ hmax)
  · intro hmax
    exact hfree.mpr (h.unused idx f hf (hid ▸ hmax))
  · intro i
    by_cases hi : i = idx
    · simp [h.mem_lru, hf, hfree, hi]
    · simp [hi]

/-- The frame is in use, and now the most recently used one. -/
theorem use (hused : (g f).state ≠ .free) (hmax : (g f).blockId ≠ BLOCK_ID_MAX)
    (hid : ∀ (j : Nat) (q : Frame), p.frames[j]? = some q → (g f).blockId = q.blockId → idx = j) :
    PoolShape ((p.modifyFrame idx g).touch idx) := by
  refine h.replace hf (p.lru.erase idx ++ [idx]) (fun j q hq heq _ => hid j q hq heq)
    (fun heq => absurd heq hmax) ?_ ?_
  · simpa using (h.lru_nodup.erase idx).concat h.lru_nodup.not_mem_erase
  · intro i
    grind

theorem release (hid : (g f).blockId = f.blockId) (hfree : (g f).state = .free) :
    PoolShape { p.modifyFrame idx g with lru := p.lru.erase idx } := by
  refine h.replace hf _ (fun j q hq heq hmax => h.ids idx j f q hf hq (hid ▸ heq) (hid ▸ hmax))
    (fun _ => hfree) (h.lru_nodup.erase idx) ?_
  intro i
  by_cases hi : i = idx
  · simp [hi, hfree, h.lru_nodup.not_mem_erase]
  · simp [hi]

end

/-- A new frame is free and holds no block. -/
theorem push (hroom : p.frames.length < p.capacity) :
    PoolShape { p with frames := p.frames ++ [⟨BLOCK_ID_MAX, .zeroed, .free, false⟩] } := by
  constructor
  · grind
  · intro i j f g hf hg heq hmax
    obtain hf | rfl := frame_push hf
    · obtain hg | rfl := frame_push hg
      · exact h.ids i j f g hf hg heq hmax
      · exact absurd heq hmax
    · exact absurd rfl hmax
  · intro i f hf hmax
    obtain hf | rfl := frame_push hf
    · exact h.unused i f hf hmax
    · rfl
  · exact h.lru_nodup
  · intro i
    rw [h.mem_lru]
    constructor
    · rintro ⟨f, hf, hused⟩
      exact ⟨f, getElem?_pushFrame hf, hused⟩
    · rintro ⟨f, hf, hused⟩
      obtain hf | rfl := frame_push hf
      · exact ⟨f, hf, hused⟩
      · exact absurd rfl hused

end

end PoolShape

end

/-! ## Calls keep the shape -/

section

variable {D : Type} {p p' : BufferPool D}

/-- What a call keeps. -/
structure Kept (p p' : BufferPool D) : Prop where
  shape : PoolShape p'
  stay : PinnedStay p p'

theorem Kept.refl (h : PoolShape p) : Kept p p := ⟨h, .refl p⟩

theorem Kept.withDevice (h : Kept p p') (device : D) : Kept p { p' with device } :=
  ⟨h.shape.withDevice device p'.steal, h.stay⟩

/-- A frame changes after a call, keeping its block and staying in use. -/
theorem Kept.modifyFrame (h : Kept p p') {idx : Nat} {f : Frame} (hf : p'.frames[idx]? = some f)
    (hid : (g f).blockId = f.blockId) (hfree : (g f).state = .free ↔ f.state = .free) :
    Kept p (p'.modifyFrame idx g) :=
  ⟨h.shape.modifyFrame hf hid hfree, h.stay.modifyFrame hf fun hused => ⟨hid, mt hfree.mp hused⟩⟩

theorem PoolShape.unpin (h : PoolShape p) (b : BlockId) : Kept p (p.unpin b) := by
  rw [BufferPool.unpin]
  cases hfind : p.find b with
  | none => exact .refl h
  | some idx =>
    obtain ⟨f, hf, _⟩ := find_some hfind
    refine (Kept.refl h).modifyFrame hf rfl ?_
    rw [unpinned]
    split <;> grind

variable [BlockDevice D] {b : BlockId}

section

variable (h : PoolShape p)
include h

variable {x : Except StorageError Nat × BufferPool D}

theorem PoolShape.acquire (hacquire : Acquire p x) : Kept p x.2 := by
  cases hacquire with
  | found _ _ _ _ => exact .refl h
  | pushed hroom =>
    exact ⟨h.push hroom, fun i f n hf hs => ⟨f, getElem?_pushFrame hf, rfl, by simp [hs]⟩⟩
  | freed idx f device _ hf he _ =>
    refine ⟨(h.release hf rfl rfl).withDevice device p.steal, fun i q n hq hs => ?_⟩
    -- the victim is not pinned
    have hi : idx ≠ i := by
      rintro rfl
      cases hf.symm.trans hq
      exact not_pinned_of_evictable he n hs
    refine ⟨q, ?_, rfl, by simp [hs]⟩
    rw [getElem?_modifyFrame, if_neg hi, hq]
  | refused _ _ _ device _ _ _ => exact (Kept.refl h).withDevice device
  | full _ _ => exact .refl h

theorem PoolShape.pin (hb : b ≠ BLOCK_ID_MAX) (hpin : Pinning p b x) : Kept p x.2 := by
  cases hpin with
  | hit idx f _ hf hid =>
    subst hid
    have hused : repinned f ≠ .free := by
      obtain ⟨n, hn⟩ := repinned_pinned f
      simp [hn]
    exact ⟨h.use hf hused hb fun j q hq hid => h.ids idx j f q hf hq hid hb,
      (PinnedStay.refl p).modifyFrame hf fun _ => ⟨rfl, hused⟩⟩
  | failed _ _ _ _ hacquire _ =>
    have hkept := h.acquire hacquire
    exact hkept
  | loaded idx f p' bytes page hfind hacquire hf hfree _ _ =>
    have hkept := h.acquire hacquire
    refine ⟨hkept.shape.use hf (by simp) hb fun j q hq hid => ?_,
      hkept.stay.modifyFrame hf fun hused => absurd hfree hused⟩
    exact absurd hid.symm (find_none (hacquire.absent hb hfind) j q hq)

theorem PoolShape.fetch (hb : b ≠ BLOCK_ID_MAX) : Kept p (p.fetch b).2 := by
  rw [fetch_eq]
  exact h.pin hb (pin_spec p b)

theorem PoolShape.modifyPage (hb : b ≠ BLOCK_ID_MAX) (modify : Page → Page) :
    Kept p (p.modifyPage b modify).2 := by
  have hpin := pin_spec p b
  rw [BufferPool.modifyPage, fetchMut]
  generalize p.pin b = r at hpin
  obtain ⟨_ | idx, p'⟩ := r
  · exact h.pin hb hpin
  · obtain ⟨f, _, hf, _⟩ := hpin.frame
    have hmarked : Kept p (p'.markDirtyPinned idx) := (h.pin hb hpin).modifyFrame hf rfl Iff.rfl
    exact hmarked.modifyFrame (getElem?_modifyFrame_self hf _) rfl Iff.rfl

theorem PoolShape.reserve (b : BlockId) : Kept p (p.reserve b).2 := by
  obtain ⟨_, _, hr⟩ | ⟨_, _, hacquire, _⟩ := reserve_spec p b
  · rw [hr]
    exact .refl h
  · exact h.acquire hacquire

end

theorem Kept.flush (h : Kept p p') {x : Except StorageError Unit × BufferPool D}
    (hflush : Flush p' x) : Kept p x.2 := by
  cases hflush with
  | idle => exact h
  | refused _ _ _ device _ _ => exact h.withDevice device
  | written idx f device hf _ _ =>
    have hsame : (flushed f).state = .free ↔ f.state = .free := by
      simp only [flushed]
      split <;> simp [*]
    exact (h.modifyFrame hf (g := flushed) rfl hsame).withDevice device

theorem PoolShape.flushAll (h : PoolShape p) : Kept p p.flushAll.2 :=
  flushAll_keeps (Kept p) (fun h hflush => h.flush hflush) (fun h => h.withDevice _) (.refl h)

/-! ## Reachable pools -/

/-- One call, on a block of the device if on any, keeps the shape. -/
theorem PoolShape.call (h : PoolShape p) {call : PoolCall D} (hrange : call.InRange p) :
    Kept p (p.call call).2 := by
  cases call with
  | fetch b => exact h.fetch (ne_max_of_lt (hrange b rfl))
  | fetchMut b modify => exact h.modifyPage (ne_max_of_lt (hrange b rfl)) modify
  | reserve b => exact h.reserve b
  | unpin b => exact h.unpin b
  | flushAll => exact h.flushAll
  | noSteal => exact ⟨h.withDevice p.device false, .refl p⟩
  | deviceMut modify => exact (Kept.refl h).withDevice (modify p.device)

/-- Calls that write to the device by themselves. -/
def PoolCall.Writes : PoolCall D → Prop
  | .flushAll | .deviceMut _ => True
  | _ => False

/-- Without stealing, any other call leaves the device as it is. -/
theorem call_device {call : PoolCall D} (hsteal : p.steal = false) (hwrites : ¬ call.Writes) :
    (p.call call).2.device = p.device := by
  cases call with
  | fetch b =>
    show (p.fetch b).2.device = _
    rw [fetch_eq]
    exact (pin_spec p b).quiet hsteal
  | fetchMut b modify =>
    have hpin := (pin_spec p b).quiet hsteal
    show (p.modifyPage b modify).2.device = _
    rw [modifyPage, fetchMut]
    generalize p.pin b = r at hpin
    obtain ⟨_ | _, _⟩ := r <;> exact hpin
  | reserve b =>
    obtain ⟨_, _, hr⟩ | ⟨_, _, hacquire, _⟩ := reserve_spec p b
    · exact congrArg (·.2.device) hr
    · exact hacquire.quiet hsteal
  | unpin b => exact unpin_device p b
  | noSteal => rfl
  | flushAll | deviceMut => exact absurd trivial hwrites

/-- The pools reachable by calls on blocks of the device. -/
inductive PoolReached : BufferPool D → Prop where
  | new (d : D) (capacity : Nat) (hc : 0 < capacity) : PoolReached (BufferPool.new d capacity hc)
  | call {p : BufferPool D} (call : PoolCall D) : PoolReached p → call.InRange p →
      PoolReached (p.call call).2

theorem PoolReached.shape (h : PoolReached p) : PoolShape p := by
  induction h with
  | new d capacity hc => exact .new d capacity hc
  | call call _ hrange ih => exact (ih.call hrange).shape

/-- What a pool's frames and recency list represent. -/
structure Represented (p : BufferPool D) : Prop where
  capacity : p.frames.length ≤ p.capacity
  /-- No two frames in use hold the same block. -/
  oneFrame : ∀ (i j : Nat) (f g : Frame), p.frames[i]? = some f → p.frames[j]? = some g →
    f.state ≠ .free → g.state ≠ .free → f.blockId = g.blockId → i = j
  /-- The recency list names every frame in use once, and nothing else. -/
  lru_nodup : p.lru.Nodup
  mem_lru : ∀ i, i ∈ p.lru ↔ ∃ f, p.frames[i]? = some f ∧ f.state ≠ .free
  /-- No call takes a pinned frame away from its block. -/
  pinned : ∀ call : PoolCall D, call.InRange p → PinnedStay p (p.call call).2
  /-- Without stealing, eviction leaves the device alone, and so does every
  call in which it may happen. -/
  evict_device : p.steal = false → p.evict.2.device = p.device
  call_device : p.steal = false → ∀ call : PoolCall D, call.InRange p → ¬ call.Writes →
    (p.call call).2.device = p.device

theorem evict_noSteal (hsteal : p.steal = false) : p.evict.2.device = p.device := by
  rw [evict]
  cases hv : p.victim with
  | none => rfl
  | some idx =>
    obtain ⟨f, hf, he⟩ := victim_some hv
    simp [writeBack_noSteal hf he hsteal]

/-- Every reachable pool is in order, whatever its device does. -/
theorem pool_represented (h : PoolReached p) : Represented p where
  capacity := h.shape.size
  oneFrame := by
    intro i j f g hf hg hused _ heq
    exact h.shape.ids i j f g hf hg heq fun hmax => hused (h.shape.unused i f hf hmax)
  lru_nodup := h.shape.lru_nodup
  mem_lru := h.shape.mem_lru
  pinned := fun _ hrange => (h.shape.call hrange).stay
  evict_device := evict_noSteal
  call_device := fun hsteal _ _ hwrites => call_device hsteal hwrites

/-- A pool of one frame over two blocks, after a fetch. -/
theorem pool_represented_fetched : Represented
    ((BufferPool.new (InMemoryBlockDevice.new 2) 1 (by decide)).call (.fetch 1)).2 := by
  apply pool_represented
  refine .call _ (.new _ _ _) ?_
  intro b hb
  cases hb
  decide

end

end Archon
