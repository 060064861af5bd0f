import Archon.Core.LiveRecovery

/-!
# Archon.Core.PinnedReads

Reads of a storage engine pin their pages and never unpin them.

Once every frame of a full pool is pinned, a block that is not among them can
neither be read nor written, whatever has been committed.  In a state without
uncommitted pages this is the only obstacle (`served_iff`).
-/

namespace Archon

open BufferPool Journal List Option

/-! ## Frames and the recency list -/

section

variable {D : Type}

/-- Eviction sees every frame in use. -/
def Listed (p : BufferPool D) : Prop :=
  ∀ (i : Nat) (f : Frame), p.frames[i]? = some f → f.state ≠ .free → i ∈ p.lru

/-- No frame is modified. -/
def Unmodified (p : BufferPool D) : Prop :=
  ∀ (i : Nat) (f : Frame), p.frames[i]? = some f → f.dirtyIntent = false

theorem mem_lru_touch (p : BufferPool D) (idx i : Nat) :
    i ∈ (p.touch idx).lru ↔ i = idx ∨ i ∈ p.lru := by
  by_cases hi : i = idx
  · simp [touch, hi]
  · simp [touch, hi]

variable {p : BufferPool D}

/-- One frame changes, and the list may grow. -/
theorem Listed.modifyFrame (h : Listed p) {idx : Nat} {g : Frame → Frame} {lru : List Nat}
    (hlru : ∀ i, i ≠ idx → i ∈ p.lru → i ∈ lru)
    (hg : ∀ f, p.frames[idx]? = some f → (g f).state ≠ .free → idx ∈ lru) :
    Listed { p.modifyFrame idx g with lru } := by
  intro i q hq hused
  have hq' := (getElem?_modifyFrame p idx g i).symm.trans hq
  by_cases hi : idx = i
  · subst hi
    rw [if_pos rfl] at hq'
    obtain ⟨f, hf, rfl⟩ := map_eq_some_iff.mp hq'
    exact hg f hf hused
  · rw [if_neg hi] at hq'
    exact hlru i (Ne.symm hi) (h i q hq' hused)

theorem Unmodified.modifyFrame (h : Unmodified p) {idx : Nat} {g : Frame → Frame}
    (hg : ∀ f, f.dirtyIntent = false → (g f).dirtyIntent = false) :
    Unmodified (p.modifyFrame idx g) := by
  intro i q hq
  rw [getElem?_modifyFrame] at hq
  split at hq
  · obtain ⟨f, hf, rfl⟩ := map_eq_some_iff.mp hq
    exact hg f (h i f hf)
  · exact h i q hq

/-- Without modified frames, the only frames that cannot be had are pinned. -/
theorem hasRoom_iff (hlisted : Listed p)
    (hclean : ∀ (i : Nat) (f : Frame), p.frames[i]? = some f → f.state ≠ .dirty) :
    p.HasRoom ↔ p.frames.length < p.capacity ∨ ∃ f ∈ p.frames, ∀ n, f.state ≠ .pinned n := by
  constructor
  · rintro (hfree | hlt | hvictim)
    · obtain ⟨f, hf, hstate⟩ := any_eq_true.mp hfree
      exact .inr ⟨f, hf, fun n hn => by simp [hn] at hstate⟩
    · exact .inl hlt
    · obtain ⟨idx, hidx⟩ := isSome_iff_exists.mp hvictim
      obtain ⟨f, hf, he⟩ := victim_some hidx
      exact .inr ⟨f, mem_of_getElem? hf, not_pinned_of_evictable he⟩
  · rintro (hlt | ⟨f, hf, hpin⟩)
    · exact .inr (.inl hlt)
    · obtain ⟨i, hi⟩ := getElem?_of_mem hf
      cases hs : f.state with
      | free => exact .inl (any_eq_true.mpr ⟨f, hf, by simp [hs]⟩)
      | dirty => exact absurd hs (hclean i f hi)
      | pinned n => exact absurd hs (hpin n)
      | clean =>
        have hmem := hlisted i f hi (by simp [hs])
        have hvictim : p.victim.isSome := by
          rw [victim, find?_isSome]
          refine ⟨i, hmem, ?_⟩
          simp only [hi, any_some, hs]
          rfl
        exact .inr (.inr hvictim)

end

variable {D : Type} [BlockDevice D]

variable {p : BufferPool D}

theorem Listed.move {w : Option BlockId} {p' : BufferPool D} (h : Listed p)
    (hmove : PoolMove w p p') : Listed p' := by
  cases hmove with
  | push _ =>
    intro i f hf hused
    rw [getElem?_append] at hf
    split at hf
    · exact h i f hf hused
    · obtain rfl := mem_singleton.mp (mem_of_getElem? hf)
      exact absurd rfl hused
  | free idx f hf _ =>
    exact h.modifyFrame (fun i hi hm => (mem_erase_of_ne hi).mpr hm)
      fun _ _ hused => absurd rfl hused
  | load idx f b bytes page hf _ _ _ =>
    exact h.modifyFrame (fun i _ hm => (mem_lru_touch p idx i).mpr (.inr hm))
      fun _ _ _ => (mem_lru_touch p idx idx).mpr (.inl rfl)
  | pin idx f hf =>
    exact h.modifyFrame (fun i _ hm => (mem_lru_touch p idx i).mpr (.inr hm))
      fun _ _ _ => (mem_lru_touch p idx idx).mpr (.inl rfl)
  | stage idx f page hf _ => exact h.modifyFrame (fun _ _ hm => hm) (h idx)
  | unpin idx f hf =>
    exact h.modifyFrame (fun _ _ hm => hm)
      fun q hq hused => h idx q hq fun hfree => hused (by simp [unpinned, hfree])
  | flush idx f device hf _ _ =>
    exact h.modifyFrame (fun _ _ hm => hm)
      fun q hq hused => h idx q hq fun hfree => hused (by simp [flushed, hfree])
  | refused | sync => exact h

/-- Only staging a page modifies a frame. -/
theorem Unmodified.move {p' : BufferPool D} (h : Unmodified p) (hmove : PoolMove none p p') :
    Unmodified p' := by
  cases hmove with
  | push _ =>
    intro i f hf
    rw [getElem?_append] at hf
    split at hf
    · exact h i f hf
    · obtain rfl := mem_singleton.mp (mem_of_getElem? hf)
      rfl
  | free idx f hf _ | load idx f b bytes page hf _ _ _ => exact h.modifyFrame fun _ _ => rfl
  | pin idx f hf => exact h.modifyFrame fun _ hq => hq
  | stage idx f page hf hblock => cases hblock
  | unpin idx f hf => exact h.modifyFrame fun _ hq => hq
  | flush idx f device hf _ _ => exact h.modifyFrame fun _ _ => rfl
  | refused | sync => exact h

/-! ## Reading and writing a block -/

section

variable [ErrorFree D] {p : BufferPool D} {content : Contents}
  {written : BlockId → Prop}

theorem PoolInv.flushAll_unmodified (h : PoolInv p content written) : Unmodified p.flushAll.2 := by
  obtain ⟨q, hq, hflush, hdone⟩ := h.flushLoop p.frames.length
  intro i f hf
  rw [BufferPool.flushAll, hq] at hf
  exact hdone i f (hflush.length ▸ PoolInv.lt_length hf) hf

/-- A block whose content is known can be fetched when it is resident or there
is room. -/
theorem PoolInv.fetch_ok_iff (h : PoolInv p content written) {b : BlockId}
    (hb : b < blockCount p.device) {page : Page} (hcontent : content b = .ok page) :
    (∃ q, (p.fetch b).1 = .ok q) ↔ (p.find b).isSome ∨ p.HasRoom := by
  cases hfind : p.find b with
  | some idx => simp [fetch_resident hfind]
  | none =>
    simp only [isSome_none, Bool.false_eq_true, false_or]
    constructor
    · rintro ⟨q, hq⟩
      refine Classical.not_not.mp fun hfull => ?_
      obtain ⟨e, he⟩ := (fetch_missing h.noSteal hfind).2 hfull
      grind
    · intro hroom
      have hdevice : decodeBlock (block p.device b) = .ok page := by
        obtain hc | ⟨i, f, hf, hid, _⟩ := h.clean b hb
        · exact hc.symm.trans hcontent
        · exact absurd hid (find_none hfind i f hf)
      refine ⟨page, ?_⟩
      rw [(fetch_missing h.noSteal hfind).1 hroom, ErrorFree.read_ok _ hb length_replicate]
      exact hdevice

end

theorem reserve_ok_iff (hsteal : p.steal = false) (b : BlockId) :
    (p.reserve b).1 = .ok () ↔ (p.find b).isSome ∨ p.HasRoom := by
  obtain ⟨idx, hfind, hr⟩ | ⟨r, hfind, hacquire, hr⟩ := reserve_spec p b
  · simp [hfind, hr]
  · rw [hr, ← hacquire.ok_iff hsteal]
    cases r <;> simp [hfind, Except.map]

/-- Room that was reserved is still there. -/
theorem room_of_reserve {b : BlockId} (hok : (p.reserve b).1 = .ok ()) :
    ((p.reserve b).2.find b).isSome ∨ (p.reserve b).2.HasRoom := by
  obtain ⟨idx, hfind, hr⟩ | ⟨r, hfind, hacquire, hr⟩ := reserve_spec p b
  · simp [hfind, hr]
  · rw [hr] at hok
    cases r with
    | error e => cases hok
    | ok idx =>
      obtain ⟨f, hf, hfree⟩ := hacquire.frame
      exact .inr (.inl (any_eq_true.mpr ⟨f, mem_of_getElem? hf, by simp [hfree]⟩))

namespace StorageEngine

variable [ErrorFree D]

theorem writePage_ok_iff {e : StorageEngine D} {content : Contents}
    {written : BlockId → Prop} (h : PoolInv e.pool content written) {b : BlockId}
    (hb : b < blockCount e.pool.device) {q : Page} (hcontent : content b = .ok q) (page : Page) :
    (e.writePage b page.bytes).1 = .ok () ↔ (e.pool.find b).isSome ∨ e.pool.HasRoom := by
  have hb' : ¬ b ≥ blockCount e.pool.device := by simpa using hb
  obtain ⟨hinv, hdevice⟩ := h.reserve b
  rw [← reserve_ok_iff h.noSteal b, writePage, dif_pos page.size, if_neg hb']
  have hroom := room_of_reserve (p := e.pool) (b := b)
  generalize e.pool.reserve b = r at hinv hdevice hroom
  obtain ⟨_ | _, p⟩ := r
  · simp
  · dsimp only at hinv hdevice hroom ⊢
    have hfetch := (hinv.fetch_ok_iff (hdevice ▸ hb) hcontent).mpr (hroom rfl)
    have hmut := fetchMut.eq_1 p b
    rw [fetch] at hfetch
    generalize p.pin b = r at hfetch hmut
    obtain ⟨_ | idx, p'⟩ := r
    · simp at hfetch
    · simp [hmut]

/-! ## Runs -/

omit [ErrorFree D] in
theorem page_size_of_writePage (e : StorageEngine D) (b : BlockId) (page : Bytes)
    (hok : (e.writePage b page).1 = .ok ()) : page.length = PAGE_SIZE := by
  by_contra hsize
  rw [writePage, dif_neg hsize] at hok
  cases hok

/-- Eviction sees the frames in use, and frames are modified only since the
last commit. -/
structure Tidy (s : Run D) : Prop where
  listed : Listed s.engine.pool
  saved : s.writes = s.durable → Unmodified s.engine.pool

theorem Tidy.step {d : D} {rs₀ : List WalRecord} {s : Run D} (h : Tidy s) (hinv : RunInv d rs₀ s)
    (op : Op) : Tidy (s.step op) := by
  have hsteal := hinv.pool.noSteal
  cases op with
  | write b page =>
    have hmoves := moves_writePage hsteal b page
    have hsize := page_size_of_writePage s.engine b page
    simp only [Run.step]
    generalize s.engine.writePage b page = r at hmoves hsize ⊢
    obtain ⟨_ | _, e⟩ := r
    · exact ⟨hmoves.keeps Listed Listed.move h.listed,
        fun hsaved => hmoves.keeps Unmodified Unmodified.move (h.saved hsaved)⟩
    · refine ⟨hmoves.keeps Listed Listed.move h.listed, fun hsaved => ?_⟩
      -- a page was written since the last commit
      obtain ⟨rest, hrest⟩ := hinv.history
      simp only [Run.record, dif_pos (hsize rfl)] at hsaved
      have hlength := congrArg List.length hsaved
      rw [hrest] at hlength
      simp at hlength
  | read b =>
    have hmoves := moves_readPage hsteal none b
    exact ⟨hmoves.keeps Listed Listed.move h.listed,
      fun hsaved => hmoves.keeps Unmodified Unmodified.move (h.saved hsaved)⟩
  | commit outcome =>
    have hmoves := moves_commitDurable s.engine none (persistWith outcome) s.log
    cases outcome with
    | error err =>
      exact ⟨hmoves.keeps Listed Listed.move h.listed, h.saved⟩
    | ok u =>
      have hclean := hinv.pool.flushAll_unmodified
      have hflush : (s.step (.commit (.ok u))).engine.pool = s.engine.pool.flushAll.2 := by
        simp only [Run.step, commitDurable, appendCommit]
        generalize s.engine.pool.flushAll = r
        obtain ⟨_ | _, p⟩ := r <;> rfl
      refine ⟨?_, fun _ => ?_⟩
      · simp [hflush, (moves_flushAll none s.engine.pool).keeps Listed Listed.move h.listed]
      · simp [hflush, hclean]

theorem Tidy.run {d : D} {rs₀ : List WalRecord} {s : Run D} (h : Tidy s) (hinv : RunInv d rs₀ s)
    (ops : List Op) : Tidy (ops.foldl Run.step s) := by
  induction ops generalizing s with
  | nil => exact h
  | cons op ops ih => exact ih (h.step hinv op) (hinv.step op)

omit [ErrorFree D] in
theorem capacity_run {s : Run D} (hsteal : s.engine.pool.steal = false) (ops : List Op) :
    (ops.foldl Run.step s).engine.pool.capacity = s.engine.pool.capacity := by
  induction ops generalizing s with
  | nil => rfl
  | cons op ops ih =>
    have hmoves := moves_step s hsteal op
    exact (ih (hmoves.steal hsteal)).trans hmoves.capacity

theorem tidy_runOf (d : D) (capacity : Nat) (hc : 0 < capacity) (ops : List Op) :
    Tidy (runOf d capacity hc ops) := by
  refine Tidy.run ⟨?_, fun _ => ?_⟩ (runOf_inv d capacity hc []) ops
  · simp [Listed, runOf, Run.start, StorageEngine.new, BufferPool.new, noSteal]
  · simp [Unmodified, runOf, Run.start, StorageEngine.new, BufferPool.new, noSteal]

/-- A page of the block can be read, and any page written to it. -/
def Served (e : StorageEngine D) (b : BlockId) : Prop :=
  (∃ page, (e.readPage b).1 = .ok page) ∧ ∀ page : Page, (e.writePage b page.bytes).1 = .ok ()

/-- With everything committed, the blocks of the device are served exactly when
they are cached or the pool has a frame that is not pinned. -/
theorem served_iff (d : D) (capacity : Nat) (hc : 0 < capacity)
    (hdecode : ∀ b, b < blockCount d → ∃ page, decodeBlock (block d b) = .ok page) (ops : List Op)
    (hcommitted : (runOf d capacity hc ops).writes = (runOf d capacity hc ops).durable)
    (b : BlockId) (hb : b < blockCount d) :
    Served (runOf d capacity hc ops).engine b ↔
      ((runOf d capacity hc ops).engine.pool.find b).isSome ∨
        (runOf d capacity hc ops).engine.pool.frames.length < capacity ∨
        ∃ f ∈ (runOf d capacity hc ops).engine.pool.frames, ∀ n, f.state ≠ .pinned n := by
  have hinv := runOf_inv d capacity hc ops
  obtain ⟨hlisted, hsaved⟩ := tidy_runOf d capacity hc ops
  have hcapacity : (runOf d capacity hc ops).engine.pool.capacity = capacity :=
    capacity_run (s := Run.start (.new d capacity hc) []) rfl ops
  generalize runOf d capacity hc ops = s at *
  have hclean : ∀ (i : Nat) (f : Frame), s.engine.pool.frames[i]? = some f → f.state ≠ .dirty := by
    intro i f hf hdirty
    have hintent := hinv.pool.intent i f hf
    simp [hsaved hcommitted i f hf, needsFlush, hdirty] at hintent
  have hcontent : ∃ page, contentOf d s.writes b = .ok page := by
    rw [contentOf]
    cases latest s.writes b with
    | some page => exact ⟨page, rfl⟩
    | none => exact hdecode b hb
  obtain ⟨page, hpage⟩ := hcontent
  rw [← hinv.count] at hb
  have hread := hinv.pool.fetch_ok_iff hb hpage
  have hwrite := writePage_ok_iff hinv.pool hb hpage
  rw [hasRoom_iff hlisted hclean, hcapacity] at hread
  simp only [hasRoom_iff hlisted hclean, hcapacity] at hwrite
  constructor
  · rintro ⟨hok, _⟩
    exact hread.mp hok
  · intro hroom
    exact ⟨hread.mpr hroom, fun q => (hwrite q).mpr hroom⟩

/-- With one of two frames pinned, another block is served. -/
theorem served_iff_roomLeft :
    Served (runOf (InMemoryBlockDevice.new 4) 2 (by decide) [.read 1]).engine 0 := by
  obtain ⟨hframes, -⟩ := pool_after_read 4 Nat.two_pos (by decide : (1 : BlockId) < 4)
  rw [inUse] at hframes
  refine (served_iff (InMemoryBlockDevice.new 4) 2 (by decide)
    (fun _ hb => ⟨_, decodeBlock_new 4 hb⟩) [.read 1] rfl 0 (by decide)).mpr (.inr (.inl ?_))
  rw [hframes]
  decide

/-- One read takes the only frame of the pool for good: nothing was written,
and the other block of the device can no longer be read. -/
theorem not_served_after_read :
    (runOf (InMemoryBlockDevice.new 2) 1 (by decide) [.read 0]).writes =
        (runOf (InMemoryBlockDevice.new 2) 1 (by decide) [.read 0]).durable ∧
      ¬ Served (runOf (InMemoryBlockDevice.new 2) 1 (by decide) [.read 0]).engine 1 := by
  obtain ⟨hframes, hcapacity⟩ := pool_after_read 2 Nat.one_pos (by decide : (0 : BlockId) < 2)
  have hsteal := inUse_steal (InMemoryBlockDevice.new 2) 1 (by decide) [.read 0]
  refine ⟨rfl, fun hserved => ?_⟩
  rw [inUse] at hsteal hframes hcapacity
  generalize (runOf (InMemoryBlockDevice.new 2) 1 _ [.read 0]).engine = e at *
  have hfind : e.pool.find 1 = none := by
    rw [find, hframes]
    rfl
  have hfull : ¬ e.pool.HasRoom := by
    rintro (hfree | hlt | hvictim)
    · simp [hframes] at hfree
    · simp [hframes, hcapacity] at hlt
    · obtain ⟨idx, hidx⟩ := isSome_iff_exists.mp hvictim
      obtain ⟨f, hf, he⟩ := victim_some hidx
      rw [hframes] at hf
      obtain rfl := mem_singleton.mp (mem_of_getElem? hf)
      cases he
  obtain ⟨err, herr⟩ := (fetch_missing hsteal hfind).2 hfull
  obtain ⟨page, hpage⟩ := hserved.1
  simp [readPage, herr] at hpage

end StorageEngine

end Archon
