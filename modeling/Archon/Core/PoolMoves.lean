import Mathlib.Logic.Relation
import Archon.Core.RefusedWrite

/-!
# Archon.Core.PoolMoves

The pool of a storage engine, one change at a time.

`PoolMove w` lists every single change an engine makes to its pool, `w` being
the block whose page a call stages; each call is a chain of them (`PoolMoves`).
What an engine keeps true is then shown once per kind of change.  The module
also says what a fetch returns (`fetch_missing`).
-/

namespace Archon

open BufferPool

variable {w : Option BlockId}

variable {D : Type} [BlockDevice D]
variable {p p' : BufferPool D} {x : Except StorageError Nat × BufferPool D}

/-- A single change of a pool that does not steal. -/
inductive PoolMove (w : Option BlockId) (p : BufferPool D) : BufferPool D → Prop where
  | push : p.frames.length < p.capacity →
      PoolMove w p { p with frames := p.frames ++ [⟨BLOCK_ID_MAX, .zeroed, .free, false⟩] }
  | free (idx : Nat) (f : Frame) : p.frames[idx]? = some f → evictable false f.state = true →
      PoolMove w p
        { p.modifyFrame idx (fun f => { f with state := .free, dirtyIntent := false }) with
        lru := p.lru.erase idx }
  | load (idx : Nat) (f : Frame) (b : BlockId) (bytes : Bytes) (page : Page) :
      p.frames[idx]? = some f → f.state = .free →
      readBlock p.device b (List.replicate BLOCK_SIZE 0) = .ok bytes → decodeBlock bytes =
        .ok page →
      PoolMove w p ((p.modifyFrame idx fun _ => ⟨b, page, .pinned 1, false⟩).touch idx)
  | pin (idx : Nat) (f : Frame) : p.frames[idx]? = some f →
      PoolMove w p ((p.pinFrame idx).touch idx)
  | stage (idx : Nat) (f : Frame) (page : Page) : p.frames[idx]? = some f → w = some f.blockId →
      PoolMove w p (p.modifyFrame idx fun f => { f with dirtyIntent := true, page := page })
  | unpin (idx : Nat) (f : Frame) : p.frames[idx]? = some f →
      PoolMove w p (p.modifyFrame idx fun f => { f with state := unpinned f })
  | flush (idx : Nat) (f : Frame) (device : D) : p.frames[idx]? = some f → needsFlush f = true →
      writeBlock p.device f.blockId (encodePageBlock f.page) = (.ok (), device) →
      PoolMove w p { p.modifyFrame idx flushed with device }
  /-- A flush that the device refuses. -/
  | refused (idx : Nat) (f : Frame) (e : StorageError) (device : D) :
      p.frames[idx]? = some f →
      writeBlock p.device f.blockId (encodePageBlock f.page) = (.error e, device) →
      PoolMove w p { p with device }
  | sync : PoolMove w p { p with device := (sync p.device).2 }

/-- A change that stages nothing is one of any call. -/
theorem PoolMove.mono (h : PoolMove none p p') (w : Option BlockId) : PoolMove w p p' := by
  cases h with
  | push hlt => exact .push hlt
  | free idx f hf he => exact .free idx f hf he
  | load idx f b bytes page hf hfree hread hdecode =>
    exact .load idx f b bytes page hf hfree hread hdecode
  | pin idx f hf => exact .pin idx f hf
  | stage idx f page hf hblock => cases hblock
  | unpin idx f hf => exact .unpin idx f hf
  | flush idx f device hf hflush hwrite => exact .flush idx f device hf hflush hwrite
  | refused idx f e device hf hwrite => exact .refused idx f e device hf hwrite
  | sync => exact .sync

/-- A chain of changes. -/
abbrev PoolMoves (w : Option BlockId) : BufferPool D → BufferPool D → Prop :=
  Relation.ReflTransGen (PoolMove w)

/-- What every change keeps, every chain keeps. -/
theorem PoolMoves.keeps (h : PoolMoves w p p') (inv : BufferPool D → Prop)
    (hstep : ∀ {q q'}, inv q → PoolMove w q q' → inv q') (hp : inv p) : inv p' := by
  induction h with
  | refl => exact hp
  | tail _ hmove ih => exact hstep ih hmove

theorem PoolMoves.mono (h : PoolMoves none p p') (w : Option BlockId) :
    PoolMoves w p p' := Relation.ReflTransGen.mono (fun _ _ hmove => hmove.mono w) _ _ h

theorem PoolMoves.capacity (h : PoolMoves w p p') : p'.capacity = p.capacity := by
  refine h.keeps (fun q => q.capacity = p.capacity) ?_ rfl
  intro q q' hq hmove
  cases hmove <;> exact hq

theorem PoolMoves.steal (h : PoolMoves w p p') (hp : p.steal = false) : p'.steal = false := by
  refine h.keeps (fun q => q.steal = false) ?_ hp
  intro q q' hq hmove
  cases hmove <;> exact hq

/-! ## Calls are chains -/

section

variable {p : BufferPool D} (hsteal : p.steal = false) (w : Option BlockId)
include hsteal

theorem moves_acquire (h : Acquire p x) : PoolMoves w p x.2 := by
  cases h with
  | pushed hroom => exact .single (.push hroom)
  | freed idx f device _ hf he hw =>
    cases (writeBack_noSteal hf he hsteal).symm.trans hw
    exact .single (.free idx f hf (hsteal ▸ he))
  | refused idx f e device hf he hw => cases (writeBack_noSteal hf he hsteal).symm.trans hw
  | _ => exact .refl

theorem moves_reserve (b : BlockId) : PoolMoves w p (p.reserve b).2 := by
  obtain ⟨_, _, hr⟩ | ⟨_, _, hacquire, _⟩ := reserve_spec p b
  · rw [hr]
  · exact moves_acquire hsteal w hacquire

theorem moves_pin {b : BlockId} (h : Pinning p b x) : PoolMoves w p x.2 := by
  cases h with
  | hit idx f _ hf _ => exact .single (.pin idx f hf)
  | failed _ _ _ _ hacquire _ =>
    have hmoves := moves_acquire hsteal w hacquire
    exact hmoves
  | loaded idx f p' bytes page _ hacquire hf hfree hread hdecode =>
    exact (moves_acquire hsteal w hacquire).tail (.load idx f b bytes page hf hfree hread hdecode)

theorem moves_fetch (b : BlockId) : PoolMoves w p (p.fetch b).2 := by
  rw [fetch_eq]
  exact moves_pin hsteal w (pin_spec p b)

end

theorem moves_unpin (w : Option BlockId) (p : BufferPool D) (b : BlockId) :
    PoolMoves w p (p.unpin b) := by
  rw [unpin]
  cases hfind : p.find b with
  | none => exact .refl
  | some idx =>
    obtain ⟨f, hf, _⟩ := find_some hfind
    exact .single (.unpin idx f hf)

theorem moves_flushAll (w : Option BlockId) (p : BufferPool D) : PoolMoves w p p.flushAll.2 := by
  refine flushAll_keeps (PoolMoves w p) (fun hmoves hflush => ?_) (fun hmoves => hmoves.tail .sync)
    .refl
  cases hflush with
  | idle => exact hmoves
  | written idx f device hf hflush hw => exact hmoves.tail (.flush idx f device hf hflush hw)
  | refused idx f e device hf hw => exact hmoves.tail (.refused idx f e device hf hw)

namespace StorageEngine

variable {e : StorageEngine D}

theorem moves_readPage (hsteal : e.pool.steal = false) (w : Option BlockId) (b : BlockId) :
    PoolMoves w e.pool (e.readPage b).2.pool := moves_fetch hsteal w b

/-- A write that fails stages nothing. -/
theorem moves_writePage (hsteal : e.pool.steal = false) (b : BlockId) (page : Bytes) :
    PoolMoves (if (e.writePage b page).1 = .ok () then some b else none) e.pool
      (e.writePage b page).2.pool := by
  rw [writePage]
  split
  · next hsize =>
    split
    · exact .refl
    · have hreserve (w) := moves_reserve hsteal w b
      generalize e.pool.reserve b = r at hreserve
      obtain ⟨_ | _, p⟩ := r
      · exact hreserve _
      · dsimp only at hreserve ⊢
        have hsteal' := (hreserve none).steal hsteal
        have hpin := pin_spec p b
        have hfetch := fetchMut.eq_1 p b
        generalize p.pin b = r at hpin hfetch
        obtain ⟨_ | idx, p'⟩ := r
        · simp [hfetch, (hreserve _).trans (moves_pin hsteal' _ hpin)]
        · simp only [hfetch]
          have hmoves := moves_pin hsteal' (some b) hpin
          obtain ⟨f, _, hf, hid, _⟩ := hpin.frame
          rw [markDirtyPinned, modifyFrame_modifyFrame]
          have hstage := PoolMove.stage (w := some b) idx f ⟨page, hsize⟩ hf (by rw [hid])
          exact (((hreserve _).trans hmoves).tail hstage).trans (moves_unpin _ _ b)
  · exact .refl

theorem moves_commitDurable (e : StorageEngine D) (w : Option BlockId)
    (persist : Bytes → σ → Except StorageError Unit × σ) (s : σ) :
    PoolMoves w e.pool (e.commitDurable persist s).2.1.pool := by
  rw [commitDurable]
  generalize persist e.appendCommit.wal.bytes s = r
  obtain ⟨_ | _, s'⟩ := r
  · exact .refl
  · exact moves_flushAll w e.pool

end StorageEngine

/-! ## Fetching a block -/

/-- A resident page is returned as the pool holds it. -/
theorem fetch_resident {b : BlockId} {idx : Nat} (hfind : p.find b = some idx) :
    (p.fetch b).1 = .ok (p.pageAt idx) := by
  obtain ⟨f, hf, _⟩ := find_some hfind
  have hpinned : (p.pinFrame idx).frames[idx]? = some { f with state := repinned f } :=
    getElem?_modifyFrame_self hf _
  have hpage : ((p.pinFrame idx).touch idx).pageAt idx = p.pageAt idx :=
    (pageAt_eq hpinned).trans (pageAt_eq hf).symm
  rw [fetch, pin, hfind]
  exact congrArg Except.ok hpage

/-- A missing page is returned as the device holds it, when there is room. -/
theorem fetch_missing (hsteal : p.steal = false) {b : BlockId} (hfind : p.find b = none) :
    (p.HasRoom → (p.fetch b).1 = readBlock p.device b (List.replicate BLOCK_SIZE 0) >>=
      decodeBlock) ∧
      (¬ p.HasRoom → ∃ e, (p.fetch b).1 = .error e) := by
  have hpin := pin_spec p b
  rw [fetch_eq]
  generalize p.pin b = r at hpin
  cases hpin with
  | hit idx f hsome _ _ => simp [hfind] at hsome
  | failed r p' e _ hacquire hr =>
    refine ⟨fun hroom => ?_, fun _ => ⟨e, rfl⟩⟩
    obtain ⟨idx, rfl⟩ := (hacquire.ok_iff hsteal).mpr hroom
    obtain hr | ⟨_, hr⟩ := hr
    · cases hr
    · rw [← hacquire.quiet hsteal, hr]
      rfl
  | loaded idx f p' bytes page _ hacquire hf _ hread hdecode =>
    refine ⟨fun _ => ?_, fun hfull => absurd ((hacquire.ok_iff hsteal).mp ⟨idx, rfl⟩) hfull⟩
    rw [← hacquire.quiet hsteal, hread]
    exact (congrArg Except.ok (pageAt_eq (getElem?_modifyFrame_self hf _))).trans hdecode.symm

end Archon
