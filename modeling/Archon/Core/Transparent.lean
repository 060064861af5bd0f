import Archon.Core.Pool
import Archon.Core.PoolShape
import Archon.Lib.Trace

/-!
# Archon.Core.Transparent

The buffer pool is a cache nobody can see: over a device without errors its
replies are those of a plain array of pages (`stored`), with or without
stealing and whatever is evicted when.

A pool that steals is coherent when the same pool without stealing is
(`Coherent`), so the lemmas of `Archon.Core.Pool` apply.
-/

namespace Archon

open BufferPool

variable {D : Type} [BlockDevice D] [ErrorFree D]

/-- The pool caches `content`, whether it steals or not. -/
def Coherent (p : BufferPool D) (content : Contents) : Prop :=
  PoolInv p.noSteal content fun _ => True

variable {p : BufferPool D}

omit [BlockDevice D] [ErrorFree D] in
/-- Only the frame at `idx` matters. -/
theorem modifyFrame_congr {idx : Nat} {f : Frame} (hf : p.frames[idx]? = some f)
    {g g' : Frame → Frame} (h : g f = g' f) : p.modifyFrame idx g = p.modifyFrame idx g' := by
  have hframes : p.frames.modify idx g = p.frames.modify idx g' := by
    apply List.ext_getElem?
    intro i
    simp only [List.getElem?_modify]
    by_cases hi : idx = i
    · subst hi
      simp [hf, h]
    · simp [hi]
  rw [modifyFrame, modifyFrame, hframes]

namespace Coherent

variable {p : BufferPool D} {content : Contents}

theorem new (d : D) (capacity : Nat) (hc : 0 < capacity) (steal : Bool) :
    Coherent { BufferPool.new d capacity hc with steal } fun b => decodeBlock (block d b) :=
  PoolInv.new d capacity hc

theorem reserve (h : Coherent p content) (b : BlockId) :
    Coherent (p.reserve b).2 content ∧ blockCount (p.reserve b).2.device = blockCount p.device := by
  obtain ⟨_, _, hr⟩ | ⟨_, _, hacquire, _⟩ := reserve_spec p b
  · rw [hr]
    exact ⟨h, rfl⟩
  · exact PoolInv.acquire h hacquire

/-! ## Calls -/

/-- What a call with a page reply guarantees. -/
structure Served (p : BufferPool D) (content content' : Contents)
    (b : BlockId) (r : Except StorageError Page) (p' : BufferPool D) : Prop where
  coherent : Coherent p' content'
  count : blockCount p'.device = blockCount p.device
  page : ∀ page, r = .ok page → content b = .ok page

theorem fetch (h : Coherent p content) {b : BlockId} (hb : b < blockCount p.device) :
    Served p content content b (p.fetch b).1 (p.fetch b).2 := by
  have hpin := pin_spec p b
  rw [fetch_eq]
  generalize p.pin b = r at hpin
  obtain ⟨e | idx, p'⟩ := r
  · exact ⟨(PoolInv.pinning h hpin).1, (PoolInv.pinning h hpin).2, by simp [Except.map]⟩
  · obtain ⟨hinv, hcount⟩ := PoolInv.pinning h hpin
    obtain ⟨f, n, hf, rfl, _⟩ := hpin.frame
    refine ⟨hinv, hcount, ?_⟩
    rintro page ⟨⟩
    rw [pageAt_eq hf]
    exact hinv.page idx f hf (hcount ▸ hb)

/-- A modification through `fetch_mut`, as the abstract store sees it. -/
def modified (content : Contents) (b : BlockId) (modify : Page → Page) :
    Contents :=
  Function.update content b ((content b).map modify)

theorem modifyPage (h : Coherent p content) {b : BlockId} (hb : b < blockCount p.device)
    (modify : Page → Page) :
    (∃ e, (p.modifyPage b modify).1 = .error e ∧
      Served p content content b (.error e) (p.modifyPage b modify).2) ∨
    (∃ page, (p.modifyPage b modify).1 = .ok page ∧
      Served p content (modified content b modify) b (.ok page) (p.modifyPage b modify).2) := by
  have hpin := pin_spec p b
  rw [BufferPool.modifyPage, BufferPool.fetchMut]
  generalize p.pin b = r at hpin
  obtain ⟨e | idx, p'⟩ := r
  · exact .inl ⟨e, rfl, (PoolInv.pinning h hpin).1, (PoolInv.pinning h hpin).2, by simp⟩
  · obtain ⟨hinv, hcount⟩ := PoolInv.pinning h hpin
    obtain ⟨f, n, hf, hid, hs⟩ := hpin.frame
    have hpage : content b = .ok f.page := hid ▸ hinv.page idx f hf (hcount ▸ hid ▸ hb)
    have hmarked : (p'.markDirtyPinned idx).frames[idx]? = some { f with dirtyIntent := true } :=
      getElem?_modifyFrame_self hf _
    have hfound : (p'.markDirtyPinned idx).pageAt idx = f.page := by rw [pageAt_eq hmarked]
    have hstage := PoolInv.stage hinv hf hid hs (hcount ▸ hb) (modify f.page)
    have hframes : (p'.markDirtyPinned idx).modifyFrame idx (fun f =>
        { f with page := modify f.page })
        = p'.modifyFrame idx fun q => { q with dirtyIntent := true, page := modify f.page } := by
      rw [markDirtyPinned, modifyFrame_modifyFrame]
      exact modifyFrame_congr hf rfl
    have hstore : modified content b modify = PoolInv.update content b (modify f.page) := by
      funext c
      simp [modified, PoolInv.update, Function.update_apply, hpage, Except.map]
    refine .inr ⟨f.page, congrArg Except.ok hfound, ?_, hcount, by simp [hpage]⟩
    show Coherent ((p'.markDirtyPinned idx).modifyFrame idx _) _
    rw [hframes, hstore]
    simp only [or_true] at hstage
    exact hstage

theorem unpin (h : Coherent p content) (b : BlockId) :
    Coherent (p.unpin b) content ∧ blockCount (p.unpin b).device = blockCount p.device := by
  have hcommute : p.noSteal.unpin b = (p.unpin b).noSteal := by
    have hfind : p.noSteal.find b = p.find b := rfl
    rw [BufferPool.unpin, BufferPool.unpin, hfind]
    cases p.find b <;> rfl
  have hinv := PoolInv.unpin h b
  rw [hcommute] at hinv
  exact ⟨hinv, by rw [unpin_device]⟩

/-! ### Flushing does not depend on stealing -/

omit [ErrorFree D] in
theorem flushFrame_noSteal (p : BufferPool D) (idx : Nat) :
    p.noSteal.flushFrame idx = ((p.flushFrame idx).1, (p.flushFrame idx).2.noSteal) := by
  have hframe : p.noSteal.frames[idx]? = p.frames[idx]? := rfl
  rw [flushFrame, flushFrame, hframe]
  cases p.frames[idx]? with
  | none => rfl
  | some f =>
    have hdevice : p.noSteal.device = p.device := rfl
    simp only [hdevice]
    cases needsFlush f with
    | false => rfl
    | true =>
      simp only [if_true]
      rcases BlockDevice.writeBlock p.device f.blockId (encodePageBlock f.page) with ⟨_ | _, _⟩
        <;> rfl

omit [ErrorFree D] in
theorem flushLoop_noSteal (p : BufferPool D) (k : Nat) :
    p.noSteal.flushLoop k = ((p.flushLoop k).1, (p.flushLoop k).2.noSteal) := by
  induction k with
  | zero => rfl
  | succ k ih =>
    rw [flushLoop, ih, flushLoop]
    rcases p.flushLoop k with ⟨_ | _, p'⟩
    · rfl
    · exact flushFrame_noSteal p' k

omit [ErrorFree D] in
theorem flushAll_noSteal (p : BufferPool D) :
    p.noSteal.flushAll = (p.flushAll.1, p.flushAll.2.noSteal) := by
  have hloop := flushLoop_noSteal p p.frames.length
  have hlength : p.noSteal.frames.length = p.frames.length := rfl
  rw [flushAll, flushAll, hlength, hloop]
  rcases p.flushLoop p.frames.length with ⟨_ | _, p'⟩ <;> rfl

theorem flushAll (h : Coherent p content) :
    p.flushAll.1 = .ok () ∧ Coherent p.flushAll.2 content ∧
      blockCount p.flushAll.2.device = blockCount p.device ∧
      ∀ b, b < blockCount p.flushAll.2.device →
        decodeBlock (block p.flushAll.2.device b) = content b := by
  obtain ⟨_, p', hp', hflush, hdevice⟩ := PoolInv.flushAll h
  rw [flushAll_noSteal] at hp'
  have hok := (congrArg Prod.fst hp').trans (ErrorFree.sync_ok _)
  obtain rfl : p.flushAll.2.noSteal = p' := congrArg Prod.snd hp'
  exact ⟨hok, hflush.inv, hflush.count, fun b hb => (hdevice b hb).symm⟩

end Coherent

/-! ## Runs -/

/-- The calls of a cache's user, on blocks of a device of `n` blocks. -/
def PoolCall.Within (n : UInt64) : PoolCall D → Prop
  | .fetch b | .fetchMut b _ | .reserve b | .unpin b => b < n
  | .flushAll => True
  | .noSteal | .deviceMut _ => False

/-- What a call does to a plain array of pages. -/
def storeCall (content : Contents) :
    PoolCall D × PoolReply → Contents
  | (.fetchMut b modify, .page (.ok _)) => Coherent.modified content b modify
  | _ => content

/-- The pages a plain array holds after these calls. -/
def stored (d : D) (trace : List (PoolCall D × PoolReply)) : Contents :=
  trace.foldl storeCall fun b => decodeBlock (block d b)

theorem stored_concat (d : D) (trace : List (PoolCall D × PoolReply)) (c : PoolCall D × PoolReply) :
    stored d (trace ++ [c]) = storeCall (stored d trace) c := by
  simp [stored]

/-- Runs of a pool over `d`. -/
abbrev PoolRun (d : D) (capacity : Nat) (hc : 0 < capacity) (steal : Bool) :
    List (PoolCall D × PoolReply) → BufferPool D → Prop :=
  TraceRun (fun p c => some (p.call c)) (fun _ c => c.Within (blockCount d))
    { BufferPool.new d capacity hc with steal }

/-- What one call guarantees. -/
structure Answered (p : BufferPool D) (content : Contents)
    (call : PoolCall D) : Prop where
  coherent : Coherent (p.call call).2 (storeCall content (call, (p.call call).1))
  count : blockCount (p.call call).2.device = blockCount p.device
  page : ∀ b page, call.block? = some b → (p.call call).1 = .page (.ok page) → content b = .ok page

theorem Coherent.call {content : Contents} (h : Coherent p content) {call : PoolCall D}
    (hcall : call.Within (blockCount p.device)) : Answered p content call := by
  cases call with
  | fetch b =>
    have hserved := h.fetch hcall
    refine ⟨hserved.coherent, hserved.count, ?_⟩
    intro c page hc hpage
    cases hc
    exact hserved.page page (PoolReply.page.inj hpage)
  | fetchMut b modify =>
    obtain ⟨e, he, hserved⟩ | ⟨page, hpage, hserved⟩ := h.modifyPage hcall modify
    · have hreply : (p.call (.fetchMut b modify)).1 = .page (.error e) := congrArg _ he
      refine ⟨?_, hserved.count, by simp [hreply]⟩
      rw [hreply]
      exact hserved.coherent
    · have hreply : (p.call (.fetchMut b modify)).1 = .page (.ok page) := congrArg _ hpage
      refine ⟨?_, hserved.count, ?_⟩
      · rw [hreply]
        exact hserved.coherent
      · intro c page' hc hpage'
        cases hc
        rw [hreply] at hpage'
        cases hpage'
        exact hserved.page page rfl
  | reserve b => exact ⟨(h.reserve b).1, (h.reserve b).2, fun _ _ _ hr => by cases hr⟩
  | unpin b => exact ⟨(h.unpin b).1, (h.unpin b).2, fun _ _ _ hr => by cases hr⟩
  | flushAll => exact ⟨h.flushAll.2.1, h.flushAll.2.2.1, by simp [PoolCall.block?]⟩
  | noSteal | deviceMut => exact hcall.elim

variable {d : D} {capacity : Nat} {hc : 0 < capacity} {steal : Bool}

theorem PoolRun.coherent {trace : List (PoolCall D × PoolReply)}
    (h : PoolRun d capacity hc steal trace p) :
    Coherent p (stored d trace) ∧ blockCount p.device = blockCount d := by
  induction h with
  | start => exact ⟨.new d capacity hc steal, rfl⟩
  | call _ hallowed hstep ih =>
    obtain ⟨hcoherent, hcount⟩ := ih
    obtain ⟨rfl, rfl⟩ := Prod.mk.inj (Option.some.inj hstep)
    have hans := hcoherent.call (hcount.symm ▸ hallowed)
    rw [stored_concat]
    exact ⟨hans.coherent, hans.count.trans hcount⟩

/-- Every page served is the one the plain array holds, and a flush leaves
that array on the device. -/
theorem pool_transparent {trace : List (PoolCall D × PoolReply)} {p : BufferPool D}
    (h : PoolRun d capacity hc steal trace p) :
    (∀ pre call page post b, trace = pre ++ (call, .page (.ok page)) :: post →
      call.block? = some b → stored d pre b = .ok page) ∧
    (∀ pre, trace = pre ++ [(.flushAll, .done (.ok ()))] → ∀ b, b < blockCount p.device →
      decodeBlock (block p.device b) = stored d trace b) := by
  constructor
  · rintro pre call page post b rfl hb
    obtain ⟨p₁, p₂, hrun, hallowed, hstep⟩ := h.upTo
    obtain ⟨hcoherent, hcount⟩ := PoolRun.coherent hrun
    have hans := hcoherent.call (hcount.symm ▸ hallowed)
    exact hans.page b page hb (congrArg Prod.fst (Option.some.inj hstep))
  · rintro pre rfl
    obtain ⟨p₁, hrun, _, hstep⟩ := h.last
    obtain ⟨hcoherent, hcount⟩ := PoolRun.coherent hrun
    obtain rfl : p₁.flushAll.2 = p := congrArg Prod.snd (Option.some.inj hstep)
    rw [stored_concat]
    exact hcoherent.flushAll.2.2.2

/-- A pool of one frame over two blocks: one block is modified and evicted for
the other, which is modified and flushed. -/
theorem pool_transparent_twoBlocks : ∃ trace p,
    PoolRun (InMemoryBlockDevice.new 2) 1 (by decide) true trace p ∧ trace.length = 4 ∧
      (∀ pre call page post b, trace = pre ++ (call, .page (.ok page)) :: post →
        call.block? = some b → stored (InMemoryBlockDevice.new 2) pre b = .ok page) ∧
      ∀ b, b < blockCount p.device →
        decodeBlock (block p.device b) = stored (InMemoryBlockDevice.new 2) trace b := by
  have hmodify : PoolRun (InMemoryBlockDevice.new 2) 1 (by decide) true _ _ :=
    TraceRun.start.call (c := .fetchMut 1 fun _ =>
      ⟨List.replicate PAGE_SIZE 1, List.length_replicate⟩)
      (by show (1 : UInt64) < 2; decide) rfl
  have hunpin : PoolRun (InMemoryBlockDevice.new 2) 1 (by decide) true _ _ :=
    hmodify.call (c := .unpin 1) (by show (1 : UInt64) < 2; decide) rfl
  obtain ⟨trace, p, hevict, hlength⟩ : ∃ trace p,
      PoolRun (InMemoryBlockDevice.new 2) 1 (by decide) true trace p ∧ trace.length = 3 :=
    ⟨_, _, hunpin.call (c := .fetchMut 0 fun _ => .zeroed)
      (by show (0 : UInt64) < 2; decide) rfl, rfl⟩
  have hflush : p.call .flushAll = (.done (.ok ()), p.flushAll.2) :=
    congrArg (fun r => (PoolReply.done r, _)) (PoolRun.coherent hevict).1.flushAll.1
  have hrun : PoolRun (InMemoryBlockDevice.new 2) 1 (by decide) true _ _ :=
    hevict.call (c := .flushAll) (by exact trivial) (congrArg some hflush)
  obtain ⟨hserved, hflushed⟩ := pool_transparent hrun
  exact ⟨_, _, hrun, by simp [hlength], hserved, hflushed _ rfl⟩

end Archon
