import Archon.Kernel.Scheduler
import Mathlib.Data.List.Range
import Mathlib.Data.List.Infix
import Mathlib.Algebra.BigOperators.Group.List.Basic
import Mathlib.Algebra.GroupWithZero.Nat

/-!
# Archon.Kernel.Fairness

Every run of the scheduler is a run of a round-robin queue (`SchedulerRun.rotates`),
so its tasks are polled in turn for as long as their ids are different; and
`run_to_completion` ends after exactly the polls its tasks ask for.

Both are limited by the counters: the ids repeat after 2^64 spawns, and the
count of ticks wraps round.
-/

namespace Archon

open List Function

section

variable {τ ω : Type}

theorem turnsOf_concat (trace : SchedulerTrace τ ω) (e : SchedulerCall τ ω × SchedulerReply) :
    turnsOf (trace ++ [e]) = turnsOf trace ++ (turnOf e.2).toList := by
  unfold turnsOf
  cases h : turnOf e.2 <;> simp [h]

theorem turnsOf_ticked (c : SchedulerCall τ ω) (id : Nat) (r : Poll) (trace : SchedulerTrace τ ω) :
    turnsOf ((c, .ticked (some (id, r))) :: trace) = pollTurn id r :: turnsOf trace := rfl

theorem turnsOf_append (trace trace' : SchedulerTrace τ ω) :
    turnsOf (trace ++ trace') = turnsOf trace ++ turnsOf trace' := filterMap_append ..

variable [Task τ ω]

variable {s : Scheduler τ × ω} {trace : SchedulerTrace τ ω} {w : ω}

section

variable (h : SchedulerRun w trace s)
include h

/-- The queue goes through the turns of the replies. -/
theorem SchedulerRun.rotates : Rotates [] (turnsOf trace) s.1.ids := by
  refine TraceRun.keeps (P := fun trace s => Rotates [] (turnsOf trace) s.1.ids) (.done _) ?_ h
  intro trace s c r s' hrotates _ hstep
  rw [turnsOf_concat]
  cases c with
  | spawn task =>
    cases hstep
    have hids := s.1.ids_spawn task
    exact hrotates.append (.join _ (hids ▸ .done _))
  | outside w =>
    cases hstep
    exact hrotates.append (.done _)
  | tick =>
    obtain ⟨hready, htick⟩ | ⟨entry, rest, task, w', hready, ⟨-, htick⟩ | ⟨-, htick⟩⟩ :=
      s.1.tick_cases s.2
    all_goals
      simp only [Scheduler.step, htick] at hstep
      obtain ⟨rfl, rfl⟩ := hstep
      refine hrotates.append ?_
      simp [Scheduler.ids, hready]
    · exact .done _
    · exact .stay _ (.done _)
    · exact .leave _ (.done _)

/-- The ids count up, and wrap round. -/
theorem SchedulerRun.spawnedIds_eq :
    spawnedIds trace = (List.range (spawnedIds trace).length).map (· % UInt64.size) ∧
      s.1.nextId = (spawnedIds trace).length % UInt64.size := by
  refine TraceRun.keeps (P := fun trace s =>
    spawnedIds trace = (List.range (spawnedIds trace).length).map (· % UInt64.size) ∧
      s.1.nextId = (spawnedIds trace).length % UInt64.size) ⟨rfl, rfl⟩ ?_ h
  intro trace s c r s' hinv _ hstep
  have hjoins : spawnedIds (trace ++ [(c, r)]) =
      spawnedIds trace ++ Turn.joins (turnOf r).toList := by
    simp [spawnedIds, turnsOf_concat, Turn.joins_append]
  cases c with
  | spawn task =>
    cases hstep
    obtain ⟨hids, hnext⟩ := hinv
    rw [hjoins]
    simp [turnOf, Turn.joins, range_succ, hnext, ← hids]
  | outside w =>
    cases hstep
    rw [hjoins]
    simpa [turnOf, Turn.joins] using hinv
  | tick =>
    obtain ⟨-, htick⟩ | ⟨entry, rest, task, w', -, ⟨-, htick⟩ | ⟨-, htick⟩⟩ :=
      s.1.tick_cases s.2
    all_goals
      simp only [Scheduler.step, htick] at hstep
      obtain ⟨rfl, rfl⟩ := hstep
      rw [hjoins]
      simpa [turnOf, pollTurn, Turn.joins] using hinv

/-- The ids are unique until the counter wraps round. -/
theorem SchedulerRun.nodup_iff :
    (spawnedIds trace).Nodup ↔ (spawnedIds trace).length ≤ UInt64.size := by
  have heq := h.spawnedIds_eq.1
  constructor
  · intro hnodup
    have hsub : spawnedIds trace ⊆ List.range UInt64.size := fun id hid => by
      rw [heq] at hid
      obtain ⟨n, -, rfl⟩ := mem_map.mp hid
      exact mem_range.mpr (Nat.mod_lt _ (by decide))
    simpa using (subperm_of_subset hnodup hsub).length_le
  · intro hlength
    rw [heq]
    refine List.Nodup.map_on (fun m hm n hn hmod => ?_) nodup_range
    grind

end

/-- What a task is, as far as polls do not change it. -/
def KeptByPolls (τ ω : Type) [Task τ ω] {β : Type} (tag : τ → β) : Prop :=
  ∀ (task : τ) (w : ω), tag (Task.poll task w).2.1 = tag task

/-- A scheduled task is the one that was spawned under its id. -/
theorem SchedulerRun.tasks (h : SchedulerRun w trace s) {β : Type} {tag : τ → β}
    (htag : KeptByPolls τ ω tag) :
    ∀ e ∈ s.1.ready, ∃ task, (.spawn task, .spawned e.id) ∈ trace ∧ tag e.task = tag task := by
  refine TraceRun.keeps (P := fun trace s => ∀ e ∈ s.1.ready,
    ∃ task, (.spawn task, .spawned e.id) ∈ trace ∧ tag e.task = tag task)
    (fun e he => (by cases he)) ?_ h
  intro trace s c r s' hinv _ hstep
  have hold : ∀ e ∈ s.1.ready,
      ∃ task, (.spawn task, .spawned e.id) ∈ trace ++ [(c, r)] ∧ tag e.task = tag task := by
    intro e he
    obtain ⟨task, hmem, heq⟩ := hinv e he
    exact ⟨task, mem_append_left _ hmem, heq⟩
  cases c with
  | spawn task =>
    cases hstep
    intro e he
    obtain he | rfl := by simpa [Scheduler.spawn] using he
    · exact hold e he
    · simp
  | outside w =>
    cases hstep
    exact hold
  | tick =>
    obtain ⟨-, htick⟩ | ⟨entry, rest, task, w', hready, ⟨hpoll, htick⟩ | ⟨-, htick⟩⟩ :=
      s.1.tick_cases s.2
    all_goals
      simp only [Scheduler.step, htick] at hstep
      obtain ⟨rfl, rfl⟩ := hstep
    · exact hold
    · intro e he
      rw [hready] at hold
      obtain he | rfl := by simpa using he
      · exact hold e (.tail _ he)
      · obtain ⟨spawned, hmem, heq⟩ := hold entry (.head _)
        have hkept := htag entry.task s.2
        rw [hpoll] at hkept
        exact ⟨spawned, hmem, hkept.trans heq⟩
    · intro e he
      rw [hready] at hold
      exact hold e (.tail _ he)

/-- What is asked of a run of spawns and ticks. -/
structure Fair (trace : SchedulerTrace τ ω) (s : Scheduler τ) : Prop where
  idsUnique : (spawnedIds trace).Nodup
  /-- No task is lost or duplicated. -/
  scheduled : s.ids.Perm ((spawnedIds trace).filter fun id => id ∉ finishedIds trace)
  tasks : ∀ {β : Type} (tag : τ → β), KeptByPolls τ ω tag → ∀ e ∈ s.ready,
    ∃ task, (.spawn task, .spawned e.id) ∈ trace ∧ tag e.task = tag task
  /-- No task is polled after returning `Ready`. -/
  neverAgain : ∀ pre post c id r, trace = pre ++ (c, .ticked (some (id, r))) :: post →
    id ∉ finishedIds pre
  /-- Between two consecutive polls of a task. -/
  inTurn : ∀ pre mid post c c' id r r',
    trace = pre ++ (c, .ticked (some (id, r))) :: (mid ++ (c', .ticked (some (id, r'))) :: post) →
    id ∉ polledIds mid → ∀ other ∈ spawnedIds pre, other ∉ finishedIds pre → other ≠ id →
      (polledIds mid).count other = 1

/-- Once `Ready`, never polled. -/
theorem SchedulerRun.not_polled_of_finished {pre post : SchedulerTrace τ ω}
    (h : SchedulerRun w (pre ++ post) s) (hnodup : (spawnedIds (pre ++ post)).Nodup) {id : Nat}
    (hid : id ∈ finishedIds pre) : id ∉ polledIds post := by
  obtain ⟨ts, us, hts⟩ := append_of_mem (Turn.mem_leaves.mp hid)
  have hrotates := h.rotates
  rw [spawnedIds] at hnodup
  rw [turnsOf_append, hts, append_assoc, cons_append] at hrotates hnodup
  have hafter := hrotates.not_taken_after_leave hnodup
  rw [Turn.taken_append] at hafter
  exact fun hpost => hafter (mem_append_right _ hpost)

theorem SchedulerRun.fair (h : SchedulerRun w trace s) (hnodup : (spawnedIds trace).Nodup) :
    Fair trace s.1 where
  idsUnique := hnodup
  scheduled := h.rotates.perm hnodup
  tasks := fun tag htag => h.tasks htag
  neverAgain := by
    rintro pre post c id r rfl hid
    refine h.not_polled_of_finished hnodup hid ?_
    simp [polledIds, turnsOf_ticked]
  inTurn := by
    rintro pre mid post c c' id r r' rfl hmid other hspawned hfinished hne
    have hsecond : id ∈ polledIds (mid ++ (c', .ticked (some (id, r'))) :: post) := by
      simp [polledIds, turnsOf_append, turnsOf_ticked, Turn.taken_append]
    cases r with
    | ready =>
      -- a finished task has no second poll
      have hid : id ∈ finishedIds (pre ++ [(c, .ticked (some (id, .ready)))]) := by
        simp [finishedIds, turnsOf_concat, Turn.leaves_append, turnOf, pollTurn, Turn.leaves]
      rw [append_cons] at h hnodup
      exact absurd hsecond (h.not_polled_of_finished hnodup hid)
    | pending =>
      have hrotates := h.rotates
      rw [spawnedIds, turnsOf_append, Turn.joins_append] at hnodup
      rw [turnsOf_append, turnsOf_ticked, turnsOf_append] at hrotates
      obtain ⟨q, hpre, hpost⟩ := hrotates.split
      have hq := hpre.perm (nodup_append.mp hnodup).1
      cases hpost with
      | @stay waiting _ _ _ hrest =>
        have hwaiting : (id :: waiting).Nodup := hpre.nodup (nodup_append.mp hnodup).1
        have hround := Rotates.between_turns (.stay id hrest) (by simp [Turn.taken])
          (nodup_cons.mp hwaiting).1 hmid
        have hother : other ∈ id :: waiting :=
          hq.mem_iff.mpr (mem_filter.mpr ⟨hspawned, decide_eq_true hfinished⟩)
        show (Turn.taken (turnsOf mid)).count other = 1
        rw [hround]
        exact count_eq_one_of_mem (nodup_cons.mp hwaiting).2
          ((mem_cons.mp hother).resolve_left hne)

/-! ## Running to completion -/

/-- What the polls of one task return. -/
def resultsOf (id : Nat) (log : List (Nat × Poll)) : List Poll :=
  (log.filter fun polled => polled.1 = id).map Prod.snd

namespace Scheduler

/-- The polls the tasks ask for, if task `i` is `Pending` `p i` times. -/
def work (s : Scheduler τ) (p : Nat → Nat) : Nat := (s.ready.map fun e => p e.id + 1).sum

/-- However long it is run, task `i` returns `Pending` `p i` times and then
`Ready`. -/
def PendsThenReady (s : Scheduler τ) (w : ω) (p : Nat → Nat) : Prop :=
  ∀ n, ∀ e ∈ s.ready, resultsOf e.id (s.tickLog n w) <+: List.replicate (p e.id)
    .pending ++ [.ready]

/-- `run_to_completion` returns, with enough fuel: it has polled every task
once more than it was `Pending`, and counted the polls. -/
def Completes (s : Scheduler τ) (w : ω) (p : Nat → Nat) : Prop :=
  ∀ fuel, s.work p < fuel → ∃ s' w', s.runToCompletion fuel w = some (s.work p, s', w') ∧
    s'.ready = [] ∧ ∀ e ∈ s.ready, (resultsOf e.id (s.tickLog fuel w)).length = p e.id + 1

variable {s : Scheduler τ} {w : ω} {p : Nat → Nat}

theorem resultsOf_tickLog_of_not_mem {id : Nat} (hid : id ∉ s.ids) (n : Nat) :
    resultsOf id (s.tickLog n w) = [] := by
  induction n generalizing s w with
  | zero => rfl
  | succ n ih =>
    obtain ⟨-, htick⟩ | ⟨entry, rest, task, w', hready, ⟨-, htick⟩ | ⟨-, htick⟩⟩ :=
      s.tick_cases w
    · simp [tickLog, htick, resultsOf]
    · have hne : id ≠ entry.id ∧ ∀ e ∈ rest, e.id ≠ id := by simpa [ids, hready] using hid
      have hrest := ih (s := { s with ready := rest ++ [{ entry with task }] }) (w := w')
        (by simpa [ids] using ⟨hne.2, hne.1⟩)
      simpa [tickLog, htick, resultsOf, hne.1.symm] using hrest
    · have hne : id ≠ entry.id ∧ ∀ e ∈ rest, e.id ≠ id := by simpa [ids, hready] using hid
      have hrest := ih (s := { s with ready := rest }) (w := w') (by simpa [ids] using hne.2)
      simpa [tickLog, htick, resultsOf, hne.1.symm] using hrest

variable {rest : List (Entry τ)}

variable {entry : Entry τ}

omit [Task τ ω] in
theorem ne_of_ids_nodup (hnodup : s.ids.Nodup) (hready : s.ready = entry :: rest) {e : Entry τ}
    (he : e ∈ rest) : e.id ≠ entry.id := by
  simp only [ids, hready, map_cons, nodup_cons] at hnodup
  exact fun heq => hnodup.1 (heq ▸ mem_map_of_mem he)

section

variable (h : s.PendsThenReady w p) (hnodup : s.ids.Nodup) (hready : s.ready = entry :: rest)
include h hnodup hready

/-- A task that has been `Pending` has one such poll less to come. -/
theorem PendsThenReady.pending {task : τ} {w' : ω} (htick : s.tick w =
      (some (entry.id, .pending), { s with ready := rest ++ [{ entry with task }] }, w')) :
    ∃ k, p entry.id = k + 1 ∧
      PendsThenReady { s with ready := rest ++ [{ entry with task }] } w'
        (update p entry.id k) := by
  have hfirst := h 1 entry (by simp [hready])
  have hlog : ∀ n, s.tickLog (n + 1) w = (entry.id, .pending) ::
      tickLog n { s with ready := rest ++ [{ entry with task }] } w' := fun n => by
    simp [tickLog, htick]
  cases hp : p entry.id with
  | zero => simp [htick, resultsOf, tickLog, hp] at hfirst
  | succ k =>
    refine ⟨k, rfl, fun n e he => ?_⟩
    obtain he | rfl := by simpa using he
    · have hne := ne_of_ids_nodup hnodup hready he
      have hnext := h (n + 1) e (by simp [hready, he])
      simpa [hlog, resultsOf, hne, hne.symm] using hnext
    · have hnext := h (n + 1) entry (by simp [hready])
      simpa [hlog, resultsOf, hp, replicate_succ] using hnext

/-- A task that has been `Ready` was to be polled once. -/
theorem PendsThenReady.ready {w' : ω}
    (htick : s.tick w = (some (entry.id, .ready), { s with ready := rest }, w')) :
    p entry.id = 0 ∧ PendsThenReady { s with ready := rest } w' p := by
  have hfirst := h 1 entry (by simp [hready])
  have hlog : ∀ n, s.tickLog (n + 1) w =
      (entry.id, .ready) :: tickLog n { s with ready := rest } w' := fun n => by
    simp [tickLog, htick]
  refine ⟨?_, fun n e he => ?_⟩
  · cases hp : p entry.id with
    | zero => rfl
    | succ k => simp [htick, resultsOf, tickLog, hp, replicate_succ] at hfirst
  · have hne := ne_of_ids_nodup hnodup hready he
    have hnext := h (n + 1) e (by simp [hready, he])
    simpa [hlog, resultsOf, hne.symm] using hnext

end

/-- The loop makes exactly the polls the tasks ask for. -/
theorem runLoop_completes {total : Nat} (hnodup : s.ids.Nodup) (h : s.PendsThenReady w p)
    (htotal : s.work p = total) (ticks : Nat) (hticks : ticks < UInt64.size) {fuel : Nat}
    (hfuel : total < fuel) :
    ∃ s' w', runLoop fuel ticks s w = some ((ticks + total) % UInt64.size, s', w') ∧
      s'.ready = [] ∧ ∀ e ∈ s.ready, (resultsOf e.id (s.tickLog fuel w)).length = p e.id + 1 := by
  induction fuel generalizing s w p ticks total with
  | zero => omega
  | succ fuel ih =>
    obtain ⟨hready, htick⟩ | ⟨entry, rest, task, w', hready, ⟨-, htick⟩ | ⟨-, htick⟩⟩ :=
      s.tick_cases w
    · have hzero : total = 0 := by simpa [work, hready] using htotal.symm
      refine ⟨s, w, ?_, hready, by simp [hready]⟩
      simp [runLoop, htick, hzero, Nat.mod_eq_of_lt hticks]
    · obtain ⟨k, hp, hnext⟩ := h.pending hnodup hready htick
      have hmove : (rest.map Entry.id ++ [entry.id]).Perm (entry.id :: rest.map Entry.id) :=
        perm_append_singleton _ _
      have hnodup' : (ids { s with ready := rest ++ [{ entry with task }] }).Nodup := by
        simpa [ids] using hmove.nodup_iff.mpr (by simpa [ids, hready] using hnodup)
      have hothers : ∀ e ∈ rest, update p entry.id k e.id = p e.id := fun e he =>
        update_of_ne (ne_of_ids_nodup hnodup hready he) _ _
      have hwork : work { s with ready := rest ++ [{ entry with task }] }
          (update p entry.id k) + 1 = total := by
        have hrest : (rest.map fun e => update p entry.id k e.id + 1) =
            rest.map fun e => p e.id + 1 := map_congr_left fun e he => by rw [hothers e he]
        simp only [work, hready, map_cons, sum_cons] at htotal
        simp only [work, map_append, map_cons, map_nil, sum_append,
          sum_cons, sum_nil, hrest, update_self]
        omega
      obtain ⟨s', w'', hrun, hempty, hcount⟩ := ih hnodup' hnext rfl _
        (Nat.mod_lt (ticks + 1) (by decide)) (by omega)
      refine ⟨s', w'', ?_, hempty, fun e he => ?_⟩
      · simp [runLoop, htick, hrun, Nat.add_assoc, Nat.add_comm 1, hwork]
      · obtain rfl | he := by simpa [hready] using he
        · have hlast := hcount { e with task } (by simp)
          simpa [tickLog, htick, resultsOf, hp] using hlast
        · have hne := ne_of_ids_nodup hnodup hready he
          have hlast := hcount e (by simp [he])
          simpa [tickLog, htick, resultsOf, hne, hne.symm] using hlast
    · obtain ⟨hp, hnext⟩ := h.ready hnodup hready htick
      have hids : entry.id ∉ rest.map Entry.id ∧ (rest.map Entry.id).Nodup := by
        simpa [ids, hready] using hnodup
      have hwork : work { s with ready := rest } p + 1 = total := by
        simp only [work, hready, map_cons, sum_cons] at htotal
        simp only [work]
        omega
      obtain ⟨s', w'', hrun, hempty, hcount⟩ := ih (s := { s with ready := rest }) hids.2 hnext rfl
        _ (Nat.mod_lt (ticks + 1) (by decide)) (by omega)
      refine ⟨s', w'', ?_, hempty, fun e he => ?_⟩
      · simp [runLoop, htick, hrun, Nat.add_assoc, Nat.add_comm 1, hwork]
      · obtain rfl | he := by simpa [hready] using he
        · have hgone := resultsOf_tickLog_of_not_mem (s := { s with ready := rest }) (w := w')
            hids.1 fuel
          simp only [resultsOf] at hgone
          simp [tickLog, htick, resultsOf, hp, hgone]
        · have hne := ne_of_ids_nodup hnodup hready he
          have hlast := hcount e he
          simpa [tickLog, htick, resultsOf, hne.symm] using hlast

end Scheduler

/-- In every run the tasks take turns exactly while the ids do not repeat, and
then `run_to_completion` makes and counts the polls the tasks ask for exactly
if their number fits the counter. -/
theorem scheduler_fair_iff {w₀ : ω} {trace : SchedulerTrace τ ω} {s : Scheduler τ} {w : ω}
    (h : SchedulerRun w₀ trace (s, w)) :
    (Fair trace s ↔ (spawnedIds trace).length ≤ UInt64.size) ∧
      ((spawnedIds trace).length ≤ UInt64.size → ∀ p, s.PendsThenReady w p →
        (s.Completes w p ↔ s.work p < UInt64.size)) := by
  refine ⟨⟨fun hfair => h.nodup_iff.mp hfair.idsUnique,
    fun hlength => h.fair (h.nodup_iff.mpr hlength)⟩, fun hlength p hp => ?_⟩
  have hnodup : s.ids.Nodup := h.rotates.nodup (h.nodup_iff.mpr hlength)
  constructor
  · intro hcompletes
    obtain ⟨s₁, w₁, hrun, -⟩ := hcompletes (s.work p + 1) (Nat.lt_succ_self _)
    obtain ⟨s₂, w₂, hrun', -⟩ := Scheduler.runLoop_completes hnodup hp rfl 0 (by decide)
      (Nat.lt_succ_self _)
    have hcount := Option.some.inj (hrun.symm.trans hrun')
    rw [Prod.mk.injEq] at hcount
    rw [hcount.1]
    exact Nat.mod_lt _ (by decide)
  · intro hwork fuel hfuel
    obtain ⟨s', w', hrun, hdone⟩ := Scheduler.runLoop_completes hnodup hp rfl 0 (by decide)
      hfuel
    rw [Nat.zero_add, Nat.mod_eq_of_lt hwork] at hrun
    exact ⟨s', w', hrun, hdone⟩

end

/-- The task of the scheduler's tests: it writes its id to a shared log, and
is ready when it has counted down. -/
structure CountdownTask where
  remaining : Nat
  id : Nat

instance : Task CountdownTask (List Nat) where
  poll task log :=
    if task.remaining = 0 then (.ready, task, log ++ [task.id])
    else (.pending, { task with remaining := task.remaining - 1 }, log ++ [task.id])

/-- Two tasks, one of them polled once. -/
def countdownScheduler : Scheduler CountdownTask := ⟨[⟨1, ⟨0, 1⟩⟩, ⟨0, ⟨0, 0⟩⟩], 2⟩

theorem countdownScheduler_pendsThenReady (log : List Nat) :
    countdownScheduler.PendsThenReady log fun _ => 0 := by
  have hlog : ∀ n, countdownScheduler.tickLog (n + 2) log = [(1, .ready), (0, .ready)] := by
    intro n
    cases n <;> rfl
  intro n e he
  obtain rfl | rfl : e = ⟨1, ⟨0, 1⟩⟩ ∨ e = ⟨0, ⟨0, 0⟩⟩ := by simpa [countdownScheduler] using he
  all_goals
    obtain _ | _ | n := n
    · exact nil_prefix
    · rw [show countdownScheduler.tickLog 1 log = [(1, .ready)] from rfl]
      decide
    · rw [hlog]
      rfl

theorem scheduler_fair_countdown : ∃ trace : SchedulerTrace CountdownTask (List Nat),
    Fair trace countdownScheduler ∧ countdownScheduler.Completes [0] fun _ => 0 := by
  have hrun : SchedulerRun ([] : List Nat)
      [(.spawn ⟨1, 0⟩, .spawned 0), (.spawn ⟨0, 1⟩, .spawned 1),
        (.tick, .ticked (some (0, .pending)))]
      (countdownScheduler, [0]) :=
    .call (.call (.call .start trivial rfl) trivial rfl) trivial rfl
  have hfair := scheduler_fair_iff hrun
  exact ⟨_, hfair.1.mpr (by decide),
    (hfair.2 (by decide) _ (countdownScheduler_pendsThenReady _)).mpr (by decide)⟩

/-- A task that is ready at once, or never. -/
instance : Task Bool Unit where
  poll done w := (if done then .ready else .pending, done, w)

/-- Any number of tasks can come and go while the first one waits: a round
spawns a task and polls both, so at most two are scheduled at a time. -/
theorem exists_rounds (n : Nat) : ∃ trace : SchedulerTrace Bool Unit,
    SchedulerRun () trace (⟨[⟨0, false⟩], (n + 1) % UInt64.size⟩, ()) := by
  induction n with
  | zero => exact ⟨_, .call .start (c := .spawn false) trivial rfl⟩
  | succ n ih =>
    obtain ⟨trace, hrun⟩ := ih
    have hspawn := hrun.call (c := .spawn true) trivial rfl
    have hwaits := hspawn.call (c := .tick) trivial rfl
    have hdone := hwaits.call (c := .tick) trivial rfl
    rw [Nat.mod_add_mod] at hdone
    exact ⟨_, hdone⟩

/-- After 2^64 - 1 rounds the next task gets the id of the one that waits. -/
theorem spawned_ids_repeat :
    ∃ (trace : SchedulerTrace Bool Unit) (s : Scheduler Bool × Unit),
      SchedulerRun () trace s ∧ s.1.ids = [0, 0] ∧ ¬ Fair trace s.1 := by
  obtain ⟨trace, hrun⟩ := exists_rounds (UInt64.size - 1)
  have hspawn := hrun.call (c := .spawn true) trivial rfl
  refine ⟨_, _, hspawn, rfl, fun hfair => ?_⟩
  have hnodup : [0, 0].Nodup := (SchedulerRun.rotates hspawn).nodup hfair.idsUnique
  simp at hnodup

end Archon
