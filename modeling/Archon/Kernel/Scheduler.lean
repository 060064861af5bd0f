import Archon.Lib.RoundRobin
import Archon.Lib.Trace

/-!
# Archon.Kernel.Scheduler

The cooperative round-robin scheduler (`crates/tpt-archon-kernel/src/scheduler.rs`).

A task is whatever can be polled; what it shares with other tasks and with the
rest of the program is the world `ω`, which a poll may read and change.  Ids
are `u64` and wrap round.
-/

namespace Archon

inductive Poll where
  | pending
  | ready
  deriving DecidableEq, Repr

/-- A unit of schedulable work. -/
class Task (τ ω : Type) where
  poll : τ → ω → Poll × τ × ω

structure Scheduler.Entry (τ : Type) where
  id : Nat
  task : τ

structure Scheduler (τ : Type) where
  ready : List (Scheduler.Entry τ)
  nextId : Nat

namespace Scheduler

variable {τ ω : Type}

def new : Scheduler τ := ⟨[], 0⟩

def spawn (s : Scheduler τ) (task : τ) : Nat × Scheduler τ :=
  (s.nextId, ⟨s.ready ++ [⟨s.nextId, task⟩], (s.nextId + 1) % UInt64.size⟩)

variable [Task τ ω]

/-- Poll one task. -/
def tick (s : Scheduler τ) (w : ω) : Option (Nat × Poll) × Scheduler τ × ω :=
  match s.ready with
  | [] => (none, s, w)
  | entry :: rest =>
    let (result, task, w) := Task.poll entry.task w
    match result with
    | .pending => (some (entry.id, result), { s with ready := rest ++ [{ entry with task }] }, w)
    | .ready => (some (entry.id, result), { s with ready := rest }, w)

/-- The loop of `run_to_completion`; `none` if the fuel runs out before the
tasks do. -/
def runLoop : Nat → Nat → Scheduler τ → ω → Option (Nat × Scheduler τ × ω)
  | 0, _, _, _ => none
  | fuel + 1, ticks, s, w =>
    match s.tick w with
    | (none, s, w) => some (ticks, s, w)
    | (some _, s, w) => runLoop fuel ((ticks + 1) % UInt64.size) s w

/-- Run until every task completes; the number of ticks. -/
def runToCompletion (fuel : Nat) (s : Scheduler τ) (w : ω) : Option (Nat × Scheduler τ × ω) :=
  runLoop fuel 0 s w

/-- What the first `n` ticks return, while there are tasks. -/
def tickLog : Nat → Scheduler τ → ω → List (Nat × Poll)
  | 0, _, _ => []
  | n + 1, s, w =>
    match s.tick w with
    | (none, _, _) => []
    | (some polled, s, w) => polled :: tickLog n s w

/-- The ids of the scheduled tasks, the next to be polled first. -/
def ids (s : Scheduler τ) : List Nat := s.ready.map Entry.id

omit [Task τ ω] in
@[simp] theorem ids_spawn (s : Scheduler τ) (task : τ) :
    (s.spawn task).2.ids = s.ids ++ [s.nextId] := by
  simp [ids, spawn]

/-- One tick: nothing is scheduled, or the first task has its turn. -/
theorem tick_cases (s : Scheduler τ) (w : ω) :
    (s.ready = [] ∧ s.tick w = (none, s, w)) ∨
      ∃ entry rest task w', s.ready = entry :: rest ∧
        ((Task.poll entry.task w = (.pending, task, w') ∧ s.tick w =
            (some (entry.id, .pending), { s with ready := rest ++ [{ entry with task }] }, w')) ∨
          (Task.poll entry.task w = (.ready, task, w') ∧
            s.tick w = (some (entry.id, .ready), { s with ready := rest }, w'))) := by
  cases hready : s.ready with
  | nil => exact .inl ⟨rfl, by simp [tick, hready]⟩
  | cons entry rest =>
    right
    generalize hpoll : (Task.poll entry.task w : Poll × τ × ω) = out
    obtain ⟨result, task, w'⟩ := out
    refine ⟨entry, rest, task, w', rfl, ?_⟩
    cases result with
    | pending => exact .inl ⟨hpoll, by simp [tick, hready, hpoll]⟩
    | ready => exact .inr ⟨hpoll, by simp [tick, hready, hpoll]⟩

end Scheduler

/-! ## Runs -/

inductive SchedulerCall (τ ω : Type) where
  | spawn (task : τ)
  | tick
  /-- Whatever happens outside the scheduler. -/
  | outside (w : ω)

inductive SchedulerReply where
  | spawned (id : Nat)
  | ticked (polled : Option (Nat × Poll))
  | done
  deriving DecidableEq

abbrev SchedulerTrace (τ ω : Type) := List (SchedulerCall τ ω × SchedulerReply)

section

variable {τ ω : Type}

def Scheduler.step [Task τ ω] (s : Scheduler τ × ω) :
    SchedulerCall τ ω → Option (SchedulerReply × Scheduler τ × ω)
  | .spawn task =>
    let (id, scheduler) := s.1.spawn task
    some (.spawned id, scheduler, s.2)
  | .tick =>
    let (polled, next) := s.1.tick s.2
    some (.ticked polled, next)
  | .outside w => some (.done, s.1, w)

abbrev SchedulerRun [Task τ ω] (w : ω) : SchedulerTrace τ ω → Scheduler τ × ω → Prop :=
  TraceRun Scheduler.step (fun _ _ => True) (.new, w)

/-- What the result of a poll means for the queue. -/
def pollTurn (id : Nat) : Poll → Turn Nat
  | .pending => .stay id
  | .ready => .leave id

@[simp] theorem taken_pollTurn (id : Nat) (r : Poll) (turns : List (Turn Nat)) :
    Turn.taken (pollTurn id r :: turns) = id :: Turn.taken turns := by
  cases r <;> rfl

def turnOf : SchedulerReply → Option (Turn Nat)
  | .spawned id => some (.join id)
  | .ticked (some (id, r)) => some (pollTurn id r)
  | _ => none

def turnsOf (trace : SchedulerTrace τ ω) : List (Turn Nat) := trace.filterMap fun e => turnOf e.2

/-- The ids given out, in order. -/
def spawnedIds (trace : SchedulerTrace τ ω) : List Nat := Turn.joins (turnsOf trace)

/-- The ids of the tasks that have returned `Ready`. -/
def finishedIds (trace : SchedulerTrace τ ω) : List Nat := Turn.leaves (turnsOf trace)

/-- The ids polled, in order. -/
def polledIds (trace : SchedulerTrace τ ω) : List Nat := Turn.taken (turnsOf trace)

end

end Archon
