import Mathlib.Data.List.Induction

/-!
# Archon.Lib.Trace

Runs of a system that answers calls.  A run is the trace of its calls with
their replies, oldest first, and the state it has led to; a call may be
constrained by what the trace so far contains.
-/

namespace Archon

section

variable {σ κ ρ : Type} (step : σ → κ → Option (ρ × σ)) (allowed : List (κ × ρ) → κ → Prop)
  (init : σ)

/-- The runs from `init`.  A call that `step` does not answer ends the run. -/
inductive TraceRun : List (κ × ρ) → σ → Prop where
  | start : TraceRun [] init
  | call {trace : List (κ × ρ)} {s s' : σ} {c : κ} {r : ρ} : TraceRun trace s → allowed trace c →
      step s c = some (r, s') → TraceRun (trace ++ [(c, r)]) s'

/-- Make these calls one after the other. -/
def traceCalls [∀ trace c, Decidable (allowed trace c)] :
    List κ → List (κ × ρ) × σ → Option (List (κ × ρ) × σ)
  | [], run => some run
  | c :: calls, (trace, s) =>
    if allowed trace c then
      match step s c with
      | none => none
      | some (r, s') => traceCalls calls (trace ++ [(c, r)], s')
    else none

end

namespace TraceRun

variable {σ κ ρ : Type} {step : σ → κ → Option (ρ × σ)} {allowed : List (κ × ρ) → κ → Prop}
  {init : σ}

variable {trace : List (κ × ρ)}

/-- What every call keeps holds along every run. -/
theorem keeps {P : List (κ × ρ) → σ → Prop} (hinit : P [] init)
    (hcall : ∀ trace s c r s', P trace s → allowed trace c → step s c = some (r, s') →
      P (trace ++ [(c, r)]) s') {s : σ}
    (h : TraceRun step allowed init trace s) : P trace s := by
  induction h with
  | start => exact hinit
  | call _ hallowed hstep ih => exact hcall _ _ _ _ _ ih hallowed hstep

/-- The last call of a run. -/
theorem last {c : κ} {r : ρ} {s : σ} (h : TraceRun step allowed init (trace ++ [(c, r)]) s) :
    ∃ s₁, TraceRun step allowed init trace s₁ ∧ allowed trace c ∧ step s₁ c = some (r, s) := by
  generalize ht : trace ++ [(c, r)] = full at h
  cases h with
  | start => simp at ht
  | call hrun hallowed hstep =>
    obtain ⟨rfl, hlast⟩ := List.append_inj' ht rfl
    cases hlast
    exact ⟨_, hrun, hallowed, hstep⟩

/-- The run up to a call of the trace. -/
theorem upTo {pre post : List (κ × ρ)} {c : κ} {r : ρ} {s : σ}
    (h : TraceRun step allowed init (pre ++ (c, r) :: post) s) :
    ∃ s₁ s₂, TraceRun step allowed init pre s₁ ∧ allowed pre c ∧ step s₁ c = some (r, s₂) := by
  generalize ht : pre ++ (c, r) :: post = trace at h
  induction h generalizing post with
  | start => simp at ht
  | @call trace s s' c' r' hrun hallowed hstep ih =>
    -- the last call is the one looked for, or comes after it
    cases post using List.reverseRecOn with
    | nil =>
      obtain ⟨rfl, heq⟩ := List.append_inj' ht rfl
      cases heq
      exact ⟨s, s', hrun, hallowed, hstep⟩
    | append_singleton post e =>
      rw [← List.cons_append, ← List.append_assoc] at ht
      exact ih (List.append_inj' ht rfl).1

theorem of_traceCalls [∀ trace c, Decidable (allowed trace c)] {calls : List κ}
    {trace' : List (κ × ρ)} {s s' : σ} (h : TraceRun step allowed init trace s)
    (hcalls : traceCalls step allowed calls (trace, s) = some (trace', s')) :
    TraceRun step allowed init trace' s' := by
  induction calls generalizing trace s with
  | nil =>
    cases hcalls
    exact h
  | cons c calls ih =>
    unfold traceCalls at hcalls
    split at hcalls
    · next hallowed =>
      split at hcalls
      · cases hcalls
      · next r s₁ hstep => exact ih (h.call hallowed hstep) hcalls
    · cases hcalls

end TraceRun

section

variable {σ κ ρ : Type} (step : σ → κ → Option (ρ × σ)) (allowed : List (κ × ρ) → κ → Prop)
  (init : σ)

/-- A run with a computed property. -/
theorem exists_traceRun [∀ trace c, Decidable (allowed trace c)] (calls : List κ)
    (P : List (κ × ρ) × σ → Bool)
    (hcalls : (traceCalls step allowed calls ([], init)).any P = true) :
    ∃ trace s, TraceRun step allowed init trace s ∧ P (trace, s) = true := by
  cases hrun : traceCalls step allowed calls ([], init) with
  | none => simp [hrun] at hcalls
  | some run =>
    obtain ⟨trace, s⟩ := run
    rw [hrun] at hcalls
    exact ⟨trace, s, .of_traceCalls .start hrun, hcalls⟩

end

end Archon
