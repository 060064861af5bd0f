import Archon.Lib.Except

/-!
# Archon.Lib.Outcome

Results of calls that can return an error, panic, or exhaust the stack.
-/

namespace Archon

/-- What happens instead of a value: a returned error, a panic, or a
recursion deeper than the stack. -/
inductive Failure (ε : Type) where
  | err (e : ε)
  | panic
  | stackOverflow

abbrev Outcome (ε α : Type) := Except (Failure ε) α

namespace Outcome

def fail (e : ε) : Outcome ε α := .error (.err e)

def panicked : Outcome ε α := .error .panic

/-- `xs[i]`. -/
def index (xs : List α) (i : Nat) : Outcome ε α :=
  match xs[i]? with
  | some a => .ok a
  | none => panicked

/-- `xs[i] = a`. -/
def set (xs : List α) (i : Nat) (a : α) : Outcome ε (List α) :=
  if i < xs.length then .ok (xs.set i a) else panicked

/-- `o.expect(..)`. -/
def expect : Option α → Outcome ε α
  | some a => .ok a
  | none => panicked

/-- `o.ok_or(e)`. -/
def okOr (o : Option α) (e : ε) : Outcome ε α :=
  match o with
  | some a => .ok a
  | none => fail e

/-- `r.map_err(f)`. -/
def mapErr (f : ε → ε') : Outcome ε α → Outcome ε' α
  | .ok a => .ok a
  | .error (.err e) => .error (.err (f e))
  | .error .panic => .error .panic
  | .error .stackOverflow => .error .stackOverflow

theorem mapErr_bind (f : ε → ε') (x : Outcome ε α) (g : α → Outcome ε β) :
    mapErr f (x >>= g) = mapErr f x >>= fun a => mapErr f (g a) := by
  cases x with
  | ok a => rfl
  | error e => cases e <;> rfl

theorem mapErr_bind_congr {f : ε → ε'} {x : Outcome ε α} {y : Outcome ε' α} {g : α → Outcome ε β}
    {g' : α → Outcome ε' β} (hx : mapErr f x = y) (hg : ∀ a, mapErr f (g a) = g' a) :
    mapErr f (x >>= g) = y >>= g' := by
  rw [mapErr_bind, hx, funext hg]

theorem mapErr_index (f : ε → ε') (xs : List α) (i : Nat) : mapErr f (index xs i) = index xs i := by
  unfold index
  cases xs[i]? <;> rfl

/-! ## When a call returns a value -/

variable {o : Option α} {e : ε} {a : α} {xs ys : List α} {i : Nat}

theorem okOr_eq_ok : okOr o e = .ok a ↔ o = some a := by
  cases o <;> simp [okOr, fail]

theorem expect_eq_ok : (expect o : Outcome ε α) = .ok a ↔ o = some a := by
  cases o <;> simp [expect, panicked]

theorem index_eq_ok : (index xs i : Outcome ε α) = .ok a ↔ xs[i]? = some a := by
  cases h : xs[i]? <;> simp [index, panicked, h]

theorem index_congr {j : Nat} (h : xs[i]? = ys[j]?) : (index xs i : Outcome ε α) = index ys j := by
  unfold index
  rw [h]

theorem set_eq_ok :
    (set xs i a : Outcome ε (List α)) = .ok ys ↔ i < xs.length ∧ xs.set i a = ys := by
  by_cases h : i < xs.length <;> simp [set, panicked, h]

@[simp] theorem fail_ne_ok : (fail e : Outcome ε α) ≠ .ok a := by
  simp [fail]

variable {f : α → Outcome ε β}

/-- A check that fails lets the rest through exactly when it passes. -/
theorem unless_eq_ok {p : Prop} [Decidable p] {x : Outcome ε β} {b : β} :
    (if p then fail e >>= f else x) = .ok b ↔ ¬ p ∧ x = .ok b := by
  by_cases hp : p <;> simp [hp, fail]

/-! ## What can be computed of a result -/

instance decidableExistsOk {r : Except ε α} {P : α → Prop} [DecidablePred P] :
    Decidable (∃ a, r = .ok a ∧ P a) :=
  match r with
  | .ok a => decidable_of_iff (P a) (by simp)
  | .error _ => isFalse (by simp)

instance decidableIsOk {r : Except ε α} : Decidable (∃ a, r = .ok a) :=
  match r with
  | .ok a => isTrue ⟨a, rfl⟩
  | .error _ => isFalse (by simp)

instance decidableIsErr {r : Outcome ε α} : Decidable (∃ e, r = .error (.err e)) :=
  match r with
  | .error (.err e) => isTrue ⟨e, rfl⟩
  | .error .panic | .error .stackOverflow | .ok _ => isFalse (by simp)

instance decidableExistsSome {o : Option α} {P : α → Prop} [DecidablePred P] :
    Decidable (∃ a, o = some a ∧ P a) :=
  match o with
  | some a => decidable_of_iff (P a) (by simp)
  | none => isFalse (by simp)

/-! ## Calls that fail -/

/-- The call returns no value. -/
def Fails (r : Outcome ε α) : Prop := ∀ a, r ≠ .ok a

variable {r : Outcome ε α}

theorem fails_iff : Fails r ↔ ¬ ∃ a, r = .ok a := not_exists.symm

/-- Two calls fail alike if they return alike. -/
theorem fails_congr {s : Outcome ε' β} (h : (∃ a, r = .ok a) ↔ ∃ b, s = .ok b) :
    Fails r ↔ Fails s := by
  rw [fails_iff, fails_iff, h]

/-- A call that returns when two others do fails when one of them does. -/
theorem fails_or {s : Outcome ε' β} {t : Outcome ε'' γ}
    (h : (∃ a, r = .ok a) ↔ (∃ b, s = .ok b) ∧ ∃ c, t = .ok c) : Fails r ↔ Fails s ∨ Fails t := by
  rw [fails_iff, fails_iff, fails_iff, h]
  exact Classical.not_and_iff_not_or_not

/-! ## Calls that return no error -/

/-- The call returns no error: it returns a value, panics or overflows. -/
def NoErr (r : Outcome ε α) : Prop := ∀ e, r ≠ .error (.err e)

theorem noErr_ok (a : α) : NoErr (.ok a : Outcome ε α) := fun _ h => by cases h

theorem noErr_panicked : NoErr (panicked : Outcome ε α) := fun _ h => by cases h

theorem noErr_bind {x : Outcome ε α} (hx : NoErr x) (hf : ∀ a, x = .ok a → NoErr (f a)) :
    NoErr (x >>= f) := by
  cases x with
  | ok a => exact hf a rfl
  | error e =>
    intro e' h
    cases h
    exact hx e' rfl

theorem noErr_expect (o : Option α) : NoErr (expect o : Outcome ε α) := by
  cases o <;> exact fun _ h => by cases h

theorem noErr_index (xs : List α) (i : Nat) : NoErr (index xs i : Outcome ε α) := by
  unfold index
  split
  · exact noErr_ok _
  · exact noErr_panicked

theorem noErr_mapM {as : List α} (h : ∀ a ∈ as, NoErr (f a)) : NoErr (as.mapM f) := by
  induction as with
  | nil => exact noErr_ok _
  | cons a as ih =>
    rw [List.mapM_cons]
    refine noErr_bind (h a (.head _)) fun b _ => ?_
    refine noErr_bind (ih fun c hc => h c (.tail a hc)) fun bs _ => ?_
    exact noErr_ok _

end Outcome

end Archon
