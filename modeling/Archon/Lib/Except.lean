/-!
# Archon.Lib.Except

Peeling fallible computations apart: when a bind, a map or an error
translation over `Except` succeeds.  With these a `do` block over `Except`
is taken to pieces with `obtain`, never by unfolding the monad.
-/

namespace Except

@[simp] theorem pure_eq_ok (a : α) : (pure a : Except ε α) = .ok a := rfl

@[simp] theorem ok_bind (a : α) (f : α → Except ε β) : (Except.ok a >>= f) = f a := rfl

@[simp] theorem error_bind (e : ε) (f : α → Except ε β) :
    ((Except.error e : Except ε α) >>= f) = .error e := rfl

theorem ok_ne_error (a : α) (e : ε) : (Except.ok a : Except ε α) ≠ .error e := by simp

theorem bind_ok (x : Except ε α) : (x >>= Except.ok) = x := by cases x <;> rfl

/-- A bind succeeds exactly when both of its halves do. -/
theorem bind_eq_ok {x : Except ε α} {f : α → Except ε β} {b : β} :
    (x >>= f) = .ok b ↔ ∃ a, x = .ok a ∧ f a = .ok b := by
  cases x with
  | error | ok => simp

end Except

/-- A bind that succeeds, in two pieces. -/
theorem Eq.bind_ok {x : Except ε α} {f : α → Except ε β} {b : β} (h : (x >>= f) = .ok b) :
    ∃ a, x = .ok a ∧ f a = .ok b := Except.bind_eq_ok.mp h

namespace Except

@[simp] theorem mapError_error (f : ε → ε') (e : ε) :
    (Except.error e : Except ε α).mapError f = .error (f e) := rfl

@[simp] theorem mapError_ok (f : ε → ε') (a : α) : (Except.ok a).mapError f = .ok a := rfl

variable {x : Except ε α} {a : α} {e : ε} {as : List α} {f : α → Except ε β} {bs : List β}
  {g : α → β}

/-- Translating errors does not change which computations succeed. -/
theorem mapError_eq_ok {f : ε → ε'} : x.mapError f = .ok a ↔ x = .ok a := by
  cases x with
  | error | ok => simp

/-- A guard that fails with an error lets the rest through exactly when its
condition is false. -/
theorem ite_error_eq_ok {p : Prop} [Decidable p] :
    (if p then .error e else x) = .ok a ↔ ¬ p ∧ x = .ok a := by
  by_cases hp : p <;> simp [hp]

/-- What every step of a fold keeps, the fold keeps. -/
theorem foldlM_keeps {f : σ → α → Except ε σ} {P : σ → Prop}
    (step : ∀ s a s', P s → f s a = .ok s' → P s') {s s' : σ} (hs : P s)
    (h : as.foldlM f s = .ok s') : P s' := by
  induction as generalizing s with
  | nil =>
    cases h
    exact hs
  | cons a as ih =>
    obtain ⟨s₁, h₁, h⟩ := h.bind_ok
    exact ih (step s a s₁ hs h₁) h

theorem mapM_congr {g : α → Except ε β} (h : ∀ a ∈ as, f a = g a) : as.mapM f = as.mapM g := by
  induction as with
  | nil => rfl
  | cons a as ih =>
    have htail : as.mapM f = as.mapM g := ih fun b hb => h b (.tail a hb)
    simp [h a (.head _), htail]

theorem mem_of_mapM_eq_ok (h : as.mapM f = .ok bs) : ∀ b ∈ bs, ∃ a ∈ as, f a = .ok b := by
  induction as generalizing bs with
  | nil =>
    cases h
    simp
  | cons a as ih =>
    rw [List.mapM_cons] at h
    obtain ⟨b, hb, h⟩ := h.bind_ok
    obtain ⟨bs', hbs, h⟩ := h.bind_ok
    cases h
    intro c hc
    rcases List.mem_cons.mp hc with rfl | hc
    · exact ⟨a, List.mem_cons_self, hb⟩
    · obtain ⟨x, hx, hfx⟩ := ih hbs c hc
      exact ⟨x, List.mem_cons_of_mem a hx, hfx⟩

theorem exists_mem_of_mapM_eq_ok (h : as.mapM f = .ok bs) : ∀ a ∈ as, ∃ b ∈ bs, f a = .ok b := by
  induction as generalizing bs with
  | nil => simp
  | cons a as ih =>
    rw [List.mapM_cons] at h
    obtain ⟨b, hb, h⟩ := h.bind_ok
    obtain ⟨bs', hbs, h⟩ := h.bind_ok
    cases h
    intro c hc
    rcases List.mem_cons.mp hc with rfl | hc
    · exact ⟨b, List.mem_cons_self, hb⟩
    · obtain ⟨y, hy, hfy⟩ := ih hbs c hc
      exact ⟨y, List.mem_cons_of_mem b hy, hfy⟩

theorem mapM_total (h : ∀ a ∈ as, ∃ b, f a = .ok b) : ∃ bs, as.mapM f = .ok bs := by
  induction as with
  | nil => exact ⟨[], rfl⟩
  | cons a as ih =>
    obtain ⟨b, hb⟩ := h a (.head _)
    obtain ⟨bs, hbs⟩ := ih fun c hc => h c (.tail a hc)
    simp [hb, hbs]

theorem mapM_of_ok (h : ∀ a ∈ as, f a = .ok (g a)) : as.mapM f = .ok (as.map g) := by
  induction as with
  | nil => rfl
  | cons a as ih =>
    rw [List.mapM_cons, h a (.head _), ih fun c hc => h c (.tail a hc)]
    rfl

/-- The results of a map are a function of the elements. -/
theorem exists_map_of_mapM_eq_ok [Inhabited β] (h : as.mapM f = .ok bs) :
    ∃ g : α → β, bs = as.map g ∧ ∀ a ∈ as, f a = .ok (g a) := by
  have hg : ∀ a ∈ as, f a = .ok ((f a).toOption.getD default) := by
    intro a ha
    obtain ⟨b, -, hb⟩ := exists_mem_of_mapM_eq_ok h a ha
    rw [hb]
    rfl
  have hmap := mapM_of_ok hg
  rw [h] at hmap
  exact ⟨_, Except.ok.inj hmap, hg⟩

theorem mapM_eq_ok_map_iff : as.mapM f = .ok (as.map g) ↔ ∀ a ∈ as, f a = .ok (g a) := by
  refine ⟨fun h => ?_, mapM_of_ok⟩
  induction as with
  | nil => simp
  | cons a as ih =>
    rw [List.mapM_cons] at h
    obtain ⟨b, hb, h⟩ := h.bind_ok
    obtain ⟨bs, hbs, h⟩ := h.bind_ok
    obtain ⟨rfl, rfl⟩ := List.cons.inj (Except.ok.inj h)
    exact List.forall_mem_cons.mpr ⟨hb, ih hbs⟩

/-- A map that does not look at its elements only counts them. -/
theorem mapM_const_congr {x : Except ε β} {as' : List α'} (h : as.length = as'.length) :
    as.mapM (fun _ => x) = as'.mapM (fun _ => x) := by
  induction as generalizing as' with
  | nil =>
    obtain rfl := List.eq_nil_of_length_eq_zero h.symm
    rfl
  | cons a as ih =>
    obtain ⟨a', as', rfl⟩ := List.exists_cons_of_length_eq_add_one h.symm
    simp [ih (by simpa using h)]

theorem length_of_mapM_eq_ok (h : as.mapM f = .ok bs) : bs.length = as.length := by
  induction as generalizing bs with
  | nil =>
    cases h
    rfl
  | cons a as ih =>
    rw [List.mapM_cons] at h
    obtain ⟨b, hb, h⟩ := h.bind_ok
    obtain ⟨bs', hbs, h⟩ := h.bind_ok
    cases h
    simp [ih hbs]

/-- The value of an option, or the given error (`ok_or`). -/
def okOr (o : Option α) (e : ε) : Except ε α :=
  match o with
  | some a => .ok a
  | none => .error e

theorem okOr_eq_ok {o : Option α} : okOr o e = .ok a ↔ o = some a := by
  cases o <;> simp [okOr]

end Except
