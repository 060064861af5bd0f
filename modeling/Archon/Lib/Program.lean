import Archon.Lib.Outcome

/-!
# Archon.Lib.Program

Programs over a state that can fail: the outcome, and the state reached,
which an error keeps.  A panic or a stack overflow ends everything, so the
rules speak of programs that return.

* `Keeps` says what a program that returns can have done to the state;
* `Sim` says that two programs answer alike and keep their states related.
-/

namespace Archon

/-- The call came back, with a value or an error. -/
def Outcome.Returns : Outcome ε α → Prop
  | .ok _ => True
  | .error (.err _) => True
  | .error _ => False

instance (r : Outcome ε α) : Decidable r.Returns :=
  match r with
  | .ok _ => .isTrue trivial
  | .error (.err _) => .isTrue trivial
  | .error .panic => .isFalse id
  | .error .stackOverflow => .isFalse id

namespace Outcome

theorem returns_ok (a : α) : Returns (.ok a : Outcome ε α) := trivial

theorem returns_okOr (o : Option α) (e : ε) : (okOr o e).Returns := by
  cases o <;> trivial

variable {x : Outcome ε α} {f : α → Outcome ε β} {as : List α}

theorem returns_bind (hx : x.Returns) (hf : ∀ a, x = .ok a → (f a).Returns) :
    (x >>= f).Returns := by
  rcases x with (e | _ | _) | a
  · trivial
  · exact hx.elim
  · exact hx.elim
  · exact hf a rfl

theorem returns_of_bind (h : (x >>= f).Returns) : x.Returns := by
  rcases x with (e | _ | _) | a
  · trivial
  · exact h
  · exact h
  · trivial

theorem returns_mapM (h : ∀ a ∈ as, (f a).Returns) : (as.mapM f).Returns := by
  induction as with
  | nil => trivial
  | cons a as ih =>
    rw [List.mapM_cons]
    refine returns_bind (h a (.head _)) fun b _ => ?_
    refine returns_bind (ih fun c hc => h c (.tail a hc)) fun bs _ => ?_
    exact returns_ok _

/-- A map returns exactly when the first call that has no value does. -/
theorem returns_mapM_iff :
    (as.mapM f).Returns ↔ ∀ pre a post, as = pre ++ a :: post →
      (∀ x ∈ pre, ∃ b, f x = .ok b) → (f a).Returns := by
  induction as with
  | nil => simp [Returns]
  | cons a as ih =>
    rw [List.mapM_cons]
    constructor
    · intro h pre c post hsplit hpre
      cases pre with
      | nil =>
        obtain ⟨rfl, rfl⟩ := List.cons.inj hsplit
        exact returns_of_bind h
      | cons x pre =>
        obtain ⟨rfl, rfl⟩ := List.cons.inj hsplit
        obtain ⟨⟨b, hb⟩, hpre⟩ := List.forall_mem_cons.mp hpre
        rw [hb] at h
        exact ih.mp (returns_of_bind h) pre c post rfl hpre
    · intro h
      refine returns_bind (h [] a as rfl (by simp)) fun b hb => ?_
      refine returns_bind (ih.mpr fun pre c post hsplit hpre => ?_) fun bs _ => returns_ok _
      refine h (a :: pre) c post (by rw [hsplit, List.cons_append]) ?_
      exact List.forall_mem_cons.mpr ⟨⟨b, hb⟩, hpre⟩

end Outcome

/-- A computation over a state. -/
def Program (ε σ α : Type) : Type := σ → Outcome ε α × σ

namespace Program

instance : Monad (Program ε σ) where
  pure a := fun s => (.ok a, s)
  bind m f := fun s =>
    match m s with
    | (.ok a, s') => f a s'
    | (.error e, s') => (.error e, s')

/-- Look at the state. -/
def read (f : σ → Outcome ε α) : Program ε σ α := fun s => (f s, s)

/-- Replace the state, or fail and leave it. -/
def update (f : σ → Outcome ε σ) : Program ε σ Unit := fun s =>
  match f s with
  | .ok s' => (.ok (), s')
  | .error e => (.error e, s)

/-- Run `body` on each element; the first failure ends the loop. -/
def forEach (body : α → Program ε σ Unit) : List α → Program ε σ Unit
  | [] => pure ()
  | a :: as => do
    body a
    forEach body as

theorem pure_run (a : α) (s : σ) : (pure a : Program ε σ α) s = (.ok a, s) := rfl

theorem bind_run (m : Program ε σ α) (f : α → Program ε σ β) (s : σ) :
    (m >>= f) s =
      match m s with
      | (.ok a, s') => f a s'
      | (.error e, s') => (.error e, s') := rfl

/-! ## Programs that succeed -/

variable {s t : σ} {pre : σ → Prop} {as : List α} {m : Program ε σ α} {f : α → Program ε σ β}

theorem bind_ok {u : σ} {b : β} :
    (m >>= f) s = (.ok b, u) ↔ ∃ a t, m s = (.ok a, t) ∧ f a t = (.ok b, u) := by
  rw [bind_run]
  generalize m s = r
  obtain ⟨_ | a, t⟩ := r
  · simp
  · constructor
    · exact fun h => ⟨a, t, rfl, h⟩
    · rintro ⟨a', t', heq, h⟩
      cases heq
      exact h

theorem read_ok {f : σ → Outcome ε α} {a : α} : read f s = (.ok a, t) ↔ f s = .ok a ∧ s = t := by
  simp [read]

theorem update_ok {f : σ → Outcome ε σ} {a : Unit} : update f s = (.ok a, t) ↔ f s = .ok t := by
  unfold update
  cases f s <;> simp

/-! ## What a program does to the state -/

/-- Started in a state with `pre`, a program that returns has moved the state
along `rel`, and a value it returns satisfies `post`. -/
def Keeps (rel : σ → σ → Prop) (pre : σ → Prop) (m : Program ε σ α) (post : α → σ → Prop) : Prop :=
  ∀ s, pre s → (m s).1.Returns → rel s (m s).2 ∧ ∀ a, (m s).1 = .ok a → post a (m s).2

section Keeps

variable {rel : σ → σ → Prop} {pre : σ → Prop}

theorem keeps_pure {post : α → σ → Prop} {a : α} (h : ∀ s, pre s → rel s s ∧ post a s) :
    Keeps (ε := ε) rel pre (pure a) post := by
  intro s hs _
  refine ⟨(h s hs).1, fun b hb => ?_⟩
  cases hb
  exact (h s hs).2

theorem keeps_read (hrefl : ∀ s, pre s → rel s s) (f : σ → Outcome ε α) :
    Keeps rel pre (read f) fun a s => pre s ∧ f s = .ok a :=
  fun s hs _ => ⟨hrefl s hs, fun _ ha => ⟨hs, ha⟩⟩

theorem keeps_update (hrefl : ∀ s, pre s → rel s s) {f : σ → Outcome ε σ} {post : σ → Prop}
    (h : ∀ s s', pre s → f s = .ok s' → rel s s' ∧ post s') :
    Keeps rel pre (update f) fun _ => post := by
  intro s hs _
  unfold update
  cases hf : f s with
  | ok s' => exact ⟨(h s s' hs hf).1, fun _ _ => (h s s' hs hf).2⟩
  | error e => exact ⟨hrefl s hs, fun _ ha => by cases ha⟩

/-- Sequencing: the second program starts where the first one left. -/
theorem keeps_bind (htrans : ∀ s t u, rel s t → rel t u → rel s u) (mid : α → σ → Prop)
    {post : β → σ → Prop} (hm : Keeps rel pre m mid) (hf : ∀ a, Keeps rel (mid a) (f a) post) :
    Keeps rel pre (m >>= f) post := by
  intro s hs hret
  rw [bind_run] at hret ⊢
  have hm' := hm s hs
  generalize m s = r at hret hm' ⊢
  obtain ⟨o, t⟩ := r
  cases o with
  | ok a =>
    obtain ⟨hst, hmid⟩ := hm' trivial
    obtain ⟨htu, hpost⟩ := hf a t (hmid a rfl) hret
    exact ⟨htrans _ _ _ hst htu, hpost⟩
  | error e =>
    cases e with
    | err e => exact ⟨(hm' trivial).1, fun b hb => by cases hb⟩
    | panic | stackOverflow => exact hret.elim

/-- A loop whose body keeps its precondition. -/
theorem keeps_forEach (hrefl : ∀ s, pre s → rel s s) (htrans : ∀ s t u, rel s t → rel t u → rel s u)
    {body : α → Program ε σ Unit} (hbody : ∀ a ∈ as, Keeps rel pre (body a) fun _ => pre) :
    Keeps rel pre (forEach body as) fun _ => pre := by
  induction as with
  | nil => exact keeps_pure fun s hs => ⟨hrefl s hs, hs⟩
  | cons a as ih =>
    exact keeps_bind htrans _ (hbody a (.head _)) fun _ =>
      ih fun b hb => hbody b (.tail a hb)

/-- A result once all is done. -/
theorem keeps_return (htrans : ∀ s t u, rel s t → rel t u → rel s u) {mid : σ → Prop}
    {m : Program ε σ Unit} (hm : Keeps rel pre m fun _ => mid) (hrefl : ∀ s, mid s → rel s s)
    (a : α) : Keeps rel pre (m >>= fun _ => pure a) fun _ _ => True :=
  keeps_bind htrans _ hm fun _ => keeps_pure fun s hs => ⟨hrefl s hs, trivial⟩

theorem Keeps.imp {pre' : σ → Prop} {post post' : α → σ → Prop} (h : Keeps rel pre m post)
    (hpre : ∀ s, pre' s → pre s) (hpost : ∀ a s, post a s → post' a s) : Keeps rel pre' m post' :=
  fun s hs hret => ⟨(h s (hpre s hs) hret).1, fun a ha => hpost a _ ((h s (hpre s hs) hret).2 a ha)⟩

end Keeps

/-! ## What a program leaves alone -/

/-- However the program ends, `f` of the state is as before. -/
def Leaves (f : σ → τ) (m : Program ε σ α) : Prop := ∀ s, f (m s).2 = f s

section Leaves

variable {f : σ → τ}

theorem leaves_pure (a : α) : Leaves f (pure a : Program ε σ α) := fun _ => rfl

theorem leaves_read (g : σ → Outcome ε α) : Leaves f (read g) := fun _ => rfl

theorem leaves_update {g : σ → Outcome ε σ} (h : ∀ s s', g s = .ok s' → f s' = f s) :
    Leaves f (update g) := by
  intro s
  unfold update
  cases hg : g s with
  | ok s' => exact h s s' hg
  | error e => rfl

theorem leaves_bind {k : α → Program ε σ β} (hm : Leaves f m) (hk : ∀ a, Leaves f (k a)) :
    Leaves f (m >>= k) := by
  intro s
  have hms := hm s
  rw [bind_run]
  generalize m s = r at hms
  obtain ⟨_ | a, t⟩ := r
  · exact hms
  · exact (hk a t).trans hms

theorem leaves_forEach {body : α → Program ε σ Unit} (h : ∀ a ∈ as, Leaves f (body a)) :
    Leaves f (forEach body as) := by
  induction as with
  | nil => exact leaves_pure ()
  | cons a as ih =>
    exact leaves_bind (h a (.head _)) fun _ =>
      ih fun b hb => h b (.tail a hb)

end Leaves

/-! ## Programs that return no error -/

theorem noErr_bind (hm : (m s).1.NoErr) (hf : ∀ a, (m s).1 = .ok a → (f a (m s).2).1.NoErr) :
    ((m >>= f) s).1.NoErr := by
  rw [bind_run]
  generalize m s = r at hm hf ⊢
  obtain ⟨_ | a, t⟩ := r
  · intro e h
    cases h
    exact hm e rfl
  · exact hf a rfl

theorem noErr_update {f : σ → Outcome ε σ} (h : (f s).NoErr) : (update f s).1.NoErr := by
  unfold update
  cases hf : f s with
  | ok s' => exact Outcome.noErr_ok _
  | error e =>
    intro e' he
    cases he
    exact h e' hf

variable {body : α → Program ε σ Unit}

/-- A loop whose body keeps its precondition. -/
theorem noErr_forEach {rel : σ → σ → Prop} (hkeeps : ∀ a ∈ as, Keeps rel pre (body a) fun _ => pre)
    (h : ∀ a ∈ as, ∀ s, pre s → (body a s).1.NoErr) (hs : pre s) : (forEach body as s).1.NoErr := by
  induction as generalizing s with
  | nil => exact Outcome.noErr_ok _
  | cons a as ih =>
    refine noErr_bind (h a (.head _) s hs) fun u hu => ?_
    refine ih (fun b hb => hkeeps b (.tail a hb))
      (fun b hb => h b (.tail a hb)) ?_
    exact (hkeeps a (.head _) s hs (by rw [hu]; trivial)).2 u hu

theorem forEach_total (h : ∀ a ∈ as, ∀ s, pre s → ∃ s', body a s = (.ok (), s') ∧ pre s')
    (hs : pre s) : ∃ s', forEach body as s = (.ok (), s') ∧ pre s' := by
  induction as generalizing s with
  | nil => exact ⟨s, rfl, hs⟩
  | cons a as ih =>
    obtain ⟨s₁, hbody, hs₁⟩ := h a (.head _) s hs
    obtain ⟨s', hloop, hs'⟩ := ih (fun b hb => h b (.tail a hb)) hs₁
    exact ⟨s', by simp [forEach, bind_run, hbody, hloop], hs'⟩

/-! ## Simulation -/

/-- From related states two programs answer alike and reach related states. -/
def Sim (R : σ → τ → Prop) (m : Program ε σ α) (m' : Program ε τ α) : Prop :=
  ∀ s t, R s t → (m s).1 = (m' t).1 ∧ R (m s).2 (m' t).2

section Sim

variable {R : σ → τ → Prop}

theorem sim_pure (a : α) : Sim (ε := ε) R (pure a) (pure a) := fun _ _ h => ⟨rfl, h⟩

theorem sim_read {f : σ → Outcome ε α} {f' : τ → Outcome ε α}
    (h : ∀ s t, R s t → f s = f' t) : Sim R (read f) (read f') :=
  fun s t hst => ⟨h s t hst, hst⟩

theorem sim_update {f : σ → Outcome ε σ} {f' : τ → Outcome ε τ}
    (h : ∀ s t, R s t → (∃ s' t', f s = .ok s' ∧ f' t = .ok t' ∧ R s' t') ∨
      ∃ e, f s = .error e ∧ f' t = .error e) : Sim R (update f) (update f') := by
  intro s t hst
  rcases h s t hst with ⟨s', t', hf, hf', hr⟩ | ⟨e, hf, hf'⟩
  · simp [update, hf, hf', hr]
  · simp [update, hf, hf', hst]

/-- Sequencing: the second programs matter for values the first ones return. -/
theorem sim_bind {m' : Program ε τ α} {f' : α → Program ε τ β} (hm : Sim R m m')
    (hf : ∀ a s t, R s t → (m s).1 = .ok a → Sim R (f a) (f' a)) : Sim R (m >>= f) (m' >>= f') := by
  intro s t hst
  obtain ⟨heq, hrel⟩ := hm s t hst
  have hf := fun a => hf a s t hst
  rw [bind_run, bind_run]
  generalize m s = r at heq hrel hf ⊢
  generalize m' t = r' at heq hrel ⊢
  obtain ⟨o, u⟩ := r
  obtain ⟨o', w⟩ := r'
  cases heq
  cases o with
  | ok a => exact hf a rfl u w hrel
  | error e => exact ⟨rfl, hrel⟩

theorem sim_forEach {body' : α → Program ε τ Unit} (h : ∀ a ∈ as, Sim R (body a) (body' a)) :
    Sim R (forEach body as) (forEach body' as) := by
  induction as with
  | nil => exact sim_pure ()
  | cons a as ih =>
    exact sim_bind (h a (.head _)) fun _ _ _ _ _ =>
      ih fun b hb => h b (.tail a hb)

end Sim

end Program

end Archon
