import Archon.Lib.SortedMap

/-!
# Archon.Lib.Intervals

Half-open key intervals `[lo, hi)` whose upper bound may be absent, and
chains of them: a `Chain` lists consecutive intervals by their lower bounds,
each ending where the next begins.
-/

namespace Archon

open List

variable {ν : Type}
variable {κ ι : Type} [LinearOrder κ]

/-- `k` lies below an upper bound; `none` bounds nothing. -/
def Below (k : κ) (h : Option κ) : Prop := ∀ x, h = some x → k < x

@[simp] theorem below_none (k : κ) : Below k none := fun _ hx => by contradiction

@[simp] theorem below_some (k x : κ) : Below k (some x) ↔ k < x :=
  ⟨fun h => h x rfl, fun h _ hx => by cases hx; exact h⟩

variable {es : List (κ × ι)} {h : Option κ}

theorem Below.of_le {k k' : κ} (hb : Below k' h) (hk : k ≤ k') : Below k h :=
  fun x hx => lt_of_le_of_lt hk (hb x hx)

/-- Where the interval before `es` ends. -/
def next : List (κ × ι) → Option κ → Option κ
  | [], h => h
  | (l, _) :: _, _ => some l

/-- The nodes of `es` cover consecutive intervals up to `h`. -/
def Chain (lo : ι → κ) (hi : ι → Option κ) : List (κ × ι) → Option κ → Prop
  | [], _ => True
  | (l, c) :: es, h => lo c = l ∧ hi c = next es h ∧ Below l (next es h) ∧ Chain lo hi es h

variable {lo : ι → κ} {hi : ι → Option κ}

omit [LinearOrder κ] in
theorem next_append (xs ys : List (κ × ι)) (h : Option κ) :
    next (xs ++ ys) h = next xs (next ys h) := by
  cases xs <;> rfl

/-- A chain may be cut anywhere. -/
theorem chain_append (xs ys : List (κ × ι)) (h : Option κ) :
    Chain lo hi (xs ++ ys) h ↔ Chain lo hi xs (next ys h) ∧ Chain lo hi ys h := by
  induction xs with
  | nil => simp [Chain]
  | cons e xs ih =>
    simp [Chain, next_append, ih, and_assoc]

/-- A chain depends only on the bounds of its own nodes. -/
theorem Chain.congr {lo' : ι → κ} {hi' : ι → Option κ} (hc : Chain lo hi es h)
    (hlo : ∀ e ∈ es, lo' e.2 = lo e.2) (hhi : ∀ e ∈ es, hi' e.2 = hi e.2) : Chain lo' hi' es h := by
  induction es with
  | nil => trivial
  | cons e es ih =>
    obtain ⟨h1, h2, h3, h4⟩ := hc
    refine ⟨(hlo _ (.head _)).trans h1, (hhi _ (.head _)).trans h2, h3, ?_⟩
    exact ih h4 (fun e he => hlo e (.tail _ he))
      fun e he => hhi e (.tail _ he)

/-- The lower bounds ascend and stay below the end. -/
theorem Chain.ascending (hc : Chain lo hi es h) : Ascending es ∧ ∀ e ∈ es, Below e.1 h := by
  induction es with
  | nil => exact ⟨.nil, by simp⟩
  | cons e es ih =>
    obtain ⟨l, c⟩ := e
    obtain ⟨_, _, hb, hes⟩ := hc
    obtain ⟨ha, hbelow⟩ := ih hes
    cases es with
    | nil => exact ⟨pairwise_singleton _ _, by simpa [next] using hb⟩
    | cons e' es =>
      obtain ⟨l', c'⟩ := e'
      have hl : l < l' := hb l' rfl
      have hlt : ∀ a ∈ (l', c') :: es, l < a.1 := by
        intro a ha'
        rcases mem_cons.mp ha' with rfl | ha'
        · exact hl
        · exact lt_trans hl (ha.cons.1 a ha')
      refine ⟨pairwise_cons.mpr ⟨hlt, ha⟩, ?_⟩
      intro a ha'
      rcases mem_cons.mp ha' with rfl | ha'
      · exact (hbelow _ (.head _)).of_le (le_of_lt hl)
      · exact hbelow a ha'

/-- Entries up to a key, and those above it. -/
theorem Ascending.exists_le_lt {es : List (κ × ν)} (h : Ascending es) (k : κ) :
    ∃ xs ys, es = xs ++ ys ∧ (∀ x ∈ xs, x.1 ≤ k) ∧ ∀ y ∈ ys, k < y.1 := by
  induction es with
  | nil => exact ⟨[], [], rfl, by simp, by simp⟩
  | cons e es ih =>
    obtain ⟨hlt, ha⟩ := h.cons
    by_cases he : e.1 ≤ k
    · obtain ⟨xs, ys, rfl, hxs, hys⟩ := ih ha
      exact ⟨e :: xs, ys, rfl, by simpa using ⟨he, fun a b hab => hxs _ hab⟩, hys⟩
    · rw [not_le] at he
      refine ⟨[], e :: es, rfl, by simp, ?_⟩
      intro y hy
      rcases mem_cons.mp hy with rfl | hy
      · exact he
      · exact lt_trans he (hlt y hy)

/-- Entries below a key, and those from it on. -/
theorem Ascending.exists_lt_le {es : List (κ × ν)} (h : Ascending es) (k : κ) :
    ∃ xs ys, es = xs ++ ys ∧ (∀ x ∈ xs, x.1 < k) ∧ ∀ y ∈ ys, k ≤ y.1 := by
  induction es with
  | nil => exact ⟨[], [], rfl, by simp, by simp⟩
  | cons e es ih =>
    obtain ⟨hlt, ha⟩ := h.cons
    by_cases he : e.1 < k
    · obtain ⟨xs, ys, rfl, hxs, hys⟩ := ih ha
      exact ⟨e :: xs, ys, rfl, by simpa using ⟨he, fun a b hab => hxs _ hab⟩, hys⟩
    · rw [not_lt] at he
      refine ⟨[], e :: es, rfl, by simp, ?_⟩
      intro y hy
      rcases mem_cons.mp hy with rfl | hy
      · exact he
      · exact le_of_lt (lt_of_le_of_lt he (hlt y hy))

/-- A key is at one place of an ascending list, or missing from one place. -/
theorem Ascending.locate {es : List (κ × ν)} (h : Ascending es) (k : κ) :
    (∃ xs v ys, es = xs ++ (k, v) :: ys ∧ (∀ x ∈ xs, x.1 < k) ∧ ∀ y ∈ ys, k < y.1) ∨
      ∃ xs ys, es = xs ++ ys ∧ (∀ x ∈ xs, x.1 < k) ∧ ∀ y ∈ ys, k < y.1 := by
  obtain ⟨xs, ys, rfl, hxs, hys⟩ := h.exists_lt_le k
  obtain ⟨_, hasc, _⟩ := pairwise_append.mp h
  cases ys with
  | nil => exact .inr ⟨xs, [], rfl, hxs, by simp⟩
  | cons y ys =>
    obtain ⟨c, v⟩ := y
    obtain ⟨hlt, _⟩ := Ascending.cons hasc
    rcases lt_or_eq_of_le (hys _ (.head _)) with hc | rfl
    · refine .inr ⟨xs, (c, v) :: ys, rfl, hxs, ?_⟩
      intro y hy
      rcases mem_cons.mp hy with rfl | hy
      · exact hc
      · exact lt_trans hc (hlt y hy)
    · exact .inl ⟨xs, v, ys, rfl, hxs, hlt⟩

variable {xs ys : List (κ × ν)}

theorem Ascending.drop_mid {e : κ × ν} (h : Ascending (xs ++ e :: ys)) : Ascending (xs ++ ys) :=
  List.Pairwise.sublist ((sublist_cons_self e ys).append_left xs) h

/-- Putting a key between the smaller and the larger ones. -/
theorem Ascending.put {k : κ} (h : Ascending (xs ++ ys)) (hx : ∀ x ∈ xs, x.1 < k)
    (hy : ∀ y ∈ ys, k < y.1) (v : ν) : Ascending (xs ++ (k, v) :: ys) := by
  obtain ⟨hxs, hys, hxy⟩ := pairwise_append.mp h
  refine pairwise_append.mpr ⟨hxs, pairwise_cons.mpr ⟨hy, hys⟩, ?_⟩
  intro a ha b hb
  rcases mem_cons.mp hb with rfl | hb
  · exact hx a ha
  · exact hxy a ha b hb

/-- The members after a put: the new pair, and the old ones under other
keys. -/
theorem mem_put {k : κ} (hx : ∀ x ∈ xs, x.1 < k) (hy : ∀ y ∈ ys, k < y.1) (v : ν) (c : κ) (w : ν) :
    (c, w) ∈ xs ++ (k, v) :: ys ↔ if c = k then some v = some w else (c, w) ∈ xs ++ ys := by
  rw [mem_append, mem_cons, mem_append]
  split
  · next hck =>
    subst hck
    constructor
    · rintro (h | h | h)
      · exact absurd (hx _ h) (lt_irrefl c)
      · cases h; rfl
      · exact absurd (hy _ h) (lt_irrefl c)
    · rintro h
      cases h
      simp
  · next hck =>
    constructor
    · rintro (h | h | h)
      · exact .inl h
      · cases h; exact absurd rfl hck
      · exact .inr h
    · rintro (h | h)
      · exact .inl h
      · exact .inr (.inr h)

/-- The interval of a chain that a key falls into. -/
theorem Chain.route {l : κ} {c : ι} {k : κ} (hc : Chain lo hi ((l, c) :: es) h) (hl : l ≤ k)
    (hk : Below k h) :
    ∃ xs l' c' ys, (l, c) :: es = xs ++ (l', c') :: ys ∧ (∀ x ∈ xs ++ [(l', c')], x.1 ≤ k) ∧
      (∀ y ∈ ys, k < y.1) ∧ Below k (next ys h) := by
  obtain ⟨xs, ys, hsplit, hxs, hys⟩ := hc.ascending.1.exists_le_lt k
  have hne : xs ≠ [] := by
    rintro rfl
    rw [nil_append] at hsplit
    have := hys (l, c) (hsplit ▸ mem_cons_self)
    exact absurd hl (not_le.mpr this)
  obtain ⟨xs', ⟨l', c'⟩, rfl⟩ : ∃ xs' e, xs = xs' ++ [e] :=
    ⟨xs.dropLast, xs.getLast hne, (dropLast_append_getLast hne).symm⟩
  refine ⟨xs', l', c', ys, ?_, hxs, hys, ?_⟩
  · grind
  · cases ys with
    | nil => exact hk
    | cons y ys =>
      obtain ⟨ly, cy⟩ := y
      exact (below_some k ly).mpr (hys _ (.head _))

end Archon
