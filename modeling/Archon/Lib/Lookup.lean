import Mathlib.Data.List.SplitLengths

/-!
# Archon.Lib.Lookup

Reading the first match of a list of names from a row of values.

What a lookup finds depends on the names only: two lookups agree on every row
exactly if they stop at the same place.
-/

namespace Archon

open List

/-- The value next to the first name that satisfies `p`. -/
def readFirst (p : α → Bool) (names : List α) (values : List β) : Option β :=
  (names.findIdx? p).bind (values[·]?)

section

variable {p : α → Bool} {names names' : List α} {values values' : List β}

theorem readFirst_map (f : γ → α) (names : List γ) :
    readFirst p (names.map f) values = readFirst (p ∘ f) names values := by
  simp [readFirst]

theorem readFirst_congr {q : α → Bool} (h : ∀ a ∈ names, p a = q a) :
    readFirst p names values = readFirst q names values := by
  have hidx : names.findIdx? p = names.findIdx? q := by
    induction names with
    | nil => rfl
    | cons a as ih =>
      rw [findIdx?_cons, findIdx?_cons, h a (.head _),
        ih fun b hb => h b (.tail a hb)]
  rw [readFirst, readFirst, hidx]

theorem readFirst_eq_none (h : ∀ a ∈ names, p a = false) : readFirst p names values = none := by
  rw [readFirst, findIdx?_eq_none_iff.mpr h]
  rfl

theorem readFirst_append (h : names.length = values.length) :
    readFirst p (names ++ names') (values ++ values') =
      (readFirst p names values).or (readFirst p names' values') := by
  unfold readFirst
  rw [findIdx?_append]
  cases hi : names.findIdx? p with
  | some i =>
    have hlt : i < values.length := h ▸ (findIdx?_eq_some_iff_findIdx_eq.mp hi).1
    simp [getElem?_append_left hlt, getElem?_eq_getElem hlt]
  | none =>
    cases names'.findIdx? p with
    | none => simp
    | some i => simp [← h, getElem?_append_right]

end

/-- The first match is at `a`. -/
theorem findIdx?_append_cons {p : α → Bool} {as bs : List α} {a : α} :
    (as ++ a :: bs).findIdx? p = some as.length ↔ (∀ x ∈ as, p x = false) ∧ p a = true := by
  induction as with
  | nil => cases h : p a <;> simp [findIdx?_cons, h]
  | cons x as ih =>
    rw [cons_append, findIdx?_cons]
    cases h : p x with
    | true => simp [h]
    | false =>
      simp only [Bool.false_eq_true, if_false, length_cons, Option.map_eq_some_iff,
        Nat.add_right_cancel_iff, exists_eq_right, ih, forall_mem_cons, h, true_and]

/-- Slots that read alike from every row of the length are the same. -/
theorem slot_eq_iff {n : Nat} {s t : Option Nat} (hs : ∀ i, s = some i → i < n)
    (ht : ∀ i, t = some i → i < n) {a b : β} (hab : a ≠ b) :
    (∀ values : List β, values.length = n →
      s.bind (values[·]?) = t.bind (values[·]?)) ↔ s = t := by
  refine ⟨fun h => ?_, fun h _ _ => by rw [h]⟩
  have h := h ((List.range n).map fun i => if s = some i then a else b) (by simp)
  cases s with
  | none =>
    cases t with
    | none => rfl
    | some j => simp [ht j rfl] at h
  | some i =>
    cases t with
    | none => simp [hs i rfl] at h
    | some j =>
      by_cases hij : i = j
      · rw [hij]
      · simp [hs i rfl, ht j rfl, hij, hab] at h

end Archon
