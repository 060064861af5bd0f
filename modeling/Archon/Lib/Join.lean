import Mathlib.Data.Multiset.Bind

/-!
# Archon.Lib.Join

Joins of two multisets under a match relation: the matching pairs, and the
elements of one side without a partner.  The nested loops over two lists
compute them.
-/

namespace Archon

open Multiset

section

variable {α β γ : Type}

/-- The pairs that match. -/
def matching (m : α → β → Bool) (as : Multiset α) (bs : Multiset β) : Multiset (α × β) :=
  (as ×ˢ bs).filter fun p => m p.1 p.2 = true

/-- The elements of the first side without a partner in the second. -/
def alone (m : α → β → Bool) (as : Multiset α) (bs : Multiset β) : Multiset α :=
  as.filter fun a => bs.countP (fun b => m a b = true) = 0

theorem matching_swap (m : α → β → Bool) (as : Multiset α) (bs : Multiset β) :
    matching (fun b a => m a b) bs as = (matching m as bs).map Prod.swap := by
  rw [matching, ← map_swap_product, filter_map]
  rfl

variable {as : Multiset α} {bs : Multiset β} {m : α → β → Bool}

theorem matching_congr {m' : α → β → Bool} (h : ∀ a ∈ as, ∀ b ∈ bs, m a b = m' a b) :
    matching m as bs = matching m' as bs := by
  refine filter_congr fun p hp => ?_
  obtain ⟨ha, hb⟩ := mem_product.mp hp
  rw [h p.1 ha p.2 hb]

theorem alone_congr {m' : α → β → Bool} (h : ∀ a ∈ as, ∀ b ∈ bs, m a b = m' a b) :
    alone m as bs = alone m' as bs := by
  refine filter_congr fun a ha => ?_
  rw [countP_congr rfl fun b hb => by rw [h a ha b hb]]

theorem mem_matching {p : α × β} (h : p ∈ matching m as bs) : p.1 ∈ as ∧ p.2 ∈ bs :=
  mem_product.mp (mem_of_mem_filter h)

theorem mem_alone {a : α} (h : a ∈ alone m as bs) : a ∈ as := mem_of_mem_filter h

section

variable (m : α → β → Bool) (a : α) (as : Multiset α) (bs : Multiset β)

theorem matching_cons :
    matching m (a ::ₘ as) bs =
      (bs.filter fun b => m a b = true).map (Prod.mk a) + matching m as bs := by
  rw [matching, cons_product, filter_add, filter_map]
  rfl

theorem alone_cons :
    alone m (a ::ₘ as) bs =
      (if bs.countP (fun b => m a b = true) = 0 then {a} else 0) + alone m as bs :=
  filter_cons _

end

/-- The loop over all pairs. -/
theorem coe_pairLoop (pair : α → β → γ) (as : List α) (bs : List β) :
    (as.flatMap fun a => bs.map (pair a) : List γ) =
      (((as : Multiset α) ×ˢ (bs : Multiset β)).map fun p => pair p.1 p.2 : Multiset γ) := by
  induction as with
  | nil => simp
  | cons a as ih =>
    rw [List.flatMap_cons, ← coe_add, ih, ← cons_coe, cons_product,
      map_add, map_map]
    rfl

/-- The loop of an outer join: each element with its partners, or once without. -/
theorem coe_outerLoop (m : α → β → Bool) (pair : α → β → γ) (single : α → γ) (as : List α)
    (bs : List β) :
    (as.flatMap fun a => if (bs.filter (m a)).isEmpty then [single a]
      else (bs.filter (m a)).map (pair a) : List γ) =
      (matching m as bs).map (fun p => pair p.1 p.2) +
        ((alone m as bs).map single : Multiset γ) := by
  induction as with
  | nil => simp [matching, alone]
  | cons a as ih =>
    rw [List.flatMap_cons, ← coe_add, ih, ← cons_coe, matching_cons,
      alone_cons, map_add, map_map, filter_coe]
    simp only [coe_countP, Bool.decide_eq_true, List.countP_eq_length_filter]
    cases bs.filter (m a) with
    | nil => simp
    | cons => simp [add_assoc]

/-- The elements without a partner, one by one. -/
theorem coe_aloneLoop (m : α → β → Bool) (single : α → γ) (as : List α) (bs : List β) :
    ((as.filter fun a => !bs.any (m a)).map single : List γ) =
      ((alone m as bs).map single : Multiset γ) := by
  have hkeep : ∀ a, (!bs.any (m a)) =
      decide ((bs : Multiset β).countP (fun b => m a b = true) = 0) := by
    intro a
    rw [Bool.eq_iff_iff]
    simp
  simp [alone, hkeep]

end

end Archon
