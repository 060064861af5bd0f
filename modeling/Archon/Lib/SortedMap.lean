import Mathlib.Data.List.Sort

/-!
# Archon.Lib.SortedMap

Finite maps as lists of entries in strictly ascending key order.  The order
is part of the type, so a map has one representation: two maps that answer
every lookup alike are equal (`SortedMap.ext_find?`).
-/

namespace Archon

open List

/-- Entries in strictly ascending key order. -/
def Ascending [LT κ] (l : List (κ × ν)) : Prop := l.Pairwise fun a b => a.1 < b.1

/-- A finite map from `κ` to `ν`. -/
structure SortedMap (κ ν : Type) [LinearOrder κ] where
  entries : List (κ × ν)
  ascending : Ascending entries

/-! ## Ascending lists -/

section Ascending

variable {κ ν : Type} [LinearOrder κ]

variable {l : List (κ × ν)}

theorem Ascending.cons {e : κ × ν} (h : Ascending (e :: l)) :
    (∀ a ∈ l, e.1 < a.1) ∧ Ascending l := pairwise_cons.mp h

/-- An ascending list is determined by its members. -/
theorem Ascending.eq_of_mem_iff {l' : List (κ × ν)} (h : Ascending l) (h' : Ascending l')
    (hm : ∀ e, e ∈ l ↔ e ∈ l') : l = l' := by
  exact List.Pairwise.eq_of_mem_iff h h' hm

theorem Ascending.append {l' : List (κ × ν)} (h : Ascending l) (h' : Ascending l')
    (hlt : ∀ a ∈ l, ∀ b ∈ l', a.1 < b.1) : Ascending (l ++ l') :=
  pairwise_append.mpr ⟨h, h', hlt⟩

theorem Ascending.filter (h : Ascending l) (p : κ × ν → Bool) :
    Ascending (l.filter p) := List.Pairwise.filter p h

end Ascending

namespace SortedMap

variable {κ ν : Type} [LinearOrder κ]

def empty : SortedMap κ ν := ⟨[], .nil⟩

/-- The value of the first entry with key `k`. -/
def findIn (k : κ) : List (κ × ν) → Option ν
  | [] => none
  | (c, v) :: l => if c = k then some v else findIn k l

def find? (m : SortedMap κ ν) (k : κ) : Option ν := findIn k m.entries

/-- Insert into an ascending list, replacing the value of an equal key. -/
def insertIn (k : κ) (v : ν) : List (κ × ν) → List (κ × ν)
  | [] => [(k, v)]
  | (c, w) :: l =>
    if k < c then (k, v) :: (c, w) :: l
    else if k = c then (k, v) :: l
    else (c, w) :: insertIn k v l

variable {l : List (κ × ν)}

variable {k : κ} {v : ν}

theorem mem_insertIn (h : Ascending l) (e : κ × ν) :
    e ∈ insertIn k v l ↔ e = (k, v) ∨ (e ∈ l ∧ e.1 ≠ k) := by
  induction l with
  | nil => simp [insertIn]
  | cons a l ih =>
    obtain ⟨c, w⟩ := a
    obtain ⟨hlt, ha⟩ := h.cons
    rw [insertIn]
    split
    · next hkc =>
      -- every old key is above the new one
      have hne : ∀ b ∈ (c, w) :: l, b.1 ≠ k := by
        intro b hb
        rcases mem_cons.mp hb with rfl | hb
        · exact ne_of_gt hkc
        · exact ne_of_gt (lt_trans hkc (hlt b hb))
      rw [mem_cons]
      exact or_congr_right ⟨fun hb => ⟨hb, hne e hb⟩, fun hb => hb.1⟩
    · split
      · next hkc =>
        subst hkc
        have hne : ∀ b ∈ l, b.1 ≠ k := fun b hb => ne_of_gt (hlt b hb)
        rw [mem_cons]
        constructor
        · rintro (rfl | hb)
          · exact .inl rfl
          · exact .inr ⟨mem_cons_of_mem _ hb, hne e hb⟩
        · rintro (rfl | ⟨hb, hk⟩)
          · exact .inl rfl
          · rcases mem_cons.mp hb with rfl | hb
            · exact absurd rfl hk
            · exact .inr hb
      · next hkc =>
        rw [mem_cons, ih ha, mem_cons]
        constructor
        · rintro (rfl | rfl | ⟨hb, hk⟩)
          · exact .inr ⟨.inl rfl, Ne.symm hkc⟩
          · exact .inl rfl
          · exact .inr ⟨.inr hb, hk⟩
        · rintro (rfl | ⟨rfl | hb, hk⟩)
          · simp
          · exact .inl rfl
          · exact .inr (.inr ⟨hb, hk⟩)

theorem ascending_insertIn (h : Ascending l) : Ascending (insertIn k v l) := by
  induction l with
  | nil => exact pairwise_singleton _ _
  | cons a l ih =>
    obtain ⟨hlt, ha⟩ := h.cons
    rw [insertIn]
    split
    · next hkc =>
      refine pairwise_cons.mpr ⟨?_, h⟩
      intro b hb
      rcases mem_cons.mp hb with rfl | hb
      · exact hkc
      · exact lt_trans hkc (hlt b hb)
    · split
      · next hkc => exact pairwise_cons.mpr ⟨fun b hb => hkc ▸ hlt b hb, ha⟩
      · next hkc hne =>
        refine pairwise_cons.mpr ⟨?_, ih ha⟩
        intro b hb
        rcases (mem_insertIn ha b).mp hb with rfl | ⟨hb, _⟩
        · exact lt_of_le_of_ne (not_lt.mp hkc) (Ne.symm hne)
        · exact hlt b hb

def insert (m : SortedMap κ ν) (k : κ) (v : ν) : SortedMap κ ν :=
  ⟨insertIn k v m.entries, ascending_insertIn m.ascending⟩

def erase (m : SortedMap κ ν) (k : κ) : SortedMap κ ν :=
  ⟨m.entries.filter fun e => e.1 ≠ k, m.ascending.filter _⟩

/-! ## Lookups -/

theorem findIn_eq_some_iff (h : Ascending l) : findIn k l = some v ↔ (k, v) ∈ l := by
  induction l with
  | nil => simp [findIn]
  | cons a l ih =>
    obtain ⟨c, w⟩ := a
    obtain ⟨hlt, ha⟩ := h.cons
    rw [findIn, mem_cons]
    split
    · next hck =>
      subst hck
      constructor
      · rintro hv
        cases hv
        exact .inl rfl
      · rintro (hv | hv)
        · grind
        · exact absurd (hlt _ hv) (lt_irrefl c)
    · next hck =>
      rw [ih ha]
      exact ⟨.inr, fun hv => hv.resolve_left fun he => hck (Prod.mk.inj he).1.symm⟩

/-- The keys after the first are greater. -/
theorem findIn_tail_eq_none (h : Ascending ((k, v) :: l)) : findIn k l = none := by
  obtain ⟨hlt, ha⟩ := h.cons
  cases hf : findIn k l with
  | none => rfl
  | some w => exact absurd (hlt _ ((findIn_eq_some_iff ha).mp hf)) (lt_irrefl k)

theorem find?_eq_some_iff (m : SortedMap κ ν) :
    m.find? k = some v ↔ (k, v) ∈ m.entries := findIn_eq_some_iff m.ascending

theorem ext_find? {m m' : SortedMap κ ν} (h : ∀ k, m.find? k = m'.find? k) : m = m' := by
  have hent : m.entries = m'.entries := by
    refine m.ascending.eq_of_mem_iff m'.ascending ?_
    intro ⟨k, v⟩
    simp [← find?_eq_some_iff, h k]
  cases m; cases m'; cases hent; rfl

section

variable (m : SortedMap κ ν)

theorem find?_insert (k : κ) (v : ν) (c : κ) :
    (m.insert k v).find? c = if c = k then some v else m.find? c := by
  apply Option.ext
  intro w
  rw [find?_eq_some_iff]
  show (c, w) ∈ insertIn k v m.entries ↔ _
  rw [mem_insertIn m.ascending]
  split
  · next hck => grind
  · next hck =>
    rw [find?_eq_some_iff]
    simp [hck]

theorem find?_erase (k c : κ) : (m.erase k).find? c = if c = k then none else m.find? c := by
  apply Option.ext
  intro w
  rw [find?_eq_some_iff]
  show (c, w) ∈ m.entries.filter _ ↔ _
  split
  · next hck => simp [hck]
  · next hck => simp [hck, find?_eq_some_iff]

@[simp] theorem find?_insert_self (k : κ) (v : ν) : (m.insert k v).find? k = some v := by
  rw [find?_insert, if_pos rfl]

end

end SortedMap

end Archon
