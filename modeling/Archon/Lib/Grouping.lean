import Mathlib.Data.List.Nodup
import Mathlib.Data.List.Perm.Basic
import Mathlib.Order.Basic

/-!
# Archon.Lib.Grouping

Grouping a list by a key in an ordered map: `push` adds an element to the group
of its key, and `groupAll` starts from no groups.

The groups come in ascending order of their keys (`ascending_groupAll`), there
is one for each key (`mem_keys_groupAll`), and it has the elements with this key
in their order (`groupAll_eq`).  The groups together are the list
(`flatMap_filter_perm`).
-/

namespace Archon

open List

namespace Grouping

open Std (TransCmp LawfulEqCmp OrientedCmp ReflCmp)

variable {κ α β : Type} {cmp : κ → κ → Ordering}

/-- `groups.entry(key).or_default().push(a)`. -/
def push (cmp : κ → κ → Ordering) (key : κ) (a : α) : List (κ × List α) → List (κ × List α)
  | [] => [(key, [a])]
  | (k, as) :: groups =>
    match cmp key k with
    | .lt => (key, [a]) :: (k, as) :: groups
    | .eq => (k, as ++ [a]) :: groups
    | .gt => (k, as) :: push cmp key a groups

def groupAll (cmp : κ → κ → Ordering) (pairs : List (κ × α)) : List (κ × List α) :=
  pairs.foldl (fun groups p => push cmp p.1 p.2 groups) []

/-! ## Keys -/

/-- Keys in strictly ascending order. -/
def Ascending (cmp : κ → κ → Ordering) (keys : List κ) : Prop :=
  keys.Pairwise fun k l => cmp k l = .lt

variable {groups : List (κ × List α)} {keys : List κ}

theorem mem_keys_push [LawfulEqCmp cmp] {key k : κ} {a : α} :
    k ∈ (push cmp key a groups).map Prod.fst ↔ k = key ∨ k ∈ groups.map Prod.fst := by
  induction groups with
  | nil => simp [push]
  | cons g groups ih =>
    obtain ⟨l, as⟩ := g
    cases hcmp : cmp key l with
    | lt => simp [push, hcmp]
    | eq =>
      obtain rfl : key = l := LawfulEqCmp.eq_of_compare hcmp
      simp [push, hcmp]
    | gt => simp [push, hcmp, ih, or_left_comm]

theorem ascending_push [TransCmp cmp] [LawfulEqCmp cmp] {key : κ} {a : α}
    (h : Ascending cmp (groups.map Prod.fst)) :
    Ascending cmp ((push cmp key a groups).map Prod.fst) := by
  induction groups with
  | nil => simp [push, Ascending]
  | cons g groups ih =>
    obtain ⟨l, as⟩ := g
    obtain ⟨hhead, htail⟩ := pairwise_cons.mp h
    cases hcmp : cmp key l with
    | lt =>
      simp only [push, hcmp]
      refine pairwise_cons.mpr ⟨fun k hk => ?_, h⟩
      rcases mem_cons.mp hk with rfl | hk
      · exact hcmp
      · exact TransCmp.lt_trans hcmp (hhead k hk)
    | eq => simpa only [push, hcmp, map_cons] using h
    | gt =>
      simp only [push, hcmp]
      refine pairwise_cons.mpr ⟨fun k hk => ?_, ih htail⟩
      rcases mem_keys_push.mp hk with rfl | hk
      · exact OrientedCmp.gt_iff_lt.mp hcmp
      · exact hhead k hk

theorem Ascending.nodup [ReflCmp cmp] (h : Ascending cmp keys) : keys.Nodup :=
  h.imp fun hlt heq => by simp [heq, ReflCmp.compare_self] at hlt

/-- Ascending keys are determined by which keys there are. -/
theorem Ascending.eq_of_mem_iff [TransCmp cmp] {keys' : List κ} (h : Ascending cmp keys)
    (h' : Ascending cmp keys') (hmem : ∀ k, k ∈ keys ↔ k ∈ keys') : keys = keys' := by
  have hperm : keys.Perm keys' := (perm_ext_iff_of_nodup h.nodup h'.nodup).mpr hmem
  refine hperm.eq_of_pairwise (fun a b _ _ hab hba => ?_) h h'
  grind [OrientedCmp.gt_iff_lt.mpr hba]

theorem not_mem_of_lt [TransCmp cmp] {key l : κ} (h : Ascending cmp (l :: keys))
    (hlt : cmp key l = .lt) : key ∉ l :: keys := by
  intro hmem
  have hself : cmp key key = .lt := by
    rcases mem_cons.mp hmem with heq | htail
    · exact heq ▸ hlt
    · exact TransCmp.lt_trans hlt ((pairwise_cons.mp h).1 key htail)
  simp [ReflCmp.compare_self] at hself

/-! ## Groups -/

variable [DecidableEq κ]

/-- The elements of the group of a key. -/
def membersOf (k : κ) (groups : List (κ × List α)) : List α :=
  (groups.filter fun g => g.1 = k).flatMap Prod.snd

theorem membersOf_cons (k : κ) (g : κ × List α) (groups : List (κ × List α)) :
    membersOf k (g :: groups) = (if g.1 = k then g.2 else []) ++ membersOf k groups := by
  by_cases hk : g.1 = k <;> simp [membersOf, hk]

theorem membersOf_eq_nil {k : κ} (h : k ∉ groups.map Prod.fst) : membersOf k groups = [] := by
  have hnone : groups.filter (fun g => decide (g.1 = k)) = [] := by
    refine filter_eq_nil_iff.mpr fun g hg => ?_
    have hne : g.1 ≠ k := fun heq => h (heq ▸ mem_map_of_mem hg)
    simp [hne]
  rw [membersOf, hnone, flatMap_nil]

/-- The new element goes to the end of the group of its key. -/
theorem membersOf_push [TransCmp cmp] [LawfulEqCmp cmp] {key k : κ} {a : α}
    (h : Ascending cmp (groups.map Prod.fst)) :
    membersOf k (push cmp key a groups) = membersOf k groups ++ if key = k then [a] else [] := by
  induction groups with
  | nil => by_cases hk : key = k <;> simp [push, membersOf, hk]
  | cons g groups ih =>
    obtain ⟨l, as⟩ := g
    cases hcmp : cmp key l with
    | lt =>
      simp only [push, hcmp]
      rw [membersOf_cons]
      by_cases hk : key = k
      · have hnil : membersOf k ((l, as) :: groups) = [] :=
          membersOf_eq_nil (hk ▸ not_mem_of_lt h hcmp)
        simp [hnil]
      · simp [hk]
    | eq =>
      obtain rfl : key = l := LawfulEqCmp.eq_of_compare hcmp
      have hrest : key ∉ groups.map Prod.fst := (nodup_cons.mp h.nodup).1
      simp only [push, hcmp, membersOf_cons]
      by_cases hk : key = k
      · simp [hk, membersOf_eq_nil (hk ▸ hrest)]
      · simp [hk]
    | gt =>
      simp only [push, hcmp, membersOf_cons, ih (pairwise_cons.mp h).2, append_assoc]

/-- Each group has the elements of its key. -/
theorem eq_map_membersOf [ReflCmp cmp] (h : Ascending cmp (groups.map Prod.fst)) :
    groups = (groups.map Prod.fst).map fun k => (k, membersOf k groups) := by
  induction groups with
  | nil => rfl
  | cons g groups ih =>
    obtain ⟨hhead, htail⟩ := nodup_cons.mp h.nodup
    have hself : membersOf g.1 (g :: groups) = g.2 := by
      simp [membersOf_cons, membersOf_eq_nil hhead]
    have hrest : ∀ k ∈ groups.map Prod.fst,
        (k, membersOf k (g :: groups)) = (k, membersOf k groups) := by
      intro k hk
      have hne : g.1 ≠ k := fun heq => hhead (heq ▸ hk)
      simp [membersOf_cons, hne]
    simp [hself, map_congr_left hrest, ← ih (pairwise_cons.mp h).2]

/-! ## Grouping a list -/

section

variable [TransCmp cmp] [LawfulEqCmp cmp]

/-- What one push keeps, through a whole list. -/
theorem foldl_push (pairs : List (κ × α)) {groups : List (κ × List α)}
    (h : Ascending cmp (groups.map Prod.fst)) :
    let groups' := pairs.foldl (fun groups p => push cmp p.1 p.2 groups) groups
    Ascending cmp (groups'.map Prod.fst) ∧
      (∀ k, k ∈ groups'.map Prod.fst ↔ k ∈ groups.map Prod.fst ∨ k ∈ pairs.map Prod.fst) ∧
      ∀ k, membersOf k groups' =
        membersOf k groups ++ (pairs.filter fun p => p.1 = k).map Prod.snd := by
  induction pairs generalizing groups with
  | nil => simp [h]
  | cons p pairs ih =>
    obtain ⟨hasc, hkeys, hmembers⟩ := ih (ascending_push h)
    refine ⟨hasc, fun k => ?_, fun k => ?_⟩
    · rw [foldl_cons, hkeys, mem_keys_push, map_cons, mem_cons]
      tauto
    · rw [foldl_cons, hmembers, membersOf_push h]
      by_cases hk : p.1 = k <;> simp [hk]

theorem ascending_groupAll (pairs : List (κ × α)) :
    Ascending cmp ((groupAll cmp pairs).map Prod.fst) :=
  (@foldl_push κ α cmp _ _ _ pairs [] List.Pairwise.nil).1

theorem mem_keys_groupAll {pairs : List (κ × α)} {k : κ} :
    k ∈ (groupAll cmp pairs).map Prod.fst ↔ k ∈ pairs.map Prod.fst := by
  have hkeys := (@foldl_push κ α cmp _ _ _ pairs [] List.Pairwise.nil).2.1 k
  rw [groupAll, hkeys]
  simp

/-- The group of each key has the elements with this key, in their order. -/
theorem groupAll_eq (pairs : List (κ × α)) :
    groupAll cmp pairs = ((groupAll cmp pairs).map Prod.fst).map fun k =>
      (k, (pairs.filter fun p => p.1 = k).map Prod.snd) := by
  have hmembers := (@foldl_push κ α cmp _ _ _ pairs [] List.Pairwise.nil).2.2
  conv_lhs => rw [eq_map_membersOf (ascending_groupAll pairs)]
  refine map_congr_left fun k _ => ?_
  rw [groupAll, hmembers k]
  rfl

end

/-- The groups together are the list. -/
theorem flatMap_filter_perm (f : β → κ) (hnodup : keys.Nodup) {xs : List β}
    (hmem : ∀ x ∈ xs, f x ∈ keys) : (keys.flatMap fun k => xs.filter fun x => f x = k).Perm xs := by
  induction keys generalizing xs with
  | nil =>
    cases xs with
    | nil => exact .nil
    | cons x xs => exact absurd (hmem x (.head _)) not_mem_nil
  | cons k keys ih =>
    obtain ⟨hk, hnodup⟩ := nodup_cons.mp hnodup
    -- the later groups are those of the elements with another key
    have hrest : (keys.flatMap fun l => xs.filter fun x => f x = l) =
        keys.flatMap fun l => (xs.filter fun x => !decide (f x = k)).filter fun x => f x = l := by
      refine flatMap_congr fun l hl => ?_
      rw [filter_filter]
      refine filter_congr fun x _ => ?_
      by_cases hx : f x = l
      · have hne : ¬ l = k := fun h => hk (h ▸ hl)
        simp [hx, hne]
      · simp [hx]
    rw [flatMap_cons, hrest]
    refine (List.Perm.append_left _ (ih hnodup fun x hx => ?_)).trans
      (filter_append_perm _ xs)
    obtain ⟨hx, hne⟩ := mem_filter.mp hx
    exact (mem_cons.mp (hmem x hx)).resolve_left (by simpa using hne)

end Grouping

end Archon
