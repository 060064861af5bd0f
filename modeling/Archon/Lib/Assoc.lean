/-!
# Archon.Lib.Assoc

Association lists in which the first entry of a key counts, as
`List.lookup` reads them.
-/

namespace Archon

open List

/-- Change the value of the first entry with key `k`. -/
def modifyKey [BEq κ] (k : κ) (f : ν → ν) : List (κ × ν) → List (κ × ν)
  | [] => []
  | (c, v) :: l => if c == k then (c, f v) :: l else (c, v) :: modifyKey k f l

theorem map_fst_modifyKey [BEq κ] (k : κ) (f : ν → ν) (l : List (κ × ν)) :
    (modifyKey k f l).map Prod.fst = l.map Prod.fst := by
  induction l with
  | nil => rfl
  | cons e l ih => by_cases h : e.1 == k <;> simp [modifyKey, h, ih]

section

variable {κ ν μ : Type} [DecidableEq κ]

theorem lookup_cons_eq (c : κ) (e : κ × ν) (l : List (κ × ν)) :
    (e :: l).lookup c = if c = e.1 then some e.2 else l.lookup c := by
  grind

theorem lookup_modifyKey (k c : κ) (f : ν → ν) (l : List (κ × ν)) :
    (modifyKey k f l).lookup c = if c = k then (l.lookup c).map f else l.lookup c := by
  induction l with
  | nil => simp [modifyKey]
  | cons e l ih =>
    by_cases hk : e.1 = k
    · by_cases hc : c = k <;> simp [modifyKey, lookup_cons_eq, hk, hc]
    · by_cases hc : c = e.1
      · simp [modifyKey, lookup_cons_eq, hk, hc]
      · simp [modifyKey, lookup_cons_eq, hk, hc, ih]

variable {l : List (κ × ν)}

theorem modifyKey_of_lookup {k : κ} {v : ν} (h : l.lookup k = some v) :
    modifyKey k (fun _ => v) l = l := by
  induction l with
  | nil => rfl
  | cons e l ih =>
    obtain ⟨c, w⟩ := e
    rw [lookup_cons_eq] at h
    by_cases hc : c = k
    · simp_all [modifyKey]
    · rw [if_neg (Ne.symm hc)] at h
      simp [modifyKey, hc, ih h]

theorem lookup_append (l l' : List (κ × ν)) (c : κ) :
    (l ++ l').lookup c = (l.lookup c).or (l'.lookup c) := by
  induction l with
  | nil => simp
  | cons e l ih => by_cases hc : c = e.1 <;> simp [lookup_cons_eq, hc, ih]

/-- Mapping the values, with their keys. -/
theorem lookup_map (f : κ → ν → μ) (l : List (κ × ν)) (c : κ) :
    (l.map fun e => (e.1, f e.1 e.2)).lookup c = (l.lookup c).map (f c) := by
  induction l with
  | nil => rfl
  | cons e l ih => by_cases hc : c = e.1 <;> simp [lookup_cons_eq, hc, ih]

theorem mem_of_lookup {c : κ} {v : ν} (h : l.lookup c = some v) : (c, v) ∈ l := by
  induction l with
  | nil => contradiction
  | cons e l ih =>
    obtain ⟨d, w⟩ := e
    rw [lookup_cons_eq] at h
    split at h
    · next hc => simp_all
    · exact mem_cons_of_mem _ (ih h)

theorem lookup_eq_none {c : κ} (h : c ∉ l.map Prod.fst) : l.lookup c = none := by
  cases hl : l.lookup c with
  | none => rfl
  | some v => exact absurd (mem_map_of_mem (mem_of_lookup hl)) h

theorem lookup_of_mem (hd : (l.map Prod.fst).Nodup) {c : κ} {v : ν} (h : (c, v) ∈ l) :
    l.lookup c = some v := by
  induction l with
  | nil => contradiction
  | cons e l ih =>
    rw [map_cons, nodup_cons] at hd
    rcases mem_cons.mp h with rfl | h
    · simp
    · have hc : c ≠ e.1 := fun hc => hd.1 (hc ▸ mem_map_of_mem h)
      simp [lookup_cons_eq, hc, ih hd.2 h]

/-- Lists with the same distinct keys and the same values are the same. -/
theorem eq_of_lookup {l' : List (κ × ν)} (hk : l.map Prod.fst = l'.map Prod.fst)
    (hd : (l.map Prod.fst).Nodup) (h : ∀ c ∈ l.map Prod.fst, l.lookup c = l'.lookup c) :
      l = l' := by
  induction l generalizing l' with
  | nil =>
    cases l' with
    | nil => rfl
    | cons e l' => cases hk
  | cons e l ih =>
    cases l' with
    | nil => cases hk
    | cons e' l' =>
      rw [map_cons, map_cons, List.cons.injEq] at hk
      rw [map_cons, nodup_cons] at hd
      have hv : e.2 = e'.2 := by
        simpa [lookup_cons_eq, hk.1] using h e.1 (by simp)
      have he : e = e' := Prod.ext hk.1 hv
      rw [he, ih hk.2 hd.2 fun c hc => ?_]
      have hne : c ≠ e.1 := fun heq => hd.1 (heq ▸ hc)
      simpa [lookup_cons_eq, hne, hk.1 ▸ hne] using h c (.tail _ hc)

end

end Archon
