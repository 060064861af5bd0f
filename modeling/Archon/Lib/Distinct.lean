import Mathlib.Logic.Basic

/-!
# Archon.Lib.Distinct

Partial maps whose entries do not clash in pairs: the uniqueness of keys.
-/

namespace Archon

variable {ι α : Type}

/-- Every entry of `f` is one of `g`. -/
def Submap (f g : ι → Option α) : Prop := ∀ i a, f i = some a → g i = some a

theorem Submap.refl (f : ι → Option α) : Submap f f := fun _ _ h => h

theorem Submap.trans {f g h : ι → Option α} (hfg : Submap f g) (hgh : Submap g h) : Submap f h :=
  fun i a hi => hgh i a (hfg i a hi)

/-- No two entries are related. -/
def Distinct (R : α → α → Prop) (f : ι → Option α) : Prop :=
  ∀ i j a b, i ≠ j → f i = some a → f j = some b → ¬ R a b

variable {R : α → α → Prop} {f g : ι → Option α}

theorem Distinct.submap (h : Distinct R g) (hfg : Submap f g) : Distinct R f :=
  fun i j a b hij hi hj => h i j a b hij (hfg i a hi) (hfg j b hj)

/-- An entry may be replaced by one that clashes with none of the others. -/
theorem Distinct.set (hR : ∀ a b, R a b → R b a) (h : Distinct R f) {i : ι} {a : α}
    (hnew : ∀ j b, j ≠ i → f j = some b → ¬ R a b) (hg : ∀ j, j ≠ i → g j = f j)
    (hi : g i = some a) : Distinct R g := by
  intro j k b c hjk hj hk
  by_cases hji : j = i
  · subst hji
    rw [hi] at hj
    cases hj
    have hkj : k ≠ j := Ne.symm hjk
    rw [hg k hkj] at hk
    exact hnew k c hkj hk
  · rw [hg j hji] at hj
    by_cases hki : k = i
    · subst hki
      rw [hi] at hk
      cases hk
      exact fun hbc => hnew j b hji hj (hR b _ hbc)
    · rw [hg k hki] at hk
      exact h j k b c hjk hj hk

end Archon
