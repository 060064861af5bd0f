import Mathlib.Data.List.Nodup
import Mathlib.Data.List.Perm.Basic

/-!
# Archon.Lib.RoundRobin

A queue that takes turns: the member at the front has its turn, and goes to
the back or leaves; new members join at the back.

Members that are all different keep their place in the round, so between two
turns of one of them everybody waiting with it has exactly one
(`between_turns`).
-/

namespace Archon

open List

inductive Turn (α : Type) where
  | join (x : α)
  | stay (x : α)
  | leave (x : α)
  deriving DecidableEq

namespace Turn

variable {α : Type}

/-- The members that join, in order. -/
def joins : List (Turn α) → List α
  | [] => []
  | .join x :: turns => x :: joins turns
  | _ :: turns => joins turns

/-- The members that leave, in order. -/
def leaves : List (Turn α) → List α
  | [] => []
  | .leave x :: turns => x :: leaves turns
  | _ :: turns => leaves turns

/-- The members that have a turn, in order. -/
def taken : List (Turn α) → List α
  | [] => []
  | .join _ :: turns => taken turns
  | .stay x :: turns => x :: taken turns
  | .leave x :: turns => x :: taken turns

section

variable (ts us : List (Turn α))

theorem joins_append : joins (ts ++ us) = joins ts ++ joins us := by
  induction ts with
  | nil => rfl
  | cons t ts ih => cases t <;> simp [joins, ih]

theorem leaves_append : leaves (ts ++ us) = leaves ts ++ leaves us := by
  induction ts with
  | nil => rfl
  | cons t ts ih => cases t <;> simp [leaves, ih]

theorem taken_append : taken (ts ++ us) = taken ts ++ taken us := by
  induction ts with
  | nil => rfl
  | cons t ts ih => cases t <;> simp [taken, ih]

end

theorem mem_leaves {ts : List (Turn α)} {x : α} : x ∈ leaves ts ↔ .leave x ∈ ts := by
  induction ts with
  | nil => simp [leaves]
  | cons t ts ih => cases t <;> simp [leaves, ih]

end Turn

open Turn

section

variable {α : Type}

/-- The queue after these turns. -/
inductive Rotates : List α → List (Turn α) → List α → Prop where
  | done (queue : List α) : Rotates queue [] queue
  | join {queue queue' : List α} {turns : List (Turn α)} (x : α) :
      Rotates (queue ++ [x]) turns queue' → Rotates queue (.join x :: turns) queue'
  | stay {queue queue' : List α} {turns : List (Turn α)} (x : α) :
      Rotates (queue ++ [x]) turns queue' → Rotates (x :: queue) (.stay x :: turns) queue'
  | leave {queue queue' : List α} {turns : List (Turn α)} (x : α) :
      Rotates queue turns queue' → Rotates (x :: queue) (.leave x :: turns) queue'

namespace Rotates

variable {queue queue' queue'' : List α} {ts us : List (Turn α)} {x : α}

theorem append (h : Rotates queue ts queue') (h' : Rotates queue' us queue'') :
    Rotates queue (ts ++ us) queue'' := by
  induction h with
  | done => exact h'
  | join x _ ih => exact .join x (ih h')
  | stay x _ ih => exact .stay x (ih h')
  | leave x _ ih => exact .leave x (ih h')

theorem split (h : Rotates queue (ts ++ us) queue'') :
    ∃ queue', Rotates queue ts queue' ∧ Rotates queue' us queue'' := by
  induction ts generalizing queue with
  | nil => exact ⟨queue, .done queue, h⟩
  | cons t ts ih =>
    cases h with
    | join x h =>
      obtain ⟨q, hq, hq'⟩ := ih h
      exact ⟨q, .join x hq, hq'⟩
    | stay x h =>
      obtain ⟨q, hq, hq'⟩ := ih h
      exact ⟨q, .stay x hq, hq'⟩
    | leave x h =>
      obtain ⟨q, hq, hq'⟩ := ih h
      exact ⟨q, .leave x hq, hq'⟩

/-- Only members have turns. -/
theorem taken_subset (h : Rotates queue ts queue') : taken ts ⊆ queue ++ joins ts := by
  induction h with
  | done => exact nil_subset _
  | join x _ ih => simpa [taken, joins] using ih
  | stay x _ ih =>
    intro y hy
    have hmem := @ih y
    simp only [taken, mem_cons, mem_append] at hy hmem ⊢
    tauto
  | leave x _ ih =>
    intro y hy
    have hmem := @ih y
    simp only [taken, mem_cons, cons_append] at hy hmem ⊢
    tauto

theorem take_length_of_append {taken : List α} {x : α}
    (h : taken.take (queue ++ [x]).length = (queue ++ [x]).take taken.length) :
    taken.take queue.length = queue.take taken.length := by
  have hleft : (taken.take (queue ++ [x]).length).take queue.length = taken.take queue.length := by
    simp [take_take]
  have hright : ((queue ++ [x]).take taken.length).take queue.length = queue.take taken.length := by
    simp [take_take, take_append_of_le_length (Nat.min_le_left _ _), Nat.min_comm]
  rw [← hleft, h, hright]

/-- The first round of turns is the queue, in order. -/
theorem taken_take (h : Rotates queue ts queue') :
    (taken ts).take queue.length = queue.take (taken ts).length := by
  induction h with
  | done => simp [taken]
  | join x _ ih => exact take_length_of_append ih
  | stay x _ ih => simpa [taken] using take_length_of_append ih
  | leave x _ ih => simpa [taken] using ih

section

variable [DecidableEq α]

variable (h : Rotates queue ts queue') (hnodup : (queue ++ joins ts).Nodup)
include h hnodup

/-- Who is waiting: those who have joined and not left, each of them once. -/
theorem perm : queue'.Perm ((queue ++ joins ts).filter fun x => x ∉ leaves ts) := by
  induction h with
  | done => simp [joins, leaves]
  | @join queue _ ts x _ ih =>
    have hmove : queue ++ [x] ++ joins ts = queue ++ joins (.join x :: ts) := by simp [joins]
    rw [hmove] at ih
    exact ih hnodup
  | @stay queue _ ts x _ ih =>
    have hmove : (queue ++ [x] ++ joins ts).Perm (x :: queue ++ joins ts) :=
      (perm_append_singleton x queue).append_right _
    exact (ih (hmove.nodup_iff.mpr hnodup)).trans (hmove.filter _)
  | @leave queue _ ts x _ ih =>
    have hnot : x ∉ queue ++ joins ts := (nodup_cons.mp hnodup).1
    refine (ih (nodup_cons.mp hnodup).2).trans (.of_eq ?_)
    show _ = ((x :: (queue ++ joins ts)).filter fun y => y ∉ x :: leaves ts)
    rw [filter_cons_of_neg (by simp)]
    refine filter_congr fun y hy => ?_
    have hne : y ≠ x := fun heq => hnot (heq ▸ hy)
    simp [hne]

theorem nodup :
    queue'.Nodup := (h.perm hnodup).nodup_iff.mpr (hnodup.filter _)

end

/-- Who has left has no more turns. -/
theorem not_taken_after_leave (h : Rotates queue (ts ++ .leave x :: us) queue')
    (hnodup : (queue ++ joins (ts ++ .leave x :: us)).Nodup) : x ∉ taken us := by
  classical
  obtain ⟨q, hq, hq'⟩ := h.split
  cases hq' with
  | @leave q _ _ _ hrest =>
    rw [joins_append, ← append_assoc] at hnodup
    have hmembers : ((x :: q) ++ joins us).Nodup := by
      have hperm := hq.perm (nodup_append.mp hnodup).1
      have hsub : ((queue ++ joins ts).filter (fun x => x ∉ leaves ts) ++ joins us).Sublist
          (queue ++ joins ts ++ joins us) := filter_sublist.append_right _
      exact (hperm.append_right _).nodup_iff.mpr (hsub.nodup hnodup)
    exact fun hx => (nodup_cons.mp hmembers).1 (hrest.taken_subset hx)

/-- Between two turns of a member the others that were waiting at the first
have exactly one each. -/
theorem between_turns {waiting : List α} {t : Turn α}
    (h : Rotates (x :: waiting) (.stay x :: (ts ++ t :: us)) queue') (ht : taken [t] = [x])
    (hx : x ∉ waiting) (hbetween : x ∉ taken ts) : taken ts = waiting := by
  cases h with
  | stay _ h =>
    rw [append_cons ts t us] at h
    obtain ⟨q, hq, -⟩ := h.split
    have hround := hq.taken_take
    rw [taken_append, ht] at hround
    simp only [length_append, length_singleton] at hround
    -- fewer turns than members waiting, or more, would put `x` among them
    obtain hlt | heq | hgt := Nat.lt_trichotomy (taken ts).length waiting.length
    · rw [take_of_length_le (l := taken ts ++ [x]) (by simp; omega),
        take_append_of_le_length (by omega)] at hround
      have hmem : x ∈ waiting.take ((taken ts).length + 1) := hround ▸ (by simp)
      exact absurd (mem_of_mem_take hmem) hx
    · rw [take_of_length_le (l := taken ts ++ [x]) (by simp; omega),
        take_of_length_le (l := waiting ++ [x]) (by simp; omega)] at hround
      exact append_cancel_right hround
    · rw [take_append_of_le_length (by omega),
        take_of_length_le (l := waiting ++ [x]) (by simp; omega)] at hround
      have hmem : x ∈ (taken ts).take (waiting.length + 1) := hround ▸ (by simp)
      exact absurd (mem_of_mem_take hmem) hbetween

end Rotates

end

end Archon
