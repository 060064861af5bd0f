import Archon.Core.BTreeRefine
import Mathlib.Algebra.Order.BigOperators.Group.List
import Mathlib.Algebra.Order.Group.Nat

/-!
# Archon.Core.BTreeFill

How full the nodes of a B-Link tree are.  An internal node other than the
root has at least `mid + 1` children, because a split leaves that many on
either side and nothing takes a child away.  A leaf may be emptied by
deletions, so leaves are bounded through the calls that made them: each
leaf accounts for `mid` insertions, or for the keys it holds if these are
more (`BTree.weight`).
-/

namespace Archon

open Vec List

variable {t t' : BTree} {inserts : Nat} {p : NodeId}

/-! ## Sizes -/

/-- At most `NODE_CAPACITY` keys and, in an internal node, one child more
than keys and no fewer than `least`. -/
def Node.Sized (least : Nat) : Node → Prop
  | .leaf keys _ _ _ => keys.length ≤ NODE_CAPACITY
  | .internal keys children _ _ => keys.length ≤ NODE_CAPACITY ∧
      children.length = keys.length + 1 ∧ least ≤ children.length

/-- The keys stored in the node. -/
def Node.held : Node → Nat
  | .leaf keys _ _ _ => keys.length
  | .internal .. => 0

/-- The insertions a leaf accounts for. -/
def Node.weight : Node → Nat
  | .leaf keys _ _ _ => max BTree.mid keys.length
  | .internal .. => 0

namespace BTree

def held (t : BTree) : Nat := (t.nodes.map Node.held).sum

def weight (t : BTree) : Nat := (t.nodes.map Node.weight).sum

/-- The fewest children the internal node `v` may have. -/
def least (t : BTree) (v : NodeId) : Nat := if v = t.root then 2 else mid + 1

/-- The invariant of a tree after `inserts` insertions and any number of
deletions.  The first leaf is there before any insertion, hence the `max`. -/
structure Filled (t : BTree) (inserts : Nat) : Prop where
  sized : ∀ (v : NodeId) (n : Node), t.nodes[v]? = some n → n.Sized (t.least v)
  held : t.held ≤ inserts
  weight : t.weight ≤ max inserts mid

end BTree

open BTree

variable {n : Node} {keys : List Key} {vals : List Bytes} {right : Option NodeId}
  {highKey : Option Key} {key : Key} {value : Bytes}

theorem Node.Sized.mono {a b : Nat} (h : n.Sized b) (hab : a ≤ b) : n.Sized a := by
  cases n with
  | leaf => exact h
  | internal => exact ⟨h.1, h.2.1, hab.trans h.2.2⟩

theorem least_le (t : BTree) (v : NodeId) : t.least v ≤ mid + 1 := by
  unfold least
  split <;> decide

theorem filled_new : Filled .new 0 where
  sized v n hn := by
    obtain rfl : v = 0 := Nat.lt_one_iff.mp (lt_of_getElem? hn)
    cases hn
    exact Nat.zero_le _
  held := by decide
  weight := by decide

/-! ## Replacing and splitting a node -/

/-- A sum over the arena after one node was replaced. -/
theorem sum_set (f : Node → Nat) {nodes : List Node} (hn : nodes[p]? = some n) (n' : Node) :
    ((nodes.set p n').map f).sum + f n = (nodes.map f).sum + f n' := by
  induction nodes generalizing p with
  | nil => contradiction
  | cons m nodes ih =>
    cases p with
    | zero => grind
    | succ p =>
      have := ih hn
      simp only [set_cons_succ, map_cons, sum_cons]
      omega

theorem le_held (hn : t.nodes[p]? = some n) : n.held ≤ t.held :=
  le_sum_of_mem (mem_map_of_mem (mem_of_getElem? hn))

section

variable {n n' upper : Node} (h : Filled t inserts) (hn : t.nodes[p]? = some n)

include h hn

/-- A replaced node may account for at most one more insertion, and for that
only if its keys do. -/
theorem BTree.Filled.set (more : Nat) (hsized : n'.Sized (t.least p))
    (hheld : n'.held ≤ n.held + more)
    (hweight : n'.weight ≤ n.weight ∨ n'.weight ≤ n.weight + more ∧ mid ≤ n.held) :
    Filled ⟨t.nodes.set p n', t.root⟩ (inserts + more) where
  sized v m hm := by
    by_cases hv : v = p
    · subst hv
      rw [getElem?_set_self (lt_of_getElem? hn)] at hm
      cases hm
      exact hsized
    · rw [getElem?_set_ne (Ne.symm hv)] at hm
      exact h.sized v m hm
  held := by
    have := sum_set Node.held hn n'
    have := h.held
    grind [BTree.held]
  weight := by
    have := sum_set Node.weight hn n'
    have := h.weight
    have := h.held
    have := le_held hn
    simp only [BTree.weight] at *
    omega

/-- A split puts one node in the place of the old one and a second at the
end. -/
theorem BTree.Filled.split (more : Nat) (hsized : n'.Sized (mid + 1))
    (hupper : upper.Sized (mid + 1)) (hheld : n'.held + upper.held ≤ n.held + more)
    (hweight : n'.weight + upper.weight ≤ n.weight + more) (hmid : more = 0 ∨ mid ≤ n.held) :
    Filled (splitAt t p n' upper) (inserts + more) where
  sized v m hm := by
    rw [getElem?_splitAt (lt_of_getElem? hn)] at hm
    split at hm
    next =>
      cases hm
      exact hsized.mono (least_le _ v)
    next =>
      split at hm
      next =>
        cases hm
        exact hupper.mono (least_le _ v)
      next => exact h.sized v m hm
  held := by
    have := sum_set Node.held hn n'
    have := h.held
    grind [BTree.held, splitAt]
  weight := by
    have := sum_set Node.weight hn n'
    have := h.weight
    have := h.held
    have := le_held hn
    simp only [BTree.weight, splitAt, map_append, sum_append, map_singleton,
      sum_singleton] at *
    omega

end

/-! ## Insertion -/

/-- A node that has just been split off from is fit to be below a new root. -/
def Halved (t : BTree) (p : NodeId) (split : Option (Key × NodeId)) : Prop :=
  split.isSome → ∃ n, t.nodes[p]? = some n ∧ n.Sized (mid + 1)

theorem Halved.splitAt {left upper : Node} (hp : p < t.nodes.length) (h : left.Sized (mid + 1))
    (split : Option (Key × NodeId)) : Halved (splitAt t p left upper) p split := by
  intro _
  exact ⟨left, by rw [getElem?_splitAt hp, if_pos rfl], h⟩

theorem splitAt_set (n left upper : Node) :
    splitAt ⟨t.nodes.set p n, t.root⟩ p left upper = splitAt t p left upper := by
  simp [splitAt]

/-- What a leaf with one key too many is split into. -/
theorem splitLeaf_inv {split : Key × NodeId} (hp : p < t.nodes.length)
    (h : splitLeaf ⟨t.nodes.set p (.leaf keys vals right highKey), t.root⟩ p = .ok (split, t')) :
    ∃ lower upper right' highKey',
      t' = splitAt t p (.leaf (keys.take mid) lower right' highKey')
        (.leaf (keys.drop mid) upper right highKey) := by
  simp only [splitLeaf, index_eq (getElem?_set_self hp), Except.ok_bind] at h
  obtain ⟨⟨lo, hi⟩, hkeys, h⟩ := h.bind_ok
  obtain ⟨⟨lower, upper⟩, _, h⟩ := h.bind_ok
  obtain ⟨sep, _, h⟩ := h.bind_ok
  obtain ⟨_, rfl, rfl⟩ := splitOff_eq_ok.mp hkeys
  cases h
  exact ⟨lower, upper, _, _, splitAt_set ..⟩

theorem splitInternal_inv {children : List NodeId} {split : Key × NodeId} (hp : p < t.nodes.length)
    (h : splitInternal ⟨t.nodes.set p (.internal keys children right highKey), t.root⟩ p =
      .ok (split, t')) :
    ∃ right' highKey',
      t' = splitAt t p
        (.internal (keys.take (mid + 1)).dropLast (children.take (mid + 1)) right' highKey')
        (.internal (keys.drop (mid + 1)) (children.drop (mid + 1)) right highKey) := by
  simp only [splitInternal, index_eq (getElem?_set_self hp), Except.ok_bind] at h
  obtain ⟨sep, _, h⟩ := h.bind_ok
  obtain ⟨⟨lo, hi⟩, hkeys, h⟩ := h.bind_ok
  obtain ⟨⟨lower, upper⟩, hchildren, h⟩ := h.bind_ok
  obtain ⟨_, rfl, rfl⟩ := splitOff_eq_ok.mp hkeys
  obtain ⟨_, rfl, rfl⟩ := splitOff_eq_ok.mp hchildren
  cases h
  exact ⟨_, _, splitAt_set ..⟩

section

variable (h : Filled t inserts)
include h

variable {split : Option (Key × NodeId)}

theorem insertLeaf_filled (hn : t.nodes[p]? = some (.leaf keys vals right highKey))
    (hins : t.insertLeaf key value p keys vals right highKey = .ok (split, t')) :
    Filled t' (inserts + 1) ∧ t'.root = t.root ∧ Halved t' p split := by
  have hcap : keys.length ≤ NODE_CAPACITY := h.sized p _ hn
  unfold insertLeaf at hins
  split at hins
  next i hi =>
    -- the key is there: only the value changes
    obtain ⟨vals', _, hins⟩ := hins.bind_ok
    cases hins
    exact ⟨h.set hn 1 hcap (Nat.le_succ _) (.inl (Nat.le_refl _)), rfl, by simp [Halved]⟩
  next i hi =>
    obtain ⟨keys', hkeys, hins⟩ := hins.bind_ok
    obtain ⟨vals', _, hins⟩ := hins.bind_ok
    have hlen := length_of_insert hkeys
    split at hins
    next hfull =>
      obtain ⟨⟨s, t₁⟩, hsplit, hins⟩ := hins.bind_ok
      obtain ⟨lower, upper, right', highKey', rfl⟩ := splitLeaf_inv (lt_of_getElem? hn) hsplit
      cases hins
      have hl : (keys'.take mid).length = 32 := by simp [mid, NODE_CAPACITY] at *; omega
      have hu : (keys'.drop mid).length = 33 := by simp [NODE_CAPACITY] at *; omega
      refine ⟨h.split hn 1 ?_ ?_ ?_ ?_ ?_, rfl, .splitAt (lt_of_getElem? hn) ?_ _⟩
      all_goals simp only [Node.Sized, Node.held, Node.weight, mid, NODE_CAPACITY] at *
      all_goals omega
    next hroom =>
      cases hins
      refine ⟨h.set hn 1 ?_ ?_ ?_, rfl, by simp [Halved]⟩ <;>
        simp only [Node.Sized, Node.held, Node.weight] <;> omega

theorem insertChild_filled {sep : Key} {rightId : NodeId}
    (hins : t.insertChild p sep rightId = .ok (split, t')) :
    Filled t' inserts ∧ t'.root = t.root ∧ Halved t' p split := by
  obtain ⟨n, hn, hins⟩ := hins.bind_ok
  rw [index_eq_ok] at hn
  cases n with
  | leaf =>
    cases hins
    exact ⟨h, rfl, by simp [Halved]⟩
  | internal keys children right highKey =>
    obtain ⟨hcap, harity, hleast⟩ := h.sized p _ hn
    obtain ⟨keys', hkeys, hins⟩ := hins.bind_ok
    obtain ⟨children', hchildren, hins⟩ := hins.bind_ok
    have hklen := length_of_insert hkeys
    have hclen := length_of_insert hchildren
    split at hins
    next hfull =>
      obtain ⟨⟨s, t₁⟩, hsplit, hins⟩ := hins.bind_ok
      obtain ⟨right', highKey', rfl⟩ := splitInternal_inv (lt_of_getElem? hn) hsplit
      cases hins
      have hl : ((keys'.take (mid + 1)).dropLast).length = 32 := by
        simp [mid, NODE_CAPACITY] at *; omega
      have hu : (keys'.drop (mid + 1)).length = 32 := by simp [NODE_CAPACITY] at *; omega
      have hcl : (children'.take (mid + 1)).length = 33 := by
        simp at *; omega
      have hcu : (children'.drop (mid + 1)).length = 33 := by
        simp at *; omega
      refine ⟨h.split hn 0 ?_ ?_ ?_ ?_ ?_, rfl, .splitAt (lt_of_getElem? hn) ?_ _⟩
      all_goals simp only [Node.Sized, Node.held, Node.weight, hl, hu, hcl, hcu]
      all_goals decide
    next hroom =>
      cases hins
      have hsized : (Node.internal keys' children' right highKey).Sized (t.least p) :=
        ⟨by omega, by omega, by omega⟩
      exact ⟨h.set hn 0 hsized (Nat.le_refl _) (.inl (Nat.le_refl _)), rfl, by simp [Halved]⟩

theorem insertRec_filled {fuel : Nat} (hins : t.insertRec key value fuel p = .ok (split, t')) :
    Filled t' (inserts + 1) ∧ t'.root = t.root ∧ Halved t' p split := by
  induction fuel generalizing p split t' with
  | zero => contradiction
  | succ fuel ih =>
    obtain ⟨n, hn, hins⟩ := hins.bind_ok
    rw [index_eq_ok] at hn
    cases n with
    | leaf keys vals right highKey => exact insertLeaf_filled h hn hins
    | internal keys children right highKey =>
      obtain ⟨c, _, hins⟩ := hins.bind_ok
      obtain ⟨⟨s, t₁⟩, hrec, hins⟩ := hins.bind_ok
      obtain ⟨hfilled, hroot, _⟩ := ih hrec
      cases s with
      | none =>
        cases hins
        exact ⟨hfilled, hroot, by simp [Halved]⟩
      | some s =>
        obtain ⟨hfilled', hroot', hhalved⟩ := insertChild_filled hfilled hins
        exact ⟨hfilled', hroot'.trans hroot, hhalved⟩

theorem insert_filled (hins : t.insert key value = .ok t') : Filled t' (inserts + 1) := by
  obtain ⟨⟨s, t₁⟩, hrec, hins⟩ := hins.bind_ok
  obtain ⟨hfilled, hroot, hhalved⟩ := insertRec_filled h hrec
  cases s with
  | none =>
    cases hins
    exact hfilled
  | some s =>
    cases hins
    refine ⟨fun v m hm => ?_, ?_, ?_⟩
    · rw [getElem?_push] at hm
      split at hm
      next hv => grind [Node.Sized, least, NODE_CAPACITY]
      next hv =>
        rw [least, if_neg hv]
        by_cases hvr : v = t₁.root
        · -- the old root has been split
          obtain ⟨n, hn, hsized⟩ := hhalved rfl
          rw [hvr, hroot, hn] at hm
          cases hm
          exact hsized
        · have := hfilled.sized v m hm
          rwa [least, if_neg hvr] at this
    · simpa [BTree.held, Node.held] using hfilled.held
    · simpa [BTree.weight, Node.weight] using hfilled.weight

/-! ## Deletion and runs -/

theorem delete_filled {o : Option Bytes} (hdel : t.delete key = .ok (o, t')) :
    Filled t' inserts := by
  obtain ⟨u, hu⟩ := exists_done hdel
  obtain ⟨n, hn, hu⟩ := hu.bind_ok
  rw [index_eq_ok] at hn
  split at hu
  next => cases hu
  next =>
    cases n with
    | internal keys children right highKey =>
      obtain ⟨c, _, hu⟩ := hu.bind_ok
      cases hu
    | leaf keys vals right highKey =>
      dsimp only at hu
      split at hu
      next i _ =>
        obtain ⟨⟨k, keys'⟩, hkeys, hu⟩ := hu.bind_ok
        obtain ⟨⟨b, vals'⟩, _, hu⟩ := hu.bind_ok
        cases hu
        have hlen := length_of_remove hkeys
        have hcap : keys.length ≤ NODE_CAPACITY := h.sized u _ hn
        refine h.set hn 0 ?_ ?_ (.inl ?_) <;>
          simp only [Node.Sized, Node.held, Node.weight] <;> omega
      next =>
        cases hu
        exact h

end

def TreeOp.isInsert : TreeOp → Bool
  | .insert .. => true
  | .delete _ => false

theorem run_filled (h : Filled t inserts) {ops : List TreeOp} (hrun : t.run ops = .ok t') :
    Filled t' (inserts + ops.countP TreeOp.isInsert) := by
  induction ops generalizing t inserts with
  | nil =>
    cases hrun
    exact h
  | cons op ops ih =>
    obtain ⟨t₁, hop, hops⟩ := hrun.bind_ok
    cases op with
    | insert key value =>
      have := ih (insert_filled h hop) hops
      rwa [countP_cons_of_pos rfl, Nat.add_comm (ops.countP _), ← Nat.add_assoc]
    | delete key =>
      obtain ⟨⟨o, t₂⟩, hdel, hop⟩ := hop.bind_ok
      cases hop
      exact ih (delete_filled h hdel) hops

end Archon
