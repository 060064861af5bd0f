import Archon.Core.BTreeFill
import Mathlib.Algebra.BigOperators.Fin
import Mathlib.Algebra.Order.BigOperators.Group.Finset

/-!
# Archon.Core.BTreeBalance

The height of a B-Link tree.  All leaves are on one level (`LeavesAt`), no
node is a child twice, and every internal node below the root has at least
`mid + 1` children; so a tree of `d` levels has `2 * (mid + 1) ^ (d - 2)`
leaves or more, each of which took `mid` insertions.
-/

namespace Archon

open BTree Finset

variable {v : NodeId}
variable {t : BTree} {g : Ghost}

/-! ## Levels -/

/-- `v` is the `i`-th node on a way down from the root. -/
inductive BTree.At (t : BTree) : Nat → NodeId → Prop
  | root : At t 1 t.root
  | child {i : Nat} {v c : NodeId} {n : Node} (parent : At t i v) (node : t.nodes[v]? = some n)
      (mem : c ∈ n.children) : At t (i + 1) c

/-- `v` is a leaf. -/
def BTree.IsLeaf (t : BTree) (v : NodeId) : Prop :=
  ∃ keys vals right highKey, t.nodes[v]? = some (.leaf keys vals right highKey)

/-- The tree has `d` levels: there is a leaf on the `d`-th and none on any
other. -/
def BTree.LeavesAt (t : BTree) (d : Nat) : Prop :=
  (∃ v, t.At d v ∧ t.IsLeaf v) ∧ ∀ i v, t.At i v → t.IsLeaf v → i = d

section

variable (h : WF t g)
include h

theorem WF.level_at {i : Nat} (hat : t.At i v) :
    v < t.nodes.length ∧ g.level v + i = g.level t.root + 1 := by
  induction hat with
  | root => exact ⟨h.root_lt, rfl⟩
  | child _ hn hmem ih =>
    obtain ⟨hlt, hlevel⟩ := (h.node _ _ hn).children_spec hmem
    exact ⟨hlt, by omega⟩

theorem WF.level_of_isLeaf (hleaf : t.IsLeaf v) : g.level v = 0 := by
  obtain ⟨keys, vals, right, highKey, hn⟩ := hleaf
  cases h.node v _ hn with
  | leaf es _ _ level => exact level

theorem WF.leaf_or_child (hv : v < t.nodes.length) :
    t.IsLeaf v ∨ ∃ n c, t.nodes[v]? = some n ∧ c ∈ n.children := by
  rcases h.shape hv with ⟨es, right, highKey, hn⟩ | ⟨c, es, right, highKey, hn⟩
  · exact .inl ⟨_, _, _, _, hn⟩
  · exact .inr ⟨_, c, hn, List.mem_cons_self⟩

/-- Going down ends at a leaf. -/
theorem WF.exists_leaf_at {i : Nat} (hat : t.At i v) : ∃ j u, t.At j u ∧ t.IsLeaf u := by
  induction hl : g.level v generalizing i v with
  | zero =>
    obtain ⟨es, right, highKey, hn⟩ := h.leaf_of_level (h.level_at hat).1 hl
    exact ⟨i, v, hat, _, _, _, _, hn⟩
  | succ l ih =>
    rcases h.leaf_or_child (h.level_at hat).1 with hleaf | ⟨n, c, hn, hc⟩
    · exact ⟨i, v, hat, hleaf⟩
    · have := ((h.node v n hn).children_spec hc).2
      exact ih (hat.child hn hc) (by omega)

theorem WF.leavesAt : t.LeavesAt (g.level t.root + 1) := by
  have hlast : ∀ i v, t.At i v → t.IsLeaf v → i = g.level t.root + 1 := by
    intro i v hat hleaf
    have := h.level_at hat
    have := h.level_of_isLeaf hleaf
    omega
  obtain ⟨j, u, hat, hleaf⟩ := h.exists_leaf_at .root
  cases hlast j u hat hleaf
  exact ⟨⟨u, hat, hleaf⟩, hlast⟩

/-! ## The walk of get -/

/-- From a node that covers the key, `get` ends or goes down to a child that
covers it: the right-links are not needed. -/
theorem WF.getBody_covers {k : Key} (hv : v < t.nodes.length) (hcov : Covers t g v k) :
    (∃ o, t.getBody k v = .ok (.done o)) ∨
      ∃ c, t.getBody k v = .ok (.next c) ∧ (c < t.nodes.length ∧ Covers t g c k) ∧
        g.level c < g.level v := by
  have hn := List.getElem?_eq_getElem hv
  generalize t.nodes[v] = n at hn
  have hok := h.node v n hn
  have hbelow := hcov.2
  rw [BTree.hi_eq hn] at hbelow
  rcases hok.link.beyond k with ⟨hb, _⟩ | ⟨r, _, _, hrk, hhigh, _⟩
  · cases hok with
    | leaf es right highKey _ ascending _ _ => exact .inl ⟨_, getBody_leaf hn hb ascending⟩
    | internal c es right highKey chain children link =>
      obtain ⟨xs, l', c', zs, ys, -, -, hidx, hget, hcov', hlt, hlevel⟩ := h.route hn hcov
      refine .inr ⟨c', ?_, ⟨hlt, hcov'⟩, by omega⟩
      rw [← hidx] at hget
      simp [BTree.getBody, Vec.index_eq hn, hb, Vec.index_eq hget]
  · exact absurd (hbelow _ hhigh) (not_lt.mpr hrk)

/-- `get` visits one node on each level at most. -/
theorem WF.get_within (k : Key) :
    ∃ o, loop .diverged (t.getBody k) (g.level t.root + 1) t.root = .ok o ∧ t.get k = .ok o := by
  have hcov : Covers t g t.root k :=
    ⟨h.root_lo ▸ Nat.zero_le k, by rw [h.root_hi]; exact below_none k⟩
  have hloop : ∃ o, loop .diverged (t.getBody k) (g.level t.root + 1) t.root = .ok o ∧ True := by
    refine loop_spec (fun v => v < t.nodes.length ∧ Covers t g v k) g.level ?_
      ⟨h.root_lt, hcov⟩ (Nat.lt_succ_self _)
    intro v hv
    simpa using h.getBody_covers hv.1 hv.2
  obtain ⟨o, ho, _⟩ := hloop
  exact ⟨o, ho, loop_of_le ho h.level_lt⟩

end

/-! ## Counting -/

/-- The nodes of one level. -/
def onLevel (t : BTree) (g : Ghost) (l : Nat) : Finset NodeId :=
  (range t.nodes.length).filter fun v => g.level v = l

/-- The ids node `v` descends to. -/
def BTree.childrenOf (t : BTree) (v : NodeId) : List NodeId := (t.nodes[v]?).elim [] Node.children

theorem childrenOf_eq {n : Node} (hn : t.nodes[v]? = some n) : t.childrenOf v = n.children := by
  rw [childrenOf, hn]
  rfl

/-- No child is listed twice: their lower bounds ascend. -/
theorem NodeOK.children_nodup {n : Node} (h : NodeOK t g v n) : n.children.Nodup := by
  cases h with
  | leaf => exact .nil
  | internal c es right highKey chain children link =>
    have hlo : ∀ e ∈ (g.lo v, c) :: es, g.lo e.2 = e.1 := by
      intro e he
      obtain ⟨xs, ys, hsplit⟩ := List.append_of_mem he
      rw [hsplit, chain_append] at chain
      exact chain.2.1
    have hasc := chain.ascending.1
    show (((g.lo v, c) :: es).map Prod.snd).Nodup
    rw [List.Nodup, List.pairwise_map]
    refine hasc.imp_of_mem fun ha hb hlt heq => ?_
    rw [← hlo _ ha, ← hlo _ hb, heq] at hlt
    exact lt_irrefl _ hlt

/-- The children of one level are different nodes of the next. -/
theorem WF.sum_children_le (h : WF t g) (l : Nat) :
    ∑ v ∈ onLevel t g (l + 1), (t.childrenOf v).length ≤ (onLevel t g l).card := by
  have hnode : ∀ v ∈ onLevel t g (l + 1), ∃ n, t.nodes[v]? = some n ∧ g.level v = l + 1 := by
    intro v hv
    obtain ⟨hlt, hlevel⟩ := mem_filter.mp hv
    exact ⟨_, List.getElem?_eq_getElem (mem_range.mp hlt), hlevel⟩
  calc ∑ v ∈ onLevel t g (l + 1), (t.childrenOf v).length
      = ∑ v ∈ onLevel t g (l + 1), (t.childrenOf v).toFinset.card := by
        refine sum_congr rfl fun v hv => ?_
        obtain ⟨n, hn, _⟩ := hnode v hv
        simp [List.toFinset_card_of_nodup, childrenOf_eq hn, (h.node v n hn).children_nodup]
    _ = ((onLevel t g (l + 1)).biUnion fun v => (t.childrenOf v).toFinset).card := by
        refine (card_biUnion fun u hu v hv huv => ?_).symm
        obtain ⟨m, hm, _⟩ := hnode u hu
        obtain ⟨n, hn, _⟩ := hnode v hv
        refine disjoint_left.mpr fun c hcu hcv => ?_
        rw [List.mem_toFinset, childrenOf_eq hm] at hcu
        rw [List.mem_toFinset, childrenOf_eq hn] at hcv
        exact huv (h.parent_unique hm hn hcu hcv)
    _ ≤ (onLevel t g l).card := by
        refine card_le_card fun c hc => ?_
        obtain ⟨v, hv, hc⟩ := mem_biUnion.mp hc
        obtain ⟨n, hn, hlevel⟩ := hnode v hv
        rw [List.mem_toFinset, childrenOf_eq hn] at hc
        obtain ⟨hlt, hl⟩ := (h.node v n hn).children_spec hc
        exact mem_filter.mpr ⟨mem_range.mpr hlt, by omega⟩

theorem sum_range_getElem? (f : Node → Nat) (nodes : List Node) :
    ∑ v ∈ range nodes.length, (nodes[v]?).elim 0 f = (nodes.map f).sum := by
  induction nodes with
  | nil => rfl
  | cons n nodes ih => simp [sum_range_succ', ih, Nat.add_comm]

/-- Every leaf accounts for `mid` insertions. -/
theorem mul_card_leaves_le (h : WF t g) : (onLevel t g 0).card * mid ≤ t.weight := by
  calc (onLevel t g 0).card * mid
      ≤ ∑ v ∈ onLevel t g 0, (t.nodes[v]?).elim 0 Node.weight := by
        rw [← smul_eq_mul]
        refine card_nsmul_le_sum _ _ _ fun v hv => ?_
        obtain ⟨hlt, hlevel⟩ := mem_filter.mp hv
        obtain ⟨es, right, highKey, hn⟩ := h.leaf_of_level (mem_range.mp hlt) hlevel
        rw [hn]
        exact Nat.le_max_left ..
    _ ≤ ∑ v ∈ range t.nodes.length, (t.nodes[v]?).elim 0 Node.weight :=
        sum_le_sum_of_subset (filter_subset ..)
    _ = t.weight := sum_range_getElem? Node.weight t.nodes

section

variable {inserts : Nat} (h : WF t g) (hfill : Filled t inserts)

include h hfill

/-- A node above the leaves has as many children as it must. -/
theorem least_le_children (hv : v < t.nodes.length) (hlevel : 0 < g.level v) :
    t.least v ≤ (t.childrenOf v).length := by
  have hn := List.getElem?_eq_getElem hv
  generalize t.nodes[v] = n at hn
  rw [childrenOf_eq hn]
  have hsized := hfill.sized v n hn
  cases h.node v n hn with
  | leaf _ _ _ level => omega
  | internal c es right highKey => exact hsized.2.2

/-- A level below the root's has `mid + 1` nodes for each node above it. -/
theorem card_onLevel_succ {l : Nat} (hl : l + 1 < g.level t.root) :
    (onLevel t g (l + 1)).card * (mid + 1) ≤ (onLevel t g l).card := by
  refine le_trans ?_ (h.sum_children_le l)
  rw [← smul_eq_mul]
  refine card_nsmul_le_sum _ _ _ fun v hv => ?_
  obtain ⟨hlt, hlevel⟩ := mem_filter.mp hv
  have hle := least_le_children h hfill (mem_range.mp hlt) (by omega)
  have hne : v ≠ t.root := by
    rintro rfl
    omega
  rwa [least, if_neg hne] at hle

/-- The level below the root has two nodes or more. -/
theorem card_onLevel_root {l : Nat} (hl : l + 1 = g.level t.root) : 2 ≤ (onLevel t g l).card := by
  have hmem : t.root ∈ onLevel t g (l + 1) :=
    mem_filter.mpr ⟨mem_range.mpr h.root_lt, hl.symm⟩
  calc 2 = t.least t.root := by rw [least, if_pos rfl]
    _ ≤ (t.childrenOf t.root).length := least_le_children h hfill h.root_lt (by omega)
    _ ≤ ∑ v ∈ onLevel t g (l + 1), (t.childrenOf v).length :=
        single_le_sum (f := fun v => (t.childrenOf v).length) (fun _ _ => Nat.zero_le _) hmem
    _ ≤ (onLevel t g l).card := h.sum_children_le l

theorem card_onLevel {j l : Nat} (hl : l + j + 1 = g.level t.root) :
    2 * (mid + 1) ^ j ≤ (onLevel t g l).card := by
  induction j generalizing l with
  | zero => simpa using card_onLevel_root h hfill hl
  | succ j ih =>
    calc 2 * (mid + 1) ^ (j + 1) = 2 * (mid + 1) ^ j * (mid + 1) := by
          rw [Nat.pow_succ, Nat.mul_assoc]
      _ ≤ (onLevel t g (l + 1)).card * (mid + 1) :=
          Nat.mul_le_mul_right _ (ih (by omega))
      _ ≤ (onLevel t g l).card := card_onLevel_succ h hfill (by omega)

theorem inserts_of_levels {d : Nat} (hd : g.level t.root = d + 1) :
    2 * mid * (mid + 1) ^ d ≤ inserts := by
  have hcard : 2 * (mid + 1) ^ d ≤ (onLevel t g 0).card := card_onLevel h hfill (by omega)
  have hweight := mul_card_leaves_le h
  have hle := hfill.weight
  have hmid : mid = 32 := rfl
  grind

end

/-! ## Balance -/

/-- However a tree was built, its leaves are on one level, its nodes are
filled as a B-Link tree's should be, a tree of `d` levels took
`64 * 33 ^ (d - 2)` insertions at least, and `get`, given fuel for `d` nodes,
returns. -/
theorem run_balanced (ops : List TreeOp) :
    ∃ t d, BTree.new.run ops = .ok t ∧ t.LeavesAt d ∧
      (∀ n ∈ t.nodes, n.keys.length ≤ 64) ∧
      (∀ v keys children right highKey,
        t.nodes[v]? = some (.internal keys children right highKey) → v ≠ t.root →
          33 ≤ children.length ∧ children.length ≤ 65) ∧
      (2 ≤ d → 64 * 33 ^ (d - 2) ≤ ops.countP TreeOp.isInsert) ∧
      ∀ k, ∃ o, loop .diverged (t.getBody k) d t.root = .ok o ∧ t.get k = .ok o := by
  obtain ⟨t, g, hrun, hrep, _⟩ := represents_new.run ops
  have hfill := run_filled filled_new hrun
  rw [Nat.zero_add] at hfill
  refine ⟨t, g.level t.root + 1, hrun, hrep.wf.leavesAt, ?_, ?_, ?_, hrep.wf.get_within⟩
  · intro n hn
    obtain ⟨v, hv⟩ := List.getElem?_of_mem hn
    have hsized := hfill.sized v n hv
    cases n with
    | leaf => exact hsized
    | internal => exact hsized.1
  · intro v keys children right highKey hn hv
    obtain ⟨hcap, harity, hleast⟩ := hfill.sized v _ hn
    rw [least, if_neg hv] at hleast
    rw [NODE_CAPACITY] at hcap
    exact ⟨hleast, by omega⟩
  · intro hd
    exact inserts_of_levels hrep.wf hfill (by omega)

end Archon
