import Archon.Core.BTree
import Archon.Lib.Intervals

/-!
# Archon.Core.BTreeInvariant

The structure a B-Link tree keeps.  Every node covers a key interval from
its lower bound to its high key and sits on a level; both are fixed when the
node is created (`Ghost`).  Leaves hold ascending entries inside their
interval, an internal node's children are the consecutive intervals of its
own (`Chain`), a right-link leads to the node that starts at the high key,
and the intervals of one level do not overlap.
-/

namespace Archon

open List

variable {n : Node} {v : NodeId}

/-! ## Binary search -/

theorem findIdx_append {p : Key → Bool} {xs ys : List Key} (hx : ∀ x ∈ xs, p x = false)
    (hy : ∀ y ∈ ys, p y = true) : (xs ++ ys).findIdx p = xs.length := by
  induction xs with
  | nil =>
    cases ys with
    | nil => rfl
    | cons y ys => simp [findIdx_cons, hy]
  | cons x xs ih =>
    rw [cons_append, findIdx_cons, hx x (.head _),
      ih fun a ha => hx a (.tail _ ha)]
    rfl

theorem binarySearch_found (xs ys : List Key) {key : Key} (hx : ∀ x ∈ xs, x < key)
    (hy : ∀ y ∈ ys, key < y) : binarySearch (xs ++ key :: ys) key = .ok xs.length := by
  have hi : (xs ++ key :: ys).findIdx (fun k => decide (key ≤ k)) = xs.length := by
    refine findIdx_append (fun x hm => decide_eq_false (not_le.mpr (hx x hm))) ?_
    intro y hm
    rcases mem_cons.mp hm with rfl | hm
    · simp
    · exact decide_eq_true (le_of_lt (hy y hm))
  simp [binarySearch, hi]

theorem binarySearch_missing (xs ys : List Key) {key : Key} (hx : ∀ x ∈ xs, x < key)
    (hy : ∀ y ∈ ys, key < y) : binarySearch (xs ++ ys) key = .err xs.length := by
  have hi : (xs ++ ys).findIdx (fun k => decide (key ≤ k)) = xs.length :=
    findIdx_append (fun x hm => decide_eq_false (not_le.mpr (hx x hm)))
      fun y hm => decide_eq_true (le_of_lt (hy y hm))
  have hne : (xs ++ ys)[xs.length]? ≠ some key := by
    rw [getElem?_append_right (Nat.le_refl _)]
    intro h0
    exact absurd (hy key (mem_of_getElem? h0)) (lt_irrefl key)
  simp [binarySearch, hi, hne]

/-- The child index counts the separators up to the key. -/
theorem childIndex_eq {ν : Type} {xs ys : List (Key × ν)} {key : Key} (h : Ascending (xs ++ ys))
    (hx : ∀ x ∈ xs, x.1 ≤ key) (hy : ∀ y ∈ ys, key < y.1) :
    childIndex ((xs ++ ys).map Prod.fst) key = xs.length := by
  have hy' : ∀ y ∈ ys.map Prod.fst, key < y := by simpa using hy
  obtain ⟨hxs, _, _⟩ := pairwise_append.mp h
  rw [map_append]
  rcases eq_nil_or_concat xs with rfl | ⟨zs, e, rfl⟩
  · rw [childIndex, binarySearch_missing _ _ (by simp) hy']
    rfl
  · rw [concat_eq_append] at *
    obtain ⟨_, _, hlt⟩ := pairwise_append.mp hxs
    have hzs : ∀ z ∈ zs.map Prod.fst, z < e.1 := by simpa using hlt
    rw [map_append]
    rcases lt_or_eq_of_le (hx e (by simp)) with he | he
    · rw [childIndex, binarySearch_missing _ _ _ hy']
      · simp
      · intro z hz
        rcases mem_append.mp hz with hz | hz
        · exact lt_trans (hzs z hz) he
        · simp [mem_singleton.mp hz, he]
    · simp [he, childIndex, binarySearch_found _ _ (he ▸ hzs) hy']

/-! ## Ghosts and node shapes -/

/-- What is fixed about a node when it is created: its lower bound and its
level. -/
structure Ghost where
  lo : NodeId → Key
  level : NodeId → Nat

/-- The high key of a node. -/
def BTree.hi (t : BTree) (v : NodeId) : Option Key := (t.nodes[v]?).bind Node.highKey

theorem BTree.hi_eq {t : BTree} (h : t.nodes[v]? = some n) : t.hi v = n.highKey := by
  rw [hi, h]
  rfl

/-- The key/value pairs of a leaf. -/
def Node.entries : Node → List (Key × Bytes)
  | .leaf keys vals _ _ => keys.zip vals
  | .internal .. => []

/-- The pair is stored in some leaf. -/
def BTree.Entry (t : BTree) (k : Key) (b : Bytes) : Prop :=
  ∃ (v : NodeId) (n : Node), t.nodes[v]? = some n ∧ (k, b) ∈ n.entries

theorem zip_map_fst_snd (es : List (α × β)) : (es.map Prod.fst).zip (es.map Prod.snd) = es := by
  induction es with
  | nil => rfl
  | cons e es ih => simp [ih]

variable (t : BTree) (g : Ghost)

/-- A right-link leads to the node of the same level that starts at the high
key; both are present or absent. -/
def LinkOK (v : NodeId) (right : Option NodeId) (highKey : Option Key) : Prop :=
  match right, highKey with
  | none, none => True
  | some r, some h => r < t.nodes.length ∧ g.lo r = h ∧ g.level r = g.level v
  | _, _ => False

/-- The shape of a node: a leaf of ascending entries within its interval, or
children that partition it. -/
inductive NodeOK (v : NodeId) : Node → Prop
  | leaf (es : List (Key × Bytes)) (right : Option NodeId) (highKey : Option Key)
      (level : g.level v = 0) (ascending : Ascending es)
      (bounds : ∀ e ∈ es, g.lo v ≤ e.1 ∧ Below e.1 highKey) (link : LinkOK t g v right highKey) :
      NodeOK v (.leaf (es.map Prod.fst) (es.map Prod.snd) right highKey)
  | internal (c : NodeId) (es : List (Key × NodeId)) (right : Option NodeId)
      (highKey : Option Key) (chain : Chain g.lo t.hi ((g.lo v, c) :: es) highKey)
      (children : ∀ e ∈ (g.lo v, c) :: es, e.2 < t.nodes.length ∧ g.level e.2 + 1 = g.level v)
      (link : LinkOK t g v right highKey) :
      NodeOK v (.internal (es.map Prod.fst) (c :: es.map Prod.snd) right highKey)

/-- The interval of a node contains `k`. -/
def Covers (v : NodeId) (k : Key) : Prop := g.lo v ≤ k ∧ Below k (t.hi v)

/-- The invariant of a tree. -/
structure WF : Prop where
  node : ∀ (v : NodeId) (n : Node), t.nodes[v]? = some n → NodeOK t g v n
  nonempty : ∀ v, v < t.nodes.length → Below (g.lo v) (t.hi v)
  unique : ∀ u v k, u < t.nodes.length → v < t.nodes.length → g.level u = g.level v →
    Covers t g u k → Covers t g v k → u = v
  root_lt : t.root < t.nodes.length
  root_lo : g.lo t.root = 0
  root_hi : t.hi t.root = none
  level_le : ∀ v, v < t.nodes.length → g.level v ≤ g.level t.root
  level_lt : g.level t.root < t.nodes.length

variable {t g}

theorem NodeOK.link (h : NodeOK t g v n) : LinkOK t g v n.right n.highKey := by
  cases h with
  | leaf es right highKey _ _ _ link | internal c es right highKey _ _ link => exact link

/-- A right-link is followed exactly from a high key on. -/
theorem LinkOK.beyond (h : LinkOK t g v n.right n.highKey) (k : Key) :
    (BTree.beyond n k = none ∧ Below k n.highKey) ∨
      ∃ r, BTree.beyond n k = some r ∧ r < t.nodes.length ∧ g.lo r ≤ k ∧ n.highKey = some (g.lo r) ∧
        n.right = some r ∧ g.level r = g.level v := by
  rw [BTree.beyond]
  cases hh : n.highKey with
  | none => exact .inl ⟨rfl, below_none k⟩
  | some x =>
    cases hr : n.right with
    | none => rw [hh, hr] at h; exact h.elim
    | some r =>
      rw [hh, hr] at h
      obtain ⟨hlt, hlo, hlevel⟩ := h
      by_cases hk : k ≥ x
      · refine .inr ⟨r, ?_, hlt, by rw [hlo]; exact hk, by rw [hlo], rfl, hlevel⟩
        simp [hk]
      · refine .inl ⟨?_, (below_some k x).mpr (not_le.mp hk)⟩
        simp [hk]

/-- The entries of a leaf lie in its interval. -/
theorem NodeOK.covers_of_mem (h : NodeOK t g v n) (hn : t.nodes[v]? = some n) {k : Key} {b : Bytes}
    (hm : (k, b) ∈ n.entries) : g.level v = 0 ∧ Covers t g v k := by
  cases h with
  | leaf es right highKey level ascending bounds link =>
    rw [Node.entries, zip_map_fst_snd] at hm
    obtain ⟨hlo, hhi⟩ := bounds _ hm
    exact ⟨level, hlo, by rw [BTree.hi_eq hn]; exact hhi⟩
  | internal c es right highKey _ _ _ => contradiction

/-- The leaf covering a key holds every entry for it. -/
theorem WF.entry_iff (h : WF t g) {k : Key} (hn : t.nodes[v]? = some n) (hlevel : g.level v = 0)
    (hc : Covers t g v k) (b : Bytes) : t.Entry k b ↔ (k, b) ∈ n.entries := by
  constructor
  · rintro ⟨u, m, hm, hmem⟩
    obtain ⟨hlu, hcu⟩ := (h.node u m hm).covers_of_mem hm hmem
    have hlt := (List.getElem?_eq_some_iff.mp hm).1
    have hlt' := (List.getElem?_eq_some_iff.mp hn).1
    have huv := h.unique u v k hlt hlt' (hlu.trans hlevel.symm) hcu hc
    rw [huv, hn] at hm
    cases hm
    exact hmem
  · exact fun hm => ⟨v, n, hn, hm⟩

end Archon
