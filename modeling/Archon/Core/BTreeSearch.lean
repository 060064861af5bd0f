import Archon.Core.BTreeInvariant

/-!
# Archon.Core.BTreeSearch

Walks over a well-formed tree.  From any node whose lower bound is at most
`k`, following right-links and children leads to the one leaf that covers
`k`, in fewer rounds than the arena has nodes.  `getFrom` and `delete` are
such walks; `range` and `len` then follow the leaf chain.
-/

namespace Archon

open BTree SortedMap List

variable {k : Key} {v : NodeId}
variable {t : BTree} {g : Ghost}

theorem lt_of_getElem? {xs : List α} {i : Nat} {a : α} (h : xs[i]? = some a) : i < xs.length :=
  (List.getElem?_eq_some_iff.mp h).1

/-! ## One step -/

/-- The order walks descend in: lower levels first, then further right. -/
def Under (g : Ghost) (u v : NodeId) : Prop :=
  g.level u < g.level v ∨ (g.level u = g.level v ∧ g.lo v < g.lo u)

instance (u v : NodeId) : Decidable (Under g u v) := inferInstanceAs (Decidable (_ ∨ _))

theorem Under.trans (u v w : NodeId) (h : Under g u v) (h' : Under g v w) : Under g u w := by
  rcases h with h | ⟨h, hl⟩ <;> rcases h' with h' | ⟨h', hl'⟩
  · exact .inl (lt_trans h h')
  · exact .inl (h' ▸ h)
  · exact .inl (h ▸ h')
  · exact .inr ⟨h.trans h', lt_trans hl' hl⟩

theorem Under.irrefl (v : NodeId) : ¬ Under g v v := by
  rintro (h | ⟨_, h⟩)
  · omega
  · exact lt_irrefl _ h

/-- The rounds left from a node are bounded by its rank. -/
theorem rank_under {u : NodeId} (hu : u < t.nodes.length) (h : Under g u v) :
    rank t.nodes.length (Under g) u < rank t.nodes.length (Under g) v :=
  rank_lt_rank Under.trans Under.irrefl hu h

theorem rank_lt_length (hv : v < t.nodes.length) :
    rank t.nodes.length (Under g) v < t.nodes.length := rank_lt Under.irrefl hv

/-- Descending by separators reaches the child that covers the key: `zs` are
the separators passed, `ys` those left. -/
theorem route {c : NodeId} {es : List (Key × NodeId)} {highKey : Option Key}
    (hchain : Chain g.lo t.hi ((g.lo v, c) :: es) highKey) (hlo : g.lo v ≤ k)
    (hk : Below k highKey) :
    ∃ xs l' c' zs ys, (g.lo v, c) :: zs = xs ++ [(l', c')] ∧ es = zs ++ ys ∧
      childIndex (es.map Prod.fst) k = zs.length ∧
      (c :: es.map Prod.snd)[zs.length]? = some c' ∧ Covers t g c' k := by
  obtain ⟨xs, l', c', ys, hsplit, hxs, hys, hbelow⟩ := hchain.route hlo hk
  -- drop the first child, which has no separator of its own
  obtain ⟨zs, hzs⟩ : ∃ zs, (g.lo v, c) :: zs = xs ++ [(l', c')] := by
    cases xs with
    | nil => exact ⟨[], by simp at hsplit; simp [hsplit]⟩
    | cons x xs =>
      rw [cons_append, List.cons.injEq] at hsplit
      simp [hsplit.1]
  have hall : (g.lo v, c) :: es = ((g.lo v, c) :: zs) ++ ys := by rw [hsplit, hzs]; simp
  have hes : es = zs ++ ys := (List.cons.inj hall).2
  have hlen : zs.length = xs.length := by
    have := congrArg List.length hzs
    simpa using this
  have hasc := hchain.ascending.1.cons.2
  refine ⟨xs, l', c', zs, ys, hzs, hes, ?_, ?_, ?_⟩
  · rw [hes] at hasc ⊢
    refine childIndex_eq hasc ?_ hys
    intro z hz
    exact hxs z (by rw [← hzs]; exact mem_cons_of_mem _ hz)
  · have : c :: es.map Prod.snd = (xs ++ (l', c') :: ys).map Prod.snd := by rw [← hsplit]; rfl
    rw [this, hlen]
    simp
  · rw [hsplit, chain_append] at hchain
    obtain ⟨_, hlo', hhi', _, _⟩ := hchain
    refine ⟨?_, by rw [hhi']; exact hbelow⟩
    rw [hlo']
    exact hxs (l', c') (by simp)

/-- What a walk for `k` meets at a node whose lower bound is at most `k`. -/
inductive Meets (t : BTree) (g : Ghost) (k : Key) (v : NodeId) (n : Node) : Prop
  /-- The right-link, when the key is beyond the node. -/
  | right (r : NodeId) (beyond : BTree.beyond n k = some r) (lt : r < t.nodes.length)
      (lo : g.lo r ≤ k) (under : Under g r v)
  /-- The covering child of an internal node. -/
  | child (keys : List Key) (children : List NodeId) (right : Option NodeId)
      (highKey : Option Key) (c : NodeId) (eq : n = .internal keys children right highKey)
      (beyond : BTree.beyond n k = none) (index : children[childIndex keys k]? = some c)
      (lt : c < t.nodes.length) (lo : g.lo c ≤ k) (under : Under g c v)
  /-- The covering leaf. -/
  | leaf (es : List (Key × Bytes)) (right : Option NodeId) (highKey : Option Key)
      (eq : n = .leaf (es.map Prod.fst) (es.map Prod.snd) right highKey)
      (beyond : BTree.beyond n k = none) (ascending : Ascending es) (level : g.level v = 0)
      (covers : Covers t g v k)

theorem WF.meets (h : WF t g) (hv : v < t.nodes.length) (hlo : g.lo v ≤ k) :
    ∃ n, t.nodes[v]? = some n ∧ Meets t g k v n := by
  refine ⟨t.nodes[v], getElem?_eq_getElem hv, ?_⟩
  have hn := getElem?_eq_getElem hv
  generalize t.nodes[v] = n at hn ⊢
  have hok := h.node v n hn
  rcases hok.link.beyond k with ⟨hb, hk⟩ | ⟨r, hb, hr, hrk, hhigh, _, hlevel⟩
  · cases hok with
    | leaf es right highKey level ascending bounds link =>
      exact .leaf es right highKey rfl hb ascending level
        ⟨hlo, by rw [hi_eq hn]; exact hk⟩
    | internal c es right highKey chain children link =>
      obtain ⟨xs, l', c', zs, ys, hzs, hes, hidx, hget, hcov⟩ := route chain hlo hk
      have hmem := children (l', c') (by
        rw [hes, ← cons_append, hzs]
        simp)
      refine .child _ _ right highKey c' rfl hb (by rw [hidx]; exact hget) hmem.1 hcov.1
        (.inl ?_)
      grind
  · refine .right r hb hr hrk (.inr ⟨hlevel, ?_⟩)
    have := h.nonempty v hv
    rw [hi_eq hn, hhigh] at this
    exact (below_some _ _).mp this

/-! ## get -/

/-- Lookup at a split of the entries. -/
theorem findIn_append {xs ys : List (Key × Bytes)} (hx : ∀ x ∈ xs, x.1 < k) :
    findIn k (xs ++ ys) = findIn k ys := by
  induction xs with
  | nil => rfl
  | cons x xs ih =>
    rw [cons_append, findIn, if_neg (ne_of_lt (hx x (.head _))),
      ih fun a ha => hx a (.tail _ ha)]

theorem findIn_above {ys : List (Key × Bytes)} (hy : ∀ y ∈ ys, k < y.1) :
    findIn k ys = none := by
  induction ys with
  | nil => rfl
  | cons y ys ih =>
    rw [findIn, if_neg (ne_of_gt (hy y (.head _))),
      ih fun a ha => hy a (.tail _ ha)]

/-- `get` at the covering leaf looks the key up in its entries. -/
theorem getBody_leaf {es : List (Key × Bytes)} {right : Option NodeId} {highKey : Option Key}
    (hn : t.nodes[v]? = some (.leaf (es.map Prod.fst) (es.map Prod.snd) right highKey))
    (hb : BTree.beyond (.leaf (es.map Prod.fst) (es.map Prod.snd) right highKey) k = none)
    (ha : Ascending es) : t.getBody k v = .ok (.done (findIn k es)) := by
  simp only [getBody, Vec.index_eq hn, Except.ok_bind, hb]
  rcases ha.locate k with ⟨xs, b, ys, rfl, hxs, hys⟩ | ⟨xs, ys, rfl, hxs, hys⟩
  · have hi := Vec.index_append (xs.map Prod.snd) (ys.map Prod.snd) b
    rw [length_map] at hi
    simp [binarySearch_found (xs.map Prod.fst)
      (ys.map Prod.fst) (by simpa using hxs) (by simpa using hys), hi,
      findIn_append hxs, findIn]
  · simp [binarySearch_missing (xs.map Prod.fst) (ys.map Prod.fst) (by simpa using hxs)
      (by simpa using hys), findIn_append hxs, findIn_above hys]

/-- `get`'s loop from any node below `k` finds exactly the entry for `k`. -/
theorem getFrom_spec (h : WF t g) (hv : v < t.nodes.length) (hlo : g.lo v ≤ k) :
    ∃ o, t.getFrom k v = .ok o ∧ ∀ b, o = some b ↔ t.Entry k b := by
  refine loop_spec (fun u => u < t.nodes.length ∧ g.lo u ≤ k)
    (rank t.nodes.length (Under g)) ?_ ⟨hv, hlo⟩ (rank_lt_length hv)
  intro u ⟨hu, hlou⟩
  obtain ⟨n, hn, hm⟩ := h.meets hu hlou
  cases hm with
  | right r hb hr hrk hunder =>
    refine .inr ⟨r, ?_, ⟨hr, hrk⟩, rank_under hr hunder⟩
    simp [getBody, Vec.index_eq hn, hb]
  | child keys children right highKey c heq hb hidx hc hck hunder =>
    refine .inr ⟨c, ?_, ⟨hc, hck⟩, rank_under hc hunder⟩
    subst heq
    simp [getBody, Vec.index_eq hn, hb, Vec.index_eq hidx]
  | leaf es right highKey heq hb hasc hlevel hcov =>
    subst heq
    refine .inl ⟨_, getBody_leaf hn hb hasc, ?_⟩
    simp [findIn_eq_some_iff hasc, h.entry_iff hn hlevel hcov, Node.entries,
      zip_map_fst_snd]

theorem get_spec (h : WF t g) (k : Key) : ∃ o, t.get k = .ok o ∧ ∀ b, o = some b ↔ t.Entry k b :=
  getFrom_spec h h.root_lt (h.root_lo ▸ Nat.zero_le k)

/-- Every node `get` visits starts at or below the key. -/
theorem visited_spec (h : WF t g) (hvis : Visited (t.getBody k) t.root v) :
    v < t.nodes.length ∧ g.lo v ≤ k := by
  refine hvis.induct (fun u => u < t.nodes.length ∧ g.lo u ≤ k) ?_
    ⟨h.root_lt, h.root_lo ▸ Nat.zero_le k⟩
  intro u w ⟨hu, hlou⟩ hstep
  obtain ⟨n, hn, hm⟩ := h.meets hu hlou
  cases hm with
  | right r hb hr hrk hunder =>
    simp only [getBody, Vec.index_eq hn, Except.ok_bind, hb] at hstep
    cases hstep
    exact ⟨hr, hrk⟩
  | child keys children right highKey c heq hb hidx hc hck hunder =>
    subst heq
    simp only [getBody, Vec.index_eq hn, Except.ok_bind, hb, Vec.index_eq hidx] at hstep
    cases hstep
    exact ⟨hc, hck⟩
  | leaf es right highKey heq hb hasc hlevel hcov =>
    subst heq
    grind [getBody_leaf hn hb hasc]

end Archon
