import Archon.Core.BTreeInsert

/-!
# Archon.Core.BTreeRefine

The B-Link tree is a finite map: after any sequence of insertions and
deletions every query answers as the map obtained by the same sequence does.

The last section is the right-link law.  Lower bounds and levels never
change, so a reader that stopped at a node can go on from there whatever
happened to the tree since.
-/

namespace Archon

open Vec BTree Except

variable {es out : List (Key × Bytes)} {highKey : Option Key} {right : Option NodeId}
  {m : SortedMap Key Bytes}
variable {t : BTree} {g : Ghost}

/-! ## delete -/

variable {key : Key} {P : Key → Prop} {v u : NodeId}

theorem Updates.refl_none (h : ∀ b, ¬ t.Entry key b) : Updates t key none t := by
  intro k b
  by_cases hk : k = key
  · rw [if_pos hk, hk]
    exact ⟨fun he => absurd he (h b), fun he => by contradiction⟩
  · rw [if_neg hk]

theorem mem_drop_mid {xs ys : List (Key × Bytes)} {b₀ : Bytes} (hx : ∀ x ∈ xs, x.1 < key)
    (hy : ∀ y ∈ ys, key < y.1) (k : Key) (b : Bytes) :
    (k, b) ∈ xs ++ ys ↔
      if k = key then none = some b else (k, b) ∈ xs ++ (key, b₀) :: ys := by
  by_cases hk : k = key
  · rw [if_pos hk, hk]
    refine ⟨fun hm => ?_, fun h => by contradiction⟩
    rcases List.mem_append.mp hm with hm | hm
    · exact absurd (hx _ hm) (lt_irrefl key)
    · exact absurd (hy _ hm) (lt_irrefl key)
  · simp [hk]

/-- Deletion keeps the tree well-formed and removes one entry, which it
returns. -/
theorem delete_spec (h : WF t g) (key : Key) :
    ∃ o t', t.delete key = .ok (o, t') ∧ WF t' g ∧ Extends t g t' g ∧
      (∀ b, o = some b ↔ t.Entry key b) ∧ Updates t key none t' := by
  suffices hs : ∃ a : Option Bytes × BTree, t.delete key = .ok a ∧ (WF a.2 g ∧ Extends t g a.2 g ∧
      (∀ b, a.1 = some b ↔ t.Entry key b) ∧ Updates t key none a.2) by
    obtain ⟨⟨o, t'⟩, hdel, hrest⟩ := hs
    exact ⟨o, t', hdel, hrest⟩
  refine loop_spec (fun u => u < t.nodes.length ∧ g.lo u ≤ key)
    (rank t.nodes.length (Under g)) ?_ ⟨h.root_lt, h.root_lo ▸ Nat.zero_le key⟩
    (rank_lt_length h.root_lt)
  intro u ⟨hu, hlou⟩
  obtain ⟨n, hn, hm⟩ := h.meets hu hlou
  cases hm with
  | right r hb hr hrk hunder =>
    refine .inr ⟨r, ?_, ⟨hr, hrk⟩, rank_under hr hunder⟩
    simp [deleteBody, index_eq hn, hb]
  | child keys children right highKey c heq hb hidx hc hck hunder =>
    refine .inr ⟨c, ?_, ⟨hc, hck⟩, rank_under hc hunder⟩
    subst heq
    simp [deleteBody, index_eq hn, hb, index_eq hidx]
  | leaf es right highKey heq hb hasc hlevel hcov =>
    left
    have hn' : t.nodes[u]? = some (leafOf es right highKey) := by rw [hn, heq]; rfl
    have hentry := h.entry_iff hn' hlevel hcov
    rw [entries_leafOf] at hentry
    rw [heq] at hb
    rw [heq] at hn
    rcases hasc.locate key with ⟨xs, b₀, ys, rfl, hxs, hys⟩ | ⟨xs, ys, rfl, hxs, hys⟩
    · have hrk := remove_append (xs.map Prod.fst) (ys.map Prod.fst) key
      have hrv := remove_append (xs.map Prod.snd) (ys.map Prod.snd) b₀
      rw [List.length_map] at hrk hrv
      obtain ⟨_, _, hbounds, _⟩ := (h.node u _ hn').leaf_inv rfl
      have hg := h.setLeaf hn' hasc.drop_mid (fun e he => hbounds e (by
        rcases List.mem_append.mp he with he | he
        · exact List.mem_append_left _ he
        · exact List.mem_append_right _ (.tail _ he)))
      refine ⟨(some b₀, ⟨t.nodes.set u (leafOf (xs ++ ys) right highKey), t.root⟩), ?_,
        hg.wf h hu, hg.ext, ?_, h.updates hn' hlevel hcov (fun k b => ?_) (entry_set hn')⟩
      · simp only [deleteBody, index_eq hn, ok_bind, hb]
        simp only [List.map_append, List.map_cons, binarySearch_found (xs.map Prod.fst)
          (ys.map Prod.fst) (by simpa using hxs) (by simpa using hys), List.length_map, hrk,
          hrv, ok_bind, pure_eq_ok, leafOf]
      · intro b
        rw [hentry, mem_put hxs hys, if_pos rfl]
      · simpa using mem_drop_mid hxs hys k b
    · have hnone : ∀ b, ¬ t.Entry key b := by
        intro b he
        rcases List.mem_append.mp ((hentry b).mp he) with he | he
        · exact absurd (hxs _ he) (lt_irrefl key)
        · exact absurd (hys _ he) (lt_irrefl key)
      refine ⟨(none, t), ?_, h, .refl t g, ?_, .refl_none hnone⟩
      · simp only [deleteBody, index_eq hn, ok_bind, hb]
        simp only [List.map_append, binarySearch_missing (xs.map Prod.fst)
          (ys.map Prod.fst) (by simpa using hxs) (by simpa using hys), pure_eq_ok]
      · exact fun b => ⟨fun hb => by contradiction, fun he => absurd he (hnone b)⟩

/-! ## The leaf chain -/

/-- What a scan of the leaf chain has collected in front of the leaf `v`: the
entries below it that satisfy `P`. -/
def Collected (t : BTree) (P : Key → Prop) (bound : Option Key) (out : List (Key × Bytes)) : Prop :=
  Ascending out ∧ ∀ k b, (k, b) ∈ out ↔ t.Entry k b ∧ P k ∧ Below k bound

/-- Scanning one leaf extends the collection to its high key. -/
theorem Collected.leaf (h : WF t g) [DecidablePred P]
    (hn : t.nodes[v]? = some (leafOf es right highKey)) (hc : Collected t P (some (g.lo v)) out) :
    Collected t P highKey (out ++ es.filter fun e => P e.1) := by
  obtain ⟨hlevel, hasc, hbounds, _⟩ := (h.node v _ hn).leaf_inv rfl
  have hlo : Below (g.lo v) highKey := by
    have := h.nonempty v (lt_of_getElem? hn)
    rwa [hi_eq hn] at this
  obtain ⟨hout, hmem⟩ := hc
  refine ⟨hout.append (hasc.filter _) ?_, ?_⟩
  · intro a ha b hb
    have hlt : a.1 < g.lo v := (below_some _ _).mp ((hmem a.1 a.2).mp ha).2.2
    exact lt_of_lt_of_le hlt (hbounds b (List.mem_of_mem_filter hb)).1
  · intro k b
    rw [List.mem_append, hmem, List.mem_filter, below_some]
    constructor
    · rintro (⟨he, hP, hlt⟩ | ⟨hm, hP⟩)
      · exact ⟨he, hP, hlo.of_le (le_of_lt hlt)⟩
      · exact ⟨⟨v, _, hn, by rw [entries_leafOf]; exact hm⟩, of_decide_eq_true hP,
          (hbounds _ hm).2⟩
    · rintro ⟨he, hP, hbelow⟩
      rcases lt_or_ge k (g.lo v) with hlt | hge
      · exact .inl ⟨he, hP, hlt⟩
      · refine .inr ⟨?_, decide_eq_true hP⟩
        have hcov : Covers t g v k := ⟨hge, by rw [hi_eq hn]; exact hbelow⟩
        have := (h.entry_iff hn hlevel hcov b).mp he
        rwa [entries_leafOf] at this

theorem WF.leaf_right (h : WF t g) {r : NodeId}
    (hn : t.nodes[v]? = some (leafOf es (some r) highKey)) :
    r < t.nodes.length ∧ g.level r = 0 ∧ highKey = some (g.lo r) ∧ Under g r v := by
  obtain ⟨hlevel, _, _, hlink⟩ := (h.node v _ hn).leaf_inv rfl
  have hne := h.nonempty v (lt_of_getElem? hn)
  rw [hi_eq hn] at hne
  cases highKey with
  | none => exact hlink.elim
  | some x =>
    obtain ⟨hr, hlo, hl⟩ := hlink
    refine ⟨hr, hl.trans hlevel, by rw [hlo], .inr ⟨hl, ?_⟩⟩
    rw [hlo]
    exact (below_some _ _).mp hne

theorem WF.leaf_last (h : WF t g) (hn : t.nodes[v]? = some (leafOf es none highKey)) :
    highKey = none := by
  obtain ⟨_, _, _, hlink⟩ := (h.node v _ hn).leaf_inv rfl
  cases highKey with
  | none => rfl
  | some x => exact hlink.elim

theorem WF.leaf_of_level (h : WF t g) (hv : v < t.nodes.length) (hlevel : g.level v = 0) :
    ∃ es right highKey, t.nodes[v]? = some (leafOf es right highKey) := by
  rcases h.shape hv with hleaf | ⟨c, es, right, highKey, hn⟩
  · exact hleaf
  · obtain ⟨_, hchildren, _⟩ := (h.node v _ hn).internal_inv rfl
    have := (hchildren _ (.head _)).2
    omega

/-! ## range -/

theorem leftmostLeafFor_spec (h : WF t g) (key : Key) :
    ∃ v, t.leftmostLeafFor key = .ok v ∧ v < t.nodes.length ∧ g.level v = 0 ∧ g.lo v ≤ key := by
  refine loop_spec (fun u => u < t.nodes.length ∧ Covers t g u key)
    (rank t.nodes.length (Under g)) ?_ ⟨h.root_lt, h.root_lo ▸ Nat.zero_le key,
      by rw [h.root_hi]; exact below_none key⟩ (rank_lt_length h.root_lt)
  intro u ⟨hu, hcov⟩
  rcases h.shape hu with ⟨es, right, highKey, hn⟩ | ⟨c₀, es, right, highKey, hn⟩
  · obtain ⟨hlevel, _⟩ := (h.node u _ hn).leaf_inv rfl
    refine .inl ⟨u, ?_, hu, hlevel, hcov.1⟩
    rw [leftmostLeafForBody, index_eq hn]
    rfl
  · obtain ⟨xs, l, c, zs, ys, hzs, rfl, hidx, hget, hcovc, hclt, hclevel⟩ := h.route hn hcov
    refine .inr ⟨c, ?_, ⟨hclt, hcovc⟩, rank_under hclt (.inl ?_)⟩
    · rw [leftmostLeafForBody, index_eq hn]
      simp only [ok_bind, internalOf]
      rw [hidx, index_eq hget]
      rfl
    · grind

/-- The scan of one leaf keeps the entries in bounds, and notices when it
passed the upper bound. -/
theorem scanLeaf_eq (lo hi : Key) (pre es : List (Key × Bytes)) (out : List (Key × Bytes))
    (ha : Ascending es) :
    scanLeaf lo hi ((pre ++ es).map Prod.snd) pre.length (es.map Prod.fst) out =
      .ok (es.any fun e => hi ≤ e.1, out ++ es.filter fun e => lo ≤ e.1 ∧ e.1 < hi) := by
  induction es generalizing pre out with
  | nil => simp [scanLeaf]
  | cons e es ih =>
    obtain ⟨k, b⟩ := e
    obtain ⟨hlt, ha'⟩ := ha.cons
    have hpre : pre ++ (k, b) :: es = (pre ++ [(k, b)]) ++ es := by simp
    have hlen : pre.length + 1 = (pre ++ [(k, b)]).length := by simp
    rw [List.map_cons, scanLeaf]
    by_cases hhi : k ≥ hi
    · -- the rest is beyond the bound as well
      have hrest : es.filter (fun e => decide (lo ≤ e.1 ∧ e.1 < hi)) = [] := by
        rw [List.filter_eq_nil_iff]
        intro e he
        have := hlt e he
        simp only [decide_eq_true_eq, not_and, not_lt]
        exact fun _ => le_trans hhi (le_of_lt this)
      grind
    · rw [if_neg hhi]
      have hany : ((k, b) :: es).any (fun e => decide (hi ≤ e.1)) =
          es.any fun e => decide (hi ≤ e.1) := by
        rw [List.any_cons, decide_eq_false hhi, Bool.false_or]
      by_cases hlo : k ≥ lo
      · have hi' := index_append (pre.map Prod.snd) (es.map Prod.snd) b
        have hidx : index ((pre ++ (k, b) :: es).map Prod.snd) pre.length = .ok b := by
          simpa using hi'
        rw [if_pos hlo, hidx, ok_bind, hpre, hlen, ih _ _ ha', hany,
          List.filter_cons_of_pos (by simp [hlo, not_le.mp hhi])]
        simp
      · grind

theorem rangeBody_eq {lo hi : Key} (ha : Ascending es)
    (hn : t.nodes[u]? = some (leafOf es right highKey)) :
    t.rangeBody lo hi (u, out) =
      .ok ((bif es.any fun e => decide (hi ≤ e.1) then none else right).elim
        (.done (out ++ es.filter fun e => decide (lo ≤ e.1 ∧ e.1 < hi)))
        fun r => .next (r, out ++ es.filter fun e => decide (lo ≤ e.1 ∧ e.1 < hi))) := by
  have hscan := scanLeaf_eq lo hi [] es out ha
  rw [rangeBody, index_eq hn]
  simp only [ok_bind, leafOf]
  rw [show scanLeaf lo hi (es.map Prod.snd) 0 (es.map Prod.fst) out = _ from hscan]
  cases es.any fun e => decide (hi ≤ e.1) <;> cases right <;> rfl

/-- `range` returns the entries in bounds, in ascending order. -/
theorem range_spec (h : WF t g) (lo hi : Key) :
    ∃ out, t.range lo hi = .ok out ∧
      Collected t (fun k => lo ≤ k ∧ k < hi) none out := by
  rw [range]
  by_cases hlh : lo ≥ hi
  · refine ⟨[], if_pos hlh, .nil, ?_⟩
    intro k b
    refine ⟨fun hm => by contradiction, fun ⟨_, ⟨h1, h2⟩, _⟩ => ?_⟩
    exact absurd hlh (not_le.mpr (lt_of_le_of_lt h1 h2))
  · rw [if_neg hlh]
    obtain ⟨v, hv, hvlt, hvlevel, hvlo⟩ := leftmostLeafFor_spec h lo
    rw [hv]
    refine loop_spec (fun s : NodeId × List (Key × Bytes) =>
        s.1 < t.nodes.length ∧ g.level s.1 = 0 ∧ Collected t (fun k => lo ≤ k ∧ k < hi)
          (some (g.lo s.1)) s.2)
      (fun s => rank t.nodes.length (Under g) s.1) ?_
      ⟨hvlt, hvlevel, .nil, ?_⟩ (rank_lt_length hvlt)
    · rintro ⟨u, out⟩ ⟨hu, hul, hcol⟩
      obtain ⟨es, right, highKey, hn⟩ := h.leaf_of_level hu hul
      obtain ⟨_, hasc, hbounds, _⟩ := (h.node u _ hn).leaf_inv rfl
      have hnext := hcol.leaf h hn
      rw [rangeBody_eq hasc hn]
      cases hany : es.any fun e => decide (hi ≤ e.1) with
      | true =>
        -- an entry at or above `hi` lies in this leaf, so nothing is missed to its right
        refine .inl ⟨_, rfl, hnext.1, ?_⟩
        intro k b
        rw [hnext.2 k b]
        obtain ⟨e, he, hhe⟩ := List.any_eq_true.mp hany
        have hle : hi ≤ e.1 := of_decide_eq_true hhe
        refine ⟨fun ⟨h1, h2, _⟩ => ⟨h1, h2, below_none k⟩, fun ⟨h1, h2, _⟩ => ⟨h1, h2, ?_⟩⟩
        exact (hbounds e he).2.of_le (le_of_lt (lt_of_lt_of_le h2.2 hle))
      | false =>
        cases right with
        | none =>
          have hnone := h.leaf_last hn
          rw [hnone] at hnext
          exact .inl ⟨_, rfl, hnext⟩
        | some r =>
          obtain ⟨hr, hrl, hhigh, hunder⟩ := h.leaf_right hn
          rw [hhigh] at hnext
          exact .inr ⟨(r, _), rfl, ⟨hr, hrl, hnext⟩, rank_under hr hunder⟩
    · intro k b
      refine ⟨fun hm => by contradiction, fun ⟨_, ⟨h1, _⟩, h2⟩ => ?_⟩
      have := (below_some _ _).mp h2
      exact absurd (lt_of_lt_of_le this hvlo) (not_lt.mpr h1)

/-! ## len -/

theorem leftmostLeaf_spec (h : WF t g) :
    ∃ v, t.leftmostLeaf = .ok v ∧ v < t.nodes.length ∧ g.level v = 0 ∧ g.lo v = 0 := by
  refine loop_spec (fun u => u < t.nodes.length ∧ g.lo u = 0)
    (rank t.nodes.length (Under g)) ?_ ⟨h.root_lt, h.root_lo⟩ (rank_lt_length h.root_lt)
  intro u ⟨hu, hlo⟩
  rcases h.shape hu with ⟨es, right, highKey, hn⟩ | ⟨c, es, right, highKey, hn⟩
  · obtain ⟨hlevel, _⟩ := (h.node u _ hn).leaf_inv rfl
    refine .inl ⟨u, ?_, hu, hlevel, hlo⟩
    rw [leftmostLeafBody, index_eq hn]
    rfl
  · obtain ⟨hchain, hchildren, _⟩ := (h.node u _ hn).internal_inv rfl
    obtain ⟨hclt, hclevel⟩ := hchildren _ (.head _)
    refine .inr ⟨c, ?_, ⟨hclt, hchain.1.trans hlo⟩, rank_under hclt (.inl ?_)⟩
    · rw [leftmostLeafBody, index_eq hn]
      rfl
    · grind

theorem lenBody_eq {n : Nat} (hn : t.nodes[u]? = some (leafOf es right highKey)) :
    t.lenBody (u, n) = .ok (right.elim (.done (n + (es.map Prod.fst).length))
      fun r => .next (r, n + (es.map Prod.fst).length)) := by
  rw [lenBody, index_eq hn]
  cases right <;> rfl

theorem len_spec (h : WF t g) :
    ∃ n, t.len = .ok n ∧ ∃ out, Collected t (fun _ => True) none out ∧ out.length = n := by
  obtain ⟨v, hv, hvlt, hvlevel, hvlo⟩ := leftmostLeaf_spec h
  rw [len, hv]
  refine loop_spec (fun s => s.1 < t.nodes.length ∧ g.level s.1 = 0 ∧
      ∃ out, Collected t (fun _ => True) (some (g.lo s.1)) out ∧ out.length = s.2)
    (fun s => rank t.nodes.length (Under g) s.1) ?_ ⟨hvlt, hvlevel, [], ⟨.nil, ?_⟩, rfl⟩
    (rank_lt_length hvlt)
  · rintro ⟨u, n⟩ ⟨hu, hul, out, hcol, hlen⟩
    obtain ⟨es, right, highKey, hn⟩ := h.leaf_of_level hu hul
    have hnext := hcol.leaf h hn
    rw [List.filter_eq_self.mpr (by simp)] at hnext
    have hlen' : (out ++ es).length = n + (es.map Prod.fst).length := by
      simpa using congrArg (· + es.length) hlen
    rw [lenBody_eq hn]
    cases right with
    | none =>
      have hnone := h.leaf_last hn
      rw [hnone] at hnext
      exact .inl ⟨_, rfl, _, hnext, hlen'⟩
    | some r =>
      obtain ⟨hr, hrl, hhigh, hunder⟩ := h.leaf_right hn
      rw [hhigh] at hnext
      exact .inr ⟨(r, _), rfl, ⟨hr, hrl, _, hnext, hlen'⟩, rank_under hr hunder⟩
  · intro k b
    rw [hvlo, below_some]
    exact ⟨fun hm => by contradiction, fun ⟨_, _, hlt⟩ => absurd hlt (Nat.not_lt_zero k)⟩

/-! ## Runs -/

/-- An update of the tree. -/
inductive TreeOp where
  | insert (key : Key) (value : Bytes)
  | delete (key : Key)

def BTree.apply (t : BTree) : TreeOp → Except Fault BTree
  | .insert key value => t.insert key value
  | .delete key => do
    let (_, t) ← t.delete key
    return t

/-- Apply a sequence of updates. -/
def BTree.run (t : BTree) (ops : List TreeOp) : Except Fault BTree := ops.foldlM apply t

/-- The same update of a finite map. -/
def TreeOp.onMap (m : SortedMap Key Bytes) : TreeOp → SortedMap Key Bytes
  | .insert key value => m.insert key value
  | .delete key => m.erase key

/-- The tree is well-formed and its entries are those of the map. -/
structure Represents (t : BTree) (g : Ghost) (m : SortedMap Key Bytes) : Prop where
  wf : WF t g
  entry : ∀ k b, t.Entry k b ↔ m.find? k = some b

theorem represents_new : Represents .new ⟨fun _ => 0, fun _ => 0⟩ .empty := by
  have hget : ∀ (v : NodeId) (n : Node), BTree.new.nodes[v]? = some n →
      v = 0 ∧ n = leafOf [] none none := by
    intro v n hn
    obtain rfl : v = 0 := Nat.lt_one_iff.mp (lt_of_getElem? hn)
    exact ⟨rfl, (Option.some.inj hn).symm⟩
  refine ⟨⟨?_, ?_, ?_, Nat.zero_lt_one, rfl, rfl, fun _ _ => Nat.le_refl _, Nat.zero_lt_one⟩, ?_⟩
  · intro v n hn
    obtain ⟨rfl, rfl⟩ := hget v n hn
    exact .leaf [] none none rfl .nil (by simp) trivial
  · intro v hv
    obtain rfl : v = 0 := Nat.lt_one_iff.mp hv
    exact below_none _
  · intro u v _ hu hv _ _ _
    rw [Nat.lt_one_iff.mp hu, Nat.lt_one_iff.mp hv]
  · intro k b
    refine ⟨fun ⟨v, n, hn, hmem⟩ => ?_, fun h => by contradiction⟩
    obtain ⟨_, rfl⟩ := hget v n hn
    contradiction

section

variable (h : Represents t g m)
include h

theorem Represents.apply (op : TreeOp) :
    ∃ t' g', t.apply op = .ok t' ∧ Represents t' g' (op.onMap m) ∧ Extends t g t' g' := by
  cases op with
  | insert key value =>
    obtain ⟨t', g', hins, hwf, hext, hupd⟩ := insert_spec h.wf key value
    refine ⟨t', g', hins, ⟨hwf, fun k b => ?_⟩, hext⟩
    rw [hupd k b, TreeOp.onMap, SortedMap.find?_insert]
    split
    · exact Iff.rfl
    · exact h.entry k b
  | delete key =>
    obtain ⟨o, t', hdel, hwf, hext, _, hupd⟩ := delete_spec h.wf key
    refine ⟨t', g, by rw [BTree.apply, hdel]; rfl, ⟨hwf, fun k b => ?_⟩, hext⟩
    rw [hupd k b, TreeOp.onMap, SortedMap.find?_erase]
    split
    · exact Iff.rfl
    · exact h.entry k b

theorem Represents.run (ops : List TreeOp) :
    ∃ t' g', t.run ops = .ok t' ∧ Represents t' g' (ops.foldl TreeOp.onMap m) ∧
      Extends t g t' g' := by
  induction ops generalizing t g m with
  | nil => exact ⟨t, g, rfl, h, .refl t g⟩
  | cons op ops ih =>
    obtain ⟨t₁, g₁, hop, h₁, hext₁⟩ := h.apply op
    obtain ⟨t₂, g₂, hops, h₂, hext₂⟩ := ih h₁
    refine ⟨t₂, g₂, ?_, h₂, hext₁.trans hext₂⟩
    rw [run, List.foldlM_cons, hop]
    exact hops

/-! ## Queries -/

theorem Represents.eq_find? {k : Key} {o : Option Bytes} (ho : ∀ b, o = some b ↔ t.Entry k b) :
    o = m.find? k :=
  Option.ext fun b => (ho b).trans (h.entry k b)

theorem Represents.eq_filter [DecidablePred P] (hout : Collected t P none out) :
    out = m.entries.filter fun e => P e.1 := by
  refine hout.1.eq_of_mem_iff (m.ascending.filter _) ?_
  intro ⟨k, b⟩
  rw [hout.2 k b, List.mem_filter, h.entry k b, SortedMap.find?_eq_some_iff, decide_eq_true_iff]
  exact and_congr_right fun _ => ⟨And.left, fun hk => ⟨hk, below_none k⟩⟩

theorem Represents.get (k : Key) : t.get k = .ok (m.find? k) := by
  obtain ⟨o, hget, ho⟩ := get_spec h.wf k
  rw [hget, h.eq_find? ho]

theorem Represents.len : t.len = .ok m.entries.length := by
  obtain ⟨n, hlen, out, hout, rfl⟩ := len_spec h.wf
  rw [hlen, h.eq_filter hout, List.filter_eq_self.mpr (by simp)]

end

/-- The tree answers every call as the map does; in particular no call
panics or diverges. -/
structure BTree.Answers (t : BTree) (m : SortedMap Key Bytes) : Prop where
  get : ∀ k, t.get k = .ok (m.find? k)
  contains : ∀ k, t.contains k = .ok (m.find? k).isSome
  delete : ∀ k, ∃ t', t.delete k = .ok (m.find? k, t')
  range : ∀ lo hi, t.range lo hi = .ok (m.entries.filter fun e => lo ≤ e.1 ∧ e.1 < hi)
  len : t.len = .ok m.entries.length
  isEmpty : t.isEmpty = .ok m.entries.isEmpty

theorem Represents.answers (h : Represents t g m) : t.Answers m where
  get := h.get
  contains k := by
    rw [contains, h.get k]
    rfl
  delete k := by
    obtain ⟨o, t', hdel, _, _, ho, _⟩ := delete_spec h.wf k
    simp [hdel, h.eq_find? ho]
  range lo hi := by
    obtain ⟨out, hrange, hout⟩ := range_spec h.wf lo hi
    rw [hrange, h.eq_filter hout]
  len := h.len
  isEmpty := by
    rw [isEmpty, h.len]
    cases m.entries <;> rfl

/-- Whatever updates are made, the tree answers as the finite map that the
same updates give. -/
theorem run_answers (ops : List TreeOp) :
    ∃ t, BTree.new.run ops = .ok t ∧ t.Answers (ops.foldl TreeOp.onMap .empty) := by
  obtain ⟨t, _, hrun, h, _⟩ := represents_new.run ops
  exact ⟨t, hrun, h.answers⟩

example : BTree.new.run [.insert 3 [7], .insert 1 [9], .delete 3] =
    .ok ⟨[.leaf [1] [[9]] none none], 0⟩ := rfl

/-! ## The right-link law -/

/-- A reader stopped at any node `get` visits finds its answer from there,
whatever updates come in between. -/
theorem getFrom_visited (ops ops' : List TreeOp) {t t' : BTree} {k : Key} {v : NodeId}
    (ht : BTree.new.run ops = .ok t) (hv : Visited (t.getBody k) t.root v)
    (ht' : t.run ops' = .ok t') : ∃ o, t'.getFrom k v = .ok o ∧ t'.get k = .ok o := by
  obtain ⟨_, g, hrun, h, _⟩ := represents_new.run ops
  cases hrun.symm.trans ht
  obtain ⟨_, g', hrun', h', hext⟩ := h.run ops'
  cases hrun'.symm.trans ht'
  obtain ⟨hlt, hlo⟩ := visited_spec h.wf hv
  -- the node still starts at or below the key
  obtain ⟨o, hfrom, ho⟩ := getFrom_spec h'.wf (Nat.lt_of_lt_of_le hlt hext.length)
    (hext.lo v hlt ▸ hlo)
  exact ⟨o, hfrom, by rw [h'.get k, h'.eq_find? ho]⟩

/-- A reader of key 100 stops at the right leaf of a tree that was split; the
leaf is split again before the reader goes on. -/
theorem getFrom_visited_split : ∃ t t',
    BTree.new.run ((List.range 65).map fun k => .insert k [1]) = .ok t ∧
      t.run ((List.range 40).map fun k => .insert (k + 65) [2]) = .ok t' ∧
      t.nodes.length = 3 ∧ t'.nodes.length = 4 ∧
      ∃ o, t'.getFrom 100 1 = .ok o ∧ t'.get 100 = .ok o := by
  obtain ⟨t, g, ht, h, -⟩ := represents_new.run ((List.range 65).map fun k => .insert k [1])
  obtain ⟨t', g', ht', -⟩ := h.run ((List.range 40).map fun k => .insert (k + 65) [2])
  have hruns : ((BTree.new.run ((List.range 65).map fun k => .insert k [1])).toOption.any fun t =>
      (t.run ((List.range 40).map fun k => .insert (k + 65) [2])).toOption.any fun t' =>
        t.nodes.length == 3 && t'.nodes.length == 4 &&
          t.nodes[t.root]? == some (.internal [32] [0, 1] none none)) = true := by
    decide +kernel
  simp only [ht, ht', Except.toOption, Option.any_some, Bool.and_eq_true, beq_iff_eq] at hruns
  obtain ⟨⟨hsplit, hagain⟩, hroot⟩ := hruns
  have hnext : t.getBody 100 t.root = .ok (.next 1) := by
    rw [getBody, Vec.index, hroot]
    rfl
  exact ⟨t, t', ht, ht', hsplit, hagain, getFrom_visited _ _ ht (.next .start hnext) ht'⟩

end Archon
