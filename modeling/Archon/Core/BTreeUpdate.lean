import Archon.Core.BTreeSearch

/-!
# Archon.Core.BTreeUpdate

How a tree changes one node at a time.  `Almost` is a tree that is fine up
to the level of one node, that node itself excepted; giving the node a new
body (`Almost.replace`) or splitting it in two (`Almost.split`) yields
`Grown`, the state in which an insertion leaves a subtree: fine up to its
level, and nothing above it has changed.
-/

namespace Archon

open Ghost List

variable {n : Node} {v : NodeId}
variable {t t' : BTree} {g g' : Ghost} {p : NodeId}

/-! ## Frames -/

/-- The ids a node descends to. -/
def Node.children : Node → List NodeId
  | .leaf .. => []
  | .internal _ children _ _ => children

/-- Old nodes keep their lower bound and level. -/
structure Extends (t : BTree) (g : Ghost) (t' : BTree) (g' : Ghost) : Prop where
  length : t.nodes.length ≤ t'.nodes.length
  lo : ∀ v, v < t.nodes.length → g'.lo v = g.lo v
  level : ∀ v, v < t.nodes.length → g'.level v = g.level v

theorem Extends.refl (t : BTree) (g : Ghost) : Extends t g t g :=
  ⟨Nat.le_refl _, fun _ _ => rfl, fun _ _ => rfl⟩

theorem Extends.trans {t'' : BTree} {g'' : Ghost} (h : Extends t g t' g')
    (h' : Extends t' g' t'' g'') : Extends t g t'' g'' where
  length := Nat.le_trans h.length h'.length
  lo v hv := (h'.lo v (Nat.lt_of_lt_of_le hv h.length)).trans (h.lo v hv)
  level v hv := (h'.level v (Nat.lt_of_lt_of_le hv h.length)).trans (h.level v hv)

variable {right : Option NodeId} {highKey : Option Key} {u c : NodeId}

theorem LinkOK.frame (h : LinkOK t g v right highKey) (he : Extends t g t' g')
    (hv : v < t.nodes.length) : LinkOK t' g' v right highKey := by
  cases right with
  | none => cases highKey <;> exact h
  | some r =>
    cases highKey with
    | none => exact h
    | some x =>
      obtain ⟨hr, hlo, hlevel⟩ := h
      exact ⟨Nat.lt_of_lt_of_le hr he.length, (he.lo r hr).trans hlo,
        (he.level r hr).trans (hlevel.trans (he.level v hv).symm)⟩

/-- A right-link only depends on the level it is seen from. -/
theorem LinkOK.of_level (h : LinkOK t g u right highKey) (hl : g.level u = g.level v) :
    LinkOK t g v right highKey := by
  simpa [← hl, LinkOK] using h

/-- A node stays fine while the high keys of its children do not change. -/
theorem NodeOK.frame (h : NodeOK t g v n) (he : Extends t g t' g') (hv : v < t.nodes.length)
    (hhi : ∀ c ∈ n.children, t'.hi c = t.hi c) : NodeOK t' g' v n := by
  cases h with
  | leaf es right highKey level ascending bounds link =>
    exact .leaf es right highKey ((he.level v hv).trans level) ascending
      (he.lo v hv ▸ bounds) (link.frame he hv)
  | internal c es right highKey chain children link =>
    have hmem : ∀ e ∈ (g.lo v, c) :: es, e.2 ∈ c :: es.map Prod.snd := by
      intro e hm
      rcases mem_cons.mp hm with rfl | hm
      · exact (.head _)
      · exact mem_cons_of_mem _ (mem_map_of_mem hm)
    refine .internal c es right highKey ?_ ?_ (link.frame he hv)
    · rw [he.lo v hv]
      exact chain.congr (fun e hm => he.lo _ (children e hm).1) fun e hm => hhi _ (hmem e hm)
    · rw [he.lo v hv]
      intro e hm
      obtain ⟨hlt, hlevel⟩ := children e hm
      exact ⟨Nat.lt_of_lt_of_le hlt he.length, by rw [he.level _ hlt, he.level v hv, hlevel]⟩

theorem NodeOK.children_spec (h : NodeOK t g v n) (hc : c ∈ n.children) :
    c < t.nodes.length ∧ g.level c + 1 = g.level v := by
  cases h with
  | leaf => contradiction
  | internal c₀ es right highKey chain children link =>
    rcases mem_cons.mp hc with rfl | hc
    · exact children _ (.head _)
    · obtain ⟨e, he, rfl⟩ := mem_map.mp hc
      exact children e (.tail _ he)

/-- A node covers the lower bound of each of its children. -/
theorem NodeOK.covers_child (h : NodeOK t g v n) (hn : t.nodes[v]? = some n) (hc : c ∈ n.children) :
    Covers t g v (g.lo c) := by
  cases h with
  | leaf => contradiction
  | internal c₀ es right highKey chain children link =>
    obtain ⟨e, he, rfl⟩ : ∃ e ∈ (g.lo v, c₀) :: es, e.2 = c := by
      rcases mem_cons.mp hc with rfl | hc
      · simp
      · obtain ⟨e, he, rfl⟩ := mem_map.mp hc
        exact ⟨e, mem_cons_of_mem _ he, rfl⟩
    obtain ⟨hasc, hbelow⟩ := chain.ascending
    have hlo : g.lo e.2 = e.1 := by
      obtain ⟨xs, ys, hsplit⟩ := append_of_mem he
      rw [hsplit, chain_append] at chain
      exact chain.2.1
    rw [hlo]
    refine ⟨?_, by rw [BTree.hi_eq hn]; exact hbelow e he⟩
    rcases mem_cons.mp he with rfl | he
    · exact le_refl _
    · exact le_of_lt (hasc.cons.1 e he)

theorem WF.parent_unique (h : WF t g) {m : Node} (hm : t.nodes[u]? = some m)
    (hn : t.nodes[v]? = some n) (hu : c ∈ m.children) (hv : c ∈ n.children) : u = v := by
  have hmk := h.node u m hm
  have hnk := h.node v n hn
  have hlevel : g.level u = g.level v :=
    (hmk.children_spec hu).2.symm.trans (hnk.children_spec hv).2
  exact h.unique u v (g.lo c) (lt_of_getElem? hm) (lt_of_getElem? hn) hlevel
    (hmk.covers_child hm hu) (hnk.covers_child hn hv)

/-! ## Unfinished and finished subtrees -/

/-- `t'` grew out of `t` below the node `p`: nodes up to the level of `p` are
fine, `p` itself excepted, and nothing from that level on has changed. -/
structure Almost (t : BTree) (g : Ghost) (p : NodeId) (t' : BTree) (g' : Ghost) : Prop where
  ext : Extends t g t' g'
  root : t'.root = t.root
  above : ∀ v, v < t.nodes.length → g.level p ≤ g.level v → t'.nodes[v]? = t.nodes[v]?
  fresh : ∀ v, t.nodes.length ≤ v → v < t'.nodes.length → g'.level v < g.level p
  node : ∀ (v : NodeId) (n : Node), t'.nodes[v]? = some n → g'.level v ≤ g.level p → v ≠ p →
    NodeOK t' g' v n
  nonempty : ∀ v, v < t'.nodes.length → Below (g'.lo v) (t'.hi v)
  unique : ∀ u v k, u < t'.nodes.length → v < t'.nodes.length → g'.level u = g'.level v →
    Covers t' g' u k → Covers t' g' v k → u = v

/-- How the interval of `p` came out: whole, or cut at a separator with the
upper part in a new node. -/
def SplitOK (t : BTree) (g : Ghost) (p : NodeId) (t' : BTree) (g' : Ghost) :
    Option (Key × NodeId) → Prop
  | none => t'.hi p = t.hi p
  | some (sep, r) => g.lo p < sep ∧ Below sep (t.hi p) ∧ t'.hi p = some sep ∧
      t.nodes.length ≤ r ∧ r < t'.nodes.length ∧ g'.lo r = sep ∧ t'.hi r = t.hi p ∧
      g'.level r = g.level p

/-- `t'` grew out of `t` at and below the node `p`. -/
structure Grown (t : BTree) (g : Ghost) (p : NodeId) (t' : BTree) (g' : Ghost)
    (split : Option (Key × NodeId)) : Prop where
  ext : Extends t g t' g'
  root : t'.root = t.root
  above : ∀ v, v < t.nodes.length → g.level p ≤ g.level v → v ≠ p →
    t'.nodes[v]? = t.nodes[v]?
  fresh : ∀ v, t.nodes.length ≤ v → v < t'.nodes.length → g'.level v ≤ g.level p
  node : ∀ (v : NodeId) (n : Node), t'.nodes[v]? = some n → g'.level v ≤ g.level p →
    NodeOK t' g' v n
  nonempty : ∀ v, v < t'.nodes.length → Below (g'.lo v) (t'.hi v)
  unique : ∀ u v k, u < t'.nodes.length → v < t'.nodes.length → g'.level u = g'.level v →
    Covers t' g' u k → Covers t' g' v k → u = v
  split : SplitOK t g p t' g' split

theorem WF.almost (h : WF t g) (p : NodeId) : Almost t g p t g where
  ext := .refl t g
  root := rfl
  above _ _ _ := rfl
  fresh _ hv hv' := absurd hv (Nat.not_le.mpr hv')
  node v n hn _ _ := h.node v n hn
  nonempty := h.nonempty
  unique := h.unique

/-- Nodes of the arena with one entry replaced. -/
theorem hi_set {nodes : List Node} {root : NodeId} (hv : v < nodes.length) (u : NodeId) :
    (BTree.mk (nodes.set v n) root).hi u =
      if u = v then n.highKey else (BTree.mk nodes root).hi u := by
  by_cases hu : u = v
  · subst hu
    simpa using BTree.hi_eq (getElem?_set_self hv)
  · simp [hu, BTree.hi, getElem?_set_ne (Ne.symm hu)]

theorem hi_congr (h : t'.nodes[v]? = t.nodes[v]?) : t'.hi v = t.hi v := by
  rw [BTree.hi, BTree.hi, h]

/-- Growing at a child leaves its parent unfinished and everything else on
the parent's level fine. -/
theorem Grown.almost (h : WF t g) {q : NodeId} {split : Option (Key × NodeId)}
    (hg : Grown t g p t' g' split) (hq : t.nodes[q]? = some n) (hp : p ∈ n.children) :
    Almost t g q t' g' := by
  obtain ⟨hplt, hlevel⟩ := (h.node q n hq).children_spec hp
  have habove : ∀ v, v < t.nodes.length → g.level q ≤ g.level v → t'.nodes[v]? = t.nodes[v]? := by
    intro v hv hqv
    refine hg.above v hv (by omega) ?_
    rintro rfl
    omega
  refine ⟨hg.ext, hg.root, habove, ?_, ?_, hg.nonempty, hg.unique⟩
  · intro v hv hv'
    have := hg.fresh v hv hv'
    omega
  · intro v m hm hlv hvq
    by_cases hle : g'.level v ≤ g.level p
    · exact hg.node v m hm hle
    · -- an old node on the level of `q`
      have hv : v < t.nodes.length := by
        by_contra hnv
        exact hle (hg.fresh v (Nat.not_lt.mp hnv) (lt_of_getElem? hm))
      rw [hg.ext.level v hv] at hlv hle
      have hm' : t.nodes[v]? = some m := by rw [← habove v hv (by omega)]; exact hm
      have hok := h.node v m hm'
      refine hok.frame hg.ext hv ?_
      intro c hc
      obtain ⟨hclt, hclevel⟩ := hok.children_spec hc
      refine hi_congr (hg.above c hclt (by omega) ?_)
      rintro rfl
      exact hvq (h.parent_unique hm' hq hc hp)

/-- Growing without a split keeps the whole tree fine. -/
theorem Grown.wf (h : WF t g) (hp : p < t.nodes.length) (hg : Grown t g p t' g' none) :
    WF t' g' := by
  have hhi : ∀ v, v < t.nodes.length → g.level p ≤ g.level v → t'.hi v = t.hi v := by
    intro v hv hlv
    by_cases hvp : v = p
    · rw [hvp]
      exact hg.split
    · exact hi_congr (hg.above v hv hlv hvp)
  refine ⟨?_, hg.nonempty, hg.unique, ?_, ?_, ?_, ?_, ?_⟩
  · intro v n hn
    by_cases hle : g'.level v ≤ g.level p
    · exact hg.node v n hn hle
    · have hv : v < t.nodes.length := by
        by_contra hnv
        exact hle (hg.fresh v (Nat.not_lt.mp hnv) (lt_of_getElem? hn))
      rw [hg.ext.level v hv] at hle
      have hvp : v ≠ p := by
        rintro rfl
        omega
      have hn' : t.nodes[v]? = some n := by rw [← hg.above v hv (by omega) hvp]; exact hn
      have hok := h.node v n hn'
      refine hok.frame hg.ext hv ?_
      intro c hc
      obtain ⟨hclt, hclevel⟩ := hok.children_spec hc
      exact hhi c hclt (by omega)
  · rw [hg.root]
    exact Nat.lt_of_lt_of_le h.root_lt hg.ext.length
  · rw [hg.root, hg.ext.lo _ h.root_lt, h.root_lo]
  · rw [hg.root, hhi _ h.root_lt (h.level_le p hp)]
    exact h.root_hi
  · intro v hv
    rw [hg.root, hg.ext.level _ h.root_lt]
    by_cases hvt : v < t.nodes.length
    · rw [hg.ext.level v hvt]
      exact h.level_le v hvt
    · exact Nat.le_trans (hg.fresh v (Nat.not_lt.mp hvt) hv) (h.level_le p hp)
  · rw [hg.root, hg.ext.level _ h.root_lt]
    exact Nat.lt_of_lt_of_le h.level_lt hg.ext.length

/-- The unfinished node may turn out to be fine as it is. -/
theorem Almost.keep (h : Almost t g p t' g') (hp : p < t.nodes.length) (hn : t'.nodes[p]? = some n)
    (hok : NodeOK t' g' p n) : Grown t g p t' g' none where
  ext := h.ext
  root := h.root
  above v hv hlv _ := h.above v hv hlv
  fresh v hv hv' := Nat.le_of_lt (h.fresh v hv hv')
  node v m hm hlv := by
    by_cases hvp : v = p
    · rw [hvp, hn] at hm
      cases hm
      rw [hvp]
      exact hok
    · exact h.node v m hm hlv hvp
  nonempty := h.nonempty
  unique := h.unique
  split := hi_congr (h.above p hp (Nat.le_refl _))

/-- Give the unfinished node a new body with the same high key. -/
theorem Almost.replace (h : Almost t g p t' g') (hp : p < t.nodes.length) (hn : NodeOK t' g' p n)
    (hhigh : n.highKey = t.hi p) : Grown t g p ⟨t'.nodes.set p n, t'.root⟩ g' none := by
  have hp' : p < t'.nodes.length := Nat.lt_of_lt_of_le hp h.ext.length
  have hhi : ∀ v, (BTree.mk (t'.nodes.set p n) t'.root).hi v = t'.hi v := by
    intro v
    rw [hi_set hp']
    split
    · next hv => rw [hv, hhigh, hi_congr (h.above p hp (Nat.le_refl _))]
    · rfl
  have hext : Extends t' g' ⟨t'.nodes.set p n, t'.root⟩ g' :=
    ⟨by rw [length_set], fun _ _ => rfl, fun _ _ => rfl⟩
  have hcov : ∀ v k, Covers ⟨t'.nodes.set p n, t'.root⟩ g' v k ↔ Covers t' g' v k := by
    simp [Covers, hhi]
  refine ⟨h.ext.trans hext, h.root, ?_, ?_, ?_, ?_, ?_, ?_⟩
  · intro v hv hlv hvp
    rw [getElem?_set_ne (Ne.symm hvp)]
    exact h.above v hv hlv
  · intro v hv hv'
    rw [length_set] at hv'
    exact Nat.le_of_lt (h.fresh v hv hv')
  · intro v m hm hlv
    by_cases hvp : v = p
    · subst hvp
      rw [getElem?_set_self hp'] at hm
      cases hm
      exact hn.frame hext hp' fun c _ => hhi c
    · rw [getElem?_set_ne (Ne.symm hvp)] at hm
      exact (h.node v m hm hlv hvp).frame hext (lt_of_getElem? hm) fun c _ => hhi c
  · intro v hv
    rw [length_set] at hv
    rw [hhi]
    exact h.nonempty v hv
  · intro u v k hu hv hl hcu hcv
    rw [length_set] at hu hv
    exact h.unique u v k hu hv hl ((hcov u k).mp hcu) ((hcov v k).mp hcv)
  · show (BTree.mk (t'.nodes.set p n) t'.root).hi p = _
    rw [hhi, hi_congr (h.above p hp (Nat.le_refl _))]

/-- The ghost of a tree with one more node. -/
def Ghost.push (g : Ghost) (w : NodeId) (lo : Key) (level : Nat) : Ghost where
  lo v := if v = w then lo else g.lo v
  level v := if v = w then level else g.level v

section push

variable {w : NodeId} {lo : Key} {level : Nat}

@[simp] theorem Ghost.lo_push_self : (g.push w lo level).lo w = lo := if_pos rfl

@[simp] theorem Ghost.level_push_self : (g.push w lo level).level w = level := if_pos rfl

theorem Ghost.lo_push (h : v ≠ w) : (g.push w lo level).lo v = g.lo v := if_neg h

theorem Ghost.level_push (h : v ≠ w) : (g.push w lo level).level v = g.level v := if_neg h

end push

theorem getElem?_push (ns : List Node) (n : Node) (v : NodeId) :
    (ns ++ [n])[v]? = if v = ns.length then some n else ns[v]? := by
  by_cases hv : v = ns.length
  · rw [if_pos hv, hv, getElem?_concat_length]
  · rw [if_neg hv]
    rcases Nat.lt_or_gt_of_ne hv with hlt | hgt
    · exact getElem?_append_left hlt
    · rw [getElem?_eq_none (by rw [length_append]; exact hgt),
        getElem?_eq_none (Nat.le_of_lt hgt)]

/-- The arena after `p` was split into `left` and `upper`. -/
def splitAt (t : BTree) (p : NodeId) (left upper : Node) : BTree :=
  ⟨t.nodes.set p left ++ [upper], t.root⟩

section splitAt

variable {left upper : Node}

theorem length_splitAt : (splitAt t p left upper).nodes.length = t.nodes.length + 1 := by
  simp [splitAt]

theorem Extends.splitAt (g : Ghost) (sep : Key) (level : Nat) :
    Extends t g (splitAt t p left upper) (g.push t.nodes.length sep level) where
  length := by rw [length_splitAt]; omega
  lo _ hv := lo_push (Nat.ne_of_lt hv)
  level _ hv := level_push (Nat.ne_of_lt hv)

theorem getElem?_splitAt (hp : p < t.nodes.length) (v : NodeId) :
    (splitAt t p left upper).nodes[v]? =
      if v = p then some left else if v = t.nodes.length then some upper else t.nodes[v]? := by
  rw [splitAt, getElem?_push, length_set]
  by_cases hvp : v = p
  · subst hvp
    rw [if_pos rfl, if_neg (Nat.ne_of_lt hp), getElem?_set_self hp]
  · rw [if_neg hvp, getElem?_set_ne (Ne.symm hvp)]

theorem hi_splitAt (hp : p < t.nodes.length) (v : NodeId) :
    (splitAt t p left upper).hi v =
      if v = p then left.highKey else if v = t.nodes.length then upper.highKey else t.hi v := by
  rw [BTree.hi, getElem?_splitAt hp]
  split
  · rfl
  · split
    · rfl
    · rfl

/-- Split the unfinished node in two at a separator. -/
theorem Almost.split (h : Almost t g p t' g') (hp : p < t.nodes.length) {sep : Key}
    (hlo : g.lo p < sep) (hsep : Below sep (t.hi p)) (hleft : left.highKey = some sep)
    (hupper : upper.highKey = t.hi p)
    (hnl : NodeOK (splitAt t' p left upper) (g'.push t'.nodes.length sep (g.level p)) p left)
    (hnu : NodeOK (splitAt t' p left upper) (g'.push t'.nodes.length sep (g.level p))
      t'.nodes.length upper) :
    Grown t g p (splitAt t' p left upper) (g'.push t'.nodes.length sep (g.level p))
      (some (sep, t'.nodes.length)) := by
  have hp' : p < t'.nodes.length := Nat.lt_of_lt_of_le hp h.ext.length
  have hhip : t'.hi p = t.hi p := hi_congr (h.above p hp (Nat.le_refl _))
  have hlop : g'.lo p = g.lo p := h.ext.lo p hp
  have hext : Extends t' g' (splitAt t' p left upper)
      (g'.push t'.nodes.length sep (g.level p)) := .splitAt g' sep (g.level p)
  have hnew : t'.nodes.length ≠ p := (Nat.ne_of_lt hp').symm
  have hold : ∀ v, v < (splitAt t' p left upper).nodes.length → v ≠ t'.nodes.length →
      v < t'.nodes.length := by
    grind [length_splitAt]
  -- what the two parts cover, `p` covered before; every other interval is as it was
  have hown : ∀ v k, v < (splitAt t' p left upper).nodes.length →
      Covers (splitAt t' p left upper) (g'.push t'.nodes.length sep (g.level p)) v k →
      ∃ o, o < t'.nodes.length ∧ Covers t' g' o k ∧
        (g'.push t'.nodes.length sep (g.level p)).level v = g'.level o ∧
        (v = t'.nodes.length ∧ o = p ∧ sep ≤ k ∨ v = o ∧ (o = p → k < sep)) := by
    rintro v k hv ⟨hck, hbk⟩
    rw [hi_splitAt hp'] at hbk
    by_cases hvw : v = t'.nodes.length
    · subst hvw
      rw [if_neg hnew, if_pos rfl, hupper] at hbk
      rw [lo_push_self] at hck
      exact ⟨p, hp', ⟨hlop ▸ le_of_lt (lt_of_lt_of_le hlo hck), hhip ▸ hbk⟩,
        level_push_self.trans (h.ext.level p hp).symm, .inl ⟨rfl, rfl, hck⟩⟩
    · rw [lo_push hvw] at hck
      refine ⟨v, hold v hv hvw, ?_, level_push hvw, ?_⟩ <;> by_cases hvp : v = p
      · rw [if_pos hvp, hleft, below_some] at hbk
        exact ⟨hck, by rw [hvp, hhip]; exact hsep.of_le (le_of_lt hbk)⟩
      · rw [if_neg hvp, if_neg hvw] at hbk
        exact ⟨hck, hbk⟩
      · rw [if_pos hvp, hleft, below_some] at hbk
        exact .inr ⟨rfl, fun _ => hbk⟩
      · exact .inr ⟨rfl, fun he => absurd he hvp⟩
  refine ⟨h.ext.trans hext, h.root, ?_, ?_, ?_, ?_, ?_, ?_⟩
  · intro v hv hlv hvp
    have hvw : v ≠ t'.nodes.length := Nat.ne_of_lt (Nat.lt_of_lt_of_le hv h.ext.length)
    simp [getElem?_splitAt hp', hvp, hvw, h.above v hv hlv]
  · intro v hv hv'
    by_cases hvw : v = t'.nodes.length
    · rw [hvw, level_push_self]
    · rw [level_push hvw]
      exact Nat.le_of_lt (h.fresh v hv (hold v hv' hvw))
  · intro v n hn hlv
    rw [getElem?_splitAt hp'] at hn
    by_cases hvp : v = p
    · rw [if_pos hvp] at hn
      cases hn
      rw [hvp]
      exact hnl
    · rw [if_neg hvp] at hn
      by_cases hvw : v = t'.nodes.length
      · rw [if_pos hvw] at hn
        cases hn
        simp [hvw, hnu]
      · rw [if_neg hvw] at hn
        rw [level_push hvw] at hlv
        have hok := h.node v n hn hlv hvp
        refine hok.frame hext (lt_of_getElem? hn) ?_
        intro c hc
        obtain ⟨hclt, hclevel⟩ := hok.children_spec hc
        rw [hi_splitAt hp', if_neg, if_neg (Nat.ne_of_lt hclt)]
        rintro rfl
        grind [h.ext.level c hp]
  · intro v hv
    rw [hi_splitAt hp']
    by_cases hvw : v = t'.nodes.length
    · rw [hvw, if_neg hnew, if_pos rfl, hupper, lo_push_self]
      exact hsep
    · rw [lo_push hvw]
      split
      · next hvp => simp [hleft, hvp, hlop, hlo]
      · exact h.nonempty v (hold v hv hvw)
  · intro u v k hu hv hl hcu hcv
    obtain ⟨o, ho, hco, hlu, hou⟩ := hown u k hu hcu
    obtain ⟨o', ho', hco', hlv, hov⟩ := hown v k hv hcv
    obtain rfl := h.unique o o' k ho ho' (hlu.symm.trans (hl.trans hlv)) hco hco'
    rcases hou with ⟨rfl, hop, hle⟩ | ⟨rfl, hlt⟩ <;> rcases hov with ⟨rfl, hop', hle'⟩ | ⟨rfl, hlt'⟩
    · rfl
    · exact absurd (hlt' hop) (not_lt.mpr hle)
    · exact absurd (hlt hop') (not_lt.mpr hle')
    · rfl
  · refine ⟨hlo, hsep, ?_, h.ext.length, by rw [length_splitAt]; exact Nat.lt_succ_self _,
      lo_push_self, ?_, level_push_self⟩
    · rw [hi_splitAt hp', if_pos rfl, hleft]
    · rw [hi_splitAt hp', if_neg hnew, if_pos rfl, hupper]

end splitAt

end Archon
