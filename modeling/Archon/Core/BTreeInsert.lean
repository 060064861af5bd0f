import Archon.Core.BTreeUpdate

/-!
# Archon.Core.BTreeInsert

Insertion into a well-formed tree: at the leaf (`insertLeaf_spec`), when a
split child is taken in (`insertChild_spec`), down a path
(`insertRec_spec`), and with the root (`insert_spec`).
-/

namespace Archon

open Ghost Vec BTree List

variable {sep : Key} {es : List (Key × Bytes)} {xs ys zs : List (Key × NodeId)} {n : Node}
  {c : NodeId} {highKey : Option Key} {right : Option NodeId}
variable {t t' : BTree} {g g' : Ghost} {p : NodeId}

/-! ## Entries -/

/-- `t'` holds the entries of `t`, except that `key` now has the value `f`. -/
def Updates (t : BTree) (key : Key) (f : Option Bytes) (t' : BTree) : Prop :=
  ∀ k b, t'.Entry k b ↔ if k = key then f = some b else t.Entry k b

/-- The entries stored outside of the node `p`. -/
def EntryElsewhere (t : BTree) (p : NodeId) (k : Key) (b : Bytes) : Prop :=
  ∃ (u : NodeId) (m : Node), u ≠ p ∧ t.nodes[u]? = some m ∧ (k, b) ∈ m.entries

theorem entry_iff_elsewhere (hn : t.nodes[p]? = some n) (k : Key) (b : Bytes) :
    t.Entry k b ↔ (k, b) ∈ n.entries ∨ EntryElsewhere t p k b := by
  constructor
  · rintro ⟨u, m, hm, hmem⟩
    by_cases hu : u = p
    · rw [hu, hn] at hm
      cases hm
      exact .inl hmem
    · exact .inr ⟨u, m, hu, hm, hmem⟩
  · rintro (hmem | ⟨u, m, _, hm, hmem⟩)
    · exact ⟨p, n, hn, hmem⟩
    · exact ⟨u, m, hm, hmem⟩

theorem entry_set {n' : Node} (hn : t.nodes[p]? = some n) (k : Key) (b : Bytes) :
    (mk (t.nodes.set p n') t.root).Entry k b ↔
      (k, b) ∈ n'.entries ∨ EntryElsewhere t p k b := by
  rw [entry_iff_elsewhere (getElem?_set_self (lt_of_getElem? hn))]
  refine or_congr_right (exists₂_congr fun u m => and_congr_right fun hu => ?_)
  rw [getElem?_set_ne (Ne.symm hu)]

theorem entry_push (root : NodeId) (k : Key) (b : Bytes) :
    (mk (t.nodes ++ [n]) root).Entry k b ↔ t.Entry k b ∨ (k, b) ∈ n.entries := by
  constructor
  · rintro ⟨u, m, hm, hmem⟩
    rw [getElem?_push] at hm
    by_cases hu : u = t.nodes.length
    · rw [if_pos hu] at hm
      cases hm
      exact .inr hmem
    · rw [if_neg hu] at hm
      exact .inl ⟨u, m, hm, hmem⟩
  · rintro (⟨u, m, hm, hmem⟩ | hmem)
    · exact ⟨u, m, by rw [getElem?_push, if_neg (Nat.ne_of_lt (lt_of_getElem? hm)), hm], hmem⟩
    · exact ⟨_, n, by rw [getElem?_push, if_pos rfl], hmem⟩

theorem entry_splitAt {left upper : Node} (hn : t.nodes[p]? = some n) (k : Key) (b : Bytes) :
    (splitAt t p left upper).Entry k b ↔
      (k, b) ∈ left.entries ++ upper.entries ∨ EntryElsewhere t p k b := by
  have hpush := @entry_push upper ⟨t.nodes.set p left, t.root⟩ t.root k b
  rw [splitAt, hpush, entry_set hn, mem_append]
  tauto

variable {key l : Key} {as bs : List (Key × Bytes)} {b : Bytes} {v cm c₀ c' r : NodeId}
  {es' : List (Key × NodeId)} {right' : Option NodeId} {highKey' : Option Key}

/-- Changing `key` in the leaf that covers it changes it in the tree. -/
theorem WF.updates (h : WF t g) {f : Option Bytes} (hn : t.nodes[p]? = some n)
    (hlevel : g.level p = 0) (hcov : Covers t g p key)
    (hes : ∀ k b, (k, b) ∈ es ↔ if k = key then f = some b else (k, b) ∈ n.entries)
    (hentry : ∀ k b, t'.Entry k b ↔ (k, b) ∈ es ∨ EntryElsewhere t p k b) : Updates t key f t' := by
  intro k b
  rw [hentry, hes, entry_iff_elsewhere hn]
  by_cases hk : k = key
  · subst hk
    rw [if_pos rfl, if_pos rfl]
    -- no other leaf covers the key
    refine or_iff_left ?_
    rintro ⟨u, m, hu, hm, hmem⟩
    obtain ⟨hlu, hcu⟩ := (h.node u m hm).covers_of_mem hm hmem
    exact hu (h.unique u p k (lt_of_getElem? hm) (lt_of_getElem? hn) (hlu.trans hlevel.symm)
      hcu hcov)
  · simp [hk]

/-! ## Leaves -/

/-- A leaf whose entries are `es`. -/
def leafOf (es : List (Key × Bytes)) (right : Option NodeId) (highKey : Option Key) : Node :=
  .leaf (es.map Prod.fst) (es.map Prod.snd) right highKey

@[simp] theorem entries_leafOf (es : List (Key × Bytes)) (right : Option NodeId)
    (highKey : Option Key) : (leafOf es right highKey).entries = es := zip_map_fst_snd es

/-- A list longer than the capacity has a middle. -/
theorem exists_mid {xs : List α} (h : xs.length > NODE_CAPACITY) :
    ∃ as b bs, xs = as ++ b :: bs ∧ as.length = mid ∧ as ≠ [] := by
  have hmid : mid < xs.length := by
    rw [mid]
    omega
  refine ⟨xs.take mid, xs[mid], xs.drop (mid + 1), ?_, ?_, ?_⟩
  · simp
  · rw [length_take, Nat.min_eq_left (Nat.le_of_lt hmid)]
  · intro hnil
    have := congrArg List.length hnil
    rw [length_take, Nat.min_eq_left (Nat.le_of_lt hmid)] at this
    contradiction

theorem splitLeaf_eq (hp : p < t.nodes.length) (hlen : as.length = mid) :
    splitLeaf ⟨t.nodes.set p (leafOf (as ++ (sep, b) :: bs) right highKey), t.root⟩ p =
      .ok ((sep, t.nodes.length), splitAt t p (leafOf as (some t.nodes.length) (some sep))
        (leafOf ((sep, b) :: bs) right highKey)) := by
  have hk := splitOff_append (as.map Prod.fst) (((sep, b) :: bs).map Prod.fst)
  have hv := splitOff_append (as.map Prod.snd) (((sep, b) :: bs).map Prod.snd)
  rw [length_map, hlen] at hk hv
  have hi : index (((sep, b) :: bs).map Prod.fst) 0 = .ok sep := rfl
  simp only [splitLeaf, index_eq (getElem?_set_self hp), Except.ok_bind, leafOf,
    map_append, hk, hv, hi, set_set, length_set, Except.pure_eq_ok, splitAt]

theorem NodeOK.leaf_inv (h : NodeOK t g v n) (hn : n = leafOf es right highKey) :
    g.level v = 0 ∧ Ascending es ∧ (∀ e ∈ es, g.lo v ≤ e.1 ∧ Below e.1 highKey) ∧
      LinkOK t g v right highKey := by
  cases h with
  | internal => contradiction
  | leaf es' right' highKey' level ascending bounds link =>
    have hes : es' = es := by
      rw [← zip_map_fst_snd es', ← zip_map_fst_snd es]
      injection hn with hk hv
      rw [hk, hv]
    injection hn with _ _ hr hh
    subst hes hr hh
    exact ⟨level, ascending, bounds, link⟩

theorem WF.setLeaf (h : WF t g) {es' : List (Key × Bytes)}
    (hn : t.nodes[p]? = some (leafOf es right highKey)) (ha : Ascending es')
    (hb : ∀ e ∈ es', g.lo p ≤ e.1 ∧ Below e.1 highKey) :
    Grown t g p ⟨t.nodes.set p (leafOf es' right highKey), t.root⟩ g none := by
  obtain ⟨hlevel, _, _, hlink⟩ := (h.node p _ hn).leaf_inv rfl
  exact (h.almost p).replace (lt_of_getElem? hn) (.leaf es' right highKey hlevel ha hb hlink)
    (hi_eq hn).symm

theorem WF.splitLeaf (h : WF t g) (hn : t.nodes[p]? = some (leafOf es right highKey))
    (has : as ≠ []) (ha : Ascending (as ++ (sep, b) :: bs))
    (hb : ∀ e ∈ as ++ (sep, b) :: bs, g.lo p ≤ e.1 ∧ Below e.1 highKey) :
    Grown t g p (splitAt t p (leafOf as (some t.nodes.length) (some sep))
        (leafOf ((sep, b) :: bs) right highKey))
      (g.push t.nodes.length sep (g.level p)) (some (sep, t.nodes.length)) := by
  obtain ⟨hlevel, _, _, hlink⟩ := (h.node p _ hn).leaf_inv rfl
  obtain ⟨hasc, hbsc, hlt⟩ := pairwise_append.mp ha
  have hp := lt_of_getElem? hn
  have hne : p ≠ t.nodes.length := Nat.ne_of_lt hp
  have hlevelp : (g.push t.nodes.length sep (g.level p)).level p = g.level p := level_push hne
  -- some entry lies in the lower half, so the separator is above the lower bound
  have hlo : g.lo p < sep := by
    obtain ⟨a, as', rfl⟩ := exists_cons_of_ne_nil has
    exact lt_of_le_of_lt (hb a (by simp)).1 (hlt a (.head _) _ (.head _))
  refine (h.almost p).split hp hlo ?_ rfl (hi_eq hn).symm ?_ ?_
  · rw [hi_eq hn]
    exact (hb (sep, b) (by simp)).2
  · refine .leaf as _ _ (hlevelp.trans hlevel) hasc ?_ ?_
    · intro e he
      rw [lo_push hne]
      exact ⟨(hb e (mem_append_left _ he)).1,
        (below_some _ _).mpr (hlt e he _ (.head _))⟩
    · exact ⟨by rw [length_splitAt]; exact Nat.lt_succ_self _, lo_push_self,
        level_push_self.trans hlevelp.symm⟩
  · refine .leaf ((sep, b) :: bs) right highKey (level_push_self.trans hlevel) hbsc ?_ ?_
    · intro e he
      rw [lo_push_self]
      refine ⟨?_, (hb e (mem_append_right _ he)).2⟩
      rcases mem_cons.mp he with rfl | he
      · exact le_refl _
      · exact le_of_lt (Ascending.cons hbsc |>.1 e he)
    · exact (hlink.frame (.splitAt g sep (g.level p)) hp).of_level
        (hlevelp.trans level_push_self.symm)

theorem insertLeaf_spec (h : WF t g) {value : Bytes}
    (hn : t.nodes[p]? = some (leafOf es right highKey)) (hcov : Covers t g p key) :
    ∃ split t' g', t.insertLeaf key value p (es.map Prod.fst) (es.map Prod.snd) right highKey =
        .ok (split, t') ∧ Grown t g p t' g' split ∧ Updates t key (some value) t' := by
  obtain ⟨hlevel, ha, hb, _⟩ := (h.node p _ hn).leaf_inv rfl
  have hp := lt_of_getElem? hn
  have hhi : t.hi p = highKey := hi_eq hn
  -- the new entries, whichever way they are stored
  have hput : ∀ xs ys : List (Key × Bytes), (∀ e ∈ xs ++ ys, e ∈ es) →
      (∀ k b, k ≠ key → (k, b) ∈ es → (k, b) ∈ xs ++ ys) →
      (∀ x ∈ xs, x.1 < key) → (∀ y ∈ ys, key < y.1) →
      (∀ e ∈ xs ++ (key, value) :: ys, g.lo p ≤ e.1 ∧ Below e.1 highKey) ∧
      ∀ k b, (k, b) ∈ xs ++ (key, value) :: ys ↔
        if k = key then some value = some b else (k, b) ∈ (leafOf es right highKey).entries := by
    intro xs ys hsub hsup hxs hys
    refine ⟨?_, ?_⟩
    · intro e he
      rcases mem_append.mp he with he | he
      · exact hb e (hsub e (mem_append_left _ he))
      · rcases mem_cons.mp he with rfl | he
        · exact ⟨hcov.1, hhi ▸ hcov.2⟩
        · exact hb e (hsub e (mem_append_right _ he))
    · intro k b
      rw [mem_put hxs hys, entries_leafOf]
      split
      · rfl
      · next hk => exact ⟨fun hm => hsub _ hm, fun hm => hsup k b hk hm⟩
  rcases ha.locate key with ⟨xs, b₀, ys, rfl, hxs, hys⟩ | ⟨xs, ys, rfl, hxs, hys⟩
  · -- the key is present: its value is replaced
    obtain ⟨hbounds, hmem⟩ := hput xs ys (by simp; tauto) (by simp; tauto) hxs hys
    have hset := set_append (xs.map Prod.snd) (ys.map Prod.snd) b₀ value
    rw [length_map] at hset
    refine ⟨none, ⟨t.nodes.set p (leafOf (xs ++ (key, value) :: ys) right highKey), t.root⟩, g, ?_,
      h.setLeaf hn (ha.drop_mid.put hxs hys value) hbounds, h.updates hn hlevel hcov hmem ?_⟩
    · simp [insertLeaf, binarySearch_found
        (xs.map Prod.fst) (ys.map Prod.fst) (by simpa using hxs) (by simpa using hys),
        hset, leafOf]
    · simp [entry_set hn]
  · obtain ⟨hbounds, hmem⟩ := hput xs ys (fun _ he => he) (fun _ _ _ he => he) hxs hys
    have hasc := ha.put hxs hys value
    have hik := insert_append (xs.map Prod.fst) (ys.map Prod.fst) key
    have hiv := insert_append (xs.map Prod.snd) (ys.map Prod.snd) value
    rw [length_map] at hik hiv
    have hstart : t.insertLeaf key value p ((xs ++ ys).map Prod.fst) ((xs ++ ys).map Prod.snd)
        right highKey =
          let t' : BTree :=
            ⟨t.nodes.set p (leafOf (xs ++ (key, value) :: ys) right highKey), t.root⟩
          if (xs ++ (key, value) :: ys).length > NODE_CAPACITY then
            t'.splitLeaf p >>= fun r => pure (some r.1, r.2)
          else pure (none, t') := by
      simp [insertLeaf, binarySearch_missing
        (xs.map Prod.fst) (ys.map Prod.fst) (by simpa using hxs) (by simpa using hys),
        hik, hiv, leafOf]
    rw [hstart]
    by_cases hfull : (xs ++ (key, value) :: ys).length > NODE_CAPACITY
    · -- the leaf is full: its upper half moves to a new node
      obtain ⟨as, ⟨sep, b⟩, bs, hsplit, hlen, hne⟩ := exists_mid hfull
      rw [if_pos hfull, hsplit, splitLeaf_eq hp hlen]
      rw [hsplit] at hasc hbounds hmem
      refine ⟨_, _, _, rfl, h.splitLeaf hn hne hasc hbounds, h.updates hn hlevel hcov hmem ?_⟩
      simp [entry_splitAt hn]
    · rw [if_neg hfull]
      refine ⟨_, _, g, rfl, h.setLeaf hn hasc hbounds, h.updates hn hlevel hcov hmem ?_⟩
      simp [entry_set hn]

/-! ## Internal nodes -/

/-- An internal node with first child `c` and the separated children `es`. -/
def internalOf (c : NodeId) (es : List (Key × NodeId)) (right : Option NodeId)
    (highKey : Option Key) : Node :=
  .internal (es.map Prod.fst) (c :: es.map Prod.snd) right highKey

theorem NodeOK.internal_inv (h : NodeOK t g v n) {es : List (Key × NodeId)}
    (hn : n = internalOf c es right highKey) :
    Chain g.lo t.hi ((g.lo v, c) :: es) highKey ∧
      (∀ e ∈ (g.lo v, c) :: es, e.2 < t.nodes.length ∧ g.level e.2 + 1 = g.level v) ∧
      LinkOK t g v right highKey := by
  cases h with
  | leaf => contradiction
  | internal c' es' right' highKey' chain children link =>
    injection hn with hk hc hr hh
    injection hc with hc hs
    have hes : es' = es := by
      rw [← zip_map_fst_snd es', ← zip_map_fst_snd es, hk, hs]
    subst hes hc hr hh
    exact ⟨chain, children, link⟩

theorem splitInternal_eq {as bs : List (Key × NodeId)} (hp : p < t.nodes.length)
    (hlen : as.length = mid) :
    splitInternal ⟨t.nodes.set p (internalOf c (as ++ (sep, cm) :: bs) right highKey),
        t.root⟩ p =
      .ok ((sep, t.nodes.length), splitAt t p (internalOf c as (some t.nodes.length) (some sep))
        (internalOf cm bs right highKey)) := by
  have hi := index_append (as.map Prod.fst) (bs.map Prod.fst) sep
  have hk := splitOff_append (as.map Prod.fst ++ [sep]) (bs.map Prod.fst)
  have hv := splitOff_append (c :: as.map Prod.snd) (cm :: bs.map Prod.snd)
  rw [length_map, hlen] at hi
  rw [length_append, length_map, hlen, append_assoc] at hk
  rw [length_cons, length_map, hlen] at hv
  simp only [length_singleton, cons_append, nil_append] at hk hv
  simp [splitInternal, index_eq (getElem?_set_self hp), internalOf, hi, hk, hv, splitAt]

/-- Both halves of a split internal node are fine. -/
theorem NodeOK.splitInternal {as bs : List (Key × NodeId)} (hp : p < t.nodes.length)
    (h : NodeOK t g p (internalOf c (as ++ (sep, cm) :: bs) right highKey)) (left upper : Node) :
    NodeOK (splitAt t p left upper) (g.push t.nodes.length sep (g.level p)) p
        (internalOf c as (some t.nodes.length) (some sep)) ∧
      NodeOK (splitAt t p left upper) (g.push t.nodes.length sep (g.level p)) t.nodes.length
        (internalOf cm bs right highKey) := by
  obtain ⟨hchain, hchildren, hlink⟩ := h.internal_inv rfl
  have hext : Extends t g (splitAt t p left upper) (g.push t.nodes.length sep (g.level p)) :=
    .splitAt g sep (g.level p)
  have hne : p ≠ t.nodes.length := Nat.ne_of_lt hp
  -- children sit below `p`, so their bounds do not change
  have hcongr : ∀ es, (∀ e ∈ es, e ∈ (g.lo p, c) :: (as ++ (sep, cm) :: bs)) → ∀ hk,
      Chain g.lo t.hi es hk → Chain (g.push t.nodes.length sep (g.level p)).lo
        (splitAt t p left upper).hi es hk := by
    intro es hsub hk hc
    refine hc.congr (fun e he => hext.lo _ (hchildren e (hsub e he)).1) ?_
    intro e he
    obtain ⟨hlt, hlevel⟩ := hchildren e (hsub e he)
    rw [hi_splitAt hp]
    grind
  have hkids : ∀ e ∈ (g.lo p, c) :: (as ++ (sep, cm) :: bs),
      e.2 < (splitAt t p left upper).nodes.length ∧
      (g.push t.nodes.length sep (g.level p)).level e.2 + 1 = g.level p := by
    intro e he
    obtain ⟨hlt, hlevel⟩ := hchildren e he
    exact ⟨Nat.lt_of_lt_of_le hlt hext.length, by rw [hext.level _ hlt]; exact hlevel⟩
  have hlevelp : (g.push t.nodes.length sep (g.level p)).level p = g.level p := level_push hne
  rw [← cons_append, chain_append] at hchain
  refine ⟨?_, ?_⟩
  · refine .internal c as _ _ ?_ ?_ ⟨?_, lo_push_self, level_push_self.trans hlevelp.symm⟩
    · rw [lo_push hne]
      exact hcongr _ (fun e he => by
        rw [← cons_append]; exact mem_append_left _ he) _ hchain.1
    · rw [lo_push hne, hlevelp]
      exact fun e he => hkids e (by rw [← cons_append]; exact mem_append_left _ he)
    · simp [length_splitAt]
  · refine .internal cm bs _ _ ?_ ?_
      ((hlink.frame hext hp).of_level (hlevelp.trans level_push_self.symm))
    · rw [lo_push_self]
      exact hcongr _ (fun e he => mem_cons_of_mem _ (mem_append_right _ he)) _ hchain.2
    · rw [lo_push_self, level_push_self]
      exact fun e he => hkids e (mem_cons_of_mem _ (mem_append_right _ he))

/-- The separators around a child that was split. -/
theorem exists_insert_position {l₀ : Key} (hzs : (l₀, c₀) :: zs = xs ++ [(l, c)])
    (ha : Ascending ((l₀, c₀) :: (zs ++ ys))) (hlo : l < sep) (hsep : Below sep (next ys highKey)) :
    (∀ z ∈ zs, z.1 < sep) ∧ ∀ y ∈ ys, sep < y.1 := by
  rw [← cons_append, hzs] at ha
  obtain ⟨hxl, hys, _⟩ := pairwise_append.mp ha
  obtain ⟨_, _, hlt⟩ := pairwise_append.mp hxl
  refine ⟨?_, ?_⟩
  · intro z hz
    have hm : z ∈ xs ++ [(l, c)] := by rw [← hzs]; exact mem_cons_of_mem _ hz
    rcases mem_append.mp hm with hm | hm
    · exact lt_trans (hlt z hm _ (.head _)) hlo
    · rw [mem_singleton.mp hm]
      exact hlo
  · intro y hy
    cases ys with
    | nil => contradiction
    | cons y₀ ys =>
      obtain ⟨ly, cy⟩ := y₀
      have hly : sep < ly := (below_some _ _).mp hsep
      rcases mem_cons.mp hy with rfl | hy
      · exact hly
      · exact lt_trans hly ((Ascending.cons hys).1 y hy)

/-- The parent of a split child, with the new child taken in, is fine. -/
theorem NodeOK.takeIn (h : WF t g)
    (hn : t.nodes[p]? = some (internalOf c₀ (zs ++ ys) right highKey))
    (hzs : (g.lo p, c₀) :: zs = xs ++ [(l, c)]) (hg : Grown t g c t' g' (some (sep, r))) :
    NodeOK t' g' p (internalOf c₀ (zs ++ (sep, r) :: ys) right highKey) ∧
      (∀ z ∈ zs, z.1 < sep) ∧ ∀ y ∈ ys, sep < y.1 := by
  obtain ⟨hchain, hchildren, hlink⟩ := (h.node p _ hn).internal_inv rfl
  obtain ⟨hlo, hsep, hhic, _, hrlt, hlor, hhir, hlevelr⟩ := hg.split
  have hp := lt_of_getElem? hn
  have hasc := hchain.ascending.1
  have hall : (g.lo p, c₀) :: (zs ++ ys) = xs ++ (l, c) :: ys := by grind
  rw [hall] at hchain hchildren
  rw [chain_append] at hchain
  obtain ⟨hxs, hloc, hhi, hbelow, hys⟩ := hchain
  rw [hhi] at hsep hhir
  rw [hloc] at hlo
  obtain ⟨hclt, hclevel⟩ := hchildren (l, c) (by simp)
  -- the other children start elsewhere, so they are not `c` and did not change
  have hother : ∀ e ∈ xs ++ ys, g'.lo e.2 = g.lo e.2 ∧ t'.hi e.2 = t.hi e.2 := by
    intro e he
    have hm : e ∈ xs ++ (l, c) :: ys := by
      rcases mem_append.mp he with he | he
      · exact mem_append_left _ he
      · exact mem_append_right _ (.tail _ he)
    obtain ⟨helt, helevel⟩ := hchildren e hm
    refine ⟨hg.ext.lo _ helt, hi_congr (hg.above _ helt ?_ ?_)⟩
    · grind
    · intro hec
      rw [hall] at hasc
      have hloe : g.lo e.2 = e.1 := by
        rcases mem_append.mp he with he | he
        · obtain ⟨as, bs, rfl⟩ := append_of_mem he
          rw [chain_append] at hxs
          exact hxs.2.1
        · obtain ⟨as, bs, rfl⟩ := append_of_mem he
          rw [chain_append] at hys
          exact hys.2.1
      rw [hec, hloc] at hloe
      obtain ⟨_, hcons, hlt⟩ := pairwise_append.mp hasc
      rcases mem_append.mp he with he | he
      · exact absurd hloe (ne_of_gt (hlt e he _ (.head _)))
      · exact absurd hloe (ne_of_lt ((Ascending.cons hcons).1 e he))
  have hlop : g'.lo p = g.lo p := hg.ext.lo p hp
  have hnew : (g'.lo p, c₀) :: (zs ++ (sep, r) :: ys) = xs ++ (l, c) :: (sep, r) :: ys := by grind
  refine ⟨.internal c₀ _ right highKey ?_ ?_ (hlink.frame hg.ext hp),
    exists_insert_position hzs hasc hlo hsep⟩
  · rw [hnew, chain_append]
    refine ⟨?_, (hg.ext.lo c hclt).trans hloc, hhic, (below_some _ _).mpr hlo, hlor, hhir, hsep, ?_⟩
    · exact hxs.congr (fun e he => (hother e (mem_append_left _ he)).1)
        fun e he => (hother e (mem_append_left _ he)).2
    · exact hys.congr (fun e he => (hother e (mem_append_right _ he)).1)
        fun e he => (hother e (mem_append_right _ he)).2
  · rw [hnew, hg.ext.level p hp]
    intro e he
    by_cases her : e = (sep, r)
    · subst her
      exact ⟨hrlt, by rw [hlevelr]; exact hclevel⟩
    · have hm : e ∈ xs ++ (l, c) :: ys := by
        simp only [mem_append, mem_cons] at he ⊢
        tauto
      obtain ⟨helt, helevel⟩ := hchildren e hm
      exact ⟨Nat.lt_of_lt_of_le helt hg.ext.length, by rw [hg.ext.level _ helt]; exact helevel⟩

theorem insertChild_spec (h : WF t g)
    (hn : t.nodes[p]? = some (internalOf c₀ (zs ++ ys) right highKey))
    (hzs : (g.lo p, c₀) :: zs = xs ++ [(l, c)]) (hg : Grown t g c t' g' (some (sep, r))) :
    ∃ split t'' g'', t'.insertChild p sep r = .ok (split, t'') ∧ Grown t g p t'' g'' split ∧
      ∀ k b, t''.Entry k b ↔ t'.Entry k b := by
  obtain ⟨hok, hzlt, hylt⟩ := NodeOK.takeIn h hn hzs hg
  have hp := lt_of_getElem? hn
  have hc : c ∈ (internalOf c₀ (zs ++ ys) right highKey).children := by
    have hm : (l, c) ∈ (g.lo p, c₀) :: zs := by rw [hzs]; simp
    rcases mem_cons.mp hm with hm | hm
    · cases hm
      exact (.head _)
    · exact mem_cons_of_mem _ (mem_map_of_mem (f := Prod.snd)
        (mem_append_left ys hm))
  have hal := hg.almost h hn hc
  have hp' : p < t'.nodes.length := Nat.lt_of_lt_of_le hp hal.ext.length
  have hn' : t'.nodes[p]? = some (internalOf c₀ (zs ++ ys) right highKey) := by
    rw [hal.above p hp (Nat.le_refl _), hn]
  have hik := insert_append (zs.map Prod.fst) (ys.map Prod.fst) sep
  have hiv := insert_append (c₀ :: zs.map Prod.snd) (ys.map Prod.snd) r
  rw [length_map] at hik
  rw [length_cons, length_map] at hiv
  have hstart : t'.insertChild p sep r =
      let t'' : BTree :=
        ⟨t'.nodes.set p (internalOf c₀ (zs ++ (sep, r) :: ys) right highKey), t'.root⟩
      if (zs ++ (sep, r) :: ys).length > NODE_CAPACITY then
        t''.splitInternal p >>= fun s => pure (some s.1, s.2)
      else pure (none, t'') := by
    simp only [cons_append] at hiv
    simp only [insertChild, index_eq hn', Except.ok_bind, internalOf, map_append,
      map_cons, binarySearch_missing (zs.map Prod.fst) (ys.map Prod.fst)
      (by simpa using hzlt) (by simpa using hylt), length_map, hik, hiv, length_append,
      length_cons]
  rw [hstart]
  have hhi : (internalOf c₀ (zs ++ (sep, r) :: ys) right highKey).highKey = t.hi p :=
    (hi_eq hn).symm
  by_cases hfull : (zs ++ (sep, r) :: ys).length > NODE_CAPACITY
  · obtain ⟨as, ⟨sep', cm⟩, bs, hsplit, hlen, _⟩ := exists_mid hfull
    rw [if_pos hfull, hsplit, splitInternal_eq hp' hlen]
    rw [hsplit] at hok
    obtain ⟨hchain, _, _⟩ := hok.internal_inv rfl
    obtain ⟨hasc, hbelow⟩ := hchain.ascending
    obtain ⟨hl, hu⟩ := hok.splitInternal hp' (internalOf c₀ as (some t'.nodes.length) (some sep'))
      (internalOf cm bs right highKey)
    rw [hal.ext.level p hp] at hl hu
    refine ⟨_, _, _, rfl, hal.split hp ?_ ?_ rfl (hi_eq hn).symm hl hu,
      fun k b => (entry_splitAt hn' k b).trans (entry_iff_elsewhere hn' k b).symm⟩
    · rw [← hal.ext.lo p hp]
      exact hasc.cons.1 (sep', cm) (by simp)
    · rw [hi_eq hn]
      exact hbelow (sep', cm) (by simp)
  · rw [if_neg hfull]
    -- internal nodes hold no entries
    exact ⟨_, _, g', rfl, hal.replace hp hok hhi,
      fun k b => (entry_set hn' k b).trans (entry_iff_elsewhere hn' k b).symm⟩

/-! ## Paths and the root -/

theorem WF.shape (h : WF t g) (hp : p < t.nodes.length) :
    (∃ es right highKey, t.nodes[p]? = some (leafOf es right highKey)) ∨
      ∃ c es right highKey, t.nodes[p]? = some (internalOf c es right highKey) := by
  have hn := getElem?_eq_getElem hp
  generalize t.nodes[p] = n at hn
  cases h.node p n hn with
  | leaf es right highKey => exact .inl ⟨es, right, highKey, hn⟩
  | internal c es right highKey => exact .inr ⟨c, es, right, highKey, hn⟩

/-- The child of an internal node that covers a key. -/
theorem WF.route (h : WF t g) {es : List (Key × NodeId)}
    (hn : t.nodes[p]? = some (internalOf c₀ es right highKey)) (hcov : Covers t g p key) :
    ∃ xs l c zs ys, (g.lo p, c₀) :: zs = xs ++ [(l, c)] ∧ es = zs ++ ys ∧
      childIndex (es.map Prod.fst) key = zs.length ∧
      (c₀ :: es.map Prod.snd)[zs.length]? = some c ∧ Covers t g c key ∧
      c < t.nodes.length ∧ g.level c + 1 = g.level p := by
  obtain ⟨hchain, hchildren, _⟩ := (h.node p _ hn).internal_inv rfl
  have hk := hcov.2
  rw [hi_eq hn] at hk
  obtain ⟨xs, l, c, zs, ys, hzs, rfl, hidx, hget, hcovc⟩ := Archon.route hchain hcov.1 hk
  exact ⟨xs, l, c, zs, ys, hzs, rfl, hidx, hget, hcovc,
    hchildren (l, c) (by rw [← cons_append, hzs]; simp)⟩

/-- Insertion below a node that covers the key; the level bounds the depth. -/
theorem insertRec_spec (h : WF t g) (key : Key) (value : Bytes) (fuel : Nat) :
    ∀ p, p < t.nodes.length → Covers t g p key → g.level p < fuel →
    ∃ split t' g', t.insertRec key value fuel p = .ok (split, t') ∧ Grown t g p t' g' split ∧
      Updates t key (some value) t' := by
  induction fuel with
  | zero => exact fun _ _ _ hl => absurd hl (Nat.not_lt_zero _)
  | succ fuel ih =>
    intro p hp hcov hl
    rcases h.shape hp with ⟨es, right, highKey, hn⟩ | ⟨c₀, es, right, highKey, hn⟩
    · rw [insertRec, index_eq hn]
      exact insertLeaf_spec h hn hcov
    · obtain ⟨xs, l, c, zs, ys, hzs, rfl, hidx, hget, hcovc, hclt, hclevel⟩ := h.route hn hcov
      obtain ⟨split, t', g', hrec, hg, hupd⟩ := ih c hclt hcovc (by omega)
      rw [insertRec, index_eq hn]
      simp only [Except.ok_bind, internalOf]
      rw [hidx, index_eq hget, Except.ok_bind, hrec]
      cases split with
      | some sr =>
        obtain ⟨split, t'', g'', hchild, hg', hentry⟩ := insertChild_spec h hn hzs hg
        exact ⟨split, t'', g'', hchild, hg', fun k b => (hentry k b).trans (hupd k b)⟩
      | none =>
        have hmem : c ∈ (internalOf c₀ (zs ++ ys) right highKey).children :=
          mem_of_getElem? hget
        have hal := hg.almost h hn hmem
        have hn' := (hal.above p hp (Nat.le_refl _)).trans hn
        exact ⟨none, t', g', rfl, hal.keep hp hn' ((hg.wf h hclt).node p _ hn'), hupd⟩

theorem hi_push (n : Node) (root v : NodeId) :
    (mk (t.nodes ++ [n]) root).hi v = if v = t.nodes.length then n.highKey else t.hi v := by
  rw [hi, getElem?_push]
  split
  · rfl
  · rfl

theorem Extends.push (g : Ghost) (n : Node) (root : NodeId) (lo : Key) (level : Nat) :
    Extends t g ⟨t.nodes ++ [n], root⟩ (g.push t.nodes.length lo level) where
  length := by rw [length_append]; exact Nat.le_add_right _ _
  lo _ hv := lo_push (Nat.ne_of_lt hv)
  level _ hv := level_push (Nat.ne_of_lt hv)

/-- A new root over the two halves of the old one. -/
theorem Grown.newRoot (h : WF t g) (hg : Grown t g t.root t' g' (some (sep, r))) :
    WF ⟨t'.nodes ++ [internalOf t'.root [(sep, r)] none none], t'.nodes.length⟩
      (g'.push t'.nodes.length 0 (g.level t.root + 1)) := by
  obtain ⟨hlo, hsep, hhi, _, hrlt, hlor, hhir, hlevelr⟩ := hg.split
  have hroot : t'.root < t'.nodes.length := by
    rw [hg.root]
    exact Nat.lt_of_lt_of_le h.root_lt hg.ext.length
  have hlevel : ∀ v, v < t'.nodes.length → g'.level v ≤ g.level t.root := by
    intro v hv
    by_cases hvt : v < t.nodes.length
    · rw [hg.ext.level v hvt]
      exact h.level_le v hvt
    · exact hg.fresh v (Nat.not_lt.mp hvt) hv
  have hhi' : ∀ v, v < t'.nodes.length →
      (BTree.mk (t'.nodes ++ [internalOf t'.root [(sep, r)] none none]) t'.nodes.length).hi v =
        t'.hi v := by
    intro v hv
    rw [hi_push, if_neg (Nat.ne_of_lt hv)]
  have hhiw := hi_push (t := t') (internalOf t'.root [(sep, r)] none none) t'.nodes.length
    t'.nodes.length
  rw [if_pos rfl] at hhiw
  have hext := Extends.push (t := t') g' (internalOf t'.root [(sep, r)] none none) t'.nodes.length 0
    (g.level t.root + 1)
  have hlength : (t'.nodes ++ [internalOf t'.root [(sep, r)] none none]).length =
      t'.nodes.length + 1 := by simp
  have hold : ∀ v, v < t'.nodes.length + 1 → v ≠ t'.nodes.length → v < t'.nodes.length :=
    fun v hv hvw => Nat.lt_of_le_of_ne (Nat.le_of_lt_succ hv) hvw
  refine ⟨?_, ?_, ?_, ?_, lo_push_self, hhiw, ?_, ?_⟩
  · intro v n hn
    rw [getElem?_push] at hn
    by_cases hvw : v = t'.nodes.length
    · rw [if_pos hvw] at hn
      cases hn
      rw [hvw]
      refine .internal _ [(sep, r)] none none ?_ ?_ trivial
      · rw [lo_push_self]
        refine ⟨?_, ?_, ?_, ?_, ?_, below_none _, trivial⟩
        · rw [hext.lo _ hroot, hg.root, hg.ext.lo _ h.root_lt, h.root_lo]
        · rw [hhi' _ hroot, hg.root]
          exact hhi
        · rw [← h.root_lo]
          exact (below_some _ _).mpr hlo
        · rw [hext.lo _ hrlt, hlor]
        · rw [hhi' _ hrlt, hhir, h.root_hi]
          rfl
      · rw [level_push_self, hlength]
        intro e he
        simp only [mem_cons, not_mem_nil, or_false] at he
        rcases he with rfl | rfl
        · exact ⟨Nat.lt_succ_of_lt hroot,
            by rw [hext.level _ hroot, hg.root, hg.ext.level _ h.root_lt]⟩
        · exact ⟨Nat.lt_succ_of_lt hrlt, by rw [hext.level _ hrlt, hlevelr]⟩
    · rw [if_neg hvw] at hn
      have hv := lt_of_getElem? hn
      have hok := hg.node v n hn (hlevel v hv)
      exact hok.frame hext hv fun c hc => hhi' c (hok.children_spec hc).1
  · intro v hv
    rw [hlength] at hv
    by_cases hvw : v = t'.nodes.length
    · rw [hvw, hhiw]
      exact below_none _
    · have hv' := hold v hv hvw
      rw [hhi' v hv', hext.lo v hv']
      exact hg.nonempty v hv'
  · intro u v k hu hv hl hcu hcv
    rw [hlength] at hu hv
    by_cases huw : u = t'.nodes.length <;> by_cases hvw : v = t'.nodes.length
    · rw [huw, hvw]
    · have := hlevel v (hold v hv hvw)
      rw [huw, level_push_self, level_push hvw] at hl
      omega
    · have := hlevel u (hold u hu huw)
      rw [hvw, level_push_self, level_push huw] at hl
      omega
    · have hu' := hold u hu huw
      have hv' := hold v hv hvw
      rw [Covers, hext.lo u hu', hhi' u hu'] at hcu
      rw [Covers, hext.lo v hv', hhi' v hv'] at hcv
      rw [hext.level u hu', hext.level v hv'] at hl
      exact hg.unique u v k hu' hv' hl hcu hcv
  · simp
  · intro v hv
    rw [hlength] at hv
    rw [level_push_self]
    by_cases hvw : v = t'.nodes.length
    · rw [hvw, level_push_self]
    · rw [level_push hvw]
      exact Nat.le_succ_of_le (hlevel v (hold v hv hvw))
  · simpa using Nat.succ_lt_succ (Nat.lt_of_lt_of_le h.level_lt hg.ext.length)

/-- Insertion keeps the tree well-formed and changes one entry. -/
theorem insert_spec (h : WF t g) (key : Key) (value : Bytes) :
    ∃ t' g', t.insert key value = .ok t' ∧ WF t' g' ∧ Extends t g t' g' ∧
      Updates t key (some value) t' := by
  have hcov : Covers t g t.root key :=
    ⟨h.root_lo ▸ Nat.zero_le key, by rw [h.root_hi]; exact below_none key⟩
  obtain ⟨split, t', g', hrec, hg, hupd⟩ := insertRec_spec h key value t.nodes.length t.root
    h.root_lt hcov h.level_lt
  cases split with
  | none => exact ⟨t', g', by rw [BTree.insert, hrec]; rfl, hg.wf h h.root_lt, hg.ext, hupd⟩
  | some sr =>
    refine ⟨_, _, by rw [BTree.insert, hrec]; rfl, hg.newRoot h,
      hg.ext.trans (.push g' _ _ _ _), fun k b => ?_⟩
    rw [entry_push, hupd k b]
    exact or_iff_left not_mem_nil

end Archon
