import Archon.Relational.VectorIndex
import Mathlib.Data.Set.Card

/-!
# Archon.Relational.IvfFlat

The IVFFlat index holds every live row once, in the cluster that its map
names, whatever the scores of the vectors are.  A search of all clusters hence
finds as many rows as it is asked for.  The clusters are seeded with different
rows (`nlist_seeds`).
-/

namespace Archon

open SortedMap List Function

/-- A call on an index that has been built. -/
inductive IndexCall where
  | insert (id : Nat) (v : List F32)
  | remove (id : Nat)

namespace IndexCall

def run (S : Scoring) (idx : IvfFlatIndex) : IndexCall → IvfFlatIndex
  | insert id v => S.insert idx id v
  | remove id => idx.remove id

/-- The live rows after the call, each with its latest vector. -/
def live (rows : Nat → Option (List F32)) : IndexCall → Nat → Option (List F32)
  | insert id v => update rows id (some v)
  | remove id => update rows id none

end IndexCall

/-- The rows that are live after some calls. -/
def liveRows (calls : List IndexCall) : Nat → Option (List F32) :=
  calls.foldl IndexCall.live fun _ => none

namespace IvfFlatIndex

variable {S : Scoring} {idx : IvfFlatIndex} {live : Nat → Option (List F32)}

/-- The rows of a cluster. -/
def cluster (idx : IvfFlatIndex) (c : Nat) : List (Nat × List F32) := idx.lists.getD c []

/-- Each live row is in one cluster, once and with its vector, and the map names the cluster. -/
structure Mirrors (idx : IvfFlatIndex) (live : Nat → Option (List F32)) : Prop where
  clusters : 0 < idx.centroids.length ∧ idx.lists.length = idx.centroids.length
  entries : ∀ c id v, (id, v) ∈ idx.cluster c ↔ live id = some v ∧ idx.idToList.find? id = some c
  once : ∀ c, ((idx.cluster c).map Prod.fst).Nodup
  tracked : ∀ id, (idx.idToList.find? id).isSome = (live id).isSome

/-! ## Calls -/

theorem getD_modify {l : List (List α)} {c : Nat} {f : List α → List α}
    (h : c < l.length ∨ f [] = []) (c' : Nat) :
    (l.modify c f).getD c' [] = if c = c' then f (l.getD c' []) else l.getD c' [] := by
  rw [getD_eq_getElem?_getD, getD_eq_getElem?_getD, getElem?_modify]
  split
  · next hc =>
    subst hc
    cases hl : l[c]? with
    | some a => simp
    | none => simpa using (h.resolve_left (by simpa using hl)).symm
  · simp

theorem foldl_choose_mem (p : α → α → Bool) (a : α) (as : List α) :
    as.foldl (fun best x => if p best x then best else x) a ∈ a :: as := by
  induction as generalizing a with
  | nil => simp
  | cons b as ih =>
    rw [foldl_cons]
    split
    · exact mem_cons.mpr ((mem_cons.mp (ih a)).imp_right (.tail b))
    · exact .tail a (ih b)

variable {centroids : List (List F32)}

theorem nearestCluster_lt (S : Scoring) (h : 0 < centroids.length) (v : List F32) :
    S.nearestCluster centroids v < centroids.length := by
  unfold Scoring.nearestCluster
  split
  · exact h
  · next s scored heq =>
    have hmem := foldl_choose_mem (fun best x => scoreCmp best.2 x.2 == .gt) s scored
    rw [← heq, mem_mapIdx] at hmem
    obtain ⟨i, hi, hs⟩ := hmem
    rw [← hs]
    exact hi

section

variable (h : idx.Mirrors live)
include h

theorem Mirrors.place {id : Nat} (hnew : live id = none) (v : List F32) :
    (S.place idx id v).Mirrors (update live id (some v)) := by
  have hc := nearestCluster_lt S h.clusters.1 (S.normalize v)
  rw [← h.clusters.2] at hc
  have hfree : ∀ c w, (id, w) ∉ idx.cluster c := by simp [h.entries, hnew]
  have hcluster : ∀ c, (S.place idx id v).cluster c = _ := getD_modify (.inl hc)
  refine ⟨by simpa [Scoring.place] using h.clusters, fun c id' w => ?_, fun c => ?_, fun id' => ?_⟩
  · have hold := h.entries c id' w
    rw [hcluster]
    simp only [Scoring.place, find?_insert]
    unfold cluster at hfree hold
    grind
  · rw [hcluster]
    split
    · rw [map_append]
      refine nodup_append.mpr ⟨h.once c, nodup_singleton id, fun a ha b hb heq => ?_⟩
      obtain ⟨⟨id', w⟩, hin, rfl⟩ := mem_map.mp ha
      cases mem_singleton.mp hb
      obtain rfl : id' = id := heq
      exact hfree c w hin
    · exact h.once c
  · have hold := h.tracked id'
    simp only [Scoring.place, find?_insert]
    grind

theorem Mirrors.remove (id : Nat) : (idx.remove id).Mirrors (update live id none) := by
  unfold IvfFlatIndex.remove
  split
  · next hnone =>
    have hlive : live id = none := by simpa [hnone] using h.tracked id
    rwa [← hlive, update_eq_self]
  · next c hsome =>
    have hcluster := @getD_modify _ idx.lists c (fun l => l.filter fun e => e.1 != id) (.inr rfl)
    refine ⟨by simpa using h.clusters, fun c' id' w => ?_, fun c' => ?_, fun id' => ?_⟩
    · have hold := h.entries c' id' w
      rw [cluster]
      simp only [find?_erase]
      unfold cluster at hold
      grind
    · rw [cluster, hcluster]
      split
      · exact (h.once c').sublist (filter_sublist.map _)
      · exact h.once c'
    · have hold := h.tracked id'
      simp only [find?_erase]
      grind

theorem Mirrors.run (c : IndexCall) : (c.run S idx).Mirrors (c.live live) := by
  cases c with
  | insert id v =>
    have hplaced := (h.remove id).place (S := S) (update_self ..) v
    rwa [update_idem] at hplaced
  | remove id => exact h.remove id

theorem Mirrors.runAll (calls : List IndexCall) :
    (calls.foldl (IndexCall.run S) idx).Mirrors (calls.foldl IndexCall.live live) := by
  induction calls generalizing idx live with
  | nil => exact h
  | cons c calls ih => exact ih (h.run c)

/-! ## Building -/

theorem Mirrors.placeAll {vectors : List (Nat × List F32)}
    (hids : (vectors.map Prod.fst).Nodup) (hnew : ∀ e ∈ vectors, live e.1 = none) :
    (vectors.foldl (fun idx e => S.place idx e.1 e.2) idx).Mirrors
      ((vectors.map fun e => IndexCall.insert e.1 e.2).foldl IndexCall.live live) := by
  induction vectors generalizing idx live with
  | nil => exact h
  | cons e vectors ih =>
    obtain ⟨hfirst, hids⟩ := nodup_cons.mp hids
    refine ih (h.place (hnew e (.head _)) e.2) hids fun e' he' => ?_
    have hne : e'.1 ≠ e.1 := fun heq => hfirst (heq ▸ mem_map_of_mem he')
    rw [IndexCall.live, update_of_ne hne]
    exact hnew e' (.tail _ he')

end

theorem length_kmeans (unitVectors : List (List F32)) (dim nlist n : Nat)
    (centroids : List (List F32)) :
    (S.kmeans unitVectors dim nlist n centroids).length = centroids.length := by
  induction n generalizing centroids with
  | zero => rfl
  | succ n ih =>
    rw [Scoring.kmeans, ih]
    exact length_mapIdx

theorem mirrors_start (dim : Nat) {nlist : Nat} (h : 0 < nlist) (hlen : centroids.length = nlist) :
    Mirrors ⟨dim, centroids, List.replicate nlist [], .empty⟩ fun _ => none := by
  have hnil : ∀ c, cluster ⟨dim, centroids, List.replicate nlist [], .empty⟩ c = [] := by
    grind [cluster]
  exact ⟨by simp [hlen, h], by simp [hnil], by simp [hnil], fun _ => rfl⟩

theorem seedCentroids_ok {unitVectors : List (List F32)} (h : unitVectors ≠ []) (nlist : Nat) :
    ∃ seeds, (seedCentroids unitVectors nlist : Outcome ε _) = .ok seeds := by
  refine Except.mapM_total fun i hi => ?_
  have hlt : i * unitVectors.length / nlist < unitVectors.length := by
    rw [mem_range] at hi
    rw [Nat.div_lt_iff_lt_mul (by omega), Nat.mul_comm]
    exact Nat.mul_lt_mul_of_pos_left hi (length_pos_of_ne_nil h)
  exact ⟨_, Outcome.index_eq_ok.mpr (getElem?_eq_getElem hlt)⟩

theorem mirrors_build {vectors : List (Nat × List F32)} (hids : (vectors.map Prod.fst).Nodup)
    (hok : (S.build vectors : Outcome ε IvfFlatIndex) = .ok idx) :
    idx.Mirrors (liveRows (vectors.map fun e => .insert e.1 e.2)) := by
  cases vectors with
  | nil => cases hok
  | cons e vectors =>
    obtain ⟨seeds, hseeds, hok⟩ := hok.bind_ok
    cases hok
    have hlen := Except.length_of_mapM_eq_ok hseeds
    rw [length_range] at hlen
    have hpos : 0 < nlistFor (e :: vectors).length := by simp [nlistFor]
    exact (mirrors_start _ hpos ((length_kmeans ..).trans hlen)).placeAll hids fun _ _ => rfl

/-! ## Searching -/

/-- The ids of the map. -/
def ids (idx : IvfFlatIndex) : List Nat := idx.idToList.entries.map Prod.fst

theorem nodup_ids (idx : IvfFlatIndex) : idx.ids.Nodup :=
  pairwise_map.mpr (idx.idToList.ascending.imp Nat.ne_of_lt)

section

variable (h : idx.Mirrors live)
include h

theorem Mirrors.mem_ids {id : Nat} : id ∈ idx.ids ↔ (live id).isSome := by
  rw [← h.tracked, Option.isSome_iff_exists, ids]
  simp [find?_eq_some_iff]

theorem Mirrors.len_eq : idx.len = {id | (live id).isSome}.ncard := by
  have hset : {id | (live id).isSome} = (idx.ids.toFinset : Set Nat) := by
    simp [h.mem_ids]
  rw [hset, Set.ncard_coe_finset, toFinset_card_of_nodup idx.nodup_ids, ids, length_map]
  rfl

/-- All clusters together hold the ids of the map. -/
theorem Mirrors.ids_perm :
    ((List.range idx.centroids.length).flatMap fun c => (idx.cluster c).map Prod.fst).Perm
      idx.ids := by
  have hmem : ∀ c id, id ∈ (idx.cluster c).map Prod.fst ↔
      (live id).isSome ∧ idx.idToList.find? id = some c := by
    simp [h.entries, Option.isSome_iff_exists]
  refine (perm_ext_iff_of_nodup (nodup_flatMap.mpr ⟨fun c _ => h.once c, ?_⟩)
    idx.nodup_ids).mpr fun id => ?_
  · refine nodup_range.pairwise_of_forall_ne fun c _ c' _ hne id hc hc' => hne ?_
    exact Option.some.inj (((hmem c id).mp hc).2.symm.trans ((hmem c' id).mp hc').2)
  · rw [h.mem_ids, mem_flatMap]
    simp only [hmem, mem_range]
    refine ⟨fun hin => hin.elim fun _ hin => hin.2.1, fun hlive => ?_⟩
    obtain ⟨c, hc⟩ := Option.isSome_iff_exists.mp ((h.tracked id).trans hlive)
    refine ⟨c, ?_, hlive, hc⟩
    obtain ⟨v, hv⟩ := Option.isSome_iff_exists.mp hlive
    have hin := (h.entries c id v).mpr ⟨hv, hc⟩
    rw [← h.clusters.2]
    by_contra hge
    simp [cluster, getElem?_eq_none (Nat.le_of_not_lt hge)] at hin

theorem Mirrors.search (hsort : ∀ xs, (S.sort xs).Perm xs)
    (query : List F32) (k : Nat) {nprobe : Nat} (hn : idx.centroids.length ≤ nprobe) :
    (S.search idx query k nprobe).Nodup ∧ (S.search idx query k nprobe).length = min k idx.len ∧
      ∀ id ∈ S.search idx query k nprobe, (live id).isSome := by
  -- all clusters are probed, in some order, and their rows put into some order
  obtain ⟨found, hfound, hperm⟩ : ∃ found : List Nat, S.search idx query k nprobe = found.take k ∧
      found.Perm idx.ids := by
    refine ⟨_, map_take, ((hsort _).map _).trans (.trans ?_ h.ids_perm)⟩
    have hranked := hsort (idx.centroids.mapIdx fun i c => (i, S.dot c (S.normalize query)))
    have hrange : (idx.centroids.mapIdx fun i c => (i, S.dot c (S.normalize query))).map Prod.fst =
        List.range idx.centroids.length := ext_getElem (by simp) (by simp)
    have hids := (hranked.map Prod.fst).flatMap_right fun c => (idx.cluster c).map Prod.fst
    rw [hrange, flatMap_map] at hids
    rw [take_of_length_le (by rw [hranked.length_eq, length_mapIdx]; omega),
      map_flatMap]
    simpa [cluster, comp_def] using hids
  have hlen : found.length = idx.len := by rw [hperm.length_eq, ids, length_map]; rfl
  rw [hfound]
  exact ⟨(hperm.nodup_iff.mpr idx.nodup_ids).sublist (take_sublist ..),
    by rw [length_take, hlen],
    fun id hid => h.mem_ids.mp (hperm.mem_iff.mp (mem_of_mem_take hid))⟩

end

end IvfFlatIndex

open IvfFlatIndex

/-- After any calls on an index built for rows with distinct ids, however vectors are scored and
sorted, the index mirrors the live rows, and a search of all clusters finds `k` of them, or all. -/
theorem ivfflat_mirrors (S : Scoring) (hsort : ∀ xs, (S.sort xs).Perm xs)
    {vectors : List (Nat × List F32)} (hids : (vectors.map Prod.fst).Nodup) :
    (vectors ≠ [] → ∃ built, (S.build vectors : Outcome ε IvfFlatIndex) = .ok built) ∧
      ∀ built, (S.build vectors : Outcome ε IvfFlatIndex) = .ok built →
      ∀ calls : List IndexCall, let idx := calls.foldl (IndexCall.run S) built
        let live := liveRows (vectors.map (fun e => .insert e.1 e.2) ++ calls)
        idx.Mirrors live ∧ idx.len = {id | (live id).isSome}.ncard ∧
          ∀ query k nprobe, idx.centroids.length ≤ nprobe →
            (S.search idx query k nprobe).Nodup ∧
            (S.search idx query k nprobe).length = min k idx.len ∧
            ∀ id ∈ S.search idx query k nprobe, (live id).isSome := by
  refine ⟨fun hne => ?_, fun built hok calls => ?_⟩
  · cases vectors with
    | nil => exact absurd rfl hne
    | cons e vectors =>
      obtain ⟨seeds, hseeds⟩ := @seedCentroids_ok ε ((e :: vectors).map fun e => S.normalize e.2)
        (by simp) (nlistFor (e :: vectors).length)
      exact ⟨_, by rw [Scoring.build, hseeds]; rfl⟩
  · have hmirrors := (mirrors_build hids hok).runAll (S := S) calls
    rw [liveRows, ← foldl_append] at hmirrors
    exact ⟨hmirrors, hmirrors.len_eq, fun query k nprobe hn => hmirrors.search hsort query k hn⟩

/-- Two rows, of which one is removed. -/
theorem ivfflat_mirrors_removed :
    ∃ built, (Scoring.f32.build [(3, [.zero]), (5, [.zero])] : Outcome Unit _) = .ok built ∧
      (built.remove 3).Mirrors (liveRows [.insert 3 [.zero], .insert 5 [.zero], .remove 3]) := by
  obtain ⟨hbuilds, hmirrors⟩ := @ivfflat_mirrors Unit Scoring.f32
    (fun xs => mergeSort_perm xs _) [(3, [.zero]), (5, [.zero])] (by simp)
  obtain ⟨built, hbuilt⟩ := hbuilds (by simp)
  exact ⟨built, hbuilt, (hmirrors built hbuilt [.remove 3]).1⟩

/-! ## Clusters -/

/-- The search in `usize`, which stops where a sum or a difference would not fit. -/
def nlistSearchChecked (n lo hi : Nat) : Option Nat :=
  if lo < hi then
    let mid := lo + (hi - lo + 1) / 2
    if mid < UInt64.size then
      if mid * mid < UInt64.size ∧ mid * mid ≤ n then nlistSearchChecked n mid hi
      else if 1 ≤ mid then nlistSearchChecked n lo (mid - 1)
      else none
    else none
  else some lo
termination_by hi - lo
decreasing_by all_goals omega

/-- The square root stays between the bounds, and the bounds fit. -/
theorem nlistSearchChecked_eq {n lo hi : Nat} (hn : n < UInt64.size) (hlo : lo ≤ n.sqrt)
    (hhi : n.sqrt ≤ hi) (hle : hi ≤ n) : nlistSearchChecked n lo hi = some n.sqrt := by
  fun_induction nlistSearchChecked n lo hi with
  | case1 lo hi hlt mid hfits hsquare ih => exact ih (Nat.le_sqrt.mpr hsquare.2) hhi hle
  | case2 lo hi hlt mid hfits hsquare hpos ih =>
    refine ih hlo ?_ (by omega)
    have hroot : n.sqrt < mid := by
      rw [Nat.sqrt_lt]
      by_contra hmid
      exact hsquare ⟨by omega, by omega⟩
    omega
  | case3 lo hi hlt mid hfits hsquare hpos => omega
  | case4 lo hi hlt mid hfits => omega
  | case5 lo hi hlt => rw [show lo = n.sqrt by omega]

theorem nlistSearch_of_checked {n lo hi r : Nat} (h : nlistSearchChecked n lo hi = some r) :
    nlistSearch n lo hi = r := by
  fun_induction nlistSearchChecked n lo hi with
  | case1 lo hi hlt mid hfits hsquare ih =>
    rw [nlistSearch, if_pos hlt]
    exact (if_pos hsquare).trans (ih h)
  | case2 lo hi hlt mid hfits hsquare hpos ih =>
    rw [nlistSearch, if_pos hlt]
    exact (if_neg hsquare).trans (ih h)
  | case5 lo hi hlt =>
    rw [nlistSearch, if_neg hlt]
    exact Option.some.inj h
  | _ => cases h

/-- Evenly spaced indices of at most as many rows as there are. -/
theorem seed_lt {n m i j : Nat} (hm : 0 < m) (hmn : m ≤ n) (hij : i < j) :
    i * n / m < j * n / m := by
  have hstep : i * n / m + 1 = (i * n + m) / m := (Nat.add_div_right _ hm).symm
  have hle : (i * n + m) / m ≤ j * n / m := by
    refine Nat.div_le_div_right ?_
    calc i * n + m ≤ i * n + n := by omega
      _ = (i + 1) * n := (Nat.succ_mul i n).symm
      _ ≤ j * n := Nat.mul_le_mul_right n hij
  omega

/-- **Clusters.**  The number of clusters is the integer square root of the
number of rows, at most 256, computed without overflow, and their seeds are
different rows. -/
theorem nlist_seeds (n : Nat) (hpos : 1 ≤ n) (hfits : n < 36028797018963968) :
    nlistSearchChecked n 0 n = some n.sqrt ∧ nlistFor n = min (max n.sqrt 1) 256 ∧
    nlistFor n ≤ n ∧
    ∀ i < nlistFor n, i * n < UInt64.size ∧ i * n / nlistFor n < n ∧
      ∀ j < nlistFor n, i * n / nlistFor n = j * n / nlistFor n → i = j := by
  have hchecked : nlistSearchChecked n 0 n = some n.sqrt :=
    nlistSearchChecked_eq (hfits.trans (by decide)) (Nat.zero_le _) (Nat.sqrt_le_self n) le_rfl
  have hnlist : nlistFor n = min (max n.sqrt 1) 256 := by
    rw [nlistFor, nlistSearch_of_checked hchecked]
  have hroot := Nat.sqrt_le_self n
  have hle : nlistFor n ≤ n := by omega
  have hsome : 0 < nlistFor n := by omega
  refine ⟨hchecked, hnlist, hle, fun i hi => ⟨?_, ?_, fun j hj heq => ?_⟩⟩
  · calc i * n ≤ 256 * n := Nat.mul_le_mul_right n (by omega)
      _ < UInt64.size := by
        have hsize : UInt64.size = 18446744073709551616 := rfl
        omega
  · rw [Nat.div_lt_iff_lt_mul hsome, Nat.mul_comm]
    exact Nat.mul_lt_mul_of_pos_left hi hpos
  · by_contra hne
    rcases Nat.lt_or_gt_of_ne hne with hij | hji
    · exact absurd heq (seed_lt hsome hle hij).ne
    · exact absurd heq (seed_lt hsome hle hji).ne'

/-- Ten rows make three clusters. -/
theorem nlist_seeds_ten : nlistFor 10 = 3 ∧ nlistFor 10 ≤ 10 := by
  obtain ⟨-, hnlist, hle, -⟩ := nlist_seeds 10 (by decide) (by decide)
  have hroot : 3 = Nat.sqrt 10 := Nat.eq_sqrt.mpr (by decide)
  rw [← hroot] at hnlist
  exact ⟨hnlist, hle⟩

end Archon
