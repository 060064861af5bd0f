import Archon.Lib.SortedMap
import Archon.Relational.Value

/-!
# Archon.Relational.VectorIndex

The IVFFlat index (`crates/tpt-archon-relational/src/vector_index.rs`) and the
exact search it replaces (`executor/vector.rs`).
-/

namespace Archon

def MIN_ROWS_FOR_INDEX : Nat := 1000

def DEFAULT_NPROBE : Nat := 8

def KMEANS_ITERS : Nat := 4

def dot (a b : List F32) : F32 := F32.sum ((a.zip b).map fun (x, y) => x.mul y)

/-- `partial_cmp(..).unwrap_or(Equal)`. -/
def scoreCmp (a b : F32) : Ordering := (a.partialCmp b).getD .eq

/-- Stable sort by descending score. -/
def sortByScore (xs : List (α × F32)) : List (α × F32) :=
  xs.mergeSort fun a b => scoreCmp b.2 a.2 != .gt

/-- Rank all embeddings by dot product; positions of the first `k`. -/
def vectorTopk (embeddings : List (List F32)) (query : List F32) (k : Nat) : List Nat :=
  let scored := embeddings.mapIdx fun i e => (i, dot e query)
  ((sortByScore scored).take k).map Prod.fst

/-! ## Clustering -/

def sqrtF32 (x : F32) : F32 :=
  if x.isNaN = false ∧ x.magnitude ≤ 0 then F32.zero
  else
    let half := F32.ofFloat32 0.5
    let newton (y : F32) : F32 :=
      y.mul ((F32.ofFloat32 1.5).sub (((half.mul x).mul y).mul y))
    let y : F32 := ⟨(0x5f3759df : UInt32) - (x.bits >>> 1)⟩
    x.mul (newton (newton (newton (newton y))))

/-- Binary search for the integer square root in `[lo, hi]`. -/
def nlistSearch (n lo hi : Nat) : Nat :=
  if lo < hi then
    let mid := lo + (hi - lo + 1) / 2
    if mid * mid < 2 ^ 64 ∧ mid * mid ≤ n then nlistSearch n mid hi
    else nlistSearch n lo (mid - 1)
  else lo
termination_by hi - lo
decreasing_by all_goals omega

def nlistFor (n : Nat) : Nat := min (max (nlistSearch n 0 n) 1) 256

/-- Evenly spaced unit vectors. -/
def seedCentroids (unitVectors : List (List F32)) (nlist : Nat) : Outcome ε (List (List F32)) :=
  (List.range nlist).mapM fun i => Outcome.index unitVectors (i * unitVectors.length / nlist)

/-- Combine with the second list along the common part. -/
def mergeInto (f : F32 → F32 → F32) : List F32 → List F32 → List F32
  | s :: ss, x :: xs => f s x :: mergeInto f ss xs
  | ss, _ => ss

/-- How vectors are scored and sorted by their score. -/
structure Scoring where
  dot : List F32 → List F32 → F32
  sort : List (Nat × F32) → List (Nat × F32)

def Scoring.f32 : Scoring := ⟨Archon.dot, sortByScore⟩

namespace Scoring

variable (S : Scoring)

/-- Scale to length one; the zero vector stays. -/
def normalize (v : List F32) : List F32 :=
  let norm := sqrtF32 (S.dot v v)
  if norm.eq F32.zero then v else v.map (·.div norm)

/-- The last of the centroids with the greatest dot product. -/
def nearestCluster (centroids : List (List F32)) (unitV : List F32) : Nat :=
  match centroids.mapIdx fun i c => (i, S.dot c unitV) with
  | [] => 0
  | s :: scored =>
    (scored.foldl (fun best x => if scoreCmp best.2 x.2 == .gt then best else x) s).1

/-- Add each unit vector to the sum of its nearest cluster, and count it. -/
def clusterSums (centroids : List (List F32)) :
    List (List F32) → List (List F32) × List Nat → List (List F32) × List Nat
  | [], acc => acc
  | uv :: uvs, (sums, counts) =>
    let c := S.nearestCluster centroids uv
    clusterSums centroids uvs (sums.modify c fun s => mergeInto F32.add s uv,
      counts.modify c (· + 1))

/-- One pass of Lloyd's algorithm; an empty cluster keeps its centroid. -/
def kmeansStep (unitVectors : List (List F32)) (dim nlist : Nat) (centroids : List (List F32)) :
    List (List F32) :=
  let (sums, counts) := S.clusterSums centroids unitVectors
    (List.replicate nlist (List.replicate dim F32.zero), List.replicate nlist 0)
  centroids.mapIdx fun c centroid =>
    let count := counts.getD c 0
    if count > 0 then
      S.normalize (mergeInto (fun _ sum => sum.div (F32.ofNat count)) centroid (sums.getD c []))
    else centroid

def kmeans (unitVectors : List (List F32)) (dim nlist : Nat) :
    Nat → List (List F32) → List (List F32)
  | 0, centroids => centroids
  | n + 1, centroids =>
    kmeans unitVectors dim nlist n (S.kmeansStep unitVectors dim nlist centroids)

end Scoring

/-! ## The index -/

/-- Centroids, each with the ids and vectors of its rows. -/
structure IvfFlatIndex where
  dim : Nat
  centroids : List (List F32)
  lists : List (List (Nat × List F32))
  idToList : SortedMap Nat Nat

/-- Add `id` to the cluster nearest to `v`. -/
def Scoring.place (S : Scoring) (idx : IvfFlatIndex) (id : Nat) (v : List F32) : IvfFlatIndex :=
  let c := S.nearestCluster idx.centroids (S.normalize v)
  { idx with
    lists := idx.lists.modify c (· ++ [(id, v)])
    idToList := idx.idToList.insert id c }

def Scoring.build (S : Scoring) (vectors : List (Nat × List F32)) : Outcome ε IvfFlatIndex :=
  match vectors with
  | [] => Outcome.panicked
  | (_, v) :: _ => do
    let dim := v.length
    let nlist := nlistFor vectors.length
    let unitVectors := vectors.map fun (_, v) => S.normalize v
    let seeds ← seedCentroids unitVectors nlist
    let centroids := S.kmeans unitVectors dim nlist KMEANS_ITERS seeds
    let start : IvfFlatIndex := ⟨dim, centroids, List.replicate nlist [], .empty⟩
    return vectors.foldl (fun idx (id, v) => S.place idx id v) start

namespace IvfFlatIndex

def build (vectors : List (Nat × List F32)) : Outcome ε IvfFlatIndex := Scoring.f32.build vectors

def len (idx : IvfFlatIndex) : Nat := idx.idToList.entries.length

/-- Remove `id`, if it is there. -/
def remove (idx : IvfFlatIndex) (id : Nat) : IvfFlatIndex :=
  match idx.idToList.find? id with
  | none => idx
  | some c =>
    { idx with
      idToList := idx.idToList.erase id
      lists := idx.lists.modify c fun l => l.filter fun (rid, _) => rid != id }

end IvfFlatIndex

/-- Replace the entry of `id`. -/
def Scoring.insert (S : Scoring) (idx : IvfFlatIndex) (id : Nat) (v : List F32) : IvfFlatIndex :=
  S.place (idx.remove id) id v

/-- The best `k` among the rows of the `nprobe` clusters nearest to `query`. -/
def Scoring.search (S : Scoring) (idx : IvfFlatIndex) (query : List F32) (k nprobe : Nat) :
    List Nat :=
  let nprobe := min (max nprobe 1) idx.centroids.length
  let unitQuery := S.normalize query
  let ranked := S.sort (idx.centroids.mapIdx fun i c => (i, S.dot c unitQuery))
  let scored := (ranked.take nprobe).flatMap fun (c, _) =>
    (idx.lists.getD c []).map fun (id, v) => (id, S.dot v query)
  ((S.sort scored).take k).map Prod.fst

namespace IvfFlatIndex

def insert (idx : IvfFlatIndex) (id : Nat) (v : List F32) : IvfFlatIndex :=
  Scoring.f32.insert idx id v

def search (idx : IvfFlatIndex) (query : List F32) (k nprobe : Nat) : List Nat :=
  Scoring.f32.search idx query k nprobe

end IvfFlatIndex

end Archon
