import Archon.Lib.Bytes
import Archon.Lib.Loop
import Archon.Lib.Vec

/-!
# Archon.Core.BTree

The B-Link tree (`crates/tpt-archon-core/src/btree.rs`): an arena of nodes
with right-links and high keys.

Every operation returns `Except Fault`: an index out of range and an
`unreachable!` are `panic`, a loop that runs out of fuel is `diverged`.  The
fuel of a loop is the number of nodes, which no walk exceeds.
-/

namespace Archon

/-- Keys are `u64`; the tree only compares them. -/
abbrev Key := Nat

abbrev NodeId := Nat

def NODE_CAPACITY : Nat := 64

/-- A node; `right` is the link to the next sibling and `highKey` the
smallest key not covered. -/
inductive Node where
  | leaf (keys : List Key) (vals : List Bytes) (right : Option NodeId) (highKey : Option Key)
  | internal (keys : List Key) (children : List NodeId) (right : Option NodeId)
      (highKey : Option Key)
  deriving DecidableEq

namespace Node

def keys : Node → List Key
  | .leaf keys _ _ _ => keys
  | .internal keys _ _ _ => keys

def right : Node → Option NodeId
  | .leaf _ _ right _ => right
  | .internal _ _ right _ => right

def highKey : Node → Option Key
  | .leaf _ _ _ highKey => highKey
  | .internal _ _ _ highKey => highKey

end Node

/-- A B-Link tree: an arena and the id of its root. -/
structure BTree where
  nodes : List Node
  root : NodeId

/-- The result of `binary_search`: the position of the key, or the position
at which it could be inserted. -/
inductive Search where
  | ok (i : Nat)
  | err (i : Nat)
  deriving DecidableEq, Repr

/-- `binary_search` on ascending keys. -/
def binarySearch (keys : List Key) (key : Key) : Search :=
  let i := keys.findIdx fun k => key ≤ k
  if keys[i]? = some key then .ok i else .err i

/-- The child to descend into: `Ok(i) => i + 1, Err(i) => i`. -/
def childIndex (keys : List Key) (key : Key) : Nat :=
  match binarySearch keys key with
  | .ok i => i + 1
  | .err i => i

namespace BTree

/-- A single empty leaf. -/
def new : BTree := ⟨[.leaf [] [] none none], 0⟩

/-- The right-link to follow when `key` is beyond the node's coverage. -/
def beyond (n : Node) (key : Key) : Option NodeId :=
  match n.highKey with
  | some hk => if key ≥ hk then n.right else none
  | none => none

/-- The loop body of `get`. -/
def getBody (t : BTree) (key : Key) (id : NodeId) : Except Fault (Step NodeId (Option Bytes)) := do
  let n ← Vec.index t.nodes id
  match beyond n key with
  | some r => return .next r
  | none =>
    match n with
    | .internal keys children _ _ =>
      let child ← Vec.index children (childIndex keys key)
      return .next child
    | .leaf keys vals _ _ =>
      match binarySearch keys key with
      | .ok i =>
        let v ← Vec.index vals i
        return .done (some v)
      | .err _ => return .done none

/-- `get`'s loop, started at any node. -/
def getFrom (t : BTree) (key : Key) (id : NodeId) : Except Fault (Option Bytes) :=
  loop .diverged (t.getBody key) t.nodes.length id

/-- Look up `key`. -/
def get (t : BTree) (key : Key) : Except Fault (Option Bytes) := t.getFrom key t.root

def contains (t : BTree) (key : Key) : Except Fault Bool := do
  let v ← t.get key
  return v.isSome

/-- The loop body of `leftmost_leaf_for`. -/
def leftmostLeafForBody (t : BTree) (key : Key) (id : NodeId) :
    Except Fault (Step NodeId NodeId) := do
  match ← Vec.index t.nodes id with
  | .internal keys children _ _ =>
    let child ← Vec.index children (childIndex keys key)
    return .next child
  | .leaf .. => return .done id

def leftmostLeafFor (t : BTree) (key : Key) : Except Fault NodeId :=
  loop .diverged (t.leftmostLeafForBody key) t.nodes.length t.root

/-- The scan of one leaf in `range`, from position `i` on: the pairs pushed
and whether the scan hit the upper bound. -/
def scanLeaf (lo hi : Key) (vals : List Bytes) : Nat → List Key → List (Key × Bytes) →
    Except Fault (Bool × List (Key × Bytes))
  | _, [], out => .ok (false, out)
  | i, k :: keys, out =>
    if k ≥ hi then .ok (true, out)
    else if k ≥ lo then do
      let v ← Vec.index vals i
      scanLeaf lo hi vals (i + 1) keys (out ++ [(k, v)])
    else scanLeaf lo hi vals (i + 1) keys out

/-- The loop body of `range`. -/
def rangeBody (t : BTree) (lo hi : Key) (s : NodeId × List (Key × Bytes)) :
    Except Fault (Step (NodeId × List (Key × Bytes)) (List (Key × Bytes))) := do
  match ← Vec.index t.nodes s.1 with
  | .leaf keys vals right _ =>
    match ← scanLeaf lo hi vals 0 keys s.2 with
    | (true, out) => return .done out
    | (false, out) =>
      match right with
      | some r => return .next (r, out)
      | none => return .done out
  | .internal .. => .error .panic

/-- All pairs with `lo ≤ key < hi`, in key order. -/
def range (t : BTree) (lo hi : Key) : Except Fault (List (Key × Bytes)) :=
  if lo ≥ hi then .ok []
  else do
    let id ← t.leftmostLeafFor lo
    loop .diverged (t.rangeBody lo hi) t.nodes.length (id, [])

/-- The loop body of `delete`; the tree changes only in the last round. -/
def deleteBody (t : BTree) (key : Key) (id : NodeId) :
    Except Fault (Step NodeId (Option Bytes × BTree)) := do
  let n ← Vec.index t.nodes id
  match beyond n key with
  | some r => return .next r
  | none =>
    match n with
    | .internal keys children _ _ =>
      let child ← Vec.index children (childIndex keys key)
      return .next child
    | .leaf keys vals right highKey =>
      match binarySearch keys key with
      | .ok i =>
        let (_, keys) ← Vec.remove keys i
        let (v, vals) ← Vec.remove vals i
        return .done (some v, { t with nodes := t.nodes.set id (.leaf keys vals right highKey) })
      | .err _ => return .done (none, t)

/-- Remove `key`, returning the stored value.  Leaves are not rebalanced. -/
def delete (t : BTree) (key : Key) : Except Fault (Option Bytes × BTree) :=
  loop .diverged (t.deleteBody key) t.nodes.length t.root

/-- Where a full node is split. -/
def mid : Nat := (NODE_CAPACITY + 1) / 2

/-- Split the leaf at `id`: its upper half moves to a new node. -/
def splitLeaf (t : BTree) (id : NodeId) : Except Fault ((Key × NodeId) × BTree) := do
  match ← Vec.index t.nodes id with
  | .leaf keys vals right highKey =>
    let (keys, rKeys) ← Vec.splitOff keys mid
    let (vals, rVals) ← Vec.splitOff vals mid
    let sep ← Vec.index rKeys 0
    let newId := t.nodes.length
    let nodes := t.nodes.set id (.leaf keys vals (some newId) (some sep))
    return ((sep, newId), { t with nodes := nodes ++ [.leaf rKeys rVals right highKey] })
  | .internal .. => .error .panic

/-- Split the internal node at `id`: the middle key moves up. -/
def splitInternal (t : BTree) (id : NodeId) : Except Fault ((Key × NodeId) × BTree) := do
  match ← Vec.index t.nodes id with
  | .internal keys children right highKey =>
    let sep ← Vec.index keys mid
    let (keys, rKeys) ← Vec.splitOff keys (mid + 1)
    let (children, rChildren) ← Vec.splitOff children (mid + 1)
    let newId := t.nodes.length
    -- the separator stays in neither half
    let nodes := t.nodes.set id (.internal keys.dropLast children (some newId) (some sep))
    return ((sep, newId), { t with nodes := nodes ++ [.internal rKeys rChildren right highKey] })
  | .leaf .. => .error .panic

/-- The leaf case of `insert_rec`. -/
def insertLeaf (t : BTree) (key : Key) (value : Bytes) (id : NodeId) (keys : List Key)
    (vals : List Bytes) (right : Option NodeId) (highKey : Option Key) :
    Except Fault (Option (Key × NodeId) × BTree) := do
  match binarySearch keys key with
  | .ok i =>
    let vals ← Vec.set vals i value
    return (none, { t with nodes := t.nodes.set id (.leaf keys vals right highKey) })
  | .err i =>
    let keys ← Vec.insert keys i key
    let vals ← Vec.insert vals i value
    let t := { t with nodes := t.nodes.set id (.leaf keys vals right highKey) }
    if keys.length > NODE_CAPACITY then
      let (split, t) ← t.splitLeaf id
      return (some split, t)
    else return (none, t)

/-- The end of the internal case of `insert_rec`: take in a split child. -/
def insertChild (t : BTree) (id : NodeId) (sep : Key) (rightId : NodeId) :
    Except Fault (Option (Key × NodeId) × BTree) := do
  match ← Vec.index t.nodes id with
  | .internal keys children right highKey =>
    let pos := match binarySearch keys sep with | .ok i => i | .err i => i
    let keys ← Vec.insert keys pos sep
    let children ← Vec.insert children (pos + 1) rightId
    let t := { t with nodes := t.nodes.set id (.internal keys children right highKey) }
    if keys.length > NODE_CAPACITY then
      let (split, t) ← t.splitInternal id
      return (some split, t)
    else return (none, t)
  | .leaf .. => return (none, t)

/-- Insert below `id`; the separator and the new node if `id` was split. -/
def insertRec (t : BTree) (key : Key) (value : Bytes) :
    Nat → NodeId → Except Fault (Option (Key × NodeId) × BTree)
  | 0, _ => .error .diverged
  | fuel + 1, id => do
    match ← Vec.index t.nodes id with
    | .leaf keys vals right highKey => t.insertLeaf key value id keys vals right highKey
    | .internal keys children _ _ =>
      let child ← Vec.index children (childIndex keys key)
      match ← t.insertRec key value fuel child with
      | (none, t) => return (none, t)
      | (some (sep, rightId), t) => t.insertChild id sep rightId

/-- Insert or replace `key`; a split of the root puts a new root on top. -/
def insert (t : BTree) (key : Key) (value : Bytes) : Except Fault BTree := do
  match ← t.insertRec key value t.nodes.length t.root with
  | (none, t) => return t
  | (some (sep, rightId), t) =>
    let newRoot : Node := .internal [sep] [t.root, rightId] none none
    return ⟨t.nodes ++ [newRoot], t.nodes.length⟩

/-- The loop body of `leftmost_leaf`. -/
def leftmostLeafBody (t : BTree) (id : NodeId) : Except Fault (Step NodeId NodeId) := do
  match ← Vec.index t.nodes id with
  | .internal _ children _ _ =>
    let child ← Vec.index children 0
    return .next child
  | .leaf .. => return .done id

def leftmostLeaf (t : BTree) : Except Fault NodeId :=
  loop .diverged t.leftmostLeafBody t.nodes.length t.root

/-- The loop body of `len`. -/
def lenBody (t : BTree) (s : NodeId × Nat) : Except Fault (Step (NodeId × Nat) Nat) := do
  match ← Vec.index t.nodes s.1 with
  | .leaf keys _ right _ =>
    match right with
    | some r => return .next (r, s.2 + keys.length)
    | none => return .done (s.2 + keys.length)
  | .internal .. => .error .panic

/-- The number of pairs, counted along the leaf chain. -/
def len (t : BTree) : Except Fault Nat := do
  let id ← t.leftmostLeaf
  loop .diverged t.lenBody t.nodes.length (id, 0)

def isEmpty (t : BTree) : Except Fault Bool := do
  let n ← t.len
  return n == 0

end BTree

end Archon
