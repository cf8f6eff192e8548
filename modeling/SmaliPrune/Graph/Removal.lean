import SmaliPrune.Graph.Basic

namespace SmaliPrune.PathGraph

def promote (id : Nat) (children : List Nat) (roots : List Nat) : List Nat :=
  if roots.contains id then
    children.foldl (fun rs c => if rs.contains c then rs else rs ++ [c]) (roots.erase id)
  else roots

-- Takes a node out and connects each of its parents to each of its children. Edges from
-- the node to itself are forgotten. The piles are not looked after.
def spliceOut (g : PathGraph) (id : Nat) : PathGraph :=
  match g.node? id with
  | none => g
  | some n =>
    let parents := n.parents.toList.filter (· != id)
    let children := n.children.toList.filter (· != id)
    let g := { g with nodes := g.nodes.setIfInBounds id none }
    let g := parents.foldl (fun g p => g.modify p fun m => { m with children := m.children.filter (· != id) }) g
    let g := children.foldl (fun g c => g.modify c fun m => { m with parents := m.parents.filter (· != id) }) g
    let g := parents.foldl (fun g p => children.foldl (fun g c => g.connect p c) g) g
    { g with roots := promote id children g.roots }

def pilesOf (nodes : Array (Option Node)) : Std.TreeMap Nat (Array Nat) :=
  nodes.toList.zipIdx.foldl (fun piles (slot,id) =>
    match slot with
    | none => piles
    | some n => piles.insert n.address ((piles.getD n.address #[]).push id)) ∅

def relocate (g : PathGraph) (f : Nat → Nat) : PathGraph :=
  let nodes := g.nodes.map (Option.map fun n => { n with address := f n.address })
  { g with nodes, piles := pilesOf nodes }

def removeAt (g : PathGraph) (addresses : List Nat) (f : Nat → Nat) : PathGraph :=
  ((addresses.flatMap fun a => (g.pile a).toList).foldl spliceOut g).relocate f

end SmaliPrune.PathGraph
