import SmaliPrune.Prune.Traced
import SmaliPrune.Search

namespace SmaliPrune.Traced

def readsAt (t : Traced) (r : Register) (id : Nat) : Bool :=
  match t.graph.node? id with
  | none => false
  | some n =>
    match n.state with
    | none => true
    | some s => s.hasRead r

-- Where the value that a register has before a node is still there. An assignment is lost
-- if the instruction throws, so of a node that assigns the register its handlers remain.
def flowsTo (t : Traced) (r : Register) (id : Nat) : List Nat :=
  match t.graph.node? id with
  | none => []
  | some n =>
    match n.state with
    | none => []
    | some s =>
      if s.hasAssigned r then
        let targets := t.method.throwTargets n.address
        n.children.toList.filter fun c => (t.graph.node? c).any fun m => targets.contains m.address
      else n.children.toList

def edgeCount (t : Traced) : Nat :=
  total (fun slot => (slot.map fun n => n.children.size).getD 0) t.graph.nodes.toList

def isLive (t : Traced) (start : List Nat) (r : Register) : Bool :=
  (Search.start (t.flowsTo r) (t.readsAt r) (start.length + t.edgeCount + 1) start).halted

end SmaliPrune.Traced
