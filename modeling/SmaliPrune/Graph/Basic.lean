import Std.Data.TreeMap
import SmaliPrune.Method.Basic

namespace SmaliPrune

-- One visit of one instruction. A node without a state stands for a path of which nothing
-- is known any more.
structure Node where
  address : Nat
  state : Option PathState
  parents : Array Nat
  children : Array Nat

def Node.isLeaf (n : Node) : Bool := n.children.isEmpty

-- The visits of a method's instructions along all its paths. A node keeps its number for
-- good; the slot of a removed one stays empty. The nodes of one address form its pile.
structure PathGraph where
  nodes : Array (Option Node)
  piles : Std.TreeMap Nat (Array Nat)
  roots : List Nat

namespace PathGraph

def empty : PathGraph := ⟨#[],∅,[]⟩

def node? (g : PathGraph) (id : Nat) : Option Node := g.nodes.getD id none

def modify (g : PathGraph) (id : Nat) (f : Node → Node) : PathGraph :=
  { g with nodes := g.nodes.modify id (Option.map f) }

def pile (g : PathGraph) (address : Nat) : Array Nat := g.piles.getD address #[]

def count (g : PathGraph) : Nat := total Array.size g.piles.values

def place (g : PathGraph) (address : Nat) (state : Option PathState) : PathGraph :=
  { g with
    nodes := g.nodes.push (some ⟨address,state,#[],#[]⟩)
    piles := g.piles.insert address ((g.pile address).push g.nodes.size) }

def connect (g : PathGraph) (parent child : Nat) : PathGraph :=
  if (g.node? parent).any fun p => p.children.contains child then g
  else (g.modify parent fun p => { p with children := p.children.push child }).modify child fun c =>
    { c with parents := c.parents.push parent }

def addRoot (g : PathGraph) (address : Nat) (state : Option PathState) : PathGraph :=
  { g.place address state with roots := g.roots ++ [g.nodes.size] }

def addChild (g : PathGraph) (parent address : Nat) (state : Option PathState) : PathGraph :=
  (g.place address state).connect parent g.nodes.size

def Edge (g : PathGraph) (a b : Nat) : Prop := ∃ n, g.node? a = some n ∧ b ∈ n.children

def isReached (g : PathGraph) (address : Nat) : Bool := !(g.pile address).isEmpty

def reached (g : PathGraph) : List Nat := g.piles.keys.filter g.isReached

def firstAt? (g : PathGraph) (address : Nat) : Option Node := (g.pile address)[0]?.bind g.node?

def childrenAt (g : PathGraph) (address : Nat) : List Nat :=
  ((g.pile address).toList.flatMap fun id => ((g.node? id).map fun n => n.children.toList).getD []).eraseDups

def held? (g : PathGraph) (register : Register) (id : Nat) : Option Value := do
  (← (← g.node? id).state).peek register

def consensus? (g : PathGraph) (address : Nat) (register : Register) : Option Value :=
  match (g.pile address).toList.mapM (g.held? register) with
  | some (v :: rest) => if rest.all v.same then some v else none
  | _ => none

def terminating (g : PathGraph) : List Nat :=
  ascending (g.nodes.toList.filterMap fun slot => slot.bind fun n => if n.isLeaf then some n.address else none)

end PathGraph
end SmaliPrune
