import SmaliPrune.Graph.Basic
import SmaliPrune.Graph.Exits

namespace SmaliPrune

-- How much one exploration may do: the visits of one address after which what differs
-- between them is forgotten, and the nodes in all.
structure Limits where
  visits : Nat := 500
  nodes : Nat := 100000
  deriving DecidableEq, Repr

structure Visit where
  parent : Option Nat
  address : Nat
  entry : Bindings

structure Explored where
  graph : PathGraph
  entries : Array Bindings
  hierarchy : Hierarchy

inductive Arrival where
  | joins (id : Nat)
  | opens (entry : Bindings)

namespace Explored

def match? (x : Explored) (address : Nat) (entry : Bindings) : Option Nat :=
  (x.graph.pile address).toList.find? fun id => x.entries[id]?.any fun e => e.same entry

def entriesAt (x : Explored) (address : Nat) : List Bindings :=
  (x.graph.pile address).toList.filterMap fun id => x.entries[id]?

def arrival (x : Explored) (visits : Nat) (v : Visit) : Arrival :=
  match x.match? v.address v.entry with
  | some id => .joins id
  | none =>
    if (x.graph.pile v.address).size < visits then .opens v.entry else
    let wide := v.entry.widened (x.entriesAt v.address)
    match x.match? v.address wide with
    | some id => .joins id
    | none => .opens wide

def join (x : Explored) (parent : Option Nat) (id : Nat) : Explored :=
  match parent with
  | some p => { x with graph := x.graph.connect p id }
  | none => x

-- Works off visits for as long as they add no node: those that lead to no instruction are
-- dropped. The first that opens a node is handed back with those behind it.
def settle (m : Method) (visits : Nat) : List Visit → Explored → Explored × Option (Instr × Visit × List Visit)
  | [],x => (x,none)
  | v :: rest,x =>
    match m.at? v.address with
    | none => settle m visits rest x
    | some i =>
      match x.arrival visits v with
      | .joins id => settle m visits rest (x.join v.parent id)
      | .opens entry => (x,some (i,{ v with entry },rest))

def enter (x : Explored) (m : Method) (i : Instr) (v : Visit) : Explored :=
  let state := i.run (Method.answer? x.hierarchy i v.entry) v.entry m.registers
  ⟨match v.parent with
    | some p => x.graph.addChild p v.address (some state)
    | none => x.graph.addRoot v.address (some state),
    x.entries.push v.entry,m.rememberExits x.hierarchy i v.entry⟩

def onward (x : Explored) (m : Method) (i : Instr) (v : Visit) : List Visit :=
  (m.exits x.hierarchy i v.entry).map fun e => ⟨some x.graph.nodes.size,e.1,e.2⟩

-- Visits are taken in the order they came up. The budget is the number of nodes that may
-- still be added; the exploration fails where one more is needed.
def run (m : Method) (visits : Nat) : Nat → List Visit → Explored → Explored × Bool
  | 0,pending,x =>
    match settle m visits pending x with
    | (x,none) => (x,true)
    | (x,some _) => (x,false)
  | budget + 1,pending,x =>
    match settle m visits pending x with
    | (x,none) => (x,true)
    | (x,some (i,v,rest)) => run m visits budget (rest ++ x.onward m i v) (x.enter m i v)

end Explored

namespace Method

def explore (m : Method) (limits : Limits) (h : Hierarchy) (entry : Bindings) : Checked PathGraph × Hierarchy :=
  match m.code with
  | [] => (.ok .empty,h)
  | first :: _ =>
    match Explored.run m limits.visits limits.nodes [⟨none,first.address,entry⟩] ⟨.empty,#[],h⟩ with
    | (x,true) => (.ok x.graph,x.hierarchy)
    | (x,false) => (.error ⟨.nodeLimit limits.nodes,[.method m.descriptor]⟩,x.hierarchy)

def execute (m : Method) (limits : Limits) (h : Hierarchy) : Checked PathGraph × Hierarchy :=
  match m.initialState with
  | .error f => (.error f,h)
  | .ok s => m.explore limits h s.bindings

end Method
end SmaliPrune
