import SmaliPrune.Graph.Removal
import SmaliPrune.Method.Removal

namespace SmaliPrune

-- A method and the graph of its paths. Instructions are taken out of both at once, so
-- that they go on to agree on addresses.
structure Traced where
  method : Method
  graph : PathGraph

def Traced.remove (t : Traced) (addresses : List Nat) : Traced :=
  match t.method.located addresses with
  | [] => t
  | gone => ⟨t.method.without gone,t.graph.removeAt (gone.map Instr.address) (relocate gone)⟩

end SmaliPrune
