import SmaliPrune.Registers.Bindings

namespace SmaliPrune

-- The registers after an instruction, and which of them it read and assigned. A
-- successor inherits the bindings and starts with an empty history.
structure PathState where
  bindings : Bindings
  reads : List Register
  assigns : List Register
  registers : Nat

namespace PathState

def start (registers : Nat) : PathState := ⟨.empty,[],[],registers⟩

def enter (bindings : Bindings) (registers : Nat) : PathState := ⟨bindings,[],[],registers⟩

def spawn (s : PathState) : PathState := enter s.bindings s.registers

def widened (s : PathState) (others : List PathState) : PathState :=
  enter (s.bindings.widened (others.map bindings)) s.registers

def assign (s : PathState) (r : Register) (v : Value) : PathState :=
  { s with bindings := s.bindings.set r v, assigns := Register.insert r s.assigns }

def touch (s : PathState) (r : Register) : PathState := { s with reads := Register.insert r s.reads }

def read (s : PathState) (r : Register) : Value × PathState := (s.bindings.read r,s.touch r)

def peek (s : PathState) (r : Register) : Option Value := s.bindings.lookup r

def hasRead (s : PathState) (r : Register) : Bool := s.reads.contains r

def hasAssigned (s : PathState) (r : Register) : Bool := s.assigns.contains r

def touchAll (s : PathState) (rs : List Register) : PathState := rs.foldl touch s

def assignAll (s : PathState) (ws : List (Register × Value)) : PathState :=
  ws.foldl (fun s w => s.assign w.1 w.2) s

end PathState
end SmaliPrune
