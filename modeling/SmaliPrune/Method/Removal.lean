import SmaliPrune.Method.Basic

namespace SmaliPrune

-- How far an address moves down when some instructions go: by the width of those that
-- begin before it. An address that goes itself moves to what follows.
def shift (gone : List Instr) (address : Nat) : Nat :=
  total Instr.units (gone.filter fun i => i.address < address)

def relocate (gone : List Instr) (address : Nat) : Nat := address - shift gone address

def TryRange.relocate (f : Nat → Nat) (t : TryRange) : TryRange :=
  ⟨f t.first,f t.stop,t.handlers.map fun h => { h with entry := f h.entry }⟩

namespace Method

def located (m : Method) (addresses : List Nat) : List Instr :=
  m.code.filter fun i => addresses.contains i.address

def without (m : Method) (gone : List Instr) : Method :=
  { m with
    code := (m.code.filter fun i => !(gone.map Instr.address).contains i.address).map fun i => i.relocate (relocate gone)
    tries := (m.tries.map fun t => t.relocate (relocate gone)).filter fun t => t.first < t.stop }

end Method
end SmaliPrune
