import Std.Data.TreeSet
import SmaliPrune.Fault
import SmaliPrune.Instr.SideEffect
import SmaliPrune.Registers.PathState

namespace SmaliPrune

-- One entry of a try range; without a type it catches everything.
structure Handler where
  type : Option String
  entry : Nat
  deriving DecidableEq, Repr

-- Protects the addresses from `first` up to, but not with, `stop`.
structure TryRange where
  first : Nat
  stop : Nat
  handlers : List Handler
  deriving DecidableEq, Repr

def TryRange.covers (t : TryRange) (address : Nat) : Bool := t.first ≤ address && address < t.stop

structure Method where
  owner : String
  name : String
  proto : Proto
  isStatic : Bool
  registers : Nat
  code : List Instr
  tries : List TryRange

def ascending (ns : List Nat) : List Nat := (Std.TreeSet.ofList ns).toList

namespace Method

def descriptor (m : Method) : String := m.owner ++ "->" ++ m.name ++ m.proto.text

def ins (m : Method) : Nat := m.proto.words + if m.isStatic then 0 else 1

def addresses (m : Method) : List Nat := m.code.map Instr.address

def at? (m : Method) (address : Nat) : Option Instr := m.code.find? fun i => i.address == address

def units (m : Method) : Nat := (m.code.getLast?.map Instr.next).getD 0

def handlersFor (m : Method) (address : Nat) : List Handler :=
  (m.tries.filter fun t => t.covers address).flatMap TryRange.handlers

def handlerEntries (m : Method) : List Nat :=
  ascending (m.tries.flatMap fun t => t.handlers.map Handler.entry)

def throwTargets (m : Method) (address : Nat) : List Nat :=
  match m.at? address with
  | some i => if i.canThrow then (m.handlersFor address).map Handler.entry else []
  | none => []

def runOn : List Instr → List Instr
  | [] => []
  | i :: rest => if i.canContinue then i :: runOn rest else [i]

def handlerRegion (m : Method) (entry : Nat) : List Nat :=
  (runOn (m.code.dropWhile fun i => i.address != entry)).map Instr.address

def argumentBindings : Nat → List Descriptor → List (Register × Value)
  | _,[] => []
  | n,t :: rest => (.numbered n,.unknown t.text) :: argumentBindings (n + t.words) rest

def frameBindings (m : Method) : List (Register × Value) :=
  let base := m.registers - m.ins
  if m.isStatic then argumentBindings base m.proto.args
  else (.numbered base,.unknown m.owner) :: argumentBindings (base + 1) m.proto.args

def initialState (m : Method) : Checked PathState :=
  if m.ins ≤ m.registers then .ok ((PathState.start m.registers).assignAll m.frameBindings)
  else .error ⟨.smallFrame m.registers m.ins,[.method m.descriptor]⟩

end Method
end SmaliPrune
