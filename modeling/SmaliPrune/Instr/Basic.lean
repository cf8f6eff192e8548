import SmaliPrune.Descriptor.Reference
import SmaliPrune.Opcode.Basic

namespace SmaliPrune

inductive Rhs where
  | register (n : Nat)
  | literal (n : Int32)
  deriving DecidableEq, Repr

inductive Action where
  | nop
  | move (dest src : Nat)
  | moveResult (dest : Nat)
  | moveException (dest : Nat)
  | const (dest : Nat) (value : Value)
  | leave (src : Option Nat)
  | goto (target : Nat)
  | branch (test : Comparison) (a : Nat) (b : Option Nat) (target : Nat)
  | binary (op : BinaryOp) (type : NumType) (dest a : Nat) (b : Rhs)
  | arrayLength (dest array : Nat)
  | arrayGet (dest array index : Nat) (element : String)
  | arrayPut (src array index : Nat)
  | fieldGet (dest object : Nat) (field : FieldRef)
  | fieldPut (src object : Nat) (field : FieldRef)
  | staticGet (dest : Nat) (field : FieldRef)
  | staticPut (src : Nat) (field : FieldRef)
  | newInstance (dest : Nat) (type : String)
  | newArray (dest size : Nat) (type : String)
  | checkCast (reg : Nat) (type : String)
  | instanceOf (dest src : Nat) (type : String)
  | invoke (kind : InvokeKind) (registers : List Nat) (method : MethodRef)
  | monitor (reg : Nat) (enter : Bool)
  | throw (reg : Nat)
  -- An opcode of which only the traits are known.
  | generic (registers : List Nat)

structure Instr where
  address : Nat
  opcode : Opcode
  action : Action

def Action.target? : Action → Option Nat
  | .goto target | .branch _ _ _ target => some target
  | _ => none

def Action.retarget (f : Nat → Nat) : Action → Action
  | .goto target => .goto (f target)
  | .branch test a b target => .branch test a b (f target)
  | action => action

namespace Instr

def units (i : Instr) : Nat := i.opcode.units

def next (i : Instr) : Nat := i.address + i.units

def canThrow (i : Instr) : Bool := i.opcode.traits.throws

def canContinue (i : Instr) : Bool := i.opcode.traits.continues

def isNop (i : Instr) : Bool :=
  match i.action with
  | .nop => true
  | _ => false

def isGoto (i : Instr) : Bool :=
  match i.action with
  | .goto _ => true
  | _ => false

def isMoveResult (i : Instr) : Bool := i.opcode.form == .moveResult

def offset? (i : Instr) : Option Int := i.action.target?.map fun target => (target : Int) - i.address

def successors (i : Instr) : List Nat :=
  match i.action with
  | .leave _ | .throw _ => []
  | .goto target => [target]
  | .branch _ _ _ target => if target == i.next then [i.next] else [i.next,target]
  | _ => if i.canContinue then [i.next] else []

def relocate (f : Nat → Nat) (i : Instr) : Instr :=
  { i with address := f i.address, action := i.action.retarget f }

end Instr
end SmaliPrune
