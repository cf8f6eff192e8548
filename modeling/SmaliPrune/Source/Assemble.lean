import SmaliPrune.Method.Basic

namespace SmaliPrune.Source

-- What an instruction's operands are resolved against: the labels of its method, latest
-- first, and the frame, whose registers from `base` on hold the arguments.
structure Frame where
  labels : List (String × Nat)
  base : Nat
  registers : Nat

structure Pending where
  line : Nat
  address : Nat
  opcode : Opcode
  operands : List Operand

namespace Frame

def resolve (f : Frame) : RegisterName → Checked Nat
  | .plain n => .ok n
  | .parameter n => if f.base + n < f.registers then .ok (f.base + n) else fault (.outsideFrame n)

def address (f : Frame) (label : String) : Checked Nat :=
  match f.labels.lookup label with
  | some a => .ok a
  | none => fault (.undefinedLabel label)

def span (first last : Nat) : List Nat := List.range' first (last + 1 - first)

end Frame

structure Slots where
  frame : Frame
  operands : List Operand

namespace Slots

def get (s : Slots) (i : Nat) : Checked Operand :=
  match s.operands[i]? with
  | some o => .ok o
  | none => fault (.missingOperand (i + 1))

def register (s : Slots) (i : Nat) : Checked Nat := do
  match ← s.get i with
  | .register r => s.frame.resolve r
  | other => fault (.wrongOperand .register other)

def registers (s : Slots) (i : Nat) : Checked (List Nat) := do
  match ← s.get i with
  | .list rs => rs.mapM s.frame.resolve
  | .range first last => return Frame.span (← s.frame.resolve first) (← s.frame.resolve last)
  | other => fault (.wrongOperand .registerList other)

def label (s : Slots) (i : Nat) : Checked Nat := do
  match ← s.get i with
  | .label name => s.frame.address name
  | other => fault (.wrongOperand .label other)

def literal (s : Slots) (i : Nat) : Checked Int := do
  match ← s.get i with
  | .literal n => return n
  | other => fault (.wrongOperand .literal other)

def string (s : Slots) (i : Nat) : Checked String := do
  match ← s.get i with
  | .string t => return t
  | other => fault (.wrongOperand .string other)

def type (s : Slots) (i : Nat) : Checked String := do
  match ← s.get i with
  | .type t => return t
  | other => fault (.wrongOperand .type other)

def method (s : Slots) (i : Nat) : Checked MethodRef := do
  match ← s.get i with
  | .method m => return m
  | other => fault (.wrongOperand .method other)

def field (s : Slots) (i : Nat) : Checked FieldRef := do
  match ← s.get i with
  | .field f => return f
  | other => fault (.wrongOperand .field other)

def mentioned (f : Frame) : Operand → Checked (List Nat)
  | .register r => return [← f.resolve r]
  | .list rs => rs.mapM f.resolve
  | .range first last => return Frame.span (← f.resolve first) (← f.resolve last)
  | _ => return []

def allRegisters (s : Slots) : Checked (List Nat) := return (← s.operands.mapM (mentioned s.frame)).flatten

-- The second operand of a binary operation: a literal counts only as the third of exactly
-- three, and keeps its low thirty-two bits.
def rhs (s : Slots) : Checked Rhs :=
  match s.operands with
  | [_,_,.literal n] => return .literal (Int32.ofInt n)
  | _ => return .register (← s.register 2)

-- Operands are asked for in order, so the first that does not fit is the one named.
def action (s : Slots) (o : Opcode) : Checked Action :=
  match o.form with
  | .nop => return .nop
  | .payload => fault (.payloadOpcode o.name)
  | .move => return .move (← s.register 0) (← s.register 1)
  | .moveResult => return .moveResult (← s.register 0)
  | .moveException => return .moveException (← s.register 0)
  | .constInt => return .const (← s.register 0) (.int (Int32.ofInt (← s.literal 1)))
  | .constLong => return .const (← s.register 0) (.long (Int64.ofInt (← s.literal 1)))
  | .constString => return .const (← s.register 0) (.string (← s.string 1))
  | .constClass => return .const (← s.register 0) (.classOf (← s.type 1))
  | .returnVoid => return .leave none
  | .returnValue => return .leave (some (← s.register 0))
  | .goto => return .goto (← s.label 0)
  | .ifZero test => return .branch test (← s.register 0) none (← s.label 1)
  | .ifPair test => return .branch test (← s.register 0) (some (← s.register 1)) (← s.label 2)
  | .arrayLength => return .arrayLength (← s.register 0) (← s.register 1)
  | .arrayGet element => return .arrayGet (← s.register 0) (← s.register 1) (← s.register 2) element
  | .arrayPut => return .arrayPut (← s.register 0) (← s.register 1) (← s.register 2)
  | .fieldGet => return .fieldGet (← s.register 0) (← s.register 1) (← s.field 2)
  | .fieldPut => return .fieldPut (← s.register 0) (← s.register 1) (← s.field 2)
  | .staticGet => return .staticGet (← s.register 0) (← s.field 1)
  | .staticPut => return .staticPut (← s.register 0) (← s.field 1)
  | .newInstance => return .newInstance (← s.register 0) (← s.type 1)
  | .newArray => return .newArray (← s.register 0) (← s.register 1) (← s.type 2)
  | .checkCast => return .checkCast (← s.register 0) (← s.type 1)
  | .instanceOf => return .instanceOf (← s.register 0) (← s.register 1) (← s.type 2)
  | .invoke kind => return .invoke kind (← s.registers 0) (← s.method 1)
  | .monitor enter => return .monitor (← s.register 0) enter
  | .throw => return .throw (← s.register 0)
  | .binary op type true => do
    let dest ← s.register 0
    return .binary op type dest dest (.register (← s.register 1))
  | .binary op type false => return .binary op type (← s.register 0) (← s.register 1) (← s.rhs)
  | .other => return .generic (← s.allRegisters)

end Slots

def Pending.assemble (p : Pending) (f : Frame) : Checked Instr := do
  return ⟨p.address,p.opcode,← (Slots.mk f p.operands).action p.opcode⟩

end SmaliPrune.Source
