import SmaliPrune.Arithmetic

namespace SmaliPrune

-- Instruction encodings, named as in the bytecode's documentation: the first digit is the
-- width in code units of sixteen bits.
inductive Format where
  | f10t | f10x | f11n | f11x | f12x
  | f20t | f21c | f21ih | f21lh | f21s | f21t | f22b | f22c | f22s | f22t | f22x | f23x
  | f30t | f31c | f31i | f31t | f32x | f35c | f3rc
  | f51l
  deriving DecidableEq, Repr

namespace Format

def units : Format → Nat
  | .f10t | .f10x | .f11n | .f11x | .f12x => 1
  | .f20t | .f21c | .f21ih | .f21lh | .f21s | .f21t | .f22b | .f22c | .f22s | .f22t | .f22x | .f23x => 2
  | .f30t | .f31c | .f31i | .f31t | .f32x | .f35c | .f3rc => 3
  | .f51l => 5

def name : Format → String
  | .f10t => "Format10t"
  | .f10x => "Format10x"
  | .f11n => "Format11n"
  | .f11x => "Format11x"
  | .f12x => "Format12x"
  | .f20t => "Format20t"
  | .f21c => "Format21c"
  | .f21ih => "Format21ih"
  | .f21lh => "Format21lh"
  | .f21s => "Format21s"
  | .f21t => "Format21t"
  | .f22b => "Format22b"
  | .f22c => "Format22c"
  | .f22s => "Format22s"
  | .f22t => "Format22t"
  | .f22x => "Format22x"
  | .f23x => "Format23x"
  | .f30t => "Format30t"
  | .f31c => "Format31c"
  | .f31i => "Format31i"
  | .f31t => "Format31t"
  | .f32x => "Format32x"
  | .f35c => "Format35c"
  | .f3rc => "Format3rc"
  | .f51l => "Format51l"

theorem units_pos (f : Format) : 0 < f.units := by cases f <;> decide

end Format

structure Traits where
  throws : Bool := false
  continues : Bool := false
  setsResult : Bool := false
  setsRegister : Bool := false
  setsWide : Bool := false
  staticField : Bool := false
  deriving DecidableEq, Repr

def Traits.bits (t : Traits) : Nat :=
  (if t.throws then 0x1 else 0) + (if t.continues then 0x4 else 0) + (if t.setsResult then 0x8 else 0) +
    (if t.setsRegister then 0x10 else 0) + (if t.setsWide then 0x20 else 0) +
    (if t.staticField then 0x100 else 0)

inductive InvokeKind where
  | virtual | super | direct | static | interface
  deriving DecidableEq, Repr

-- Which operands an opcode takes and what it does with them. Opcodes of form `other` are
-- known by their traits alone; a payload opcode refers to a table and is not accepted.
inductive Form where
  | nop
  | payload
  | move | moveResult | moveException
  | constInt | constLong | constString | constClass
  | returnVoid | returnValue
  | goto
  | ifZero (test : Comparison)
  | ifPair (test : Comparison)
  | arrayLength
  | arrayGet (element : String)
  | arrayPut
  | fieldGet | fieldPut
  | staticGet | staticPut
  | newInstance | newArray
  | checkCast | instanceOf
  | invoke (kind : InvokeKind)
  | monitor (enter : Bool)
  | throw
  | binary (op : BinaryOp) (type : NumType) (inPlace : Bool)
  | other
  deriving DecidableEq, Repr

structure Opcode where
  value : Nat
  name : String
  format : Format
  traits : Traits
  form : Form
  deriving DecidableEq, Repr

def Opcode.units (o : Opcode) : Nat := o.format.units

end SmaliPrune
