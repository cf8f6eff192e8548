import SmaliPrune.Value

namespace SmaliPrune

inductive BinaryOp where
  | add | sub | mul | div | rem | and | or | xor | shl | shr | ushr
  | rsub
  deriving DecidableEq, Repr

inductive NumType where
  | int | long | float | double
  deriving DecidableEq, Repr

def NumType.text : NumType → String
  | .int => "I"
  | .long => "J"
  | .float => "F"
  | .double => "D"

inductive Comparison where
  | eq | ne | lt | ge | gt | le
  deriving DecidableEq, Repr

def Comparison.holds (c : Comparison) (a b : Int64) : Bool :=
  match c with
  | .eq => a == b
  | .ne => a != b
  | .lt => a < b
  | .ge => b ≤ a
  | .gt => b < a
  | .le => a ≤ b

namespace Arithmetic

-- Two's complement at any width. A shift takes its distance modulo the width, which is a
-- power of two. Only division by zero has no result.
def integer (op : BinaryOp) (a b : BitVec w) : Option (BitVec w) :=
  let distance := (b &&& BitVec.ofNat w (w - 1)).toNat
  match op with
  | .add => some (a + b)
  | .sub => some (a - b)
  | .rsub => some (b - a)
  | .mul => some (a * b)
  | .div => if b == 0 then none else some (a.sdiv b)
  | .rem => if b == 0 then none else some (a.srem b)
  | .and => some (a &&& b)
  | .or => some (a ||| b)
  | .xor => some (a ^^^ b)
  | .shl => some (a <<< distance)
  | .shr => some (a.sshiftRight distance)
  | .ushr => some (a >>> distance)

-- The exact remainder of the division that truncates; it has the sign of the dividend and
-- needs no rounding.
def remainder (a b : Float) : Float :=
  match binary64.decode a.toBits.toNat,binary64.decode b.toBits.toNat with
  | .finite negative m p,.finite _ n q =>
    if n == 0 then 0.0 / 0.0 else
    let least := min p q
    let rest := (m <<< (p - least).toNat) % (n <<< (q - least).toNat)
    Float.ofBits (UInt64.ofNat (binary64.encodeFinite negative rest least))
  | .finite _ _ _,.infinite _ => a
  | _,_ => 0.0 / 0.0

def floating (op : BinaryOp) (a b : Float) : Option Float :=
  match op with
  | .add => some (a + b)
  | .sub => some (a - b)
  | .mul => some (a * b)
  | .div => some (a / b)
  | .rem => some (remainder a b)
  | _ => none

-- Single precision is computed in double precision and rounded once more at the end.
-- Operands of another type leave the result undecided, except that a long operation
-- accepts ints.
def evaluate (op : BinaryOp) (type : NumType) (a b : Value) : Option Value :=
  match type with
  | .int => do
    let x ← a.int?
    let y ← b.int?
    (integer op x.toBitVec y.toBitVec).map fun r => .int (Int32.ofBitVec r)
  | .long => do
    let x ← a.long?
    let y ← b.long?
    (integer op x.toBitVec y.toBitVec).map fun r => .long (Int64.ofBitVec r)
  | .float =>
    match a,b with
    | .float x,.float y => (floating op x.toFloat y.toFloat).map fun r => .float r.toFloat32
    | _,_ => none
  | .double =>
    match a,b with
    | .double x,.double y => (floating op x y).map .double
    | _,_ => none

def outcome (op : BinaryOp) (type : NumType) (a b : Value) : Value :=
  (evaluate op type a b).getD (.unknown type.text)

end Arithmetic
end SmaliPrune
