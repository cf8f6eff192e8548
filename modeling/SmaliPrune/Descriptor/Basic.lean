import SmaliPrune.Text.Digits
import SmaliPrune.Total

namespace SmaliPrune

inductive Descriptor where
  | array (of : Descriptor)
  | object (name : String)
  | int | bool | byte | char | short | long | float | double | void
  deriving DecidableEq, Repr

namespace Descriptor

def write : Descriptor → List Char
  | .array of => '[' :: of.write
  | .object name => 'L' :: name.toList ++ [';']
  | .int => ['I']
  | .bool => ['Z']
  | .byte => ['B']
  | .char => ['C']
  | .short => ['S']
  | .long => ['J']
  | .float => ['F']
  | .double => ['D']
  | .void => ['V']

def text (t : Descriptor) : String := String.ofList t.write

def Writable : Descriptor → Prop
  | .array of => of.Writable
  | .object name => name.toList ≠ [] ∧ ';' ∉ name.toList
  | _ => True

def primitive? : Char → Option Descriptor
  | 'Z' => some .bool
  | 'B' => some .byte
  | 'C' => some .char
  | 'S' => some .short
  | 'I' => some .int
  | 'J' => some .long
  | 'F' => some .float
  | 'D' => some .double
  | 'V' => some .void
  | _ => none

def readName (s : List Char) : Option (String × List Char) :=
  let name := s.takeWhile (· != ';')
  match s.drop name.length with
  | ';' :: rest => if name.isEmpty then none else some (String.ofList name,rest)
  | _ => none

def read : List Char → Option (Descriptor × List Char)
  | [] => none
  | c :: rest =>
    if c == 'L' then (readName rest).map fun (name,rest) => (.object name,rest)
    else if c == '[' then (read rest).map fun (of,rest) => (.array of,rest)
    else (primitive? c).map fun t => (t,rest)

def ofText? (s : String) : Option Descriptor :=
  match read s.toList with
  | some (t,[]) => some t
  | _ => none

def base : Descriptor → Descriptor
  | .array of => of.base
  | t => t

def isWide : Descriptor → Bool
  | .long | .double => true
  | _ => false

def words (t : Descriptor) : Nat := if t.isWide then 2 else 1

def boxed : Descriptor → String
  | .bool => "Ljava/lang/Boolean;"
  | .byte => "Ljava/lang/Byte;"
  | .char => "Ljava/lang/Character;"
  | .short => "Ljava/lang/Short;"
  | .int => "Ljava/lang/Integer;"
  | .long => "Ljava/lang/Long;"
  | .float => "Ljava/lang/Float;"
  | .double => "Ljava/lang/Double;"
  | .void => "Ljava/lang/Void;"
  | t => t.text

def sourceName : Descriptor → String
  | .array of => of.sourceName ++ "[]"
  | .object name => name.map fun c => if c == '/' then '.' else c
  | .int => "int"
  | .bool => "boolean"
  | .byte => "byte"
  | .char => "char"
  | .short => "short"
  | .long => "long"
  | .float => "float"
  | .double => "double"
  | .void => "void"

end Descriptor

structure Proto where
  args : List Descriptor
  result : Descriptor
  deriving DecidableEq, Repr

namespace Proto

def write (p : Proto) : List Char := '(' :: p.args.flatMap Descriptor.write ++ ')' :: p.result.write

def text (p : Proto) : String := String.ofList p.write

def readArgs : Nat → List Char → List Descriptor × List Char
  | 0,s => ([],s)
  | most + 1,s =>
    match Descriptor.read s with
    | none => ([],s)
    | some (t,rest) => (t :: (readArgs most rest).1,(readArgs most rest).2)

-- The arguments stand side by side and end where no descriptor begins; each takes one
-- character at least, so the length of the text bounds their number.
def read : List Char → Option (Proto × List Char)
  | '(' :: s =>
    match readArgs s.length s with
    | (args,')' :: rest) => (Descriptor.read rest).map fun (result,rest) => (⟨args,result⟩,rest)
    | _ => none
  | _ => none

def ofText? (s : String) : Option Proto :=
  match read s.toList with
  | some (p,[]) => some p
  | _ => none

-- Registers that the arguments occupy, the receiver not counted. A sum of sixteen bits is
-- the same up to 65534 of them, and no method is meant to have more.
def words (p : Proto) : Nat := total Descriptor.words p.args

theorem words_fit {p : Proto} (few : p.words ≤ 65534) (isStatic : Bool) :
    p.words + (if isStatic then 0 else 1) ≤ 65535 := by
  cases isStatic with
  | true => exact Nat.le_succ_of_le few
  | false => exact Nat.succ_le_succ few

end Proto
end SmaliPrune
