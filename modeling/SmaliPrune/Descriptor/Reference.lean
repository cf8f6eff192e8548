import SmaliPrune.Descriptor.Basic
import SmaliPrune.Text.Blank

namespace SmaliPrune

structure FieldRef where
  owner : String
  name : String
  type : Descriptor
  deriving DecidableEq, Repr

structure MethodRef where
  owner : String
  name : String
  proto : Proto
  deriving DecidableEq, Repr

def FieldRef.write (f : FieldRef) : List Char :=
  f.owner.toList ++ ['-','>'] ++ f.name.toList ++ ':' :: f.type.write

def FieldRef.text (f : FieldRef) : String := String.ofList f.write

def MethodRef.write (m : MethodRef) : List Char :=
  m.owner.toList ++ ['-','>'] ++ m.name.toList ++ m.proto.write

def MethodRef.text (m : MethodRef) : String := String.ofList m.write

def MethodRef.isVoid (m : MethodRef) : Bool := m.proto.result == .void

-- The owner runs to the first arrow and the name to the first colon after it. Both lose
-- the blanks around them; the type loses nothing and must end the text.
def FieldRef.ofChars? (s : List Char) : Option FieldRef := do
  let (owner,rest) ← Text.cutAt ['-','>'] s
  let (name,rest) ← Text.cutAt [':'] rest
  match Descriptor.read rest with
  | some (type,[]) => some ⟨String.ofList (Text.trim owner),String.ofList (Text.trim name),type⟩
  | _ => none

def MethodRef.ofChars? (s : List Char) : Option MethodRef := do
  let (owner,rest) ← Text.cutAt ['-','>'] s
  let (name,rest) ← Text.cutAt ['('] rest
  match Proto.read ('(' :: rest) with
  | some (proto,[]) => some ⟨String.ofList (Text.trim owner),String.ofList (Text.trim name),proto⟩
  | _ => none

end SmaliPrune
