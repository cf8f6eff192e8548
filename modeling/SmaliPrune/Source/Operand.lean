import SmaliPrune.Descriptor.Reference
import SmaliPrune.Text.Quoted

namespace SmaliPrune

-- A register as the text names it: the words of the parameters are counted apart.
inductive RegisterName where
  | parameter (n : Nat)
  | plain (n : Nat)
  deriving DecidableEq, Repr

def RegisterName.text : RegisterName → String
  | .parameter n => "p" ++ toString n
  | .plain n => "v" ++ toString n

inductive Operand where
  | register (r : RegisterName)
  | list (rs : List RegisterName)
  | range (first last : RegisterName)
  | label (name : String)
  | literal (n : Int)
  | string (s : String)
  | method (m : MethodRef)
  | field (f : FieldRef)
  | type (text : String)
  deriving DecidableEq, Repr

def outlined (head : String) (parts : List String) : String := head ++ "(" ++ Text.joined ", " parts ++ ")"

def outlinedList (parts : List String) : String := "[" ++ Text.joined ", " parts ++ "]"

def outlinedRecord (head : String) (fields : List (String × String)) : String :=
  head ++ " \x7b " ++ Text.joined ", " (fields.map fun f => f.1 ++ ": " ++ f.2) ++ " \x7d"

def RegisterName.outline : RegisterName → String
  | .parameter n => outlined "Parameter" [toString n]
  | .plain n => outlined "Local" [toString n]

def Descriptor.outline : Descriptor → String
  | .array of => outlined "Array" [of.outline]
  | .object name => outlined "Object" [Text.quoted name]
  | .int => "Int"
  | .bool => "Bool"
  | .byte => "Byte"
  | .char => "Char"
  | .short => "Short"
  | .long => "Long"
  | .float => "Float"
  | .double => "Double"
  | .void => "Void"

def Proto.outline (p : Proto) : String :=
  outlinedRecord "MethodSignature"
    [("args",outlinedList (p.args.map Descriptor.outline)),("result",p.result.outline)]

def FieldRef.outline (f : FieldRef) : String :=
  outlinedRecord "FieldRef"
    [("class",Text.quoted f.owner),("name",Text.quoted f.name),("field_type",f.type.outline)]

def MethodRef.outline (m : MethodRef) : String :=
  outlinedRecord "MethodRef"
    [("class",Text.quoted m.owner),("name",Text.quoted m.name),("signature",m.proto.outline)]

def Operand.outline : Operand → String
  | .register r => outlined "Register" [r.outline]
  | .list rs => outlined "RegisterList" [outlinedList (rs.map RegisterName.outline)]
  | .range first last => outlined "RegisterRange" [first.outline,last.outline]
  | .label name => outlined "Label" [Text.quoted name]
  | .literal n => outlined "Literal" [toString n]
  | .string s => outlined "Str" [Text.quoted s]
  | .method m => outlined "Method" [m.outline]
  | .field f => outlined "Field" [f.outline]
  | .type text => outlined "Type" [Text.quoted text]

end SmaliPrune
