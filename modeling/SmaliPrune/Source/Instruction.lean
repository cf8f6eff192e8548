import SmaliPrune.Source.Literal
import SmaliPrune.Source.StringLiteral
import SmaliPrune.Text.Alphanumeric

namespace SmaliPrune.Source
open Text

def isLabelChar (c : Char) : Bool := isAlphanumeric c || c == '_' || c == '$'

def readLabel : List Char → Reading String
  | ':' :: s =>
    let name := s.takeWhile isLabelChar
    if name.isEmpty then .miss else .got (String.ofList name) (s.drop name.length)
  | _ => .miss

-- A text with an arrow refers to a method if it has an opening bracket, else to a field.
-- A text without one must be a descriptor.
def reference? (token : List Char) : Option Operand :=
  if (cutAt ['-','>'] token).isSome then
    if token.contains '(' then (MethodRef.ofChars? token).map .method
    else (FieldRef.ofChars? token).map .field
  else (Descriptor.ofText? (String.ofList token)).map fun _ => .type (String.ofList token)

def readReference (s : List Char) : Reading Operand :=
  let token := s.takeWhile (· != ',')
  if token.isEmpty then .miss else
  match reference? (trimEnd token) with
  | some operand => .got operand (s.drop token.length)
  | none => .bad

def readOperand (s : List Char) : Reading Operand :=
  ((readRegisterRange s).map fun r => .range r.1 r.2).orElse fun _ =>
  ((readRegisterList s).map .list).orElse fun _ =>
  ((readLabel s).map .label).orElse fun _ =>
  ((readString s).map .string).orElse fun _ =>
  ((readInteger 64 s).map .literal).orElse fun _ =>
  ((readRegister s).map .register).orElse fun _ =>
  readReference s

def isMnemonicChar (c : Char) : Bool := c.isAlphanum || c == '-' || c == '/'

def readOperands (s : List Char) : Reading (List Operand) :=
  match s with
  | [] => .got [] []
  | c :: rest => if isGap c then readItems readOperand (skipGaps rest) else .got [] s

def instruction? (line : List Char) : Option (String × List Operand) :=
  let name := line.takeWhile isMnemonicChar
  if name.isEmpty then none else
  match readOperands (line.drop name.length) with
  | .got operands rest => if (skipGaps rest).isEmpty then some (String.ofList name,operands) else none
  | _ => none

end SmaliPrune.Source
