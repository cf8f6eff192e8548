import SmaliPrune.Source.Operand

namespace SmaliPrune

inductive Wanted where
  | register | registerList | label | literal | string | type | method | field
  deriving DecidableEq, Repr

def Wanted.text : Wanted → String
  | .register => "a register"
  | .registerList => "a register list"
  | .label => "a label"
  | .literal => "a literal"
  | .string => "a string"
  | .type => "a type"
  | .method => "a method reference"
  | .field => "a field reference"

inductive Cause where
  | badDescriptor (text : String)
  | badProto (text : String)
  | emptyMethod
  | noMethodDirective (line : String)
  | noMethodName (line : String)
  | noMethodProto (line : String)
  | badCount (text : String)
  | payloadTable
  | badCatch (line : String)
  | unreadable (line : String)
  | unknownOpcode (name : String)
  | noMethodEnd
  | smallFrame (registers ins : Nat)
  | payloadOpcode (name : String)
  | missingOperand (position : Nat)
  | wrongOperand (wanted : Wanted) (found : Operand)
  | outsideFrame (parameter : Nat)
  | undefinedLabel (name : String)
  | openMethod
  | noClassDirective
  | nodeLimit (limit : Nat)
  | unresolvedType (name : String)
  deriving DecidableEq, Repr

def Cause.message : Cause → String
  | .badDescriptor text => "Could not parse type signature: " ++ text
  | .badProto text => "Could not parse method signature: " ++ text
  | .emptyMethod => "empty method text"
  | .noMethodDirective line => "expected .method, found " ++ line
  | .noMethodName line => "missing method name in " ++ line
  | .noMethodProto line => "missing method signature in " ++ line
  | .badCount text => "bad register count " ++ text
  | .payloadTable => "payload directives are not supported"
  | .badCatch line => "bad catch directive " ++ line
  | .unreadable line => "cannot parse " ++ line
  | .unknownOpcode name => "unknown opcode " ++ name
  | .noMethodEnd => "missing .end method"
  | .smallFrame registers ins =>
    toString registers ++ " registers cannot hold " ++ toString ins ++ " parameter words"
  | .payloadOpcode name => "payload instruction " ++ name ++ " is not supported"
  | .missingOperand position => "missing operand " ++ toString position
  | .wrongOperand wanted found => "expected " ++ wanted.text ++ ", found " ++ found.outline
  | .outsideFrame parameter => "parameter register p" ++ toString parameter ++ " is outside the frame"
  | .undefinedLabel name => "undefined label :" ++ name
  | .openMethod => "unterminated method in class text"
  | .noClassDirective => "missing .class directive"
  | .nodeLimit limit => "execution exceeded " ++ toString limit ++ " nodes"
  | .unresolvedType name => "unable to resolve ancestors of " ++ name

inductive Place where
  | line (n : Nat)
  | method (descriptor : String)
  | owner (name : String)
  deriving DecidableEq, Repr

def Place.text : Place → String
  | .line n => "line " ++ toString n
  | .method descriptor => descriptor
  | .owner name => name

structure Fault where
  cause : Cause
  places : List Place
  deriving DecidableEq, Repr

namespace Fault

def within (f : Fault) (p : Place) : Fault := { f with places := f.places ++ [p] }

def base (f : Fault) : String := f.cause.message

def message (f : Fault) : String :=
  match f.places with
  | [] => f.base
  | places => f.base ++ " for " ++ Text.joined " of " (places.map Place.text)

def outline (f : Fault) : String :=
  outlinedRecord "VmError"
    [("msg",Text.quoted f.base),("contexts",outlinedList (f.places.map fun p => Text.quoted p.text))]

end Fault

abbrev Checked (α : Type) := Except Fault α

def fault (cause : Cause) : Checked α := .error ⟨cause,[]⟩

def Checked.within (x : Checked α) (p : Place) : Checked α := x.mapError fun f => f.within p

def Descriptor.parse (s : String) : Checked Descriptor :=
  match Descriptor.ofText? s with
  | some t => .ok t
  | none => fault (.badDescriptor s)

def Proto.parse (s : String) : Checked Proto :=
  match Proto.ofText? s with
  | some p => .ok p
  | none => fault (.badProto s)

end SmaliPrune
