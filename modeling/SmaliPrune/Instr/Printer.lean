import SmaliPrune.Instr.Basic

namespace SmaliPrune

def registerText (n : Nat) : String := "v" ++ toString n

def registersText (ns : List Nat) : String := Text.joined ", " (ns.map registerText)

def targetText (address : Nat) : String := ":addr_" ++ Text.hex address

-- Branch targets are written as addresses; an instruction known by its traits alone keeps
-- a space behind its name even without registers.
def Action.operandsText : Action → List String
  | .nop | .leave none => []
  | .move dest src => [registerText dest,registerText src]
  | .moveResult dest | .moveException dest => [registerText dest]
  | .const dest value => [registerText dest,value.text]
  | .leave (some src) => [registerText src]
  | .goto target => [targetText target]
  | .branch _ a (some b) target => [registerText a,registerText b,targetText target]
  | .branch _ a none target => [registerText a,targetText target]
  | .binary _ _ dest a (.register b) => [registerText dest,registerText a,registerText b]
  | .binary _ _ dest a (.literal n) => [registerText dest,registerText a,toString n.toInt]
  | .arrayLength dest array => [registerText dest,registerText array]
  | .arrayGet a array index _ | .arrayPut a array index => [registerText a,registerText array,registerText index]
  | .fieldGet a object field | .fieldPut a object field => [registerText a,registerText object,field.text]
  | .staticGet a field | .staticPut a field => [registerText a,field.text]
  | .newInstance dest type => [registerText dest,type]
  | .newArray dest size type => [registerText dest,registerText size,type]
  | .checkCast reg type => [registerText reg,type]
  | .instanceOf dest src type => [registerText dest,registerText src,type]
  | .invoke _ registers method => ["\x7b" ++ registersText registers ++ "\x7d",method.text]
  | .monitor reg _ | .throw reg => [registerText reg]
  | .generic registers => [registersText registers]

def Instr.text (i : Instr) : String :=
  match i.action.operandsText with
  | [] => i.opcode.name
  | operands => i.opcode.name ++ " " ++ Text.joined ", " operands

end SmaliPrune
