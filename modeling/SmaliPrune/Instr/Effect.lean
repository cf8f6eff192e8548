import SmaliPrune.Instr.Basic
import SmaliPrune.Registers.PathState

namespace SmaliPrune

inductive Flow where
  | next (addresses : List Nat)
  | raise (type : Option String)
  deriving DecidableEq, Repr

structure Effect where
  assigns : List (Register × Value)
  flow : Flow

namespace Action

def reads : Action → List Register
  | .nop | .moveException _ | .const .. | .leave none | .goto _ | .staticGet .. | .newInstance .. => []
  | .move _ src => [.numbered src]
  | .moveResult _ => [.result]
  | .leave (some src) => [.numbered src]
  | .branch _ a none _ => [.numbered a]
  | .branch _ a (some b) _ => [.numbered a,.numbered b]
  | .binary _ _ _ a (.register b) => [.numbered a,.numbered b]
  | .binary _ _ _ a (.literal _) => [.numbered a]
  | .arrayLength _ array => [.numbered array]
  | .arrayGet _ array index _ => [.numbered array,.numbered index]
  | .arrayPut src array index => [.numbered src,.numbered array,.numbered index]
  | .fieldGet _ object _ => [.numbered object]
  | .fieldPut src object _ => [.numbered src,.numbered object]
  | .staticPut src _ => [.numbered src]
  | .newArray _ size _ => [.numbered size]
  | .checkCast reg _ => [.numbered reg]
  | .instanceOf _ src _ => [.numbered src]
  | .invoke _ registers _ => registers.map .numbered
  | .monitor reg _ | .throw reg => [.numbered reg]
  | .generic _ => []

def question? (action : Action) (b : Bindings) : Option (String × String) :=
  match action with
  | .checkCast src type | .instanceOf _ src type =>
    match b.read (.numbered src) with
    | .null | .unknown _ => none
    | v => some (v.typeName,type)
  | _ => none

end Action

-- Whether a comparison holds, where the operands decide it. Two registers are compared
-- only as integers; a single one is compared with zero.
def decided? (test : Comparison) (a : Value) (b : Option Value) : Option Bool :=
  match b with
  | none => a.zeroTest?.map fun x => test.holds x 0
  | some b =>
    match a.long?,b.long? with
    | some x,some y => some (test.holds x y)
    | _,_ => none

def elementType (array : Value) (element : String) : String :=
  match array,array.typeName.toList with
  | .unknown _,_ => element
  | _,'[' :: component => String.ofList component
  | _,_ => element

namespace Instr

def genericReads (i : Instr) (registers : List Nat) : List Register :=
  (if i.opcode.traits.setsRegister then registers.drop 1 else registers).map .numbered

def genericAssigns (i : Instr) (registers : List Nat) : List (Register × Value) :=
  (if i.opcode.traits.setsRegister then
    (registers.take 1).map fun dest => (.numbered dest,.unknown (if i.opcode.traits.setsWide then "J" else "?"))
  else []) ++
  if i.opcode.traits.setsResult then [(.result,.unknown "?")] else []

def reads (i : Instr) : List Register :=
  match i.action with
  | .generic registers => i.genericReads registers
  | action => action.reads

def onward (i : Instr) : Flow := .next (if i.canContinue then [i.next] else [])

-- What the instruction does in the given bindings. `answer` is what is known about the
-- subtype question it asks, if it asks one.
def effect (i : Instr) (answer : Option Bool) (b : Bindings) : Effect :=
  match i.action with
  | .nop | .arrayPut .. | .fieldPut .. | .staticPut .. | .monitor .. => ⟨[],i.onward⟩
  | .move dest src => ⟨[(.numbered dest,b.read (.numbered src))],i.onward⟩
  | .moveResult dest => ⟨[(.numbered dest,b.read .result)],i.onward⟩
  | .moveException dest => ⟨[(.numbered dest,.unknown "Ljava/lang/Throwable;")],i.onward⟩
  | .const dest value => ⟨[(.numbered dest,value)],i.onward⟩
  | .leave none => ⟨[],.next []⟩
  | .leave (some src) => ⟨[(.returned,b.read (.numbered src))],.next []⟩
  | .goto target => ⟨[],.next [target]⟩
  | .branch test a rhs target =>
    ⟨[],.next <| match decided? test (b.read (.numbered a)) (rhs.map fun r => b.read (.numbered r)) with
      | some true => [target]
      | some false => [i.next]
      | none => if target == i.next then [i.next] else [i.next,target]⟩
  | .binary op type dest a rhs =>
    let y := match rhs with
      | .register r => b.read (.numbered r)
      | .literal n => .int n
    ⟨[(.numbered dest,Arithmetic.outcome op type (b.read (.numbered a)) y)],i.onward⟩
  | .arrayLength dest _ => ⟨[(.numbered dest,.unknown "I")],i.onward⟩
  | .arrayGet dest array _ element =>
    ⟨[(.numbered dest,.unknown (elementType (b.read (.numbered array)) element))],i.onward⟩
  | .fieldGet dest _ field | .staticGet dest field => ⟨[(.numbered dest,.unknown field.type.text)],i.onward⟩
  | .newInstance dest type | .newArray dest _ type => ⟨[(.numbered dest,.fresh type)],i.onward⟩
  | .checkCast reg type =>
    match b.read (.numbered reg) with
    | .unknown _ => ⟨[(.numbered reg,.unknown type)],i.onward⟩
    | .null => ⟨[(.numbered reg,.null)],i.onward⟩
    | v =>
      if answer == some false then ⟨[],.raise (some "Ljava/lang/ClassCastException;")⟩
      else ⟨[(.numbered reg,v)],i.onward⟩
  | .instanceOf dest src _ =>
    let v := match b.read (.numbered src) with
      | .null => .int 0
      | .unknown _ => .unknown "Z"
      | _ =>
        match answer with
        | some true => .int 1
        | some false => .int 0
        | none => .unknown "Z"
    ⟨[(.numbered dest,v)],i.onward⟩
  | .invoke _ _ method =>
    ⟨if method.isVoid then [] else [(.result,.unknown method.proto.result.text)],i.onward⟩
  | .throw reg =>
    match b.read (.numbered reg) with
    | .unknown _ => ⟨[],.raise none⟩
    | .null => ⟨[],.raise (some "Ljava/lang/NullPointerException;")⟩
    | v => ⟨[],.raise (some v.typeName)⟩
  | .generic registers => ⟨i.genericAssigns registers,i.onward⟩

def run (i : Instr) (answer : Option Bool) (b : Bindings) (registers : Nat) : PathState :=
  ((PathState.enter b registers).touchAll i.reads).assignAll (i.effect answer b).assigns

end Instr
end SmaliPrune
