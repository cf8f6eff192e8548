import SmaliPrune.Hierarchy.Basic
import SmaliPrune.Instr.Effect
import SmaliPrune.Method.Basic

namespace SmaliPrune

def Handler.catches? (handler : Handler) (h : Hierarchy) (thrown : Option String) : Option Bool :=
  match handler.type,thrown with
  | none,_ => some true
  | some _,none => none
  | some type,some thrown => (h.isInstance thrown type).toOption

def catchers (h : Hierarchy) (thrown : Option String) : List Handler → List Handler
  | [] => []
  | handler :: rest =>
    match handler.catches? h thrown with
    | some true => [handler]
    | some false => catchers h thrown rest
    | none => handler :: catchers h thrown rest

def rememberCatchers (thrown : Option String) : List Handler → Hierarchy → Hierarchy
  | [],h => h
  | handler :: rest,h =>
    let after := match handler.type,thrown with
      | some type,some thrown => (h.askInstance thrown type).2
      | _,_ => h
    if handler.catches? h thrown == some true then after else rememberCatchers thrown rest after

namespace Method

def exceptionTargets (m : Method) (h : Hierarchy) (address : Nat) (thrown : Option String) : List Nat :=
  ((catchers h thrown (m.handlersFor address)).map Handler.entry).eraseDups

def answer? (h : Hierarchy) (i : Instr) (b : Bindings) : Option Bool :=
  (i.action.question? b).bind fun q => (h.isInstance q.1 q.2).toOption

def raised? (m : Method) (i : Instr) (flow : Flow) : Option (Option String) :=
  match flow with
  | .raise thrown => some thrown
  | .next _ => if i.canThrow && !(m.handlersFor i.address).isEmpty then some none else none

-- All ways on from an instruction entered with the given bindings: its successors with
-- what it made of them, and handlers with the bindings as they were.
def exits (m : Method) (h : Hierarchy) (i : Instr) (b : Bindings) : List (Nat × Bindings) :=
  let state := i.run (answer? h i b) b m.registers
  let flow := (i.effect (answer? h i b) b).flow
  (match flow with
    | .next addresses => addresses.map fun a => (a,state.bindings)
    | .raise _ => []) ++
  (match m.raised? i flow with
    | some thrown => (m.exceptionTargets h i.address thrown).map fun a => (a,b)
    | none => [])

def rememberExits (m : Method) (h : Hierarchy) (i : Instr) (b : Bindings) : Hierarchy :=
  let asked := match i.action.question? b with
    | some (child,target) => (h.askInstance child target).2
    | none => h
  match m.raised? i (i.effect (answer? h i b) b).flow with
  | some thrown => rememberCatchers thrown (m.handlersFor i.address) asked
  | none => asked

end Method
end SmaliPrune
