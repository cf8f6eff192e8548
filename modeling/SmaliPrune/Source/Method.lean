import SmaliPrune.Opcode.Catalogue
import SmaliPrune.Source.Assemble
import SmaliPrune.Source.Line

namespace SmaliPrune.Source
open Text

structure Header where
  name : String
  proto : Proto
  isStatic : Bool
  deriving DecidableEq, Repr

def Header.ins (h : Header) : Nat := h.proto.words + if h.isStatic then 0 else 1

-- The last word holds name and signature, which begins at its first bracket; of the words
-- before it only `static` matters.
def header (line : List Char) : Checked Header :=
  match after? ".method".toList line with
  | none => fault (.noMethodDirective (String.ofList line))
  | some rest =>
    match (words rest).reverse with
    | [] => fault (.noMethodName (String.ofList line))
    | declaration :: modifiers =>
      let name := declaration.takeWhile (· != '(')
      match declaration.drop name.length with
      | [] => fault (.noMethodProto (String.ofList line))
      | signature => do
        return ⟨String.ofList name,← Proto.parse (String.ofList signature),modifiers.contains "static".toList⟩

-- What the lines of a method's body have given so far. The address is that of the next
-- instruction; instructions, labels and guards stand latest first.
structure Draft where
  registers : Option Nat
  labels : List (String × Nat)
  guards : List (Nat × Catch)
  pending : List Pending
  address : Nat
  skipping : Bool

def Draft.start : Draft := ⟨none,[],[],[],0,false⟩

def count? (text : List Char) : Option Nat :=
  match (readInteger 32 (trim text)).whole? with
  | some n => if 0 ≤ n ∧ n ≤ registerLimit then some n.toNat else none
  | none => none

def count (text : List Char) : Checked Nat :=
  match count? text with
  | some n => .ok n
  | none => fault (.badCount (String.ofList text))

def Draft.add (d : Draft) (ins n : Nat) (line : Line) : Checked Draft :=
  match line with
  | .registers text => return { d with registers := some (← count text) }
  | .locals text => return { d with registers := some (min ((← count text) + ins) registerLimit) }
  | .remark => return { d with skipping := true }
  | .payload => fault .payloadTable
  | .guard text =>
    match catch? text with
    | some c => return { d with guards := (n,c) :: d.guards }
    | none => fault (.badCatch (String.ofList text))
  | .directive | .methodEnd => return d
  | .label name => return { d with labels := (name,d.address) :: d.labels }
  | .instruction text =>
    match instruction? text with
    | none => fault (.unreadable (String.ofList text))
    | some (name,operands) =>
      match Opcode.named? name with
      | none => fault (.unknownOpcode name)
      | some opcode => return { d with
        pending := ⟨n,d.address,opcode,operands⟩ :: d.pending
        address := d.address + opcode.units }

-- Annotations are passed over whole. The draft is finished at the end of the method,
-- whatever follows, and is none if the lines end before that.
def Draft.collect (ins : Nat) : Draft → List (Nat × List Char) → Checked (Option Draft)
  | _,[] => return none
  | d,(n,line) :: rest =>
    if d.skipping then collect ins (if startsWith ".end annotation" line then { d with skipping := false } else d) rest
    else match classify line with
      | .methodEnd => return some d
      | kind => do collect ins (← (d.add ins n kind).within (.line n)) rest

def addGuard (first stop : Nat) (h : Handler) : List TryRange → List TryRange
  | [] => [⟨first,stop,[h]⟩]
  | t :: rest =>
    if t.first = first ∧ t.stop = stop then { t with handlers := t.handlers ++ [h] } :: rest
    else t :: addGuard first stop h rest

def resolveGuard (f : Frame) (n : Nat) (c : Catch) : Checked (Nat × Nat × Handler) :=
  Checked.within (do return (← f.address c.first,← f.address c.stop,⟨c.type,← f.address c.handler⟩)) (.line n)

def tryTable (f : Frame) (guards : List (Nat × Catch)) : Checked (List TryRange) := do
  let resolved ← guards.mapM fun g => resolveGuard f g.1 g.2
  return resolved.foldl (fun table g => addGuard g.1 g.2.1 g.2.2 table) []

def Draft.finish (d : Draft) (owner : String) (h : Header) : Checked Method :=
  let registers := d.registers.getD h.ins
  if registers < h.ins then fault (.smallFrame registers h.ins) else
  let frame : Frame := ⟨d.labels,registers - h.ins,registers⟩
  do
    let code ← d.pending.reverse.mapM fun p => (p.assemble frame).within (.line p.line)
    return ⟨owner,h.name,h.proto,h.isStatic,registers,code,← tryTable frame d.guards.reverse⟩

def method (owner : String) (text : List Char) : Checked Method :=
  match numbered text with
  | [] => fault .emptyMethod
  | (n,first) :: rest => do
    let h ← (header first).within (.line n)
    let descriptor := owner ++ "->" ++ h.name ++ h.proto.text
    Checked.within (do
      match ← Draft.collect h.ins .start rest with
      | none => fault .noMethodEnd
      | some d => d.finish owner h) (.method descriptor)

end SmaliPrune.Source
