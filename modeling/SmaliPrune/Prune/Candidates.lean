import SmaliPrune.Prune.Liveness

namespace SmaliPrune

-- The addresses that may be removed at all: not the last instruction, no `nop`, nothing
-- with a strong effect and nothing inside a handler.
def Method.removable (m : Method) : List Nat :=
  let guarded := m.handlerEntries.flatMap m.handlerRegion
  m.addresses.dropLast.filter fun a =>
    !guarded.contains a && (m.at? a).any fun i => i.sideEffect.isRemovable && !i.isNop

namespace Traced

def isUnreached (t : Traced) (a : Nat) : Bool := !t.graph.isReached a

-- The instruction assigns registers, what is returned aside, and none of them is live
-- behind it. What it assigns is read off the first of its nodes.
def isDeadAssignment (t : Traced) (a : Nat) : Bool :=
  match (t.graph.firstAt? a).bind Node.state with
  | none => false
  | some s =>
    let assigned := s.assigns.filter (· != .returned)
    !assigned.isEmpty && assigned.all fun r => !t.isLive (t.graph.childrenAt a) r

def isDeadResult (t : Traced) (a : Nat) : Bool :=
  match t.method.at? a with
  | none => false
  | some i =>
    match i.action with
    | .invoke kind _ method =>
      !method.isVoid && kind != .direct && !(t.method.at? i.next).any Instr.isMoveResult
    | _ => false

def isUselessBranch (t : Traced) (a : Nat) : Bool :=
  (t.method.at? a).any fun i => i.isGoto && i.offset? == some (i.units : Int)

end Traced

structure Candidates where
  unreached : List Nat
  assignments : List Nat
  results : List Nat
  branches : List Nat
  deriving DecidableEq, Repr

def Traced.candidates (t : Traced) (valid : List Nat) : Candidates :=
  ⟨valid.filter t.isUnreached,valid.filter t.isDeadAssignment,valid.filter t.isDeadResult,
    valid.filter t.isUselessBranch⟩

def Candidates.all (c : Candidates) : List Nat := c.unreached ++ c.assignments ++ c.results ++ c.branches

end SmaliPrune
