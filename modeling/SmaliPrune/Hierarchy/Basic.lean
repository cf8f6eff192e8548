import SmaliPrune.Descriptor.Basic
import SmaliPrune.Hierarchy.Platform
import SmaliPrune.Search

namespace SmaliPrune

structure ClassHead where
  name : String
  superclass : Option String
  interfaces : List String
  deriving DecidableEq, Repr

def ClassHead.parents (c : ClassHead) : List String := c.superclass.toList ++ c.interfaces

structure Hierarchy where
  classes : List ClassHead
  platform : PlatformMemo

namespace Hierarchy

def fresh (platform : Platform) : Hierarchy := ⟨[],.fresh platform⟩

def find? (h : Hierarchy) (name : String) : Option ClassHead := h.classes.find? fun c => c.name == name

def isLocal (h : Hierarchy) (name : String) : Bool := (h.find? name).isSome

def add (h : Hierarchy) (c : ClassHead) : Hierarchy :=
  { h with classes := c :: h.classes.filter fun d => d.name != c.name }

def parents? (h : Hierarchy) (name : String) : Option (List String) :=
  match h.find? name with
  | some c => some c.parents
  | none => h.platform.parents? name

def parents (h : Hierarchy) (name : String) : List String := (h.parents? name).getD []

-- More than there are edges: each type of either table leads to its parents once.
def budget (h : Hierarchy) : Nat :=
  2 + total (fun c => c.parents.length) h.classes + total (fun row => row.2.length) h.platform.platform +
    total (fun row => (row.2.getD []).length) h.platform.answers

def climb (h : Hierarchy) (target : Option String) (name : String) : Search String :=
  Search.start h.parents (fun x => target.any fun t => (h.parents x).contains t) h.budget [name]

def unresolved? (h : Hierarchy) (s : Search String) : Option String :=
  s.expanded.reverse.find? fun x => (h.parents? x).isNone

def remember (h : Hierarchy) (s : Search String) : Hierarchy :=
  { h with platform := s.expanded.reverse.foldl (fun m x => if h.isLocal x then m else m.remember x) h.platform }

-- Arrays stand for their elements and primitives for the classes that hold them; a text
-- that is no descriptor stands for itself.
def reduce (type : String) : String :=
  match Descriptor.ofText? type with
  | some t => t.base.boxed
  | none => type

def settled (child target : String) : Bool := reduce child == reduce target || reduce target == objectType

-- Whether a value of the first type is one of the second. The error names a type whose
-- parents are not known and means that the answer is not known either.
def isInstance (h : Hierarchy) (child target : String) : Except String Bool :=
  if settled child target then .ok true else
  let s := h.climb (some (reduce target)) (reduce child)
  if s.halted then .ok true else
  match h.unresolved? s with
  | some name => .error name
  | none => .ok false

def askInstance (h : Hierarchy) (child target : String) : Except String Bool × Hierarchy :=
  (h.isInstance child target,
    if settled child target then h else h.remember (h.climb (some (reduce target)) (reduce child)))

-- The types above `name`, ascending, `name` itself not among them. Types on the way of
-- which nothing is known are passed over, unless there is nothing else.
def ancestors (h : Hierarchy) (name : String) : Except String (List String) :=
  let s := h.climb none name
  match s.expanded.filter fun x => x != name,h.unresolved? s with
  | [],some missing => .error missing
  | found,_ => .ok (Std.TreeSet.ofList found).toList

def askAncestors (h : Hierarchy) (name : String) : Except String (List String) × Hierarchy :=
  (h.ancestors name,h.remember (h.climb none name))

end Hierarchy
end SmaliPrune
