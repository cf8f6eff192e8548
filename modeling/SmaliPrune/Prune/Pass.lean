import SmaliPrune.Prune.Candidates

namespace SmaliPrune

structure Tally where
  unreached : Nat := 0
  assignments : Nat := 0
  branches : Nat := 0
  results : Nat := 0
  deriving DecidableEq, Repr

namespace Tally

def count (t : Tally) (c : Candidates) : Tally :=
  ⟨t.unreached + c.unreached.length,t.assignments + c.assignments.length,t.branches + c.branches.length,
    t.results + c.results.length⟩

def add (s t : Tally) : Tally :=
  ⟨s.unreached + t.unreached,s.assignments + t.assignments,s.branches + t.branches,s.results + t.results⟩

def entries (t : Tally) : List (String × Nat) :=
  [("dead",t.unreached),("dead_assignment",t.assignments),("dead_branch",t.branches),("dead_result",t.results)]

end Tally

structure Pruner where
  valid : List Nat := []
  tally : Tally := {}
  deriving DecidableEq, Repr

namespace Pruner

def passName : String := "dead code removal"

def refresh (p : Pruner) (t : Traced) : Pruner := { p with valid := t.method.removable }

def perform (p : Pruner) (t : Traced) : Bool × Pruner × Traced :=
  let p := p.refresh t
  let c := t.candidates p.valid
  let p := { p with tally := p.tally.count c }
  if c.all.isEmpty then (false,p,t)
  else
    let t := t.remove c.all
    (true,p.refresh t,t)

end Pruner

structure Optimizer where
  passes : List Pruner := [{}]
  maxSweeps : Nat := 100
  sweeps : Nat := 0
  deriving DecidableEq, Repr

namespace Optimizer

def sweep : List Pruner → Traced → Bool × List Pruner × Traced
  | [],t => (false,[],t)
  | p :: rest,t =>
    let (changed,p,t) := p.perform t
    let (more,rest,t) := sweep rest t
    (changed || more,p :: rest,t)

-- At most so many sweeps; a sweep without change is the last. The flag says whether any
-- sweep changed something, the number how many there were.
def sweepUpTo : Nat → List Pruner → Traced → Bool × Nat × List Pruner × Traced
  | 0,ps,t => (false,0,ps,t)
  | most + 1,ps,t =>
    match sweep ps t with
    | (false,ps,t) => (false,1,ps,t)
    | (true,ps,t) =>
      let (_,n,ps,t) := sweepUpTo most ps t
      (true,n + 1,ps,t)

def simplify (o : Optimizer) (t : Traced) : Bool × Optimizer × Traced :=
  let (changed,n,passes,t) := sweepUpTo o.maxSweeps o.passes t
  (changed,{ o with passes, sweeps := o.sweeps + n },t)

def counts (o : Optimizer) : List (String × Nat) :=
  match o.passes with
  | [] => []
  | passes => (passes.foldl (fun (t : Tally) p => t.add p.tally) {}).entries

end Optimizer
end SmaliPrune
