import SmaliPrune.Graph.Explore
import SmaliPrune.Prune.Pass

namespace SmaliPrune

inductive Setting where
  | count (n : Nat)
  | other
  deriving DecidableEq, Repr

inductive Settings where
  | group (entries : List (String × Setting))
  | other
  deriving DecidableEq, Repr

namespace Settings

def countLimit : Nat := 1 <<< 64

-- A setting that is missing has its default. One that is there must be a number of at
-- most sixty-four bits.
def count? (fields : List (String × Setting)) (name : String) (default : Nat) : Option Nat :=
  match fields.lookup name with
  | none => some default
  | some (.count n) => if n < countLimit then some n else none
  | some .other => none

def limits? : Settings → Option Limits
  | .group fields => do
    return ⟨← count? fields "max_address_visits" 500,← count? fields "max_nodes" 100000⟩
  | .other => none

def maxSweeps? : Settings → Option Nat
  | .group fields => count? fields "max_sweeps" 100
  | .other => none

end Settings
end SmaliPrune
