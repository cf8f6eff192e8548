import Std.Data.TreeSet

namespace SmaliPrune

structure Search (α : Type) where
  expanded : List α
  halted : Bool

namespace Search
variable {α : Type} [Ord α]

-- Each item leads to its successors once, so a budget of one more than the number of edges
-- is never used up.
def run (next : α → List α) (halt : α → Bool) : Nat → List α → Std.TreeSet α → List α → Search α
  | 0,_,_,expanded => ⟨expanded,false⟩
  | _ + 1,[],_,expanded => ⟨expanded,false⟩
  | budget + 1,x :: stack,seen,expanded =>
    if seen.contains x then run next halt budget stack seen expanded
    else if halt x then ⟨x :: expanded,true⟩
    else run next halt budget ((next x).reverse ++ stack) (seen.insert x) (x :: expanded)

def start (next : α → List α) (halt : α → Bool) (budget : Nat) (stack : List α) : Search α :=
  run next halt budget stack ∅ []

end Search
end SmaliPrune
