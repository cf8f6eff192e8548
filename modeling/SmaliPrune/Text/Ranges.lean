namespace SmaliPrune.Text

-- A set of characters as closed ranges of code points, ascending and apart.
abbrev Ranges := List (Nat × Nat)

def Ranges.holds (rs : Ranges) (n : Nat) : Bool := rs.any fun (lo,hi) => lo ≤ n && n ≤ hi

end SmaliPrune.Text
