namespace SmaliPrune.Text

def digit? (base : Nat) (c : Char) : Option Nat :=
  let value :=
    if '0' ≤ c && c ≤ '9' then c.toNat - 48
    else if 'a' ≤ c && c ≤ 'f' then c.toNat - 87
    else if 'A' ≤ c && c ≤ 'F' then c.toNat - 55
    else 16
  if value < base then some value else none

def digitRun (base : Nat) : List Char → List Nat × List Char
  | [] => ([],[])
  | c :: rest =>
    match digit? base c with
    | none => ([],c :: rest)
    | some d => (d :: (digitRun base rest).1,(digitRun base rest).2)

def ofDigits (base : Nat) (digits : List Nat) : Nat := digits.foldl (fun n d => n * base + d) 0

def hex (n : Nat) : String := String.ofList (Nat.toDigits 16 n)

def joined (sep : String) (parts : List String) : String := sep.intercalate parts

end SmaliPrune.Text
