import SmaliPrune.Source.Reading

namespace SmaliPrune.Source
open Text

-- The integer that a sign, a base and a magnitude denote in so many bits, if they denote
-- one. Hex digits without a sign are the bits of a two's complement number.
def denoted? (bits : Nat) (negative hex : Bool) (magnitude : Nat) : Option Int :=
  if negative then
    if magnitude ≤ 1 <<< (bits - 1) then some (-magnitude) else none
  else if magnitude < 1 <<< (bits - 1) then some magnitude
  else if hex && magnitude < 1 <<< bits then some (magnitude - (1 <<< bits : Nat))
  else none

def readSign : List Char → Bool × List Char
  | '-' :: rest => (true,rest)
  | s => (false,s)

def readBase : List Char → Bool × List Char
  | '0' :: 'x' :: rest => (true,rest)
  | '0' :: 'X' :: rest => (true,rest)
  | s => (false,s)

def skipSuffix : List Char → List Char
  | [] => []
  | c :: rest => if c == 'L' || c == 't' || c == 's' then rest else c :: rest

def readInteger (bits : Nat) (s : List Char) : Reading Int :=
  let (negative,s) := readSign s
  let (hex,s) := readBase s
  match digitRun (if hex then 16 else 10) s with
  | ([],_) => .miss
  | (digits,rest) =>
    match denoted? bits negative hex (ofDigits (if hex then 16 else 10) digits) with
    | some n => .got n (skipSuffix rest)
    | none => .bad

end SmaliPrune.Source
