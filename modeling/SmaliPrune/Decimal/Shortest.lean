import SmaliPrune.Dyadic

namespace SmaliPrune.Decimal

-- The numbers that read back as mantissa · 2 ^ exponent, in quarters of 2 ^ exponent:
-- from `below` under the number to `above` over it, the ends themselves if `closed`.
structure Neighbourhood where
  centre : Nat
  below : Nat
  above : Nat
  closed : Bool
  exponent : Int

def neighbourhood (f : BinaryFormat) (mantissa : Nat) (exponent : Int) : Neighbourhood :=
  ⟨4 * mantissa,if mantissa == 1 <<< f.fractionBits then 1 else 2,2,mantissa % 2 == 0,exponent - 2⟩

-- Of the two multiples of 10 ^ place around the centre, the one inside, or the nearer if
-- both are; of two equally near ones the upper. The result counts in 10 ^ place.
def Neighbourhood.onGrid (n : Neighbourhood) (place : Int) : Option Nat :=
  let unit := Nat.pow 10 (-place).toNat <<< n.exponent.toNat
  let step := Nat.pow 10 place.toNat <<< (-n.exponent).toNat
  let centre := n.centre * unit
  let floor := centre / step
  let down := centre - floor * step
  let up := (floor + 1) * step - centre
  let reaches (distance width : Nat) := distance < width * unit || (n.closed && distance == width * unit)
  match reaches down n.below,reaches up n.above with
  | true,true => some (if down < up then floor else floor + 1)
  | true,false => some floor
  | false,true => some (floor + 1)
  | false,false => none

def Neighbourhood.search (n : Neighbourhood) : Nat → Int → Nat × Int
  | 0,place => (n.centre <<< n.exponent.toNat >>> (-n.exponent).toNat / Nat.pow 10 place.toNat,place)
  | tries + 1,place =>
    match n.onGrid place with
    | some digits => (digits,place)
    | none => n.search tries (place - 1)

-- The fewest digits that read back as the number, which must not be zero. Three decimal
-- places more than the bit length needs are tried first, so no shorter text is missed;
-- forty grids reach past the seventeen digits that always suffice.
def shortest (f : BinaryFormat) (mantissa : Nat) (exponent : Int) : Nat × Int :=
  let bits := mantissa.log2 + 1 + exponent
  (neighbourhood f mantissa exponent).search 40 (bits * 30103 / 100000 + 2)

def positional (digits : Nat) (place : Int) : String :=
  let text := Nat.toDigits 10 digits
  if place ≥ 0 then String.ofList (text ++ List.replicate place.toNat '0')
  else
    let behind := (-place).toNat
    if behind < text.length then
      String.ofList (text.take (text.length - behind) ++ '.' :: text.drop (text.length - behind))
    else String.ofList (['0','.'] ++ List.replicate (behind - text.length) '0' ++ text)

def signed (negative : Bool) (text : String) : String := if negative then "-" ++ text else text

def render (f : BinaryFormat) (bits : Nat) : String :=
  match f.decode bits with
  | .nan => "NaN"
  | .infinite negative => signed negative "inf"
  | .finite negative 0 _ => signed negative "0"
  | .finite negative mantissa exponent =>
    let (digits,place) := shortest f mantissa exponent
    signed negative (positional digits place)

end SmaliPrune.Decimal
