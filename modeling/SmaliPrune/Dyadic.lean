namespace SmaliPrune

inductive Dyadic where
  | nan
  | infinite (negative : Bool)
  | finite (negative : Bool) (mantissa : Nat) (exponent : Int)

structure BinaryFormat where
  exponentBits : Nat
  fractionBits : Nat

def binary32 : BinaryFormat := ⟨8,23⟩
def binary64 : BinaryFormat := ⟨11,52⟩

namespace BinaryFormat

def bias (f : BinaryFormat) : Nat := 1 <<< (f.exponentBits - 1) - 1

def leastExponent (f : BinaryFormat) : Int := 1 - f.bias - f.fractionBits

def decode (f : BinaryFormat) (bits : Nat) : Dyadic :=
  let fraction := bits % 1 <<< f.fractionBits
  let field := bits >>> f.fractionBits % 1 <<< f.exponentBits
  let negative := bits >>> (f.fractionBits + f.exponentBits) % 2 == 1
  if field + 1 == 1 <<< f.exponentBits then
    if fraction == 0 then .infinite negative else .nan
  else if field == 0 then .finite negative fraction f.leastExponent
  else .finite negative (1 <<< f.fractionBits + fraction) (field - 1 + f.leastExponent)

-- Bits of ± mantissa · 2 ^ exponent, for a number that the format holds exactly: no
-- rounding happens here, digits below the last place are cut off.
def encodeFinite (f : BinaryFormat) (negative : Bool) (mantissa : Nat) (exponent : Int) : Nat :=
  let sign := if negative then 1 <<< (f.fractionBits + f.exponentBits) else 0
  if mantissa == 0 then sign else
  let top := (mantissa.log2 : Int) + exponent
  let place := max (top - f.fractionBits) f.leastExponent
  let shifted :=
    if exponent ≥ place then mantissa <<< (exponent - place).toNat
    else mantissa >>> (place - exponent).toNat
  let steps := (place - f.leastExponent).toNat
  sign + steps <<< f.fractionBits + shifted

end BinaryFormat
end SmaliPrune
