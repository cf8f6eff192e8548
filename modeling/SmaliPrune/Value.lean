import SmaliPrune.Decimal.Shortest

namespace SmaliPrune

-- What a register holds on one path. An unknown value still has a declared type; a fresh
-- one is an instance made on the path itself.
inductive Value where
  | int (n : Int32)
  | long (n : Int64)
  | float (x : Float32)
  | double (x : Float)
  | string (s : String)
  | classOf (name : String)
  | null
  | fresh (type : String)
  | unknown (type : String)

namespace Value

-- Floats are compared as numbers: a NaN differs from itself, and both zeros agree. On all
-- other values this is equality.
def same : Value → Value → Bool
  | .int a,.int b => a == b
  | .long a,.long b => a == b
  | .float a,.float b => a == b
  | .double a,.double b => a == b
  | .string a,.string b => a == b
  | .classOf a,.classOf b => a == b
  | .null,.null => true
  | .fresh a,.fresh b => a == b
  | .unknown a,.unknown b => a == b
  | _,_ => false

def isUnknown : Value → Bool
  | .unknown _ => true
  | _ => false

def isFloating : Value → Bool
  | .float _ | .double _ => true
  | _ => false

def typeName : Value → String
  | .int _ => "I"
  | .long _ => "J"
  | .float _ => "F"
  | .double _ => "D"
  | .string _ => "Ljava/lang/String;"
  | .classOf _ => "Ljava/lang/Class;"
  | .null => "Ljava/lang/Object;"
  | .fresh type | .unknown type => type

def int? : Value → Option Int32
  | .int n => some n
  | _ => none

def long? : Value → Option Int64
  | .long n => some n
  | .int n => some n.toInt64
  | _ => none

-- What a test against zero sees: null is zero and every known reference is not. A float
-- or an unknown value decides nothing.
def zeroTest? : Value → Option Int64
  | .int n => some n.toInt64
  | .long n => some n
  | .null => some 0
  | .string _ | .classOf _ | .fresh _ => some 1
  | .float _ | .double _ | .unknown _ => none

def text : Value → String
  | .int n => toString n.toInt
  | .long n => toString n.toInt ++ "L"
  | .float x => Decimal.render binary32 x.toBits.toNat ++ "f"
  | .double x => Decimal.render binary64 x.toBits.toNat ++ "d"
  | .string s => "\"" ++ s ++ "\""
  | .classOf name => name ++ ".class"
  | .null => "null"
  | .fresh type => "new " ++ type
  | .unknown type => "Unknown(" ++ type ++ ")"

end Value
end SmaliPrune
