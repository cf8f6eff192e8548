import SmaliPrune.Instr.Basic

namespace SmaliPrune

-- How much of an instruction can be seen from outside the method. Weak effects are those
-- of loading a class.
inductive SideEffect where
  | none | weak | strong
  deriving DecidableEq, Repr

def SideEffect.isRemovable : SideEffect → Bool
  | .strong => false
  | _ => true

def immutableClasses : List String := [
  "Ljava/lang/String;","Ljava/lang/Boolean;","Ljava/lang/Byte;","Ljava/lang/Character;",
  "Ljava/lang/Short;","Ljava/lang/Integer;","Ljava/lang/Long;","Ljava/lang/Float;",
  "Ljava/lang/Double;","Ljava/lang/Math;","Ljava/lang/StrictMath;","Ljava/math/BigInteger;",
  "Ljava/math/BigDecimal;"]

def harmlessClasses : List String := immutableClasses ++ [
  "Ljava/lang/Object;","Ljava/lang/StringBuilder;","Ljava/lang/StringBuffer;",
  "Ljava/lang/Exception;","Ljava/lang/RuntimeException;","Ljava/lang/IllegalArgumentException;",
  "Ljava/lang/IllegalStateException;","Ljava/lang/NullPointerException;","Ljava/util/ArrayList;",
  "Ljava/util/HashMap;","Ljava/util/HashSet;","Ljava/util/LinkedList;"]

def loading (name : String) : SideEffect := if harmlessClasses.contains name then .none else .weak

def Action.sideEffect : Action → SideEffect
  | .nop | .move .. | .moveResult _ | .moveException _ | .const .. | .leave _ | .goto _ | .branch ..
  | .binary .. | .arrayLength .. | .arrayGet .. | .fieldGet .. | .newArray .. | .checkCast ..
  | .instanceOf .. => .none
  | .newInstance _ type => loading type
  | .staticGet _ field => loading field.owner
  | .invoke _ _ method => if immutableClasses.contains method.owner then .none else .strong
  | .arrayPut .. | .fieldPut .. | .staticPut .. | .monitor .. | .throw _ | .generic _ => .strong

def Instr.sideEffect (i : Instr) : SideEffect := i.action.sideEffect

end SmaliPrune
