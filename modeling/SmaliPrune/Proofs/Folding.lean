import Mathlib.Data.Int.Bitwise
import SmaliPrune.Instr.Effect

namespace SmaliPrune.Arithmetic

-- The distance a shift in `w` bits takes from its second operand. With w a power of two
-- these are its low bits: five of them for thirty-two, six for sixty-four.
def low (w : Nat) (n : Int) : Nat := (n % w).toNat

-- What an operation gives on whole numbers before it is cut to `w` bits, and none where it
-- gives nothing. Bits are those of two's complement, without end; only `ushr` looks at the
-- width, as it fills with zeros from there.
def precise (w : Nat) (op : BinaryOp) (a b : Int) : Option Int :=
  match op with
  | .add => some (a + b)
  | .sub => some (a - b)
  | .rsub => some (b - a)
  | .mul => some (a * b)
  | .div => if b = 0 then none else some (a.tdiv b)
  | .rem => if b = 0 then none else some (a.tmod b)
  | .and => some (a.land b)
  | .or => some (a.lor b)
  | .xor => some (a.xor b)
  | .shl => some (a * 2 ^ low w b)
  | .shr => some (a / 2 ^ low w b)
  | .ushr => some (a % 2 ^ w / 2 ^ low w b)

theorem precise_eq_none (w : Nat) (op : BinaryOp) (a b : Int) :
    precise w op a b = none ↔ (op = .div ∨ op = .rem) ∧ b = 0 := by
  cases op <;> simp [precise]

section
variable {w : Nat}

theorem getLsbD_ofInt (n : Int) (i : Nat) : (BitVec.ofInt w n).getLsbD i = (decide (i < w) && n.testBit i) := by
  cases n with
  | ofNat n =>
    rw [Int.ofNat_eq_natCast,BitVec.ofInt_natCast,BitVec.getLsbD_ofNat]
    rfl
  | negSucc n =>
    rw [BitVec.ofInt_negSucc_eq_not_ofNat,BitVec.getLsbD_not,BitVec.getLsbD_ofNat]
    cases inside : decide (i < w) <;> rfl

theorem getLsbD_toInt (a : BitVec w) {i : Nat} (inside : i < w) : a.toInt.testBit i = a.getLsbD i := by
  have bits := getLsbD_ofInt (w := w) a.toInt i
  rw [BitVec.ofInt_toInt] at bits
  rw [bits,decide_eq_true inside,Bool.true_and]

theorem ofInt_of_bits {n : Int} {a : BitVec w} (bits : ∀ i < w, n.testBit i = a.getLsbD i) : BitVec.ofInt w n = a := by
  refine BitVec.eq_of_getLsbD_eq fun i inside => ?_
  rw [getLsbD_ofInt,decide_eq_true inside,Bool.true_and,bits i inside]

theorem ofInt_sub (a b : BitVec w) : BitVec.ofInt w (a.toInt - b.toInt) = a - b := by
  rw [← BitVec.toInt_inj,BitVec.toInt_ofInt,BitVec.toInt_sub]

theorem ofInt_tdiv (a b : BitVec w) : BitVec.ofInt w (a.toInt.tdiv b.toInt) = a.sdiv b := by
  rw [← BitVec.toInt_inj,BitVec.toInt_ofInt,BitVec.toInt_sdiv]

theorem ofInt_tmod (a b : BitVec w) : BitVec.ofInt w (a.toInt.tmod b.toInt) = a.srem b := by
  rw [← BitVec.toInt_srem,BitVec.ofInt_toInt]

theorem toInt_emod (a : BitVec w) : a.toInt % (2 ^ w : Nat) = a.toNat := by
  rw [BitVec.toInt_eq_toNat_bmod,Int.bmod_emod,← Int.natCast_emod,Nat.mod_eq_of_lt a.isLt]

theorem toInt_eq_zero {a : BitVec w} : a.toInt = 0 ↔ a = 0 := by
  rw [← BitVec.toInt_inj]
  simp

theorem ofInt_shiftLeft (a : BitVec w) (n : Nat) : BitVec.ofInt w (a.toInt * 2 ^ n) = a <<< n := by
  have power : BitVec.ofInt w (2 ^ n) = BitVec.twoPow w n := by
    have cast : ((2 ^ n : Nat) : Int) = 2 ^ n := by push_cast; rfl
    apply BitVec.eq_of_toNat_eq
    rw [← cast,BitVec.ofInt_natCast,BitVec.toNat_ofNat,BitVec.toNat_twoPow]
  rw [BitVec.ofInt_mul,BitVec.ofInt_toInt,power,BitVec.shiftLeft_eq_mul_twoPow]

theorem ofInt_sshiftRight (a : BitVec w) (n : Nat) : BitVec.ofInt w (a.toInt / 2 ^ n) = a.sshiftRight n := by
  have floor := Int.shiftRight_eq_div_pow a.toInt n
  push_cast at floor
  rw [← floor,← BitVec.toInt_sshiftRight,BitVec.ofInt_toInt]

theorem ofInt_ushiftRight (a : BitVec w) (n : Nat) : BitVec.ofInt w (a.toInt % 2 ^ w / 2 ^ n) = a >>> n := by
  have unsigned := toInt_emod a
  push_cast at unsigned
  rw [unsigned]
  apply BitVec.eq_of_toNat_eq
  have quotient : ((a.toNat : Int) / 2 ^ n) = ((a.toNat / 2 ^ n : Nat) : Int) := by push_cast; rfl
  rw [quotient,BitVec.ofInt_natCast,BitVec.toNat_ofNat,BitVec.toNat_ushiftRight,Nat.shiftRight_eq_div_pow,
    Nat.mod_eq_of_lt (Nat.lt_of_le_of_lt (Nat.div_le_self _ _) a.isLt)]

theorem masked {k : Nat} (size : w = 2 ^ k) (b : BitVec w) : (b &&& BitVec.ofNat w (w - 1)).toNat = low w b.toInt := by
  have mask : w - 1 < 2 ^ w := Nat.lt_of_le_of_lt (Nat.sub_le w 1) Nat.lt_two_pow_self
  have left : (b &&& BitVec.ofNat w (w - 1)).toNat = b.toNat % w := by
    have bits := Nat.and_two_pow_sub_one_eq_mod b.toNat k
    rw [← size] at bits
    rw [BitVec.toNat_and,BitVec.toNat_ofNat,Nat.mod_eq_of_lt mask,bits]
  have divides : (w : Int) ∣ (2 ^ w : Nat) := by
    have small : k ≤ w := size ▸ Nat.lt_two_pow_self.le
    have power := Nat.pow_dvd_pow 2 small
    rw [← size] at power
    exact Int.natCast_dvd_natCast.mpr power
  rw [left,low,BitVec.toInt_eq_toNat_bmod,← Int.emod_emod_of_dvd _ divides,Int.bmod_emod,
    Int.emod_emod_of_dvd _ divides,← Int.natCast_emod,Int.toNat_natCast]

theorem integer_precise {k : Nat} (size : w = 2 ^ k) (op : BinaryOp) (a b : BitVec w) :
    integer op a b = (precise w op a.toInt b.toInt).map (BitVec.ofInt w) := by
  have zero : (b == 0) = decide (b.toInt = 0) := by
    rw [Bool.eq_iff_iff,beq_iff_eq,decide_eq_true_iff,toInt_eq_zero]
  cases op with
  | add => simp [integer,precise,BitVec.ofInt_add]
  | sub => simp [integer,precise,ofInt_sub]
  | rsub => simp [integer,precise,ofInt_sub]
  | mul => simp [integer,precise,BitVec.ofInt_mul]
  | div =>
    simp only [integer,precise,zero,decide_eq_true_iff]
    split
    · rfl
    · exact congrArg some (ofInt_tdiv a b).symm
  | rem =>
    simp only [integer,precise,zero,decide_eq_true_iff]
    split
    · rfl
    · exact congrArg some (ofInt_tmod a b).symm
  | and =>
    refine congrArg some (ofInt_of_bits fun i inside => ?_).symm
    rw [Int.testBit_land,getLsbD_toInt a inside,getLsbD_toInt b inside,BitVec.getLsbD_and]
  | or =>
    refine congrArg some (ofInt_of_bits fun i inside => ?_).symm
    rw [Int.testBit_lor,getLsbD_toInt a inside,getLsbD_toInt b inside,BitVec.getLsbD_or]
  | xor =>
    refine congrArg some (ofInt_of_bits fun i inside => ?_).symm
    rw [Int.testBit_lxor,getLsbD_toInt a inside,getLsbD_toInt b inside,BitVec.getLsbD_xor]
  | shl =>
    simp only [integer,precise,masked size,Option.map_some,ofInt_shiftLeft]
  | shr =>
    simp only [integer,precise,masked size,Option.map_some,ofInt_sshiftRight]
  | ushr =>
    simp only [integer,precise,masked size,Option.map_some,ofInt_ushiftRight]

inductive Trap where
  | zeroDivisor | overflow | distance
  deriving DecidableEq, Repr

def divide (op : BitVec w → BitVec w → BitVec w) (a b : BitVec w) : Except Trap (BitVec w) :=
  if b = 0 then .error .zeroDivisor
  else if -2 ^ (w - 1) ≤ a.toInt.tdiv b.toInt ∧ a.toInt.tdiv b.toInt < 2 ^ (w - 1) then .ok (op a b)
  else .error .overflow

def shift (op : BitVec w → Nat → BitVec w) (a : BitVec w) (distance : Nat) : Except Trap (BitVec w) :=
  if distance < w then .ok (op a distance) else .error .distance

-- The guards before a division: nothing by zero, and `least` for the one quotient that has
-- no room, that of the least number by minus one.
def divideGuarded (op : BitVec w → BitVec w → BitVec w) (least a b : BitVec w) : Except Trap (Option (BitVec w)) :=
  if b = 0 then .ok none
  else if a = BitVec.intMin w ∧ b = -1#w then .ok (some least)
  else (divide op a b).map some

def guarded (op : BinaryOp) (a b : BitVec w) : Except Trap (Option (BitVec w)) :=
  let distance := (b &&& BitVec.ofNat w (w - 1)).toNat
  match op with
  | .div => divideGuarded BitVec.sdiv a a b
  | .rem => divideGuarded BitVec.srem 0 a b
  | .shl => (shift (· <<< ·) a distance).map some
  | .shr => (shift BitVec.sshiftRight a distance).map some
  | .ushr => (shift (· >>> ·) a distance).map some
  | op => .ok (integer op a b)

theorem divide_ok (op : BitVec w → BitVec w → BitVec w) {a b : BitVec w} (some' : b ≠ 0)
    (room : ¬(a = BitVec.intMin w ∧ b = -1#w)) : divide op a b = .ok (op a b) := by
  have quotient := BitVec.toInt_sdiv_of_ne_or_ne a b (not_and_or.mp room)
  unfold divide
  rw [if_neg some',← quotient,if_pos ⟨BitVec.le_toInt _,BitVec.toInt_lt⟩]

theorem distance_lt (positive : 0 < w) (b : BitVec w) : (b &&& BitVec.ofNat w (w - 1)).toNat < w := by
  have mask : (b &&& BitVec.ofNat w (w - 1)).toNat ≤ (w - 1) % 2 ^ w := by
    rw [BitVec.toNat_and,BitVec.toNat_ofNat]
    exact Nat.and_le_right
  have small := Nat.mod_le (w - 1) (2 ^ w)
  omega

theorem shift_ok (op : BitVec w → Nat → BitVec w) (a : BitVec w) (positive : 0 < w) (b : BitVec w) :
    shift op a (b &&& BitVec.ofNat w (w - 1)).toNat = .ok (op a (b &&& BitVec.ofNat w (w - 1)).toNat) :=
  if_pos (distance_lt positive b)

theorem divideGuarded_ok {op : BitVec w → BitVec w → BitVec w} {least a b : BitVec w}
    (same : a = BitVec.intMin w ∧ b = -1#w → op a b = least) :
    divideGuarded op least a b = .ok (if b == 0 then none else some (op a b)) := by
  unfold divideGuarded
  by_cases zero : b = 0
  · rw [if_pos zero,if_pos (beq_iff_eq.mpr zero)]
  · rw [if_neg zero,if_neg (mt beq_iff_eq.mp zero)]
    by_cases corner : a = BitVec.intMin w ∧ b = -1#w
    · rw [if_pos corner,same corner]
    · rw [if_neg corner,divide_ok op zero corner]
      rfl

theorem srem_neg_one (positive : 0 < w) (a : BitVec w) : a.srem (-1#w) = 0 := by
  rw [← BitVec.toInt_inj,BitVec.toInt_srem,BitVec.neg_one_eq_allOnes,BitVec.toInt_allOnes,if_pos positive,
    Int.tmod_neg,Int.tmod_one,BitVec.ofNat_eq_ofNat,BitVec.toInt_zero]

theorem guarded_eq (positive : 0 < w) (op : BinaryOp) (a b : BitVec w) : guarded op a b = .ok (integer op a b) := by
  cases op with
  | div =>
    refine divideGuarded_ok fun corner => ?_
    rw [corner.1,corner.2,BitVec.intMin_sdiv_neg_one]
  | rem =>
    refine divideGuarded_ok fun corner => ?_
    rw [corner.2,srem_neg_one positive]
  | shl | shr | ushr =>
    dsimp only [guarded,integer]
    rw [shift_ok _ a positive]
    rfl
  | _ => rfl

end

def intOf : Value → Option Int
  | .int n => some n.toInt
  | _ => none

def longOf : Value → Option Int
  | .int n => some n.toInt
  | .long n => some n.toInt
  | _ => none

theorem int?_toInt (v : Value) : v.int?.map Int32.toInt = intOf v := by
  cases v <;> rfl

theorem long?_toInt (v : Value) : v.long?.map Int64.toInt = longOf v := by
  cases v with
  | int n => exact congrArg some n.toInt_toInt64
  | _ => rfl

theorem evaluate_int (op : BinaryOp) (x y : Value) :
    evaluate op .int x y =
      (intOf x).bind fun a => (intOf y).bind fun b => (precise 32 op a b).map fun n => .int (Int32.ofInt n) := by
  rw [← int?_toInt,← int?_toInt]
  unfold evaluate
  cases x.int? with
  | none => rfl
  | some a =>
    cases y.int? with
    | none => rfl
    | some b =>
      have folded := integer_precise (w := 32) (k := 5) rfl op a.toBitVec b.toBitVec
      simp only [Option.bind_eq_bind,Option.bind_some,Option.map_some,folded,Option.map_map,Function.comp_def,
        Int32.ofBitVec_ofInt,Int32.toInt_toBitVec]

theorem evaluate_long (op : BinaryOp) (x y : Value) :
    evaluate op .long x y =
      (longOf x).bind fun a => (longOf y).bind fun b => (precise 64 op a b).map fun n => .long (Int64.ofInt n) := by
  rw [← long?_toInt,← long?_toInt]
  unfold evaluate
  cases x.long? with
  | none => rfl
  | some a =>
    cases y.long? with
    | none => rfl
    | some b =>
      have folded := integer_precise (w := 64) (k := 6) rfl op a.toBitVec b.toBitVec
      simp only [Option.bind_eq_bind,Option.bind_some,Option.map_some,folded,Option.map_map,Function.comp_def,
        Int64.ofBitVec_ofInt,Int64.toInt_toBitVec]

def second (b : Bindings) : Rhs → Value
  | .register r => b.read (.numbered r)
  | .literal n => .int n

-- How a type folds that keeps numbers in `w` bits: `whole` is the number a value stands for,
-- and `cut` the value of a number's low bits.
structure Folds (type : NumType) (w : Nat) (whole : Value → Option Int) (cut : Int → Value) : Prop where
  value : ∀ op x y a b, whole x = some a → whole y = some b → evaluate op type x y = (precise w op a b).map cut
  undecided : ∀ op x y, whole x = none ∨ whole y = none → evaluate op type x y = none
  divisors : ∀ op x y a b, whole x = some a → whole y = some b →
    (evaluate op type x y = none ↔ (op = .div ∨ op = .rem) ∧ b = 0)
  kept : ∀ n, whole (cut n) = some (n.bmod (2 ^ w))
  least : evaluate .div type (cut (-2 ^ (w - 1))) (cut (-1)) = some (cut (-2 ^ (w - 1))) ∧
    evaluate .rem type (cut (-2 ^ (w - 1))) (cut (-1)) = some (cut 0)
  untrapped : ∀ op (a b : BitVec w), guarded op a b = .ok (integer op a b)
  assigned : ∀ address opcode op dest a rhs answer (b : Bindings),
    (Instr.effect ⟨address,opcode,.binary op type dest a rhs⟩ answer b).assigns =
      [(.numbered dest,(evaluate op type (b.read (.numbered a)) (second b rhs)).getD (.unknown type.text))]

theorem Folds.of_evaluate {type : NumType} {w : Nat} {whole : Value → Option Int} {cut : Int → Value}
    (positive : 0 < w) (kept : ∀ n, whole (cut n) = some (n.bmod (2 ^ w)))
    (least : evaluate .div type (cut (-2 ^ (w - 1))) (cut (-1)) = some (cut (-2 ^ (w - 1))) ∧
      evaluate .rem type (cut (-2 ^ (w - 1))) (cut (-1)) = some (cut 0))
    (folded : ∀ op x y, evaluate op type x y =
      (whole x).bind fun a => (whole y).bind fun b => (precise w op a b).map cut) :
    Folds type w whole cut where
  value op x y a b left right := by rw [folded,left,right]; rfl
  undecided op x y missing := by
    rw [folded]
    rcases missing with left | right
    · rw [left]; rfl
    · rw [right]; cases whole x <;> rfl
  divisors op x y a b left right := by
    rw [folded,left,right,Option.bind_some,Option.bind_some,Option.map_eq_none_iff,precise_eq_none]
  kept := kept
  least := least
  untrapped := guarded_eq positive
  assigned _ _ _ _ _ rhs _ _ := by cases rhs <;> rfl

theorem integers_fold :
    Folds .int 32 intOf (fun n => .int (Int32.ofInt n)) ∧ Folds .long 64 longOf (fun n => .long (Int64.ofInt n)) :=
  ⟨.of_evaluate (by decide) (fun _ => congrArg some Int32.toInt_ofInt) ⟨rfl,rfl⟩ evaluate_int,
    .of_evaluate (by decide) (fun _ => congrArg some Int64.toInt_ofInt) ⟨rfl,rfl⟩ evaluate_long⟩

end SmaliPrune.Arithmetic
