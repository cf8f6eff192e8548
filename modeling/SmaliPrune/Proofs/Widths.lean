import SmaliPrune.Proofs.Folding
import SmaliPrune.Proofs.Literals

namespace SmaliPrune

theorem Reading.whole?_eq_some {α : Type} {r : Reading α} {a : α} : r.whole? = some a ↔ r = .got a [] := by
  unfold whole?
  split
  · simp
  · next other => simpa using fun same => other a same

namespace Source
open Text Arithmetic

inductive Denotes (bits : Nat) (least most : Int) : Bool → Bool → Nat → Int → Prop where
  | minus {hex : Bool} {n : Nat} (room : least ≤ -(n : Int)) : Denotes bits least most true hex n (-n)
  | hex {n : Nat} (room : n < 2 ^ bits) : Denotes bits least most false true n (BitVec.ofNat bits n).toInt
  | decimal {n : Nat} (room : (n : Int) ≤ most) : Denotes bits least most false false n n

section
variable {half n : Nat} {negative hex : Bool} {v : Int}

theorem denoted?_denotes : denoted? (half + 1) negative hex n = some v ↔
    Denotes (half + 1) (-2 ^ half) (2 ^ half - 1) negative hex n v := by
  have power : ((2 ^ half : Nat) : Int) = 2 ^ half := Int.natCast_pow 2 half
  rw [← power]
  cases negative with
  | true =>
    rw [denoted?,if_pos rfl,Nat.one_shiftLeft,Nat.add_sub_cancel,Option.ite_none_right_eq_some]
    constructor
    · rintro ⟨room,same⟩
      cases same
      exact .minus (by omega)
    · intro denotes
      cases denotes with
      | minus room => exact ⟨by omega,rfl⟩
  | false =>
    cases hex with
    | true =>
      rw [denoted?_iff (Nat.succ_pos half),Room,if_neg Bool.false_ne_true,if_pos rfl,Nat.one_shiftLeft,signed,
        if_neg Bool.false_ne_true,← BitVec.toInt_ofNat']
      constructor
      · rintro ⟨room,rfl⟩
        exact .hex room
      · intro denotes
        cases denotes with
        | hex room => exact ⟨room,rfl⟩
    | false =>
      rw [denoted?,if_neg Bool.false_ne_true,Bool.false_and,if_neg Bool.false_ne_true,Nat.one_shiftLeft,
        Nat.add_sub_cancel,Option.ite_none_right_eq_some]
      constructor
      · rintro ⟨room,same⟩
        cases same
        exact .decimal (by omega)
      · intro denotes
        cases denotes with
        | decimal room => exact ⟨by omega,rfl⟩

end

-- Reading in words, as a machine does it: digits are taken up as long as an unsigned word
-- has room, and what they stand for is a signed word, which is narrowed at last.
def word? (n : Nat) : Option (BitVec 64) := if n < 2 ^ 64 then some (BitVec.ofNat 64 n) else none

def pushDigit? (base : Nat) (m : BitVec 64) (d : Nat) : Option (BitVec 64) :=
  let base := BitVec.ofNat 64 base
  let d := BitVec.ofNat 64 d
  if m.umulOverflow base || (m * base).uaddOverflow d then none else some (m * base + d)

def subtract {w : Nat} (a b : BitVec w) : Except Trap (BitVec w) :=
  if a.ssubOverflow b then .error .overflow else .ok (a - b)

-- Whether a word has more bits than so many. All sixty-four are not asked for, as the shift
-- would be too far.
def exceeds (bits : Nat) (m : BitVec 64) : Except Trap Bool :=
  if bits < 64 then (Arithmetic.shift (· <<< ·) 1#64 bits).map fun limit => decide (limit ≤ m) else .ok false

-- A word whose highest bit of so many is set is less by all of them. The difference is
-- formed in twice the width.
def complemented (bits : Nat) (m : BitVec 64) : Except Trap (BitVec 64) := do
  let top ← Arithmetic.shift (· <<< ·) 1#64 (bits - 1)
  if m &&& top = 0 then return m
  let all ← Arithmetic.shift (· <<< ·) 1#128 bits
  let difference ← subtract (m.setWidth 128) all
  return difference.setWidth 64

def signedWord (bits : Nat) (negative hex : Bool) (m : BitVec 64) : Except Trap (Option (BitVec 64)) := do
  if negative then
    let limit ← Arithmetic.shift (· <<< ·) 1#64 63
    return if limit < m then none else some (-m)
  else if hex then
    if ← exceeds bits m then return none
    return some (← complemented bits m)
  else return if m ≤ BitVec.intMax 64 then some m else none

def narrow? (bits : Nat) (m : BitVec 64) : Option Int := if Fits bits m.toInt then some m.toInt else none

def wordValue (bits : Nat) (negative hex : Bool) (digits : List Nat) : Except Trap (Option Int) :=
  match digits.foldlM (pushDigit? (if hex then 16 else 10)) 0 with
  | none => .ok none
  | some m => (signedWord bits negative hex m).map (·.bind (narrow? bits))

def readInWords (bits : Nat) (s : List Char) : Except Trap (Reading Int) :=
  let (negative,s) := readSign s
  let (hex,s) := readBase s
  match digitRun (if hex then 16 else 10) s with
  | ([],_) => .ok .miss
  | (digits,rest) => (wordValue bits negative hex digits).map fun
    | some n => .got n (skipSuffix rest)
    | none => .bad

section
variable {base : Nat}

theorem pushDigit?_word (small : base ≤ 16) {d : Nat} (below : d < base) (m : BitVec 64) :
    pushDigit? base m d = word? (m.toNat * base + d) := by
  have base' : (BitVec.ofNat 64 base).toNat = base := Nat.mod_eq_of_lt (by omega)
  have digit : (BitVec.ofNat 64 d).toNat = d := Nat.mod_eq_of_lt (by omega)
  unfold pushDigit? word?
  simp only [BitVec.umulOverflow,BitVec.uaddOverflow,BitVec.toNat_mul,base',digit,Bool.or_eq_true,decide_eq_true_eq]
  by_cases product : m.toNat * base < 2 ^ 64
  · rw [Nat.mod_eq_of_lt product]
    by_cases room : m.toNat * base + d < 2 ^ 64
    · rw [if_neg (by omega),if_pos room]
      congr 1
      apply BitVec.eq_of_toNat_eq
      rw [BitVec.toNat_add,BitVec.toNat_mul,base',digit,Nat.mod_eq_of_lt product,BitVec.toNat_ofNat]
    · rw [if_pos (by omega),if_neg room]
  · rw [if_pos (by omega),if_neg (by omega)]

theorem le_foldl (positive : 0 < base) (digits : List Nat) (n : Nat) :
    n ≤ digits.foldl (fun n d => n * base + d) n := by
  induction digits generalizing n with
  | nil => exact Nat.le_refl n
  | cons d digits ih =>
    have step : n ≤ n * base := Nat.le_mul_of_pos_right n positive
    have rest := ih (n * base + d)
    rw [List.foldl_cons]
    omega

theorem pushDigits_word (positive : 0 < base) (small : base ≤ 16) {digits : List Nat} (below : ∀ d ∈ digits, d < base)
    (m : BitVec 64) : digits.foldlM (pushDigit? base) m = word? (digits.foldl (fun n d => n * base + d) m.toNat) := by
  induction digits generalizing m with
  | nil => simp [word?,m.isLt]
  | cons d digits ih =>
    have first := pushDigit?_word small (below d List.mem_cons_self) m
    have others := ih fun d' member => below d' (List.mem_cons_of_mem d member)
    rw [List.foldlM_cons,List.foldl_cons,first,word?]
    split
    · next room =>
      have value : (BitVec.ofNat 64 (m.toNat * base + d)).toNat = m.toNat * base + d := Nat.mod_eq_of_lt room
      have more := others (BitVec.ofNat 64 (m.toNat * base + d))
      rw [value] at more
      exact more
    · next full =>
      have grows := le_foldl positive digits (m.toNat * base + d)
      rw [word?,if_neg (by omega)]
      rfl

end

section
variable {half : Nat} {m : BitVec 64}

theorem shift_one {w distance : Nat} (near : distance < w) :
    Arithmetic.shift (· <<< ·) 1#w distance = .ok (BitVec.twoPow w distance) := by
  rw [Arithmetic.shift,if_pos near,BitVec.twoPow_eq]

theorem exceeds_ok {bits : Nat} (most : bits ≤ 64) (m : BitVec 64) :
    exceeds bits m = .ok (decide (2 ^ bits ≤ m.toNat)) := by
  unfold exceeds
  split
  · next near =>
    have limit : (BitVec.twoPow 64 bits).toNat = 2 ^ bits := by
      rw [BitVec.toNat_twoPow,Nat.mod_eq_of_lt (Nat.pow_lt_pow_right (by decide) near)]
    simp only [shift_one near,Except.map,BitVec.le_def,limit]
  · next far =>
    have all : bits = 64 := by omega
    have inside := m.isLt
    rw [all,decide_eq_false (by omega)]

theorem subtract_ok (near : half < 64) : subtract (m.setWidth 128) (BitVec.twoPow 128 (half + 1)) =
    .ok (BitVec.ofInt 128 (m.toNat - (2 ^ (half + 1) : Nat))) := by
  have inside := m.isLt
  have some' : 0 < 2 ^ half := Nat.two_pow_pos half
  have limit : 2 ^ (half + 1) ≤ 2 ^ 64 := Nat.pow_le_pow_right (by decide) near
  have left : (m.setWidth 128).toInt = m.toNat := by
    have same : (m.setWidth 128).toNat = m.toNat := by
      rw [BitVec.toNat_setWidth,Nat.mod_eq_of_lt (by omega)]
    rw [BitVec.toInt_eq_toNat_of_lt (by omega),same]
  have right : (BitVec.twoPow 128 (half + 1)).toInt = (2 ^ (half + 1) : Nat) := by
    rw [BitVec.toInt_twoPow,if_neg (by omega),if_neg (by omega)]
    exact (Int.natCast_pow 2 (half + 1)).symm
  have room : (m.setWidth 128).ssubOverflow (BitVec.twoPow 128 (half + 1)) = false := by
    rw [BitVec.ssubOverflow,left,right,Bool.or_eq_false_iff,decide_eq_false_iff_not,decide_eq_false_iff_not]
    omega
  rw [subtract,room,if_neg Bool.false_ne_true,← ofInt_sub,left,right]

theorem setWidth_ofInt (n : Int) : (BitVec.ofInt 128 n).setWidth 64 = BitVec.ofInt 64 n := by
  have unsigned : ((BitVec.ofInt 128 n).toNat : Int) = n % (2 ^ 128 : Nat) := by
    rw [BitVec.toNat_ofInt,Int.toNat_of_nonneg (Int.emod_nonneg _ (by decide))]
  apply BitVec.eq_of_toInt_eq
  rw [BitVec.toInt_setWidth,BitVec.toInt_ofInt,unsigned,← Int.emod_bmod,Int.emod_emod_of_dvd n (by decide),Int.emod_bmod]

theorem complemented_ok (near : half < 64) (room : m.toNat < 2 ^ (half + 1)) :
    complemented (half + 1) m = .ok (BitVec.ofInt 64 (BitVec.ofNat (half + 1) m.toNat).toInt) := by
  have same : (BitVec.ofNat (half + 1) m.toNat).toNat = m.toNat := Nat.mod_eq_of_lt room
  have double : 2 ^ (half + 1) = 2 * 2 ^ half := by rw [Nat.pow_succ,Nat.mul_comm]
  rw [BitVec.toInt_eq_toNat_cond,same]
  simp only [complemented,Nat.add_sub_cancel,shift_one near,BitVec.and_twoPow,bind,Except.bind,pure,Except.pure]
  by_cases upper : 2 ^ half ≤ m.toNat
  · have top : m.getLsbD half = true := Nat.testBit_of_two_pow_le_and_two_pow_add_one_gt upper room
    have some' : BitVec.twoPow 64 half ≠ 0 := by
      intro zero
      have bit := congrArg (fun m : BitVec 64 => m.getLsbD half) zero
      simp [near] at bit
    rw [if_pos top,if_neg some',shift_one (by omega),if_neg (by omega)]
    simp only [subtract_ok near,setWidth_ofInt]
  · have top : m.getLsbD half = false := Nat.testBit_lt_two_pow (by omega)
    have lower : 2 * m.toNat < 2 ^ (half + 1) := by omega
    simp [top,lower]

theorem ofInt_toNat (m : BitVec 64) : BitVec.ofInt 64 m.toNat = m := by
  rw [BitVec.ofInt_natCast,BitVec.ofNat_toNat,BitVec.setWidth_eq]

theorem fits_iff {n : Int} : Fits (half + 1) n ↔ -(2 ^ half : Nat) ≤ n ∧ n < (2 ^ half : Nat) := by
  rw [Fits,Nat.one_shiftLeft,Nat.add_sub_cancel]

theorem narrow?_ofInt {n : Int} (least : -2 ^ 63 ≤ n) (most : n < 2 ^ 63) :
    narrow? (half + 1) (BitVec.ofInt 64 n) =
      if -(2 ^ half : Nat) ≤ n ∧ n < (2 ^ half : Nat) then some n else none := by
  rw [narrow?,BitVec.toInt_ofInt_eq_self (by decide) least most]
  simp only [fits_iff]

-- What is given up for a signed word is too great for the narrow one as well. The least signed
-- word is its own negative, and stands for the magnitude it was made from.
theorem signedWord_minus (limit : 2 ^ half ≤ 2 ^ 63) (hex : Bool) (m : BitVec 64) :
    (signedWord (half + 1) true hex m).map (·.bind (narrow? (half + 1))) =
      .ok (denoted? (half + 1) true hex m.toNat) := by
  have shifted : Arithmetic.shift (· <<< ·) 1#64 63 = .ok (BitVec.twoPow 64 63) := shift_one (by decide)
  have word : (BitVec.twoPow 64 63).toNat = 2 ^ 63 := rfl
  simp only [signedWord,if_true,shifted,bind,Except.bind,pure,Except.pure,Except.map,BitVec.lt_def,word,denoted?,
    Nat.one_shiftLeft,Nat.add_sub_cancel]
  by_cases beyond : 2 ^ 63 < m.toNat
  · rw [if_pos beyond,if_neg (by omega)]
    rfl
  · have some' : 0 < 2 ^ half := Nat.two_pow_pos half
    have minus : -m = BitVec.ofInt 64 (-m.toNat) := by rw [BitVec.ofInt_neg,ofInt_toNat]
    have room : (-(2 ^ half : Nat) ≤ -(m.toNat : Int) ∧ -(m.toNat : Int) < (2 ^ half : Nat)) ↔ m.toNat ≤ 2 ^ half := by
      omega
    rw [if_neg beyond,Option.bind_some,minus,narrow?_ofInt (by omega) (by omega)]
    simp only [room]

theorem signedWord_hex (near : half < 64) (limit : 2 ^ half ≤ 2 ^ 63) (m : BitVec 64) :
    (signedWord (half + 1) false true m).map (·.bind (narrow? (half + 1))) =
      .ok (denoted? (half + 1) false true m.toNat) := by
  simp only [signedWord,Bool.false_eq_true,if_false,if_true,exceeds_ok (show half + 1 ≤ 64 from near),bind,Except.bind,
    pure,Except.pure,decide_eq_true_eq]
  by_cases beyond : 2 ^ (half + 1) ≤ m.toNat
  · have refused : denoted? (half + 1) false true m.toNat = none := by
      rw [Option.eq_none_iff_forall_ne_some]
      intro v denotes
      cases denoted?_denotes.mp denotes with
      | hex room => omega
    rw [if_pos beyond,refused]
    rfl
  · have room : m.toNat < 2 ^ (half + 1) := by omega
    have power : ((2 ^ half : Nat) : Int) = 2 ^ half := Int.natCast_pow 2 half
    have least := BitVec.le_toInt (BitVec.ofNat (half + 1) m.toNat)
    have most := BitVec.toInt_lt (x := BitVec.ofNat (half + 1) m.toNat)
    rw [Nat.add_sub_cancel,← power] at least most
    have narrowed : narrow? (half + 1) (BitVec.ofInt 64 (BitVec.ofNat (half + 1) m.toNat).toInt) =
        some (BitVec.ofNat (half + 1) m.toNat).toInt := by
      rw [narrow?_ofInt (by omega) (by omega),if_pos ⟨least,most⟩]
    rw [if_neg beyond,complemented_ok near room,denoted?_denotes.mpr (.hex room)]
    exact congrArg Except.ok narrowed

theorem signedWord_decimal (limit : 2 ^ half ≤ 2 ^ 63) (m : BitVec 64) :
    (signedWord (half + 1) false false m).map (·.bind (narrow? (half + 1))) =
      .ok (denoted? (half + 1) false false m.toNat) := by
  simp only [signedWord,Bool.false_eq_true,if_false,pure,Except.pure,Except.map,BitVec.le_def,BitVec.toNat_intMax,
    denoted?,Bool.false_and,Nat.one_shiftLeft,Nat.add_sub_cancel]
  by_cases beyond : 2 ^ 63 ≤ m.toNat
  · rw [if_neg (by omega),if_neg (by omega)]
    rfl
  · have room : (-(2 ^ half : Nat) ≤ (m.toNat : Int) ∧ (m.toNat : Int) < (2 ^ half : Nat)) ↔ m.toNat < 2 ^ half := by
      omega
    have narrowed : narrow? (half + 1) m = if m.toNat < 2 ^ half then some (m.toNat : Int) else none := by
      rw [← ofInt_toNat m,narrow?_ofInt (by omega) (by omega),ofInt_toNat]
      simp only [room]
    rw [if_pos (by omega),Option.bind_some,narrowed]

theorem signedWord_narrowed (near : half < 64) (negative hex : Bool) (m : BitVec 64) :
    (signedWord (half + 1) negative hex m).map (·.bind (narrow? (half + 1))) =
      .ok (denoted? (half + 1) negative hex m.toNat) := by
  have limit : 2 ^ half ≤ 2 ^ 63 := Nat.pow_le_pow_right (by decide) (by omega)
  cases negative with
  | true => exact signedWord_minus limit hex m
  | false =>
    cases hex with
    | true => exact signedWord_hex near limit m
    | false => exact signedWord_decimal limit m

theorem denoted?_beyond (near : half < 64) (negative hex : Bool) {n : Nat} (beyond : ¬n < 2 ^ 64) :
    denoted? (half + 1) negative hex n = none := by
  have limit : 2 ^ half ≤ 2 ^ 63 := Nat.pow_le_pow_right (by decide) (by omega)
  rw [denoted?,Nat.one_shiftLeft,Nat.one_shiftLeft,Nat.add_sub_cancel,Nat.pow_succ]
  grind

theorem wordValue_ok (near : half < 64) (negative hex : Bool) {digits : List Nat}
    (below : ∀ d ∈ digits, d < if hex then 16 else 10) : wordValue (half + 1) negative hex digits =
      .ok (denoted? (half + 1) negative hex (ofDigits (if hex then 16 else 10) digits)) := by
  have positive : 0 < if hex then 16 else 10 := by cases hex <;> decide
  have small : (if hex then 16 else 10) ≤ 16 := by cases hex <;> decide
  have pushed : digits.foldlM (pushDigit? (if hex then 16 else 10)) 0 =
      word? (ofDigits (if hex then 16 else 10) digits) := pushDigits_word positive small below 0
  rw [wordValue,pushed,word?]
  by_cases inside : ofDigits (if hex then 16 else 10) digits < 2 ^ 64
  · have value : (BitVec.ofNat 64 (ofDigits (if hex then 16 else 10) digits)).toNat =
        ofDigits (if hex then 16 else 10) digits := Nat.mod_eq_of_lt inside
    have narrowed := signedWord_narrowed near negative hex (BitVec.ofNat 64 (ofDigits (if hex then 16 else 10) digits))
    rw [value] at narrowed
    rw [if_pos inside]
    exact narrowed
  · rw [if_neg inside,denoted?_beyond near negative hex inside]

theorem readInWords_ok (near : half < 64) (s : List Char) :
    readInWords (half + 1) s = .ok (readInteger (half + 1) s) := by
  unfold readInWords readInteger
  generalize readSign s = signed'
  obtain ⟨negative,s⟩ := signed'
  dsimp only
  generalize readBase s = based
  obtain ⟨hex,s⟩ := based
  dsimp only
  have below : ∀ d ∈ (digitRun (if hex then 16 else 10) s).1, d < if hex then 16 else 10 := digitRun_below s
  generalize digitRun (if hex then 16 else 10) s = run at below
  obtain ⟨digits,rest⟩ := run
  cases digits with
  | nil => rfl
  | cons d digits =>
    dsimp only
    rw [wordValue_ok near negative hex below]
    cases denoted? (half + 1) negative hex (ofDigits (if hex then 16 else 10) (d :: digits)) <;> rfl

end

-- What is printed in decimal, in hex behind a minus sign and in the hex digits of the two's
-- complement is a way to write the integer.
section
variable {bits : Nat} {v : Int}

theorem written_decimal (v : Int) : Written bits v (toString v).toList := by
  cases v with
  | ofNat n => exact .decimal (Int.natCast_nonneg n) (Numeral.repr n)
  | negSucc n =>
    have printed : (toString (Int.negSucc n)).toList = '-' :: (toString (n + 1)).toList := String.toList_append
    rw [printed]
    exact .minus (Int.le_of_lt (Int.negSucc_lt_zero n)) (Numeral.repr (n + 1))

theorem written_minus (negative : v ≤ 0) : Written bits v ("-0x" ++ hex v.natAbs).toList := by
  have printed : ("-0x" ++ hex v.natAbs).toList = '-' :: '0' :: 'x' :: Nat.toDigits 16 v.natAbs := by
    rw [String.toList_append,hex_toList]
    rfl
  rw [printed]
  exact .minusHex (.inl rfl) negative (Numeral.toDigits (by decide) (by decide) v.natAbs)

theorem written_complement (v : Int) : Written bits v ("0x" ++ hex (v % 2 ^ bits).toNat).toList := by
  have power : (2 : Int) ^ bits = (1 <<< bits : Nat) := by simp [Nat.one_shiftLeft]
  have printed : ("0x" ++ hex (v % 2 ^ bits).toNat).toList =
      '0' :: 'x' :: Nat.toDigits 16 (v % (1 <<< bits : Nat)).toNat := by
    rw [String.toList_append,hex_toList,power]
    rfl
  rw [printed]
  exact .complement (.inl rfl) (Numeral.toDigits (by decide) (by decide) _)

end

-- How a width reads integers. A text is accepted exactly if an integer is written there and
-- stands for a number of the width, and is then read as that number; each number has its ways
-- to be written; and words are enough to read it with.
structure ReadExactly (bits : Nat) (least most : Int) : Prop where
  accepts : ∀ s v, (readInteger bits s).whole? = some v ↔
    ∃ negative hex n, Literal negative hex n s ∧ Denotes bits least most negative hex n v
  within : ∀ s v, (readInteger bits s).whole? = some v → least ≤ v ∧ v ≤ most
  decimal : ∀ v : Int, least ≤ v → v ≤ most → (readInteger bits (toString v).toList).whole? = some v
  minusHex : ∀ v : Int, least ≤ v → v ≤ 0 → (readInteger bits ("-0x" ++ hex v.natAbs).toList).whole? = some v
  complement : ∀ v : Int, least ≤ v → v ≤ most →
    (readInteger bits ("0x" ++ hex (v % 2 ^ bits).toNat).toList).whole? = some v
  untrapped : ∀ s, readInWords bits s = .ok (readInteger bits s)

section
variable {half : Nat} {s : List Char} {v : Int}

theorem readInteger_whole : (readInteger (half + 1) s).whole? = some v ↔
    ∃ negative hex n, Literal negative hex n s ∧ denoted? (half + 1) negative hex n = some v := by
  rw [Reading.whole?_eq_some]
  constructor
  · intro read
    obtain ⟨negative,hex,n,piece,split',literal,denotes⟩ := readInteger_literal read
    rw [List.append_nil] at split'
    exact ⟨negative,hex,n,split' ▸ literal,denotes⟩
  · rintro ⟨negative,hex,n,literal,denotes⟩
    obtain ⟨body,suffix,rfl,width,fits,written⟩ := literal.written (Nat.succ_pos half) denotes
    have read : readInteger (half + 1) (body ++ (suffix ++ [])) = .got v [] :=
      readInteger_written (Nat.succ_pos half) fits written width nofun
    rwa [List.append_nil] at read

theorem Written.whole (fits : Fits (half + 1) v) (written : Written (half + 1) v s) :
    (readInteger (half + 1) s).whole? = some v := by
  have read : readInteger (half + 1) (s ++ ([] ++ [])) = .got v [] :=
    readInteger_written (Nat.succ_pos half) fits written .none nofun
  rw [List.append_nil,List.append_nil] at read
  exact Reading.whole?_eq_some.mpr read

theorem ReadExactly.of_half (near : half < 64) : ReadExactly (half + 1) (-2 ^ half) (2 ^ half - 1) := by
  have power : ((2 ^ half : Nat) : Int) = 2 ^ half := Int.natCast_pow 2 half
  have fits : ∀ v : Int, -2 ^ half ≤ v → v ≤ 2 ^ half - 1 → Fits (half + 1) v := by
    intro v least most
    rw [fits_iff,power]
    exact ⟨least,Int.lt_of_le_sub_one most⟩
  refine ⟨fun s v => ?_,fun s v read => ?_,fun v least most => ?_,fun v least negative => ?_,fun v least most => ?_,
    readInWords_ok near⟩
  · simp only [readInteger_whole,denoted?_denotes]
  · obtain ⟨negative,hex,n,literal,denotes⟩ := readInteger_whole.mp read
    obtain ⟨_,_,_,_,inside,_⟩ := literal.written (Nat.succ_pos half) denotes
    rw [fits_iff,power] at inside
    exact ⟨inside.1,Int.le_sub_one_of_lt inside.2⟩
  · exact (written_decimal v).whole (fits v least most)
  · have some' : 0 < 2 ^ half := Nat.two_pow_pos half
    exact (written_minus negative).whole (fits v least (by omega))
  · exact (written_complement v).whole (fits v least most)

end

theorem integers_read :
    ReadExactly 32 Int32.minValue.toInt Int32.maxValue.toInt ∧
      ReadExactly 64 Int64.minValue.toInt Int64.maxValue.toInt :=
  ⟨.of_half (by decide : 31 < 64),.of_half (by decide : 63 < 64)⟩

example : (readInteger 64 "-0x8000000000000000L".toList).whole? = some (-2 ^ 63) ∧
    (readInteger 32 "0x80000000".toList).whole? = some (-2 ^ 31) ∧
    (readInteger 32 "0x100000000".toList).whole? = none := by decide

end Source
end SmaliPrune
