import SmaliPrune.Source.Literal
import SmaliPrune.Proofs.Numerals

namespace SmaliPrune.Source
open Text

variable {bits : Nat} {v : Int} {s : List Char}

-- The ways to write an integer: in decimal, in hex with a minus sign, and as the hex number
-- of its two's complement.
inductive Written (bits : Nat) (v : Int) : List Char → Prop where
  | decimal {s : List Char} (positive : 0 ≤ v) (digits : Numeral 10 s v.natAbs) : Written bits v s
  | minus {s : List Char} (negative : v ≤ 0) (digits : Numeral 10 s v.natAbs) : Written bits v ('-' :: s)
  | minusHex {s : List Char} {x : Char} (mark : x = 'x' ∨ x = 'X') (negative : v ≤ 0)
      (digits : Numeral 16 s v.natAbs) : Written bits v ('-' :: '0' :: x :: s)
  | complement {s : List Char} {x : Char} (mark : x = 'x' ∨ x = 'X')
      (digits : Numeral 16 s (v % (1 <<< bits : Nat)).toNat) : Written bits v ('0' :: x :: s)

def Fits (bits : Nat) (v : Int) : Prop := -(1 <<< (bits - 1) : Nat) ≤ v ∧ v < (1 <<< (bits - 1) : Nat)

instance : Decidable (Fits bits v) := inferInstanceAs (Decidable (_ ∧ _))

inductive Suffix : List Char → Prop where
  | none : Suffix []
  | letter {c : Char} (known : c = 'L' ∨ c = 't' ∨ c = 's') : Suffix [c]

theorem denoted?_minus {hex : Bool} (fits : Fits bits v) (negative : v ≤ 0) :
    denoted? bits true hex v.natAbs = some v := by
  have least := fits.1
  unfold denoted?
  rw [if_pos rfl,if_pos (by omega)]
  congr 1
  omega

theorem denoted?_plain {hex : Bool} (fits : Fits bits v) (positive : 0 ≤ v) :
    denoted? bits false hex v.natAbs = some v := by
  have most := fits.2
  unfold denoted?
  rw [if_neg Bool.false_ne_true,if_pos (by omega)]
  congr 1
  omega

theorem denoted?_complement (some' : 0 < bits) (fits : Fits bits v) :
    denoted? bits false true (v % (1 <<< bits : Nat)).toNat = some v := by
  obtain ⟨half,rfl⟩ : ∃ half, bits = half + 1 := ⟨bits - 1,by omega⟩
  have double : 1 <<< (half + 1) = 2 * 1 <<< half := by
    rw [Nat.shiftLeft_succ]
  have least := fits.1
  have most := fits.2
  rw [Nat.add_sub_cancel] at least most
  by_cases positive : 0 ≤ v
  · have same : (v % (1 <<< (half + 1) : Nat)).toNat = v.natAbs := by
      rw [Int.emod_eq_of_lt positive (by omega)]
      omega
    rw [same]
    exact denoted?_plain fits positive
  · have wrapped : v % (1 <<< (half + 1) : Nat) = v + (1 <<< (half + 1) : Nat) := by
      rw [← Int.add_emod_right,Int.emod_eq_of_lt (by omega) (by omega)]
    rw [wrapped]
    unfold denoted?
    simp only [Bool.false_eq_true,if_false,Nat.add_sub_cancel,Bool.true_and,decide_eq_true_eq]
    rw [if_neg (by omega),if_pos (by omega)]
    congr 1
    omega

theorem readSign_plain (plain : s.head? ≠ some '-') : readSign s = (false,s) := by
  unfold readSign
  split
  · exact absurd rfl plain
  · rfl

theorem readBase_decimal (decimal : ∀ c ∈ s.tail.head?, c ≠ 'x' ∧ c ≠ 'X') : readBase s = (false,s) := by
  unfold readBase
  split
  · exact absurd rfl (decimal 'x' rfl).1
  · exact absurd rfl (decimal 'X' rfl).2
  · rfl

theorem readBase_hex {x : Char} (mark : x = 'x' ∨ x = 'X') : readBase ('0' :: x :: s) = (true,s) := by
  rcases mark with rfl | rfl <;> rfl

theorem skipSuffix_parted {rest : List Char} (parted : Parted rest) : skipSuffix rest = rest := by
  cases rest with
  | nil => rfl
  | cons c rest =>
    have other := parted c rfl
    have strange : ¬(c == 'L' || c == 't' || c == 's') = true := by
      intro same
      simp only [Bool.or_eq_true,beq_iff_eq] at same
      rcases same with (rfl | rfl) | rfl <;> cases other
    rw [skipSuffix,if_neg strange]

theorem skipSuffix_append {suffix rest : List Char} (width : Suffix suffix) (parted : Parted rest) :
    skipSuffix (suffix ++ rest) = rest := by
  cases width with
  | none => exact skipSuffix_parted parted
  | letter known => rcases known with rfl | rfl | rfl <;> rfl

theorem suffix_digitless {base : Nat} {suffix rest : List Char} (small : base ≤ 16) (width : Suffix suffix)
    (parted : Parted rest) : Digitless base (suffix ++ rest) := by
  cases width with
  | none => exact parted.digitless small
  | letter known =>
    have letters : ∀ base ≤ 16, digit? base 'L' = none ∧ digit? base 't' = none ∧ digit? base 's' = none := by decide
    obtain ⟨long,byte,short⟩ := letters base small
    intro c first
    cases first
    rcases known with rfl | rfl | rfl
    · exact long
    · exact byte
    · exact short

theorem suffix_unmarked {suffix rest : List Char} (width : Suffix suffix) (parted : Parted rest) :
    ∀ c ∈ (suffix ++ rest).head?, c ≠ 'x' ∧ c ≠ 'X' := by
  intro c first
  cases width with
  | none =>
    have other := parted c first
    constructor <;> (rintro rfl; cases other)
  | letter known =>
    cases first
    rcases known with rfl | rfl | rfl <;> decide

theorem readInteger_of {hex negative : Bool} {signed digits suffix rest : List Char} {n : Nat}
    (sign : readSign s = (negative,signed)) (base : readBase signed = (hex,digits ++ (suffix ++ rest)))
    (numeral : Numeral (if hex then 16 else 10) digits n) (denotes : denoted? bits negative hex n = some v)
    (width : Suffix suffix) (parted : Parted rest) : readInteger bits s = .got v rest := by
  have small : (if hex then 16 else 10) ≤ 16 := by cases hex <;> decide
  obtain ⟨ds,some',reads,means⟩ := numeral.run_append (suffix_digitless small width parted)
  obtain ⟨d,ds,rfl⟩ := List.exists_cons_of_ne_nil some'
  simp only [readInteger,sign,base,reads,means,denotes,skipSuffix_append width parted]

theorem decimal_unmarked {c : Char} (digit : ∃ d, digit? 10 c = some d) : c ≠ '-' ∧ c ≠ 'x' ∧ c ≠ 'X' := by
  obtain ⟨d,value⟩ := digit
  refine ⟨?_,?_,?_⟩ <;> (rintro rfl; cases value)

theorem readSign_digits {digits rest : List Char} {n : Nat} (numeral : Numeral 10 digits n) :
    readSign (digits ++ rest) = (false,digits ++ rest) := by
  apply readSign_plain
  obtain ⟨c,cs,rfl⟩ := List.exists_cons_of_ne_nil numeral.ne_nil
  intro minus
  exact (decimal_unmarked (numeral.digits c (List.mem_cons_self ..))).1 (Option.some.inj minus)

theorem readBase_digits {digits rest : List Char} {n : Nat} (numeral : Numeral 10 digits n)
    (unmarked : ∀ c ∈ rest.head?, c ≠ 'x' ∧ c ≠ 'X') : readBase (digits ++ rest) = (false,digits ++ rest) := by
  apply readBase_decimal
  obtain ⟨c,cs,rfl⟩ := List.exists_cons_of_ne_nil numeral.ne_nil
  intro second member
  cases cs with
  | nil => exact unmarked second member
  | cons c' cs =>
    cases member
    exact (decimal_unmarked (numeral.digits second (by simp))).2

theorem readInteger_written {suffix rest : List Char} (some' : 0 < bits) (fits : Fits bits v)
    (written : Written bits v s) (width : Suffix suffix) (parted : Parted rest) :
    readInteger bits (s ++ (suffix ++ rest)) = .got v rest := by
  have unmarked := suffix_unmarked width parted
  cases written with
  | decimal positive digits =>
    exact readInteger_of (readSign_digits digits) (readBase_digits digits unmarked) digits
      (denoted?_plain fits positive) width parted
  | minus negative digits =>
    exact readInteger_of rfl (readBase_digits digits unmarked) digits (denoted?_minus fits negative) width parted
  | minusHex mark negative digits =>
    exact readInteger_of rfl (readBase_hex mark) digits (denoted?_minus fits negative) width parted
  | complement mark digits =>
    exact readInteger_of rfl (readBase_hex mark) digits (denoted?_complement some' fits) width parted

theorem Written.first (written : Written bits v s) :
    ∃ c t, s = c :: t ∧ (c = '-' ∨ ∃ d, digit? 10 c = some d) := by
  cases written with
  | decimal positive digits =>
    obtain ⟨c,t,rfl⟩ := List.exists_cons_of_ne_nil digits.ne_nil
    exact ⟨c,t,rfl,.inr (digits.digits c (List.mem_cons_self ..))⟩
  | minus negative digits => exact ⟨_,_,rfl,.inl rfl⟩
  | minusHex mark negative digits => exact ⟨_,_,rfl,.inl rfl⟩
  | complement mark digits => exact ⟨_,_,rfl,.inr ⟨0,rfl⟩⟩

theorem readInteger_miss {c : Char} (unsigned : c ≠ '-') (word : digit? 10 c = none) :
    readInteger bits (c :: s) = .miss := by
  have sign : readSign (c :: s) = (false,c :: s) := readSign_plain (by simpa using unsigned)
  have base : readBase (c :: s) = (false,c :: s) := by
    unfold readBase
    split
    · next same =>
      cases same
      cases word
    · next same =>
      cases same
      cases word
    · rfl
  simp only [readInteger,sign,base,Bool.false_eq_true,if_false,digitRun,word]

inductive Literal : Bool → Bool → Nat → List Char → Prop where
  | decimal {n : Nat} {digits suffix : List Char} (numeral : Numeral 10 digits n) (width : Suffix suffix) :
      Literal false false n (digits ++ suffix)
  | hex {n : Nat} {x : Char} {digits suffix : List Char} (mark : x = 'x' ∨ x = 'X') (numeral : Numeral 16 digits n)
      (width : Suffix suffix) : Literal false true n ('0' :: x :: (digits ++ suffix))
  | minus {hex : Bool} {n : Nat} {s : List Char} (unsigned : Literal false hex n s) : Literal true hex n ('-' :: s)

def signed (negative : Bool) (n : Nat) : Int := if negative then -n else n

def Room (bits : Nat) (negative hex : Bool) (n : Nat) : Prop :=
  if negative then n ≤ 1 <<< (bits - 1) else if hex then n < 1 <<< bits else n < 1 <<< (bits - 1)

instance {negative hex : Bool} {n : Nat} : Decidable (Room bits negative hex n) := by
  unfold Room
  infer_instance

theorem one_shiftLeft_pos (half : Nat) : 0 < 1 <<< half := by
  rw [Nat.one_shiftLeft]
  exact Nat.two_pow_pos half

section
variable {negative hex : Bool} {n : Nat}

theorem denoted?_iff (some' : 0 < bits) : denoted? bits negative hex n = some v ↔
    Room bits negative hex n ∧ v = (signed negative n).bmod (1 <<< bits) := by
  obtain ⟨half,rfl⟩ : ∃ half, bits = half + 1 := ⟨bits - 1,by omega⟩
  have double : 1 <<< (half + 1) = 2 * 1 <<< half := Nat.shiftLeft_succ 1 half
  unfold denoted? Room signed
  rw [Nat.add_sub_cancel,double]
  have full := one_shiftLeft_pos half
  have small : ∀ w : Int, -(1 <<< half : Nat) ≤ w → w < (1 <<< half : Nat) → w.bmod (2 * 1 <<< half) = w := by
    intro w least most
    apply Int.bmod_eq_of_le <;> omega
  cases negative with
  | true =>
    simp only [if_true]
    split
    · rw [small (-n) (by omega) (by omega),Option.some.injEq]
      exact ⟨fun same => ⟨by assumption,same.symm⟩,fun ⟨_,same⟩ => same.symm⟩
    · exact ⟨nofun,fun ⟨fits,_⟩ => by contradiction⟩
  | false =>
    simp only [Bool.false_eq_true,if_false]
    split
    · rw [small n (by omega) (by omega),Option.some.injEq]
      refine ⟨fun same => ⟨?_,same.symm⟩,fun ⟨_,same⟩ => same.symm⟩
      split <;> omega
    · cases hex with
      | true =>
        simp only [Bool.true_and,decide_eq_true_eq,if_true]
        split
        · have wrapped : (n : Int).bmod (2 * 1 <<< half) = n - (2 * 1 <<< half : Nat) := by
            rw [← Int.sub_bmod_right]
            exact small _ (by omega) (by omega)
          rw [wrapped,Option.some.injEq]
          exact ⟨fun same => ⟨by assumption,same.symm⟩,fun ⟨_,same⟩ => same.symm⟩
        · exact ⟨nofun,fun ⟨fits,_⟩ => by contradiction⟩
      | false =>
        simp only [Bool.false_and,Bool.false_eq_true,if_false]
        exact ⟨nofun,fun ⟨fits,_⟩ => by contradiction⟩

theorem Literal.written {s : List Char} (some' : 0 < bits) (literal : Literal negative hex n s)
    (denotes : denoted? bits negative hex n = some v) :
    ∃ body suffix, s = body ++ suffix ∧ Suffix suffix ∧ Fits bits v ∧ Written bits v body := by
  obtain ⟨half,rfl⟩ : ∃ half, bits = half + 1 := ⟨bits - 1,by omega⟩
  have double : 1 <<< (half + 1) = 2 * 1 <<< half := Nat.shiftLeft_succ 1 half
  have full := one_shiftLeft_pos half
  simp only [denoted?,Fits,Nat.add_sub_cancel] at denotes ⊢
  cases literal with
  | @decimal _ digits suffix numeral width =>
    simp only [Bool.false_eq_true,if_false,Bool.false_and] at denotes
    split at denotes
    · cases denotes
      exact ⟨digits,suffix,rfl,width,⟨by omega,by omega⟩,.decimal (by omega) numeral⟩
    · cases denotes
  | @hex _ x digits suffix mark numeral width =>
    simp only [Bool.false_eq_true,if_false,Bool.true_and,decide_eq_true_eq] at denotes
    have bits' : v % (1 <<< (half + 1) : Nat) = n ∧ -(1 <<< half : Nat) ≤ v ∧ v < (1 <<< half : Nat) := by
      split at denotes
      · cases denotes
        exact ⟨Int.emod_eq_of_lt (by omega) (by omega),by omega,by omega⟩
      · split at denotes
        · cases denotes
          refine ⟨?_,by omega,by omega⟩
          rw [Int.sub_emod_right]
          exact Int.emod_eq_of_lt (by omega) (by omega)
        · cases denotes
    refine ⟨'0' :: x :: digits,suffix,rfl,width,bits'.2,.complement mark ?_⟩
    rw [bits'.1]
    exact numeral
  | minus unsigned =>
    simp only [if_true] at denotes
    split at denotes
    · cases denotes
      have same : (-(n : Int)).natAbs = n := by omega
      cases unsigned with
      | @decimal _ digits suffix numeral width =>
        exact ⟨'-' :: digits,suffix,rfl,width,⟨by omega,by omega⟩,.minus (by omega) (same.symm ▸ numeral)⟩
      | @hex _ x digits suffix mark numeral width =>
        exact ⟨'-' :: '0' :: x :: digits,suffix,rfl,width,⟨by omega,by omega⟩,.minusHex mark (by omega) (same.symm ▸ numeral)⟩
    · cases denotes

theorem skipSuffix_split (s : List Char) : ∃ suffix, Suffix suffix ∧ s = suffix ++ skipSuffix s := by
  cases s with
  | nil => exact ⟨[],.none,rfl⟩
  | cons c rest =>
    rw [skipSuffix]
    split
    · next known =>
      simp only [Bool.or_eq_true,beq_iff_eq,or_assoc] at known
      exact ⟨[c],.letter known,rfl⟩
    · exact ⟨[],.none,rfl⟩

theorem readSign_cases (s : List Char) :
    readSign s = (false,s) ∨ ∃ t, s = '-' :: t ∧ readSign s = (true,t) := by
  unfold readSign
  split
  · exact .inr ⟨_,rfl,rfl⟩
  · exact .inl rfl

theorem readBase_cases (s : List Char) :
    readBase s = (false,s) ∨ ∃ x t, (x = 'x' ∨ x = 'X') ∧ s = '0' :: x :: t ∧ readBase s = (true,t) := by
  unfold readBase
  split
  · exact .inr ⟨_,_,.inl rfl,rfl,rfl⟩
  · exact .inr ⟨_,_,.inr rfl,rfl,rfl⟩
  · exact .inl rfl

theorem unsigned_split {rest : List Char} {ds : List Nat} (some' : ds ≠ []) (s : List Char)
    (run : digitRun (if (readBase s).1 then 16 else 10) (readBase s).2 = (ds,rest)) :
    ∃ piece, s = piece ++ skipSuffix rest ∧
      Literal false (readBase s).1 (ofDigits (if (readBase s).1 then 16 else 10) ds) piece := by
  obtain ⟨digits,split',whole⟩ := digitRun_split run
  obtain ⟨suffix,width,tail⟩ := skipSuffix_split rest
  rcases readBase_cases s with plain | ⟨x,t,mark,rfl,based⟩
  · rw [plain] at split' whole ⊢
    refine ⟨digits ++ suffix,?_,.decimal (Numeral.of_run whole some') width⟩
    rw [List.append_assoc,← tail]
    exact split'
  · rw [based] at split' whole ⊢
    refine ⟨'0' :: x :: (digits ++ suffix),?_,.hex mark (Numeral.of_run whole some') width⟩
    rw [List.cons_append,List.cons_append,List.append_assoc,← tail]
    exact congrArg (fun t => '0' :: x :: t) split'

theorem readInteger_literal {rest : List Char} (read : readInteger bits s = .got v rest) :
    ∃ negative hex n piece, s = piece ++ rest ∧ Literal negative hex n piece ∧
      denoted? bits negative hex n = some v := by
  simp only [readInteger] at read
  split at read
  · cases read
  · next digits rest' some' run =>
    split at read
    · next w denotes =>
      cases read
      obtain ⟨piece,split',literal⟩ := unsigned_split some' _ run
      rcases readSign_cases s with plain | ⟨t,rfl,signed'⟩
      · rw [plain] at split' literal denotes
        exact ⟨false,_,_,piece,split',literal,denotes⟩
      · rw [signed'] at split' literal denotes
        exact ⟨true,_,_,'-' :: piece,congrArg ('-' :: ·) split',.minus literal,denotes⟩
    · cases read

end

end SmaliPrune.Source
