import SmaliPrune.Text.Digits

namespace SmaliPrune.Text

-- A number in digits of a base, the most significant first. Zeros may stand in front.
inductive Numeral (base : Nat) : List Char → Nat → Prop where
  | digit {c : Char} {d : Nat} (value : digit? base c = some d) : Numeral base [c] d
  | append {s : List Char} {n : Nat} {c : Char} {d : Nat} (front : Numeral base s n)
      (value : digit? base c = some d) : Numeral base (s ++ [c]) (n * base + d)

def Parted (rest : List Char) : Prop := ∀ c ∈ rest.head?, c.isAlphanum = false

variable {base : Nat}

theorem digit?_alphanum {c : Char} {d : Nat} (small : base ≤ 16) (value : digit? base c = some d) :
    c.isAlphanum = true := by
  simp only [digit?] at value
  delta Char.isAlphanum Char.isAlpha Char.isUpper Char.isLower Char.isDigit
  simp only [Bool.or_eq_true,Bool.and_eq_true,decide_eq_true_eq,Char.le_def] at value ⊢
  grind

theorem digit?_digitChar {d : Nat} (below : d < base) (small : base ≤ 16) :
    digit? base (Nat.digitChar d) = some d := by
  have sixteen : ∀ d < 16, digit? 16 (Nat.digitChar d) = some d := by decide
  have known := sixteen d (by omega)
  simp only [digit?] at known ⊢
  grind

def Digitless (base : Nat) (rest : List Char) : Prop := ∀ c ∈ rest.head?, digit? base c = none

theorem Parted.digitless (small : base ≤ 16) {rest : List Char} (parted : Parted rest) : Digitless base rest := by
  intro c first
  cases value : digit? base c with
  | none => rfl
  | some d =>
    have word := digit?_alphanum small value
    rw [parted c first] at word
    cases word

theorem digitRun_digitless {rest : List Char} (ended : Digitless base rest) : digitRun base rest = ([],rest) := by
  cases rest with
  | nil => rfl
  | cons c rest => rw [digitRun,ended c rfl]

theorem digitRun_append {s : List Char} (whole : (digitRun base s).2 = []) (rest : List Char) :
    digitRun base (s ++ rest) = ((digitRun base s).1 ++ (digitRun base rest).1,(digitRun base rest).2) := by
  induction s with
  | nil => rfl
  | cons c s ih =>
    cases value : digit? base c with
    | none => simp [digitRun,value] at whole
    | some d =>
      simp only [digitRun,value] at whole
      simp only [List.cons_append,digitRun,value,ih whole]

theorem digitRun_split {s rest : List Char} {ds : List Nat} (run : digitRun base s = (ds,rest)) :
    ∃ digits, s = digits ++ rest ∧ digitRun base digits = (ds,[]) := by
  induction s generalizing ds with
  | nil =>
    cases run
    exact ⟨[],rfl,rfl⟩
  | cons c s ih =>
    rw [digitRun] at run
    split at run
    · cases run
      exact ⟨[],rfl,rfl⟩
    · next d value =>
      cases run
      obtain ⟨digits,split',whole⟩ := ih rfl
      exact ⟨c :: digits,congrArg (c :: ·) split',by simp only [digitRun,value,whole]⟩

theorem digitRun_below (s : List Char) : ∀ d ∈ (digitRun base s).1, d < base := by
  induction s with
  | nil => nofun
  | cons c s ih =>
    rw [digitRun]
    cases value : digit? base c with
    | none => nofun
    | some d =>
      simp only [digit?,Option.ite_none_right_eq_some,Option.some.injEq] at value
      exact List.forall_mem_cons.mpr ⟨value.2 ▸ value.1,ih⟩

theorem ofDigits_concat (digits : List Nat) (d : Nat) :
    ofDigits base (digits ++ [d]) = ofDigits base digits * base + d := by
  simp only [ofDigits,List.foldl_append,List.foldl_cons,List.foldl_nil]

theorem hex_toList (n : Nat) : (hex n).toList = Nat.toDigits 16 n := String.toList_ofList

namespace Numeral
variable {s : List Char} {n : Nat}

theorem digits (numeral : Numeral base s n) : ∀ c ∈ s, ∃ d, digit? base c = some d := by
  induction numeral with
  | @digit c d value =>
    intro c' member
    exact ⟨d,List.mem_singleton.mp member ▸ value⟩
  | @append s n c d front value ih =>
    intro c' member
    rcases List.mem_append.mp member with front | last
    · exact ih c' front
    · exact ⟨d,List.mem_singleton.mp last ▸ value⟩

theorem ne_nil (numeral : Numeral base s n) : s ≠ [] := by
  cases numeral <;> simp

theorem run (numeral : Numeral base s n) :
    ∃ ds, ds ≠ [] ∧ digitRun base s = (ds,[]) ∧ ofDigits base ds = n := by
  induction numeral with
  | @digit c d value => exact ⟨[d],List.cons_ne_nil d [],by simp [digitRun,value],by simp [ofDigits]⟩
  | @append s n c d front value ih =>
    obtain ⟨ds,some',reads,means⟩ := ih
    have whole : (digitRun base s).2 = [] := by rw [reads]
    refine ⟨ds ++ [d],by simp,?_,?_⟩
    · simp [digitRun_append whole,reads,digitRun,value]
    · rw [ofDigits_concat,means]

-- What is read to its end is a numeral. The digits read so far stand in front.
theorem extend (front : Numeral base s n) {t : List Char} {ds : List Nat} (reads : digitRun base t = (ds,[])) :
    Numeral base (s ++ t) (ds.foldl (fun n d => n * base + d) n) := by
  induction t generalizing s n ds with
  | nil =>
    cases reads
    rwa [List.append_nil]
  | cons c t ih =>
    cases value : digit? base c with
    | none => simp [digitRun,value] at reads
    | some d =>
      simp only [digitRun,value,Prod.mk.injEq] at reads
      obtain ⟨rfl,ended⟩ := reads
      have whole := ih (.append front value) (Prod.ext rfl ended)
      rwa [List.append_assoc,List.singleton_append] at whole

theorem of_run {ds : List Nat} (reads : digitRun base s = (ds,[])) (some' : ds ≠ []) :
    Numeral base s (ofDigits base ds) := by
  cases s with
  | nil =>
    cases reads
    exact absurd rfl some'
  | cons c s =>
    cases value : digit? base c with
    | none => simp [digitRun,value] at reads
    | some d =>
      simp only [digitRun,value,Prod.mk.injEq] at reads
      obtain ⟨rfl,ended⟩ := reads
      have whole := extend (.digit value) (Prod.ext rfl ended : digitRun base s = ((digitRun base s).1,[]))
      rw [ofDigits,List.foldl_cons,Nat.zero_mul,Nat.zero_add]
      exact whole

theorem iff_run : Numeral base s n ↔
    (digitRun base s).1 ≠ [] ∧ (digitRun base s).2 = [] ∧ ofDigits base (digitRun base s).1 = n := by
  constructor
  · intro numeral
    obtain ⟨ds,some',reads,means⟩ := numeral.run
    rw [reads]
    exact ⟨some',rfl,means⟩
  · rintro ⟨some',ended,rfl⟩
    exact of_run (Prod.ext rfl ended) some'

instance : Decidable (Numeral base s n) := decidable_of_iff _ iff_run.symm

theorem run_append (numeral : Numeral base s n) {rest : List Char} (ended : Digitless base rest) :
    ∃ ds, ds ≠ [] ∧ digitRun base (s ++ rest) = (ds,rest) ∧ ofDigits base ds = n := by
  obtain ⟨ds,some',reads,means⟩ := numeral.run
  have whole : (digitRun base s).2 = [] := by rw [reads]
  refine ⟨ds,some',?_,means⟩
  rw [digitRun_append whole,reads,digitRun_digitless ended]
  simp

theorem toDigits (some' : 1 < base) (small : base ≤ 16) (n : Nat) : Numeral base (Nat.toDigits base n) n := by
  induction n using Nat.strongRecOn with
  | ind n ih =>
    by_cases short : n < base
    · rw [Nat.toDigits_of_lt_base short]
      exact .digit (digit?_digitChar short small)
    · have less : n / base < n := Nat.div_lt_self (by omega) some'
      have last : n % base < base := Nat.mod_lt n (by omega)
      have whole := Numeral.append (ih _ less) (digit?_digitChar last small)
      rw [Nat.div_add_mod'] at whole
      rwa [Nat.toDigits_of_base_le some' (by omega)]

theorem repr (n : Nat) : Numeral 10 (toString n).toList n := by
  have printed : (toString n).toList = Nat.toDigits 10 n := Nat.toList_repr
  rw [printed]
  exact toDigits (by decide) (by decide) n

end Numeral
end SmaliPrune.Text
