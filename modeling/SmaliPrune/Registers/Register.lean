namespace SmaliPrune

-- A place on one path: a numbered register, the one an invoke leaves its result in, or the
-- one that holds what the method returns.
inductive Register where
  | numbered (n : Nat)
  | result
  | returned
  deriving DecidableEq, Repr

namespace Register

def before : Register → Register → Bool
  | .numbered a,.numbered b => a < b
  | .numbered _,_ => true
  | .result,.returned => true
  | _,_ => false

theorem before_irrefl (a : Register) : before a a = false := by cases a <;> simp [before]

theorem before_trans {a b c : Register} (first : before a b = true) (second : before b c = true) :
    before a c = true := by
  cases a <;> cases b <;> cases c <;> simp_all [before]
  omega

theorem before_total {a b : Register} (different : a ≠ b) (not : ¬ before a b = true) : before b a = true := by
  cases a <;> cases b <;> simp_all [before]
  omega

def text : Register → String
  | .numbered n => "r" ++ toString n
  | .result => "result"
  | .returned => "return"

def insert (r : Register) : List Register → List Register
  | [] => [r]
  | q :: rest => if r = q then q :: rest else if r.before q then r :: q :: rest else q :: insert r rest

theorem mem_insert (r q : Register) (rs : List Register) : q ∈ insert r rs ↔ q = r ∨ q ∈ rs := by
  induction rs with
  | nil => simp [insert]
  | cons p rest ih =>
    by_cases equal : r = p
    · simp only [insert,if_pos equal,List.mem_cons]
      constructor
      · exact Or.inr
      · rintro (rfl | member)
        · exact Or.inl equal
        · exact member
    · by_cases less : r.before p = true
      · simp [insert,equal,less]
      · simp only [insert,if_neg equal,if_neg less,List.mem_cons,ih,or_left_comm]

end Register
end SmaliPrune
