import SmaliPrune.Source.Operand
import SmaliPrune.Text.Blank

namespace SmaliPrune

-- What came of looking for a thing at the front of a text. After `miss` other things may
-- be looked for there; after `bad` the whole text is given up.
inductive Reading (α : Type) where
  | got (value : α) (rest : List Char)
  | miss
  | bad
  deriving DecidableEq, Repr

namespace Reading

def map (f : α → β) : Reading α → Reading β
  | .got value rest => .got (f value) rest
  | .miss => .miss
  | .bad => .bad

def andThen (r : Reading α) (f : α → List Char → Reading β) : Reading β :=
  match r with
  | .got value rest => f value rest
  | .miss => .miss
  | .bad => .bad

def orElse (r : Reading α) (other : Unit → Reading α) : Reading α :=
  match r with
  | .miss => other ()
  | r => r

section
variable {α β : Type} (f : α → β) (g : α → List Char → Reading β) (other : Unit → Reading α) (a : α) (rest : List Char)

@[simp] theorem map_got : (Reading.got a rest).map f = .got (f a) rest := rfl

@[simp] theorem map_miss : (Reading.miss : Reading α).map f = .miss := rfl

@[simp] theorem andThen_got : (Reading.got a rest).andThen g = g a rest := rfl

@[simp] theorem andThen_miss : (Reading.miss : Reading α).andThen g = .miss := rfl

@[simp] theorem orElse_got : (Reading.got a rest).orElse other = .got a rest := rfl

@[simp] theorem orElse_miss : (Reading.miss : Reading α).orElse other = other () := rfl

end

def whole? : Reading α → Option α
  | .got value [] => some value
  | _ => none

end Reading

namespace Source
open Text

def skipGaps (s : List Char) : List Char := s.dropWhile isGap

def readMark (mark s : List Char) : Reading Unit :=
  match after? mark s with
  | some rest => .got () rest
  | none => .miss

def readComma (s : List Char) : Reading Unit :=
  (readMark [','] (skipGaps s)).andThen fun _ rest => .got () (skipGaps rest)

-- Items with commas between them, at most `most` behind the first one. A comma behind
-- which no item is found is left standing.
def readMore (item : List Char → Reading α) : Nat → List Char → Reading (List α)
  | 0,s => .got [] s
  | most + 1,s =>
    match readComma s with
    | .got _ rest =>
      match item rest with
      | .got a rest => (readMore item most rest).map (a :: ·)
      | .miss => .got [] s
      | .bad => .bad
    | _ => .got [] s

-- Each item but the first costs a comma, so the length of the text bounds their number.
def readItems (item : List Char → Reading α) (s : List Char) : Reading (List α) :=
  match item s with
  | .got a rest => (readMore item rest.length rest).map (a :: ·)
  | .miss => .got [] s
  | .bad => .bad

def registerLimit : Nat := 65535

def readRegister : List Char → Reading RegisterName
  | [] => .miss
  | c :: s =>
    if c == 'v' || c == 'p' then
      match digitRun 10 s with
      | ([],_) => .miss
      | (digits,rest) =>
        let n := ofDigits 10 digits
        if n ≤ registerLimit then .got (if c == 'v' then .plain n else .parameter n) rest else .bad
    else .miss

def readOpen (s : List Char) : Reading Unit := (readMark ['\x7b'] s).andThen fun _ rest => .got () (skipGaps rest)

def readClose (s : List Char) : Reading Unit := readMark ['\x7d'] (skipGaps s)

def readDots (s : List Char) : Reading Unit :=
  (readMark ['.','.'] (skipGaps s)).andThen fun _ rest => .got () (skipGaps rest)

def readRegisterList (s : List Char) : Reading (List RegisterName) :=
  (readOpen s).andThen fun _ s =>
  (readItems readRegister s).andThen fun rs s =>
  (readClose s).map fun _ => rs

def readRegisterRange (s : List Char) : Reading (RegisterName × RegisterName) :=
  (readOpen s).andThen fun _ s =>
  (readRegister s).andThen fun first s =>
  (readDots s).andThen fun _ s =>
  (readRegister s).andThen fun last s =>
  (readClose s).map fun _ => (first,last)

end Source
end SmaliPrune
