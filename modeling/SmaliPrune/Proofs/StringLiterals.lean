import SmaliPrune.Source.StringLiteral
import SmaliPrune.Proofs.Numerals

namespace SmaliPrune.Source
open Text

def letters : List (Char × Char) :=
  [('"','"'),('\\','\\'),('\'','\''),('n','\n'),('r','\r'),('t','\t'),('b','\x08'),('f','\x0c')]

-- The ways to write a character between the quotes: itself, with a letter, by its code
-- point in four hex digits.
inductive Spells (c : Char) : List Char → Prop where
  | plain (unquoted : c ≠ '"') (unescaped : c ≠ '\\') : Spells c [c]
  | letter {e : Char} (stands : (e,c) ∈ letters) : Spells c ['\\',e]
  | unicode {digits : List Char} (four : digits.length = 4) (code : Numeral 16 digits c.toNat) :
      Spells c ('\\' :: 'u' :: digits)

inductive Spelled : List Char → List Char → Prop where
  | nil : Spelled [] []
  | cons {c : Char} {piece s body : List Char} (spells : Spells c piece) (others : Spelled s body) :
      Spelled (c :: s) (piece ++ body)

variable {c : Char} {piece s body : List Char}

theorem scanBody_plain (unquoted : c ≠ '"') (unescaped : c ≠ '\\') (rest : List Char) :
    scanBody (c :: rest) = (scanBody rest).map fun (body,after) => (c :: body,after) := by
  rw [scanBody]
  · exact unquoted
  · exact fun same _ => unescaped same
  · exact fun _ _ same _ => unescaped same

theorem scanBody_escape (known : escapable c = true) (rest : List Char) :
    scanBody ('\\' :: c :: rest) = (scanBody rest).map fun (body,after) => ('\\' :: c :: body,after) := by
  simp [scanBody,known]

theorem digit_unquoted {d : Nat} (value : digit? 16 c = some d) : c ≠ '"' ∧ c ≠ '\\' := by
  constructor
  · rintro rfl
    cases value
  · rintro rfl
    cases value

theorem scanBody_digits {digits : List Char} (hex : ∀ c ∈ digits, ∃ d, digit? 16 c = some d) (rest : List Char) :
    scanBody (digits ++ rest) = (scanBody rest).map fun (body,after) => (digits ++ body,after) := by
  induction digits with
  | nil => simp
  | cons c digits ih =>
    obtain ⟨d,value⟩ := hex c (by simp)
    obtain ⟨unquoted,unescaped⟩ := digit_unquoted value
    rw [List.cons_append,scanBody_plain unquoted unescaped,ih fun c member => hex c (by simp [member])]
    simp [Function.comp_def]

theorem scanBody_unicode {digits : List Char} (hex : ∀ c ∈ digits, ∃ d, digit? 16 c = some d) (rest : List Char) :
    scanBody ('\\' :: 'u' :: digits ++ rest) =
      (scanBody rest).map fun (body,after) => ('\\' :: 'u' :: digits ++ body,after) := by
  rw [List.cons_append,List.cons_append,scanBody_escape (by decide),scanBody_digits hex]
  simp [Function.comp_def]

theorem letters_escapable {e : Char} (stands : (e,c) ∈ letters) : escapable e = true := by
  have all : ∀ p ∈ letters, escapable p.1 = true := by decide
  exact all (e,c) stands

theorem Spells.scanBody (spells : Spells c piece) (rest : List Char) :
    scanBody (piece ++ rest) = (Source.scanBody rest).map fun (body,after) => (piece ++ body,after) := by
  cases spells with
  | plain unquoted unescaped => exact scanBody_plain unquoted unescaped rest
  | letter stands => exact scanBody_escape (letters_escapable stands) rest
  | unicode four code => exact scanBody_unicode code.digits rest

theorem scalar?_numeral {digits : List Char} {n : Nat} (code : Numeral 16 digits n) :
    scalar? digits = if n.isValidChar then some (Char.ofNat n) else none := by
  obtain ⟨ds,some',reads,means⟩ := code.run
  obtain ⟨d,ds,rfl⟩ := List.exists_cons_of_ne_nil some'
  have unsigned : ∀ rest, digits = '+' :: rest → False := by
    rintro rest rfl
    obtain ⟨d,value⟩ := code.digits '+' (by simp)
    cases value
  unfold scalar?
  split
  · exact absurd rfl (unsigned _)
  · simp only [reads,means]

theorem scalar?_char {digits : List Char} (code : Numeral 16 digits c.toNat) : scalar? digits = some c := by
  have valid : c.toNat.isValidChar := c.valid
  rw [scalar?_numeral code,if_pos valid,Char.ofNat_toNat]

theorem unescape_unicode {digits : List Char} (four : digits.length = 4) (rest : List Char) :
    unescape ('\\' :: 'u' :: digits ++ rest) = unicode digits ++ unescape rest := by
  match digits,four with
  | [_,_,_,_],_ => rfl

theorem Spells.unescape (spells : Spells c piece) (rest : List Char) :
    unescape (piece ++ rest) = c :: Source.unescape rest := by
  cases spells with
  | plain unquoted unescaped => simp [Source.unescape,unescaped]
  | letter stands => 
    simp only [letters,List.mem_cons,Prod.mk.injEq,List.not_mem_nil,or_false] at stands
    rcases stands with ⟨rfl,rfl⟩ | ⟨rfl,rfl⟩ | ⟨rfl,rfl⟩ | ⟨rfl,rfl⟩ | ⟨rfl,rfl⟩ | ⟨rfl,rfl⟩ | ⟨rfl,rfl⟩ | ⟨rfl,rfl⟩ <;>
      simp [Source.unescape]
  | unicode four code =>
    rw [unescape_unicode four,Source.unicode,scalar?_char code]
    rfl

theorem Spelled.scanBody (spelled : Spelled s body) (rest : List Char) :
    scanBody (body ++ '"' :: rest) = some (body,rest) := by
  induction spelled with
  | nil => rfl
  | cons spells others ih =>
    rw [List.append_assoc,spells.scanBody,ih]
    rfl

theorem Spelled.unescape (spelled : Spelled s body) : unescape body = s := by
  induction spelled with
  | nil => rfl
  | cons spells others ih => rw [spells.unescape,ih]

theorem readString_spelled (spelled : Spelled s body) (rest : List Char) :
    readString ('"' :: body ++ '"' :: rest) = .got (String.ofList s) rest := by
  simp only [List.cons_append,readString,spelled.scanBody,spelled.unescape]

theorem readString_miss (other : c ≠ '"') : readString (c :: s) = .miss := by
  unfold readString
  split
  · next same => exact absurd (List.cons.inj same).1 other
  · rfl

end SmaliPrune.Source
