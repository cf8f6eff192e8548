import SmaliPrune.Proofs.Assembly
import SmaliPrune.Proofs.Comments
import SmaliPrune.Proofs.Instructions

namespace SmaliPrune

def Action.string? : Action → Option String
  | .const _ (.string s) => some s
  | _ => none

namespace Source
open Text

inductive CodeUnit (n : Nat) : List Char → Prop where
  | digits {digits : List Char} (four : digits.length = 4) (code : Numeral 16 digits n) :
      CodeUnit n ('\\' :: 'u' :: digits)

-- How a character stands in a literal that is all ASCII: with its letter if it has one, which
-- the single quote does not need, and past ASCII as the one or two units of UTF-16.
inductive Encodes (c : Char) : List Char → Prop where
  | plain (ascii : c.toNat < 0x80) (own : c ∈ letters.map Prod.snd → c = '\'') : Encodes c [c]
  | letter {e : Char} (stands : (e,c) ∈ letters) : Encodes c ['\\',e]
  | single {piece : List Char} (past : 0x80 ≤ c.toNat) (basic : c.toNat < 0x10000) (unit : CodeUnit c.toNat piece) :
      Encodes c piece
  | pair {high low : List Char} (beyond : 0x10000 ≤ c.toNat)
      (first : CodeUnit (0xD800 + (c.toNat - 0x10000) / 0x400) high)
      (second : CodeUnit (0xDC00 + (c.toNat - 0x10000) % 0x400) low) : Encodes c (high ++ low)

def stringLiteral (pieces : List (List Char)) : List Char := '"' :: pieces.flatten ++ ['"']

def hexDigits (s : List Char) : List Char := s.filter fun c => (digit? 16 c).isSome

-- What is kept of the piece that stands for a character: of a pair, its digits.
def kept (c : Char) (piece : List Char) : List Char := if c.toNat < 0x10000 then [c] else hexDigits piece

def loaded (s : List Char) (pieces : List (List Char)) : List Char := (List.zipWith kept s pieces).flatten

def Unpaired (s : List Char) : Prop := ∀ c ∈ s, c.toNat < 0x10000

instance (s : List Char) : Decidable (Unpaired s) := List.decidableBAll _ s

variable {n : Nat} {c : Char} {piece s : List Char} {pieces : List (List Char)}

theorem hexDigits_append (s t : List Char) : hexDigits (s ++ t) = hexDigits s ++ hexDigits t := List.filter_append ..

theorem toNat_range (c : Char) : c.toNat < 0x110000 := by
  rcases c.valid with small | ⟨_,small⟩
  · exact Nat.lt_trans small (by decide)
  · exact small

theorem letters_ascii {e : Char} (stands : (e,c) ∈ letters) : c.toNat < 0x80 := by
  have all : ∀ p ∈ letters, p.2.toNat < 0x80 := by decide
  exact all (e,c) stands

theorem exists_codeUnit (small : n < 0x10000) : ∃ piece, CodeUnit n piece := by
  have read : ∀ d < 16, digit? 16 (Nat.digitChar d) = some d := fun d below => digit?_digitChar below (by decide)
  have code := Numeral.append (.append (.append (.digit (read (n / 4096) (by omega))) (read (n / 256 % 16) (by omega)))
    (read (n / 16 % 16) (by omega))) (read (n % 16) (by omega))
  have same : ((n / 4096 * 16 + n / 256 % 16) * 16 + n / 16 % 16) * 16 + n % 16 = n := by omega
  rw [same] at code
  exact ⟨_,.digits rfl code⟩

theorem exists_encoding (c : Char) : ∃ piece, Encodes c piece := by
  by_cases ascii : c.toNat < 0x80
  · by_cases marked : c ∈ letters.map Prod.snd
    · obtain ⟨⟨e,c⟩,stands,rfl⟩ := List.mem_map.mp marked
      exact ⟨_,.letter stands⟩
    · exact ⟨_,.plain ascii fun marked' => absurd marked' marked⟩
  · by_cases basic : c.toNat < 0x10000
    · obtain ⟨piece,unit⟩ := exists_codeUnit basic
      exact ⟨_,.single (by omega) basic unit⟩
    · have range := toNat_range c
      obtain ⟨high,first⟩ := exists_codeUnit (n := 0xD800 + (c.toNat - 0x10000) / 0x400) (by omega)
      obtain ⟨low,second⟩ := exists_codeUnit (n := 0xDC00 + (c.toNat - 0x10000) % 0x400) (by omega)
      exact ⟨_,.pair (by omega) first second⟩

theorem exists_encodings (s : List Char) : ∃ pieces, List.Forall₂ Encodes s pieces := by
  induction s with
  | nil => exact ⟨[],.nil⟩
  | cons c s ih =>
    obtain ⟨piece,encodes⟩ := exists_encoding c
    obtain ⟨pieces,others⟩ := ih
    exact ⟨_,.cons encodes others⟩

theorem plain_encodings (own : ∀ c ∈ s, c.toNat < 0x80 ∧ c ∉ letters.map Prod.snd) :
    List.Forall₂ Encodes s (s.map fun c => [c]) := by
  refine List.forall₂_map_right_iff.mpr (List.forall₂_same.mpr fun c member => ?_)
  obtain ⟨ascii,unlettered⟩ := own c member
  exact .plain ascii fun lettered => absurd lettered unlettered

namespace CodeUnit

theorem scanBody (unit : CodeUnit n piece) (rest : List Char) :
    scanBody (piece ++ rest) = (Source.scanBody rest).map fun (body,after) => (piece ++ body,after) := by
  cases unit with
  | digits four code => exact scanBody_unicode code.digits rest

theorem passes (unit : CodeUnit n piece) : Passes .string piece .string := by
  cases unit with
  | digits four code =>
    refine (passes_escape 'u').append (passes_string fun c member => ?_)
    obtain ⟨d,value⟩ := code.digits c member
    exact digit_unquoted value

theorem hexDigits (unit : CodeUnit n piece) :
    ∃ digits, piece = '\\' :: 'u' :: digits ∧ Source.hexDigits piece = digits ∧ digits.length = 4 := by
  cases unit with
  | @digits digits four code =>
    have all : ∀ c ∈ digits, (digit? 16 c).isSome = true := by
      intro c member
      obtain ⟨d,value⟩ := code.digits c member
      rw [value]
      rfl
    exact ⟨digits,rfl,List.filter_eq_self.mpr all,four⟩

theorem unescape_surrogate (unit : CodeUnit n piece) (surrogate : ¬n.isValidChar) (rest : List Char) :
    unescape (piece ++ rest) = Source.hexDigits piece ++ Source.unescape rest := by
  obtain ⟨digits,rfl,only,_⟩ := unit.hexDigits
  cases unit with
  | digits four code => rw [only,unescape_unicode four,unicode,scalar?_numeral code,if_neg surrogate]

end CodeUnit

namespace Encodes

theorem plain_unquoted (own : c ∈ letters.map Prod.snd → c = '\'') : c ≠ '"' ∧ c ≠ '\\' := by
  constructor
  · rintro rfl
    exact absurd (own (by decide)) (by decide)
  · rintro rfl
    exact absurd (own (by decide)) (by decide)

theorem spells (encodes : Encodes c piece) (basic : c.toNat < 0x10000) : Spells c piece := by
  cases encodes with
  | plain ascii own => exact .plain (plain_unquoted own).1 (plain_unquoted own).2
  | letter stands => exact .letter stands
  | single past small unit =>
    cases unit with
    | digits four code => exact .unicode four code
  | pair beyond first second => omega

theorem halves (encodes : Encodes c piece) (beyond : ¬c.toNat < 0x10000) :
    ∃ m n high low, piece = high ++ low ∧ CodeUnit m high ∧ CodeUnit n low ∧ ¬m.isValidChar ∧ ¬n.isValidChar := by
  have range := toNat_range c
  cases encodes with
  | plain ascii own => omega
  | letter stands =>
    have ascii := letters_ascii stands
    omega
  | single past small unit => exact absurd small beyond
  | pair beyond first second =>
    refine ⟨_,_,_,_,rfl,first,second,?_,?_⟩
    · simp only [Nat.isValidChar]
      omega
    · simp only [Nat.isValidChar]
      omega

theorem scanBody (encodes : Encodes c piece) (rest : List Char) :
    scanBody (piece ++ rest) = (Source.scanBody rest).map fun (body,after) => (piece ++ body,after) := by
  by_cases basic : c.toNat < 0x10000
  · exact (encodes.spells basic).scanBody rest
  · obtain ⟨_,_,_,_,rfl,first,second,_,_⟩ := encodes.halves basic
    rw [List.append_assoc,first.scanBody,second.scanBody]
    simp [Function.comp_def]

theorem unescape (encodes : Encodes c piece) (rest : List Char) :
    unescape (piece ++ rest) = kept c piece ++ Source.unescape rest := by
  by_cases basic : c.toNat < 0x10000
  · rw [(encodes.spells basic).unescape,kept,if_pos basic]
    rfl
  · obtain ⟨_,_,_,_,rfl,first,second,high,low⟩ := encodes.halves basic
    rw [List.append_assoc,first.unescape_surrogate high,second.unescape_surrogate low,kept,if_neg basic,
      hexDigits_append,List.append_assoc]

theorem passes (encodes : Encodes c piece) : Passes .string piece .string := by
  cases encodes with
  | plain ascii own => exact passes_string (List.forall_mem_singleton.mpr (plain_unquoted own))
  | letter stands => exact passes_escape _
  | single past small unit => exact unit.passes
  | pair beyond first second => exact first.passes.append second.passes

theorem kept_length (encodes : Encodes c piece) : (kept c piece).length = if c.toNat < 0x10000 then 1 else 8 := by
  by_cases basic : c.toNat < 0x10000
  · rw [kept,if_pos basic,if_pos basic]
    rfl
  · obtain ⟨_,_,_,_,rfl,first,second,_,_⟩ := encodes.halves basic
    obtain ⟨_,_,only,four⟩ := first.hexDigits
    obtain ⟨_,_,only',four'⟩ := second.hexDigits
    rw [kept,if_neg basic,if_neg basic,hexDigits_append,List.length_append,only,only',four,four']

end Encodes

section
variable (encoded : List.Forall₂ Encodes s pieces)
include encoded

theorem scanBody_pieces (rest : List Char) :
    scanBody (pieces.flatten ++ '"' :: rest) = some (pieces.flatten,rest) := by
  induction encoded with
  | nil => rfl
  | cons encodes _ ih =>
    rw [List.flatten_cons,List.append_assoc,encodes.scanBody,ih]
    rfl

theorem unescape_pieces : unescape pieces.flatten = loaded s pieces := by
  induction encoded with
  | nil => rfl
  | cons encodes _ ih =>
    rw [List.flatten_cons,encodes.unescape,ih]
    rfl

theorem passes_pieces : Passes .string pieces.flatten .string := by
  induction encoded with
  | nil => exact .nil
  | cons encodes _ ih => exact encodes.passes.append ih

theorem readString_literal (rest : List Char) :
    readString (stringLiteral pieces ++ rest) = .got (String.ofList (loaded s pieces)) rest := by
  rw [stringLiteral,List.append_assoc,List.cons_append,List.singleton_append]
  simp only [readString,scanBody_pieces encoded,unescape_pieces encoded]

theorem loaded_length :
    (loaded s pieces).length = s.length + 7 * s.countP fun c => decide (0x10000 ≤ c.toNat) := by
  induction encoded with
  | nil => rfl
  | @cons c piece s pieces encodes _ ih =>
    have here := encodes.kept_length
    rw [loaded,List.zipWith_cons_cons,List.flatten_cons,List.length_append,here,← loaded,ih,List.countP_cons,
      List.length_cons]
    by_cases basic : c.toNat < 0x10000
    · rw [if_pos basic,if_neg (by simpa using basic)]
      omega
    · rw [if_neg basic,if_pos (by simpa using basic)]
      omega

theorem loaded_same : loaded s pieces = s ↔ Unpaired s := by
  constructor
  · intro same
    have length := loaded_length encoded
    rw [same] at length
    have none : s.countP (fun c => decide (0x10000 ≤ c.toNat)) = 0 := by omega
    intro c member
    have basic := List.countP_eq_zero.mp none c member
    simpa using basic
  · intro basic
    induction encoded with
    | nil => rfl
    | @cons c piece s pieces encodes _ ih =>
      have here : kept c piece = [c] := if_pos (basic c List.mem_cons_self)
      have others := ih fun c member => basic c (List.mem_cons_of_mem _ member)
      rw [loaded] at others
      rw [loaded,List.zipWith_cons_cons,List.flatten_cons,here,others]
      rfl

theorem reads_literal : Reads readOperand [','] (.string (String.ofList (loaded s pieces))) (stringLiteral pieces) := by
  rw [stringLiteral,List.cons_append]
  refine .of_got rfl fun rest _ => ?_
  have reads := readString_literal encoded rest
  rw [stringLiteral,List.cons_append,List.cons_append] at reads
  rw [readOperand_unbraced (by decide),readLabel_miss (by decide),reads,Reading.map_miss,
    Reading.orElse_miss,Reading.map_got,Reading.orElse_got]

end

inductive StringLine (name : String) (r : RegisterName) (pieces : List (List Char)) : List Char → Prop where
  | line {gap : Char} {lead register before behind : List Char} (gap' : isGap gap = true) (gaps : Gaps lead)
      (named : Named r register) (apart : Gaps before) (apart' : Gaps behind) :
      StringLine name r pieces
        (name.toList ++ gap :: (lead ++ (register ++ (before ++ ',' :: (behind ++ stringLiteral pieces)))))

theorem named_clear {r : RegisterName} (named : Named r s) : Clear s := by
  have digits : ∀ {s : List Char} {n : Nat}, Numeral 10 s n → Clear s := fun numeral =>
    clear_of numeral.digits (by rintro ⟨_,value⟩; cases value) (by rintro ⟨_,value⟩; cases value)
  cases named with
  | plain numeral small => exact (digits numeral).cons (by decide)
  | parameter numeral small => exact (digits numeral).cons (by decide)

theorem mnemonic_solid (word : isMnemonicChar c = true) : isBlank c = false := by
  have ascii : ∀ n < 128, isMnemonicChar (Char.ofNat n) = true → isBlank (Char.ofNat n) = false := by decide +kernel
  have small : c.toNat < 128 := by
    have below : ∀ {last : Char}, last.toNat < 128 → c.val ≤ last.val → c.toNat < 128 :=
      fun last le => Nat.lt_of_le_of_lt (UInt32.le_iff_toNat_le.mp le) last
    simp only [isMnemonicChar] at word
    delta Char.isAlphanum Char.isAlpha Char.isUpper Char.isLower Char.isDigit at word
    simp only [Bool.or_eq_true,Bool.and_eq_true,decide_eq_true_eq,beq_iff_eq] at word
    rcases word with (((⟨_,upper⟩ | ⟨_,lower⟩) | ⟨_,digit⟩) | rfl) | rfl
    · exact below (by decide) upper
    · exact below (by decide) lower
    · exact below (by decide) digit
    · decide
    · decide
  have here := ascii c.toNat small
  rw [Char.ofNat_toNat] at here
  exact here word

namespace StringLine
variable {name : String} {r : RegisterName} {line : List Char}

theorem read (line' : StringLine name r pieces line) (encoded : List.Forall₂ Encodes s pieces) (word : Mnemonic name) :
    instruction? line = some (name,[.register r,.string (String.ofList (loaded s pieces))]) := by
  cases line' with
  | line gap' gaps named apart apart' =>
    have listed := Listed.cons (Writes.register named).reads (.cons apart apart' (reads_literal encoded) .nil)
    have nothing : Gaps [] := by decide
    have read := instruction?_read word gap' gaps nothing listed
    simpa using read

theorem front (line' : StringLine name r pieces line) (word : Mnemonic name) :
    ∃ front, line = front ++ stringLiteral pieces ∧ Clear front ∧ ∀ c ∈ front.head?, isBlank c = false := by
  cases line' with
  | @line gap lead register before behind gap' gaps named apart apart' =>
    have clear : ∀ {s : List Char}, Gaps s → Clear s := fun gaps => clear_of gaps (by decide) (by decide)
    refine ⟨name.toList ++ (gap :: lead ++ (register ++ (before ++ ',' :: behind))),by simp,?_,?_⟩
    · exact (clear_of word.chars (by decide) (by decide)).append <| (clear (List.forall_mem_cons.mpr ⟨gap',gaps⟩)).append <|
        (named_clear named).append <| (clear apart).append <| (clear apart').cons (by decide)
    · intro c first
      have full : name.toList ≠ [] := by simpa using word.1
      have chars := word.chars
      obtain ⟨c',t,same⟩ := List.exists_cons_of_ne_nil full
      rw [same] at first chars
      cases first
      exact mnemonic_solid (chars _ List.mem_cons_self)

end StringLine

theorem trimmed_literal {front : List Char} (solid : ∀ c ∈ front.head?, isBlank c = false) :
    Trimmed (front ++ stringLiteral pieces) where
  first c here := by
    cases front with
    | nil =>
      cases here
      rfl
    | cons => exact solid c here
  last c here := by
    rw [stringLiteral,← List.append_assoc,List.getLast?_concat] at here
    cases here
    rfl

theorem bare_literal (encoded : List.Forall₂ Encodes s pieces) {front indent blanks tail : List Char}
    (clear : Clear front) (solid : ∀ c ∈ front.head?, isBlank c = false) (before : Blank indent)
    (behind : Blank blanks) (remark : Remark tail) :
    bare (indent ++ (front ++ stringLiteral pieces ++ (blanks ++ tail))) = front ++ stringLiteral pieces :=
  bare_text ((passes_code clear).append (passes_quoted (passes_pieces encoded))) (trimmed_literal solid) before behind
    remark

theorem Slots.string_ok {f : Frame} {r : RegisterName} {t : String} {o : Opcode} {a : Action}
    (form : o.form = .constString) : (Slots.mk f [.register r,.string t]).action o = .ok a ↔
      ∃ d, f.resolve r = .ok d ∧ a = .const d (.string t) := by
  have first : (Slots.mk f [.register r,.string t]).register 0 = f.resolve r := rfl
  have second : (Slots.mk f [.register r,.string t]).string 1 = .ok t := rfl
  simp only [action,form,bind_ok,first,second]
  constructor
  · rintro ⟨d,resolved,_,same,last⟩
    cases same
    cases last
    exact ⟨d,resolved,rfl⟩
  · rintro ⟨d,resolved,rfl⟩
    exact ⟨d,resolved,t,rfl,rfl⟩

theorem string_mnemonics : ∀ o ∈ Opcode.catalogue, o.form = .constString → Mnemonic o.name := by decide +kernel

theorem StringLine.assembled {name : String} {o : Opcode} {r : RegisterName} {line : List Char}
    (line' : StringLine name r pieces line) (encoded : List.Forall₂ Encodes s pieces)
    (named : Opcode.named? name = some o) (form : o.form = .constString) {f : Frame} {i : Instr} :
    Assembled f line i ↔ ∃ d, f.resolve r = .ok d ∧ i.opcode = o ∧
      i.action = .const d (.string (String.ofList (loaded s pieces))) := by
  obtain ⟨listed,rfl⟩ := named?_ok named
  have coded := coded?_iff.mpr ⟨named,line'.read encoded (string_mnemonics o listed form)⟩
  constructor
  · rintro ⟨operands,here,action⟩
    rw [coded] at here
    cases here
    obtain ⟨d,resolved,same⟩ := (Slots.string_ok form).mp action
    exact ⟨d,resolved,rfl,same⟩
  · rintro ⟨d,resolved,rfl,same⟩
    exact ⟨_,coded,(Slots.string_ok form).mpr ⟨d,resolved,same⟩⟩

-- A string that stands as an escaped literal is loaded as itself if no character of it needs a
-- pair, and not otherwise. Comments change nothing.
theorem strings_load (s : String) :
    (∃ pieces, List.Forall₂ Encodes s.toList pieces) ∧
    ∀ pieces, List.Forall₂ Encodes s.toList pieces →
      (∀ rest, readString (stringLiteral pieces ++ rest) = .got (String.ofList (loaded s.toList pieces)) rest) ∧
      (∀ blanks tail, Blank blanks → Remark tail → bare (stringLiteral pieces ++ (blanks ++ tail)) = stringLiteral pieces) ∧
      (String.ofList (loaded s.toList pieces) = s ↔ Unpaired s.toList) ∧
      (∀ (t : String) others, List.Forall₂ Encodes t.toList others → Unpaired s.toList → Unpaired t.toList →
        loaded s.toList pieces = loaded t.toList others → s = t) ∧
      ∀ name o, Opcode.named? name = some o → o.form = .constString → ∀ r line, StringLine name r pieces line →
        (∀ indent blanks tail, Blank indent → Blank blanks → Remark tail →
          bare (indent ++ (line ++ (blanks ++ tail))) = line) ∧
        ∀ f i, Assembled f line i ↔ ∃ d, f.resolve r = .ok d ∧ i.opcode = o ∧
          i.action = .const d (.string (String.ofList (loaded s.toList pieces))) := by
  refine ⟨exists_encodings _,fun pieces encoded => ⟨readString_literal encoded,?_,?_,?_,?_⟩⟩
  · intro blanks tail behind remark
    have whole : bare ([] ++ ([] ++ stringLiteral pieces ++ (blanks ++ tail))) = [] ++ stringLiteral pieces :=
      bare_literal encoded nofun nofun nofun behind remark
    exact whole
  · rw [← loaded_same encoded,← String.toList_inj,String.toList_ofList]
  · intro t others encoded' basic basic' same
    rw [(loaded_same encoded).mpr basic,(loaded_same encoded').mpr basic'] at same
    exact String.toList_inj.mp same
  · intro name o named form r line line'
    refine ⟨?_,fun f i => line'.assembled encoded named form⟩
    intro indent blanks tail before behind remark
    obtain ⟨listed,rfl⟩ := named?_ok named
    obtain ⟨front,rfl,clear,solid⟩ := line'.front (string_mnemonics o listed form)
    exact bare_literal encoded clear solid before behind remark

def paired : List Char := ofLines [
  ".method static run()V",".registers 3","  const-string v0, \"\\u00e9\\\"#\\n\" # \"","const-string v1, \"\\ud83d\\ude00\"",
  "const-string/jumbo v2, \"d83dde00\"","return-void",".end method"]

theorem paired_loads : ∃ m, method "La;" paired = .ok m ∧ m.code.map (fun i => i.action.string?) =
    [some "\u00e9\"#\n",some "d83dde00",some "d83dde00",none] := by
  obtain ⟨_,ok⟩ := exists_of_isOk (x := do
    let m ← method "La;" paired
    if m.code.map (fun i => i.action.string?) = [some "\u00e9\"#\n",some "d83dde00",some "d83dde00",none] then pure ()
      else throw ⟨.emptyMethod,[]⟩) (by decide +kernel)
  obtain ⟨m,loads,ok⟩ := bind_ok.mp ok
  split at ok
  · next shown => exact ⟨m,loads,shown⟩
  · cases ok

theorem paired_lines : instructions (body paired) = ["const-string v0, \"\\u00e9\\\"#\\n\"".toList,
    "const-string v1, \"\\ud83d\\ude00\"".toList,"const-string/jumbo v2, \"d83dde00\"".toList,
    "return-void".toList] := by decide +kernel

theorem paired_strings : ∃ pieces, List.Forall₂ Encodes "\u00e9\"#\n".toList pieces ∧
    stringLiteral pieces = "\"\\u00e9\\\"#\\n\"".toList ∧
    bare ("  const-string v0, ".toList ++ stringLiteral pieces ++ " # \"".toList) =
      "const-string v0, ".toList ++ stringLiteral pieces ∧
    ∃ m i code, method "La;" paired = .ok m ∧ m.code = i :: code ∧ i.action = .const 0 (.string "\u00e9\"#\n") := by
  have unit : CodeUnit 0xe9 "\\u00e9".toList := @CodeUnit.digits 0xe9 "00e9".toList rfl (by decide)
  have encoded : List.Forall₂ Encodes "\u00e9\"#\n".toList ["\\u00e9".toList,"\\\"".toList,"#".toList,"\\n".toList] :=
    .cons (.single (by decide) (by decide) unit) (.cons (.letter (by decide)) (.cons (.plain (by decide) (by decide))
      (.cons (.letter (by decide)) .nil)))
  obtain ⟨_,_,same,_,lines⟩ := (strings_load "\u00e9\"#\n").2 _ encoded
  have named : Opcode.named? "const-string" = some ⟨0x1a,"const-string",.f21c,.risksSets,.constString⟩ := by
    decide +kernel
  have line : StringLine "const-string" (.plain 0) ["\\u00e9".toList,"\\\"".toList,"#".toList,"\\n".toList]
      ("const-string v0, ".toList ++ "\"\\u00e9\\\"#\\n\"".toList) :=
    @StringLine.line _ _ _ ' ' [] ['v','0'] [] [' '] rfl (by decide) (.plain (by decide) (by decide)) (by decide) (by decide)
  obtain ⟨stripped,assembled⟩ := lines _ _ named rfl _ _ line
  refine ⟨_,encoded,rfl,?_,?_⟩
  · exact stripped [' ',' '] [' '] ['#',' ','"'] (by decide) (by decide) fun c first => by cases first; rfl
  · obtain ⟨m,loads,_⟩ := paired_loads
    obtain ⟨f,_,_,_,each⟩ := method_assembles loads
    rw [paired_lines] at each
    obtain ⟨i,_,first,_,code⟩ := List.forall₂_cons_left_iff.mp each
    obtain ⟨d,resolved,_,action⟩ := (assembled f i).mp first
    cases resolved
    rw [same.mpr (by decide)] at action
    exact ⟨m,i,_,loads,code,action⟩

-- Two strings of which the first cannot be told from the second once they are loaded.
theorem paired_meet : ∃ pieces others m, List.Forall₂ Encodes "😀".toList pieces ∧
    List.Forall₂ Encodes "d83dde00".toList others ∧ stringLiteral pieces = "\"\\ud83d\\ude00\"".toList ∧
    stringLiteral others = "\"d83dde00\"".toList ∧ readString (stringLiteral pieces) = readString (stringLiteral others) ∧
    readString (stringLiteral pieces) ≠ .got "😀" [] ∧ method "La;" paired = .ok m ∧
    instructions (body paired) = ["const-string v0, \"\\u00e9\\\"#\\n\"".toList,
      "const-string v1, ".toList ++ stringLiteral pieces,"const-string/jumbo v2, ".toList ++ stringLiteral others,
      "return-void".toList] ∧
    m.code.map (fun i => i.action.string?) = [some "\u00e9\"#\n",some "d83dde00",some "d83dde00",none] := by
  obtain ⟨m,loads,shown⟩ := paired_loads
  have high : CodeUnit 0xd83d "\\ud83d".toList := @CodeUnit.digits 0xd83d "d83d".toList rfl (by decide)
  have low : CodeUnit 0xde00 "\\ude00".toList := @CodeUnit.digits 0xde00 "de00".toList rfl (by decide)
  have encoded : List.Forall₂ Encodes "😀".toList ["\\ud83d".toList ++ "\\ude00".toList] :=
    .cons (.pair (by decide) high low) .nil
  have plain : List.Forall₂ Encodes "d83dde00".toList ("d83dde00".toList.map fun c => [c]) :=
    plain_encodings (by simp [letters])
  exact ⟨_,_,m,encoded,plain,rfl,rfl,by decide +kernel,by decide +kernel,loads,paired_lines,shown⟩

end Source
end SmaliPrune
