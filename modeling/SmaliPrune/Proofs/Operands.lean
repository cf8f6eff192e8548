import SmaliPrune.Source.Instruction
import SmaliPrune.Proofs.Literals
import SmaliPrune.Proofs.Registers
import SmaliPrune.Proofs.StringLiterals
import SmaliPrune.Proofs.References

namespace SmaliPrune

namespace Text

theorem takeWhile_stop {p : Char → Bool} {s rest : List Char} (inside : ∀ c ∈ s, p c = true)
    (stop : ∀ c ∈ rest.head?, p c = false) : (s ++ rest).takeWhile p = s := by
  have ended : rest.takeWhile p = [] := by
    cases rest with
    | nil => rfl
    | cons c rest => exact List.takeWhile_cons_of_neg (by simp [stop c rfl])
  rw [List.takeWhile_append_of_pos inside,ended,List.append_nil]

end Text

namespace Source
open Text

variable {s rest : List Char}

inductive Writes : Operand → List Char → Prop where
  | register {r : RegisterName} {s : List Char} (named : Named r s) : Writes (.register r) s
  | list {rs : List RegisterName} {s : List Char} (writes : WritesList rs s) : Writes (.list rs) s
  | range {first last : RegisterName} {s : List Char} (writes : WritesRange first last s) :
      Writes (.range first last) s
  | label {name : String} (some' : name ≠ "") (word : ∀ c ∈ name.toList, isLabelChar c = true) :
      Writes (.label name) (':' :: name.toList)
  | literal {v : Int} {s suffix : List Char} (fits : Fits 64 v) (written : Written 64 v s)
      (width : Suffix suffix) : Writes (.literal v) (s ++ suffix)
  | string {s : String} {body : List Char} (spelled : Spelled s.toList body) :
      Writes (.string s) ('"' :: body ++ ['"'])
  | type {text : String} (plain : PlainType text) : Writes (.type text) text.toList
  | field {f : FieldRef} (plain : f.Plain) : Writes (.field f) f.write
  | method {m : MethodRef} (plain : m.Plain) : Writes (.method m) m.write

section
variable {c : Char}

theorem readLabel_miss (other : c ≠ ':') : readLabel (c :: s) = .miss := by
  unfold readLabel
  split
  · next same => exact absurd (List.cons.inj same).1 other
  · rfl

theorem readOperand_unbraced (brace : c ≠ '\x7b') : readOperand (c :: s) =
    ((readLabel (c :: s)).map .label).orElse fun _ => ((readString (c :: s)).map .string).orElse fun _ =>
    ((readInteger 64 (c :: s)).map .literal).orElse fun _ => ((readRegister (c :: s)).map .register).orElse fun _ =>
    readReference (c :: s) := by
  simp only [readOperand,readRegisterRange_miss brace,readRegisterList_miss brace,Reading.map_miss,
    Reading.orElse_miss]

theorem readOperand_unmarked (brace : c ≠ '\x7b') (colon : c ≠ ':') (quote : c ≠ '"') : readOperand (c :: s) =
    ((readInteger 64 (c :: s)).map .literal).orElse fun _ => ((readRegister (c :: s)).map .register).orElse fun _ =>
    readReference (c :: s) := by
  simp only [readOperand_unbraced brace,readLabel_miss colon,readString_miss quote,Reading.map_miss,
    Reading.orElse_miss]

end

theorem readLabel_label {name : String} (some' : name ≠ "") (word : ∀ c ∈ name.toList, isLabelChar c = true)
    (ends : Ends [','] rest) : readLabel (':' :: (name.toList ++ rest)) = .got name rest := by
  have stop : ∀ c ∈ rest.head?, isLabelChar c = false := by
    intro c first
    rcases ends.first c first with gap | comma
    · rcases gap_cases gap with rfl | rfl <;> rfl
    · cases List.mem_singleton.mp comma
      rfl
  have inside := takeWhile_stop word stop
  have full : name.toList ≠ [] := by simpa using some'
  simp [readLabel,inside,full]

def starts : List Char := ['L','[','I','Z','B','C','S','J','F','D','V']

-- A text that can only be taken for a reference, and for which one.
structure Reference (o : Operand) (s : List Char) : Prop where
  means : reference? s = some o
  bare : Bare [','] s
  first : ∃ c t, c ∈ starts ∧ s = c :: t

theorem plainType_first {text : String} (plain : PlainType text) (rest : List Char) :
    ∃ c t, c ∈ starts ∧ text.toList ++ rest = c :: t := by
  obtain ⟨t,plain,rfl⟩ := plain
  rw [Descriptor.text,String.toList_ofList]
  cases t <;> exact ⟨_,_,by decide,rfl⟩

theorem reference_type {text : String} (plain : PlainType text) : Reference (.type text) text.toList where
  means := by
    have arrow := cutAt_unarrowed plain.unarrowed
    obtain ⟨t,plain,rfl⟩ := plain
    have reads := Descriptor.ofText?_text plain.writable
    simp [reference?,arrow,reads]
  bare := plain.bare.mono (by decide)
  first := by
    have first := plainType_first plain []
    rwa [List.append_nil] at first

theorem reference_field {f : FieldRef} (plain : f.Plain) : Reference (.field f) f.write where
  means := by
    have arrow := cutAt_arrow plain.owner.unarrowed (f.name.toList ++ ':' :: f.type.write)
    have bracket : f.write.contains '(' = false := by simpa using plain.bare.unmarked (by decide)
    have reads := FieldRef.ofChars?_write plain
    have some' : (cutAt ['-','>'] f.write).isSome = true := by simp [FieldRef.write,arrow]
    rw [reference?,if_pos some',bracket,if_neg Bool.false_ne_true,reads]
    rfl
  bare := plain.bare.mono (by decide)
  first := by
    rw [FieldRef.write,List.append_assoc,List.append_assoc]
    exact plainType_first plain.owner _

theorem reference_method {m : MethodRef} (plain : m.Plain) : Reference (.method m) m.write where
  means := by
    have arrow := cutAt_arrow plain.owner.unarrowed (m.name.toList ++ m.proto.write)
    have bracket : m.write.contains '(' = true := by simp [MethodRef.write,Proto.write]
    have reads := MethodRef.ofChars?_write plain
    have some' : (cutAt ['-','>'] m.write).isSome = true := by simp [MethodRef.write,arrow]
    rw [reference?,if_pos some',if_pos bracket,reads]
    rfl
  bare := plain.bare
  first := by
    rw [MethodRef.write,List.append_assoc,List.append_assoc]
    exact plainType_first plain.owner _

theorem readReference_reference {o : Operand} (reference : Reference o s) (ends : Ends [','] rest) :
    readReference (s ++ rest) = .got o (skipGaps rest) := by
  obtain ⟨gaps,all,split⟩ := gaps_split rest
  have inside : ∀ c ∈ s ++ gaps, (c != ',') = true := by
    intro c member
    rw [bne_iff_ne]
    rcases List.mem_append.mp member with written | gap
    · exact fun comma => (reference.bare c written).2 (List.mem_singleton.mpr comma)
    · exact (gap_blank (all c gap)).2
  have stop : ∀ c ∈ (skipGaps rest).head?, (c != ',') = false := by
    intro c first
    simpa using ends c first
  have token : (s ++ rest).takeWhile (· != ',') = s ++ gaps := by
    rw [split,← List.append_assoc]
    exact takeWhile_stop inside stop
  have trimmed : trimEnd (s ++ gaps) = s :=
    trimEnd_append reference.bare.solid fun c member => (gap_blank (all c member)).1
  have some' : (s ++ gaps).isEmpty = false := by
    obtain ⟨c,t,_,rfl⟩ := reference.first
    rfl
  have left : (s ++ rest).drop (s ++ gaps).length = skipGaps rest := by
    rw [split,← List.append_assoc,List.drop_left,← split]
  unfold readReference
  simp only [token,some',Bool.false_eq_true,if_false,trimmed,reference.means,left]

theorem Reference.reads {o : Operand} (reference : Reference o s) : Reads readOperand [','] o s := by
  obtain ⟨c,t,start,rfl⟩ := reference.first
  have apart : isGap c = false ∧ c ≠ '\x7b' ∧ c ≠ ':' ∧ c ≠ '"' ∧ c ≠ '-' ∧ digit? 10 c = none ∧ c ≠ 'v' ∧ c ≠ 'p' := by
    simp only [starts,List.mem_cons,List.not_mem_nil,or_false] at start
    rcases start with rfl | rfl | rfl | rfl | rfl | rfl | rfl | rfl | rfl | rfl | rfl <;> decide
  obtain ⟨solid,brace,colon,quote,minus,digit,plain,parameter⟩ := apart
  constructor
  · exact fun rest => skipGaps_solid solid _
  · intro rest ends
    have reads := readReference_reference reference ends
    refine ⟨skipGaps rest,?_,skipGaps_skipGaps rest⟩
    rw [List.cons_append] at reads ⊢
    simp only [readOperand_unmarked brace colon quote,readInteger_miss minus digit,readRegister_miss plain parameter,
      Reading.map_miss,Reading.orElse_miss,reads]

theorem unmarked_of_digit {c : Char} {d : Nat} (value : digit? 10 c = some d) :
    isGap c = false ∧ c ≠ '\x7b' ∧ c ≠ ':' ∧ c ≠ '"' := by
  have other : ∀ mark, digit? 10 mark = none → c ≠ mark := by
    rintro mark strange rfl
    rw [strange] at value
    cases value
  refine ⟨?_,other _ rfl,other _ rfl,other _ rfl⟩
  simp only [isGap,Bool.or_eq_false_iff,beq_eq_false_iff_ne]
  exact ⟨other _ rfl,other _ rfl⟩

theorem Writes.reads {o : Operand} (writes : Writes o s) : Reads readOperand [','] o s := by
  cases writes with
  | register named =>
    obtain ⟨c,t,rfl,word⟩ := named.first
    have unmarked : isGap c = false ∧ c ≠ '\x7b' ∧ c ≠ ':' ∧ c ≠ '"' ∧ c ≠ '-' ∧ digit? 10 c = none := by
      rcases word with rfl | rfl <;> decide
    obtain ⟨solid,brace,colon,quote,minus,digit⟩ := unmarked
    refine .of_got solid fun rest ends => ?_
    have reads := readRegister_named named (ends.parted (by decide))
    rw [List.cons_append] at reads
    simp only [readOperand_unmarked brace colon quote,readInteger_miss minus digit,reads,Reading.map_miss,
      Reading.map_got,Reading.orElse_miss,Reading.orElse_got]
  | list writes =>
    obtain ⟨t,rfl⟩ := writes.first
    refine .of_got rfl fun rest ends => ?_
    have skips := readRegisterRange_list writes rest
    have reads := readRegisterList_written writes rest
    rw [List.cons_append] at skips reads
    simp only [readOperand,skips,reads,Reading.map_miss,Reading.map_got,Reading.orElse_miss,Reading.orElse_got]
  | range writes =>
    obtain ⟨t,rfl⟩ := writes.first
    refine .of_got rfl fun rest ends => ?_
    have reads := readRegisterRange_written writes rest
    rw [List.cons_append] at reads
    simp only [readOperand,reads,Reading.map_got,Reading.orElse_got]
  | label some' word =>
    refine .of_got rfl fun rest ends => ?_
    rw [readOperand_unbraced (by decide),readLabel_label some' word ends,Reading.map_got,Reading.orElse_got]
  | @literal v s suffix fits written width =>
    obtain ⟨c,t,rfl,first⟩ := written.first
    have unmarked : isGap c = false ∧ c ≠ '\x7b' ∧ c ≠ ':' ∧ c ≠ '"' := by
      rcases first with rfl | ⟨d,value⟩
      · decide
      · exact unmarked_of_digit value
    obtain ⟨solid,brace,colon,quote⟩ := unmarked
    rw [List.cons_append]
    refine .of_got solid fun rest ends => ?_
    have reads := readInteger_written (by decide) fits written width (ends.parted (by decide))
    rw [List.cons_append,← List.append_assoc] at reads
    rw [readOperand_unmarked brace colon quote,reads,Reading.map_got,Reading.orElse_got]
  | @string s body spelled =>
    rw [List.cons_append]
    refine .of_got rfl fun rest ends => ?_
    have reads := readString_spelled spelled rest
    rw [String.ofList_toList,List.cons_append] at reads
    rw [readOperand_unbraced (by decide),readLabel_miss (by decide),List.append_assoc,List.singleton_append,reads,
      Reading.map_miss,Reading.orElse_miss,Reading.map_got,Reading.orElse_got]
  | type plain => exact (reference_type plain).reads
  | field plain => exact (reference_field plain).reads
  | method plain => exact (reference_method plain).reads

end Source
end SmaliPrune
