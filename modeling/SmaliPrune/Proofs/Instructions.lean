import SmaliPrune.Proofs.Operands

namespace SmaliPrune.Source
open Text

theorem readOperands_read {operands : List Operand} {gap : Char} {lead text trail : List Char} (gap' : isGap gap = true)
    (gaps : Gaps lead) (gaps' : Gaps trail) (listed : Listed (Reads readOperand [',']) operands text) :
    ∃ left, readOperands (gap :: (lead ++ (text ++ trail))) = .got operands left ∧ skipGaps left = [] := by
  have ended := skipGaps_gaps gaps'
  have ends : Ends [','] trail := by
    intro c first
    rw [ended] at first
    cases first
  have last : (skipGaps trail).head? ≠ some ',' := by simp [ended]
  have nothing : readOperand (skipGaps trail) = .miss := by rw [ended]; rfl
  obtain ⟨left,reads,same⟩ := readItems_listed (by decide) listed ends last nothing
  refine ⟨left,?_,same.trans ended⟩
  rw [← skipGaps_append gaps] at reads
  rw [readOperands,if_pos gap']
  exact reads

def Mnemonic (name : String) : Prop := name ≠ "" ∧ name.toList.all isMnemonicChar = true

instance (name : String) : Decidable (Mnemonic name) := inferInstanceAs (Decidable (_ ∧ _))

theorem Mnemonic.chars {name : String} (word : Mnemonic name) : ∀ c ∈ name.toList, isMnemonicChar c = true :=
  List.all_eq_true.mp word.2

theorem instruction?_read {name : String} {operands : List Operand} {gap : Char} {lead text trail : List Char}
    (word : Mnemonic name) (gap' : isGap gap = true) (gaps : Gaps lead) (gaps' : Gaps trail)
    (listed : Listed (Reads readOperand [',']) operands text) :
    instruction? (name.toList ++ gap :: (lead ++ (text ++ trail))) = some (name,operands) := by
  have full : name.toList.isEmpty = false := by simpa using word.1
  have front : (name.toList ++ gap :: (lead ++ (text ++ trail))).takeWhile isMnemonicChar = name.toList := by
    refine takeWhile_stop word.chars fun c first => ?_
    cases first
    rcases gap_cases gap' with rfl | rfl <;> rfl
  obtain ⟨left,reads,ended⟩ := readOperands_read gap' gaps gaps' listed
  unfold instruction?
  simp only [front,full,Bool.false_eq_true,if_false,List.drop_left,reads,ended,List.isEmpty_nil,if_true,
    String.ofList_toList]

-- Reading an instruction undoes writing it: its mnemonic, a blank, and its operands with commas
-- between them.
theorem instruction?_written {name : String} {operands : List Operand} {lead text trail : List Char}
    (some' : name ≠ "") (mnemonic : ∀ c ∈ name.toList, isMnemonicChar c = true) (gaps : Gaps lead)
    (gaps' : Gaps trail) (listed : Listed Writes operands text) :
    instruction? (name.toList ++ ' ' :: (lead ++ (text ++ trail))) = some (name,operands) :=
  instruction?_read ⟨some',List.all_eq_true.mpr mnemonic⟩ rfl gaps gaps' (listed.imp fun _ _ => Writes.reads)

def mixed : List Operand :=
  [.list [.plain 0,.parameter 1],.string "a,\"b",.literal (-10),.method ⟨"LA;","f",⟨[.int],.void⟩⟩,.label "c"]

theorem instruction?_mixed :
    Listed Writes mixed "\x7bv0, p1\x7d,\"a,\\\"\\u0062\",-0xaL, LA;->f(I)V ,:c".toList ∧
      instruction? "op/x \x7bv0, p1\x7d,\"a,\\\"\\u0062\",-0xaL, LA;->f(I)V ,:c".toList = some ("op/x",mixed) := by
  have none : Gaps [] := by decide
  have gap : Gaps [' '] := by decide
  have list : Writes (.list [.plain 0,.parameter 1]) "\x7bv0, p1\x7d".toList :=
    .list (.braced none none (.cons (named_text (by decide)).1 (.cons none gap (named_text (by decide)).2 .nil)))
  have four : ['0','0','6','2'].length = 4 := rfl
  have spelled : Spelled ['a',',','"','b'] "a,\\\"\\u0062".toList :=
    .cons (.plain (by decide) (by decide)) (.cons (.plain (by decide) (by decide))
      (.cons (.letter (e := '"') (by decide)) (.cons (.unicode four (by decide)) .nil)))
  have string : Writes (.string "a,\"b") "\"a,\\\"\\u0062\"".toList := .string (s := "a,\"b") spelled
  have literal : Writes (.literal (-10)) "-0xaL".toList :=
    .literal (s := ['-','0','x','a']) (by decide) (.minusHex (.inl rfl) (by decide) (by decide))
      (.letter (.inl rfl))
  have owner : PlainType "LA;" := ⟨.object "A",⟨by decide,by decide,by decide⟩,rfl⟩
  have method : Writes (.method ⟨"LA;","f",⟨[.int],.void⟩⟩) "LA;->f(I)V".toList :=
    .method ⟨owner,⟨by decide,by decide⟩,by simp [Descriptor.Plain],trivial⟩
  have label : Writes (.label "c") ":c".toList := .label (by decide) (List.all_eq_true.mp (by decide))
  have some' : "op/x" ≠ "" := by decide
  have mnemonic : ∀ c ∈ "op/x".toList, isMnemonicChar c = true := List.all_eq_true.mp (by decide)
  have listed : Listed Writes mixed "\x7bv0, p1\x7d,\"a,\\\"\\u0062\",-0xaL, LA;->f(I)V ,:c".toList :=
    .cons list (.cons none none string (.cons none none literal (.cons none gap method (.cons gap none label .nil))))
  exact ⟨listed,instruction?_written some' mnemonic none none listed⟩

end SmaliPrune.Source
