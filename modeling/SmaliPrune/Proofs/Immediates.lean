import SmaliPrune.Proofs.Assembly
import SmaliPrune.Proofs.Instructions

namespace SmaliPrune

namespace Reading

variable {α β : Type} {r : Reading α} {f : α → β} {other : Unit → Reading α} {a : α} {b : β} {rest : List Char}

theorem map_eq_got : r.map f = .got b rest ↔ ∃ a, r = .got a rest ∧ f a = b := by
  cases r <;> simp [map,and_comm]

theorem orElse_eq_got : r.orElse other = .got a rest ↔ r = .got a rest ∨ r = .miss ∧ other () = .got a rest := by
  cases r <;> simp [orElse]

end Reading

-- The integer of thirty-two bits that an action keeps, and how many registers its line names
-- before it.
def Action.immediate? : Action → Option (Nat × Int32)
  | .const _ (.int v) => some (1,v)
  | .binary _ _ _ _ (.literal v) => some (2,v)
  | _ => none

def Form.immediate? : Form → Option Nat
  | .constInt => some 1
  | .binary _ _ false => some 2
  | _ => none

theorem Action.immediate?_form {a : Action} {form : Form} (formed : a.hasForm form = true) {k : Nat} {v : Int32}
    (immediate : a.immediate? = some (k,v)) : form.immediate? = some k := by
  unfold immediate? at immediate
  split at immediate
  · cases immediate
    cases form <;> first | rfl | cases formed
  · cases immediate
    cases form with
    | binary op type inPlace =>
      simp only [hasForm,Bool.and_eq_true,Bool.not_eq_true'] at formed
      rw [formed.2]
      rfl
    | _ => cases formed
  · cases immediate

namespace Source
open Text

section
variable {α : Type} {item : List Char → Reading α} {writes : α → List Char → Prop} {as bs : List α}
  {s t rest : List Char}

def Traced (item : List Char → Reading α) (writes : α → List Char → Prop) (a : α) : Prop :=
  ∀ s rest, item s = .got a rest → ∃ piece, s = piece ++ rest ∧ writes a piece

theorem readComma_split (comma : readComma s = .got () rest) :
    ∃ before behind, Gaps before ∧ Gaps behind ∧ s = before ++ ',' :: (behind ++ rest) := by
  obtain ⟨before,gaps,split'⟩ := gaps_split s
  cases first : skipGaps s with
  | nil => simp [readComma,first,readMark,after?] at comma
  | cons c t =>
    by_cases same : c = ','
    · subst c
      rw [readComma_got first] at comma
      cases comma
      obtain ⟨behind,gaps',split''⟩ := gaps_split t
      exact ⟨before,behind,gaps,gaps',by rw [← split'',← first]; exact split'⟩
    · rw [readComma_miss (by rw [first]; simpa using same)] at comma
      cases comma

theorem ends_comma (comma : readComma s = .got () rest) : Ends [','] s := by
  obtain ⟨before,behind,gaps,_,rfl⟩ := readComma_split comma
  exact ends_to gaps rfl (List.mem_singleton_self _) _

theorem ends_empty {marks : List Char} (whole : skipGaps s = []) : Ends marks s := by
  intro c first
  rw [whole] at first
  cases first

-- By induction on the first of the items: they stand one behind the other, with their commas,
-- and what is behind them begins with a comma or is nothing.
theorem readMore_front {most : Nat} (read : readMore item most s = .got (as ++ bs) rest) (whole : skipGaps rest = [])
    (traced : ∀ a ∈ as, Traced item writes a) : ∃ text tail, s = text ++ tail ∧ Following writes as text ∧ Ends [','] tail := by
  induction as generalizing s most with
  | nil =>
    refine ⟨[],s,rfl,.nil,?_⟩
    cases most with
    | zero =>
      cases read
      exact ends_empty whole
    | succ most =>
      rw [readMore] at read
      split at read
      · next comma => exact ends_comma comma
      · cases read
        exact ends_empty whole
  | cons a as ih =>
    cases most with
    | zero => cases read
    | succ most =>
      rw [readMore] at read
      split at read
      · next rest' comma =>
        split at read
        · next a' rest'' got =>
          obtain ⟨items,more,same⟩ := Reading.map_eq_got.mp read
          cases same
          obtain ⟨before,behind,gaps,gaps',rfl⟩ := readComma_split comma
          obtain ⟨piece,rfl,written⟩ := traced a List.mem_cons_self _ _ got
          obtain ⟨text,tail,rfl,others,ends⟩ := ih more fun a member => traced a (List.mem_cons_of_mem _ member)
          exact ⟨_,tail,by simp,.cons gaps gaps' written others,ends⟩
        · cases read
        · cases read
      · cases read

theorem readItems_front {a : α} (read : readItems item s = .got (a :: as ++ bs) rest) (whole : skipGaps rest = [])
    (traced : ∀ a' ∈ a :: as, Traced item writes a') :
    ∃ text tail, s = text ++ tail ∧ Listed writes (a :: as) text ∧ Ends [','] tail := by
  rw [readItems] at read
  split at read
  · next got =>
    obtain ⟨items,more,same⟩ := Reading.map_eq_got.mp read
    cases same
    obtain ⟨piece,rfl,written⟩ := traced a List.mem_cons_self _ _ got
    obtain ⟨text,tail,rfl,others,ends⟩ := readMore_front more whole fun a member => traced a (List.mem_cons_of_mem _ member)
    exact ⟨_,tail,by simp,.cons written others,ends⟩
  · cases read
  · cases read

theorem Following.split (following : Following writes (as ++ bs) t) :
    ∃ t₁ t₂, t = t₁ ++ t₂ ∧ Following writes as t₁ ∧ Following writes bs t₂ := by
  induction as generalizing t with
  | nil => exact ⟨[],t,rfl,.nil,following⟩
  | cons a as ih =>
    cases following with
    | cons gaps gaps' item others =>
      obtain ⟨t₁,t₂,rfl,first,second⟩ := ih others
      exact ⟨_,t₂,by simp,.cons gaps gaps' item first,second⟩

theorem Following.append {t₁ t₂ : List Char} (first : Following writes as t₁) (second : Following writes bs t₂) :
    Following writes (as ++ bs) (t₁ ++ t₂) := by
  induction first with
  | nil => exact second
  | cons gaps gaps' item _ ih =>
    rw [List.append_assoc,List.cons_append,List.cons_append,List.append_assoc,List.append_assoc]
    exact .cons gaps gaps' item ih

end

inductive Shown : Operand → List Char → Prop where
  | register {r : RegisterName} {s : List Char} (named : Named r s) : Shown (.register r) s
  | literal {negative hex : Bool} {n : Nat} {v : Int} {s : List Char} (literal : Literal negative hex n s)
      (denotes : denoted? 64 negative hex n = some v) : Shown (.literal v) s

variable {s rest : List Char} {r : RegisterName} {v : Int}

theorem readReference_kind {o : Operand} (read : readReference s = .got o rest) :
    (∀ r, o ≠ .register r) ∧ ∀ v, o ≠ .literal v := by
  unfold readReference reference? at read
  dsimp only at read
  split at read
  · cases read
  · split at read
    · next found =>
      cases read
      split at found
      · split at found
        all_goals
          obtain ⟨_,_,rfl⟩ := Option.map_eq_some_iff.mp found
          exact ⟨nofun,nofun⟩
      · obtain ⟨_,_,rfl⟩ := Option.map_eq_some_iff.mp found
        exact ⟨nofun,nofun⟩
    · cases read

theorem readOperand_register (read : readOperand s = .got (.register r) rest) : readRegister s = .got r rest := by
  simp only [readOperand,Reading.orElse_eq_got,Reading.map_eq_got,reduceCtorEq,and_false,exists_false,false_or,
    Operand.register.injEq,exists_eq_right] at read
  rcases read with ⟨_,_,_,_,_,got | ⟨_,reference⟩⟩
  · exact got
  · exact absurd rfl ((readReference_kind reference).1 r)

theorem readOperand_literal (read : readOperand s = .got (.literal v) rest) : readInteger 64 s = .got v rest := by
  simp only [readOperand,Reading.orElse_eq_got,Reading.map_eq_got,reduceCtorEq,and_false,exists_false,false_or,
    Operand.literal.injEq,exists_eq_right] at read
  rcases read with ⟨_,_,_,_,got | ⟨_,_,reference⟩⟩
  · exact got
  · exact absurd rfl ((readReference_kind reference).2 v)

theorem readRegister_split (read : readRegister s = .got r rest) : ∃ piece, s = piece ++ rest ∧ Named r piece := by
  unfold readRegister at read
  split at read
  · cases read
  · next c t =>
    split at read
    · next word =>
      split at read
      · cases read
      · next ds rest' some' run =>
        obtain ⟨digits,rfl,whole⟩ := digitRun_split run
        have numeral := Numeral.of_run whole some'
        by_cases small : ofDigits 10 ds ≤ registerLimit
        · simp only [if_pos small,Reading.got.injEq] at read
          obtain ⟨rfl,rfl⟩ := read
          refine ⟨c :: digits,rfl,?_⟩
          simp only [Bool.or_eq_true,beq_iff_eq] at word
          rcases word with rfl | rfl
          · exact .plain numeral small
          · exact .parameter numeral small
        · simp only [if_neg small,reduceCtorEq] at read
    · cases read

theorem traced_register (r : RegisterName) : Traced readOperand Shown (.register r) := by
  intro s rest read
  obtain ⟨piece,split',named⟩ := readRegister_split (readOperand_register read)
  exact ⟨piece,split',.register named⟩

theorem traced_literal (v : Int) : Traced readOperand Shown (.literal v) := by
  intro s rest read
  obtain ⟨negative,hex,n,piece,split',literal,denotes⟩ := readInteger_literal (readOperand_literal read)
  exact ⟨piece,split',.literal literal denotes⟩

theorem instruction?_front {line : List Char} {name : String} {o : Operand} {os others : List Operand}
    (read : instruction? line = some (name,o :: os ++ others)) (traced : ∀ o' ∈ o :: os, Traced readOperand Shown o') :
    ∃ gap lead text tail, isGap gap = true ∧ Gaps lead ∧ line = name.toList ++ gap :: (lead ++ (text ++ tail)) ∧
      Listed Shown (o :: os) text ∧ Ends [','] tail := by
  unfold instruction? at read
  dsimp only at read
  split at read
  · cases read
  · split at read
    · next operands rest' got =>
      split at read
      · next whole =>
        simp only [Option.some.injEq,Prod.mk.injEq] at read
        obtain ⟨rfl,rfl⟩ := read
        have line' : line = line.takeWhile isMnemonicChar ++ line.drop (line.takeWhile isMnemonicChar).length :=
          (List.prefix_iff_eq_append.mp (List.takeWhile_prefix _)).symm
        generalize line.drop (line.takeWhile isMnemonicChar).length = behind at got line'
        unfold readOperands at got
        split at got
        · cases got
        · next c behind =>
          split at got
          · next gap =>
            obtain ⟨lead,gaps,split'⟩ := gaps_split behind
            obtain ⟨text,tail,front,listed,ends⟩ := readItems_front got (List.isEmpty_iff.mp whole) traced
            rw [String.toList_ofList]
            exact ⟨c,lead,text,tail,gap,gaps,by rw [← front,← split']; exact line',listed,ends⟩
          · cases got
      · cases read
    · cases read

inductive Immediate (name : String) (rs : List RegisterName) (negative hex : Bool) (n : Nat) (tail : List Char) :
    List Char → Prop where
  | line {gap : Char} {lead front before behind piece : List Char} (gap' : isGap gap = true) (gaps : Gaps lead)
      (registers : Listed Named rs front) (apart : Gaps before) (apart' : Gaps behind)
      (literal : Literal negative hex n piece) (ends : Ends [','] tail) :
      Immediate name rs negative hex n tail
        (name.toList ++ gap :: (lead ++ (front ++ (before ++ ',' :: (behind ++ (piece ++ tail))))))

theorem following_named {rs : List RegisterName} {t : List Char} (following : Following Shown (rs.map .register) t) :
    Following Named rs t := by
  induction rs generalizing t with
  | nil =>
    cases following
    exact .nil
  | cons r rs ih =>
    cases following with
    | cons gaps gaps' item others =>
      cases item with
      | register named => exact .cons gaps gaps' named (ih others)

theorem listed_immediate {r : RegisterName} {rs : List RegisterName} {text : List Char}
    (listed : Listed Shown (.register r :: (rs.map .register ++ [.literal v])) text) :
    ∃ negative hex n front before behind piece, text = front ++ (before ++ ',' :: (behind ++ piece)) ∧
      Listed Named (r :: rs) front ∧ Gaps before ∧ Gaps behind ∧ Literal negative hex n piece ∧
      denoted? 64 negative hex n = some v := by
  cases listed with
  | cons item others =>
    cases item with
    | register named =>
      obtain ⟨t₁,t₂,rfl,registers,last⟩ := others.split
      cases last with
      | cons gaps gaps' item nothing =>
        cases nothing
        cases item with
        | literal literal denotes =>
          exact ⟨_,_,_,_,_,_,_,by simp,.cons named (following_named registers),gaps,gaps',literal,denotes⟩

-- An integer that is kept is the one written behind the registers, as far as its lowest
-- thirty-two bits go. Where these have room for what is written, nothing is lost.
def Stores (line : List Char) (name : String) (count : Nat) (v : Int32) : Prop :=
  ∃ rs negative hex n tail, Immediate name rs negative hex n tail line ∧ rs.length = count ∧
    Room 64 negative hex n ∧ v.toInt = (signed negative n).bmod (1 <<< 32) ∧
    (Room 32 negative hex n → denoted? 32 negative hex n = some v.toInt)

theorem stores_of_read {line : List Char} {name : String} {r : RegisterName} {rs : List RegisterName}
    {others : List Operand}
    (read : instruction? line = some (name,.register r :: (rs.map .register ++ [.literal v]) ++ others)) :
    Stores line name (rs.length + 1) (Int32.ofInt v) := by
  have traced : ∀ o ∈ .register r :: (rs.map .register ++ [.literal v]), Traced readOperand Shown o := by
    intro o member
    simp only [List.mem_cons,List.mem_append,List.mem_map,List.not_mem_nil,or_false] at member
    rcases member with rfl | ⟨q,_,rfl⟩ | rfl
    · exact traced_register r
    · exact traced_register q
    · exact traced_literal v
  obtain ⟨gap,lead,text,tail,gap',gaps,rfl,listed,ends⟩ := instruction?_front read traced
  obtain ⟨negative,hex,n,front,before,behind,piece,rfl,registers,apart,apart',literal,denotes⟩ := listed_immediate listed
  obtain ⟨room,rfl⟩ := (denoted?_iff (by decide)).mp denotes
  have kept : (Int32.ofInt ((signed negative n).bmod (1 <<< 64))).toInt = (signed negative n).bmod (1 <<< 32) := by
    rw [Int32.toInt_ofInt]
    exact Int.bmod_bmod_of_dvd (by decide)
  refine ⟨r :: rs,negative,hex,n,tail,?_,rfl,room,kept,fun room' => ?_⟩
  · simp only [List.append_assoc,List.cons_append]
    exact .line gap' gaps registers apart apart' literal ends
  · rw [kept]
    exact (denoted?_iff (by decide)).mpr ⟨room',rfl⟩

theorem Immediate.read {line tail : List Char} {name : String} {rs : List RegisterName} {negative hex : Bool} {n : Nat}
    (immediate : Immediate name rs negative hex n tail line) (word : Mnemonic name) (named : rs ≠ []) (gaps : Gaps tail)
    (room : Room 64 negative hex n) :
    instruction? line = some (name,rs.map .register ++ [.literal ((signed negative n).bmod (1 <<< 64))]) := by
  cases immediate with
  | @line gap lead front before behind piece gap' gaps' registers apart apart' literal ends =>
    have denotes := (denoted?_iff (by decide)).mpr ⟨room,rfl⟩
    obtain ⟨body,suffix,rfl,width,fits,written⟩ := literal.written (by decide) denotes
    have last : Reads readOperand [','] (.literal ((signed negative n).bmod (1 <<< 64))) (body ++ suffix) :=
      (Writes.literal fits written width).reads
    have others : ∀ {rs : List RegisterName} {t : List Char}, Following Named rs t →
        Following (Reads readOperand [',']) (rs.map .register) t := by
      intro rs t following
      induction following with
      | nil => exact .nil
      | cons gaps gaps' item _ ih => exact .cons gaps gaps' (Writes.register item).reads ih
    cases registers with
    | nil => exact absurd rfl named
    | @cons r rs s t first following =>
      have whole : Listed (Reads readOperand [',']) (.register r :: (rs.map .register ++
          [.literal ((signed negative n).bmod (1 <<< 64))])) (s ++ (t ++ (before ++ ',' :: (behind ++ ((body ++ suffix) ++ []))))) :=
        .cons (Writes.register first).reads ((others following).append (.cons apart apart' last .nil))
      have read := instruction?_read word gap' gaps' gaps whole
      simpa using read

section
variable {f : Frame} {operands : List Operand} {o : Opcode} {i : Instr} {line : List Char}

theorem Slots.register_ok {s : Slots} {k d : Nat} (found : s.register k = .ok d) :
    ∃ r, s.operands[k]? = some (.register r) := by
  obtain ⟨operand,here,resolved⟩ := bind_ok.mp found
  unfold get at here
  split at here
  · next known =>
    cases here
    cases operand with
    | register r => exact ⟨r,known⟩
    | _ => cases resolved
  · cases here

theorem Slots.literal_ok {s : Slots} {k : Nat} {n : Int} (found : s.literal k = .ok n) :
    s.operands[k]? = some (.literal n) := by
  obtain ⟨operand,here,same⟩ := bind_ok.mp found
  unfold get at here
  split at here
  · next known =>
    cases here
    cases operand with
    | literal => cases same; exact known
    | _ => cases same
  · cases here

theorem Slots.immediate_ok {a : Action} {k : Nat} {v : Int32} (ok : (Slots.mk f operands).action o = .ok a)
    (immediate : a.immediate? = some (k,v)) :
    ∃ (r : RegisterName) (rs : List RegisterName) (w : Int) (others : List Operand),
      operands = .register r :: (rs.map .register ++ [.literal w]) ++ others ∧ rs.length + 1 = k ∧
        v = Int32.ofInt w := by
  have takes := Action.immediate?_form (action_ok ok).1 immediate
  unfold Form.immediate? at takes
  split at takes
  · next form =>
    simp only [action,form,bind_ok] at ok
    obtain ⟨_,dest,w,literal,last⟩ := ok
    cases last
    cases immediate
    obtain ⟨r,first⟩ := register_ok dest
    have second := literal_ok literal
    dsimp only at first second
    match operands,first,second with
    | .register r :: .literal w :: others,rfl,rfl => exact ⟨r,[],w,others,rfl,rfl,rfl⟩
  · next form =>
    simp only [action,form,bind_ok] at ok
    obtain ⟨_,dest,_,left,rhs,right,last⟩ := ok
    cases last
    obtain ⟨r,first⟩ := register_ok dest
    obtain ⟨q,second⟩ := register_ok left
    unfold Slots.rhs at right
    split at right
    · next same =>
      cases right
      cases immediate
      dsimp only at first second same
      subst same
      cases first
      cases second
      exact ⟨r,[q],_,[],rfl,rfl,rfl⟩
    · obtain ⟨_,_,last⟩ := bind_ok.mp right
      cases last
      cases immediate
  · cases takes

theorem Slots.immediate_kept {rs : List RegisterName} {w : Int} (takes : o.form.immediate? = some rs.length)
    (resolved : ∀ r ∈ rs, ∃ d, f.resolve r = .ok d) : ∃ a, (Slots.mk f (rs.map .register ++ [.literal w])).action o = .ok a ∧
      a.immediate? = some (rs.length,Int32.ofInt w) := by
  unfold Form.immediate? at takes
  split at takes
  · next form =>
    match rs,takes with
    | [r],_ =>
      obtain ⟨d,dest⟩ := resolved r (by simp)
      have first : (Slots.mk f [.register r,.literal w]).register 0 = .ok d := dest
      have last : (Slots.mk f [.register r,.literal w]).literal 1 = .ok w := rfl
      exact ⟨_,by simp only [action,form,bind_ok]; exact ⟨d,first,w,last,rfl⟩,rfl⟩
  · next op type form =>
    match rs,takes with
    | [r,q],_ =>
      obtain ⟨d,dest⟩ := resolved r (by simp)
      obtain ⟨x,left⟩ := resolved q (by simp)
      have first : (Slots.mk f [.register r,.register q,.literal w]).register 0 = .ok d := dest
      have second : (Slots.mk f [.register r,.register q,.literal w]).register 1 = .ok x := left
      have last : (Slots.mk f [.register r,.register q,.literal w]).rhs = .ok (.literal (Int32.ofInt w)) := rfl
      exact ⟨_,by simp only [action,form,bind_ok]; exact ⟨d,first,x,second,_,last,rfl⟩,rfl⟩
  · cases takes

theorem const_forms : ∀ o ∈ Opcode.catalogue, o.name ∈ ["const","const/4","const/16","const/high16"] →
    o.form = .constInt := by decide +kernel

theorem immediate_mnemonics : ∀ o ∈ Opcode.catalogue, o.form.immediate?.isSome = true → Mnemonic o.name := by
  decide +kernel

theorem Assembled.stores (assembled : Assembled f line i) {k : Nat} {v : Int32}
    (immediate : i.action.immediate? = some (k,v)) : Stores line i.opcode.name k v := by
  obtain ⟨operands,coded,action⟩ := assembled
  obtain ⟨_,read⟩ := coded?_iff.mp coded
  obtain ⟨r,rs,w,others,rfl,rfl,rfl⟩ := Slots.immediate_ok action immediate
  exact stores_of_read read

theorem Assembled.keeps (assembled : Assembled f line i)
    (const : i.opcode.name ∈ ["const","const/4","const/16","const/high16"]) : ∃ v, i.action.immediate? = some (1,v) := by
  obtain ⟨operands,coded,action⟩ := assembled
  have form := const_forms _ (named?_ok (coded?_iff.mp coded).1).1 const
  simp only [Slots.action,form,bind_ok] at action
  obtain ⟨_,_,w,_,last⟩ := action
  rw [← Except.ok.inj last]
  exact ⟨_,rfl⟩

theorem Immediate.assembled {name : String} {line tail : List Char} {rs : List RegisterName} {negative hex : Bool} {n : Nat}
    (immediate : Immediate name rs negative hex n tail line) (named : Opcode.named? name = some o)
    (takes : o.form.immediate? = some rs.length) (gaps : Gaps tail) (room : Room 64 negative hex n)
    (resolved : ∀ r ∈ rs, ∃ d, f.resolve r = .ok d) : ∃ a, Assembled f line ⟨0,o,a⟩ ∧
      a.immediate? = some (rs.length,Int32.ofInt (signed negative n)) := by
  obtain ⟨listed,rfl⟩ := named?_ok named
  have word := immediate_mnemonics o listed (by rw [takes]; rfl)
  have some' : rs ≠ [] := by
    rintro rfl
    unfold Form.immediate? at takes
    split at takes <;> cases takes
  have read := immediate.read word some' gaps room
  obtain ⟨a,action,kept⟩ := Slots.immediate_kept takes resolved
  have same : Int32.ofInt ((signed negative n).bmod (1 <<< 64)) = Int32.ofInt (signed negative n) := by
    rw [← Int32.toInt_inj,Int32.toInt_ofInt,Int32.toInt_ofInt]
    exact Int.bmod_bmod_of_dvd (by decide)
  rw [same] at kept
  exact ⟨a,⟨_,coded?_iff.mpr ⟨named,read⟩,action⟩,kept⟩

end

-- A constant of a method and the literal of a binary instruction are congruent, modulo two to
-- the thirty-second, to what their lines say: the same number where thirty-two bits have room
-- for it. What they have no room for is not refused unless sixty-four bits have none either.
theorem method_stores {owner : String} {text : List Char} {m : Method} (loaded : method owner text = .ok m) :
    ∃ f : Frame, f.Holds m ∧
      List.Forall₂ (fun line i => Assembled f line i ∧
        (i.opcode.name ∈ ["const","const/4","const/16","const/high16"] → ∃ v, i.action.immediate? = some (1,v)) ∧
        ∀ k v, i.action.immediate? = some (k,v) → Stores line i.opcode.name k v) (instructions (body text)) m.code ∧
      ∀ name o, Opcode.named? name = some o → ∀ rs negative hex n tail line,
        Immediate name rs negative hex n tail line → o.form.immediate? = some rs.length → Gaps tail →
        Room 64 negative hex n → (∀ r ∈ rs, ∃ d, f.resolve r = .ok d) →
          ∃ a, Assembled f line ⟨0,o,a⟩ ∧ a.immediate? = some (rs.length,Int32.ofInt (signed negative n)) := by
  obtain ⟨f,holds,_,_,assembled⟩ := method_assembles loaded
  refine ⟨f,holds,assembled.imp fun _ _ here => ⟨here,here.keeps,fun _ _ immediate => here.stores immediate⟩,?_⟩
  intro name o named rs negative hex n tail line immediate takes gaps room resolved
  exact immediate.assembled named takes gaps room resolved

def clipped : List Char := ofLines [
  ".method static run(I)I",".registers 2","const/4 v0, 0xffffffff","add-int/lit8 v0, p0, -7t","const v0, 0x1ffffffff",
  "return v0",".end method"]

theorem clipped_loads : ∃ m, method "La;" clipped = .ok m ∧
    m.code.map (fun i => (i.opcode.name,i.action.immediate?)) =
      [("const/4",some (1,-1)),("add-int/lit8",some (2,-7)),("const",some (1,-1)),("return",none)] := by
  obtain ⟨_,ok⟩ := exists_of_isOk (x := do
    let m ← method "La;" clipped
    if m.code.map (fun i => (i.opcode.name,i.action.immediate?)) =
      [("const/4",some (1,-1)),("add-int/lit8",some (2,-7)),("const",some (1,-1)),("return",none)] then pure ()
      else throw ⟨.emptyMethod,[]⟩) (by decide +kernel)
  obtain ⟨m,loaded,ok⟩ := bind_ok.mp ok
  split at ok
  · next shown => exact ⟨m,loaded,shown⟩
  · cases ok

theorem clipped_lines : instructions (body clipped) = ["const/4 v0, 0xffffffff".toList,
    "add-int/lit8 v0, p0, -7t".toList,"const v0, 0x1ffffffff".toList,"return v0".toList] := by decide +kernel

theorem clipped_stores : ∃ m, method "La;" clipped = .ok m ∧
    Stores "const/4 v0, 0xffffffff".toList "const/4" 1 (-1) ∧
    Stores "add-int/lit8 v0, p0, -7t".toList "add-int/lit8" 2 (-7) := by
  obtain ⟨m,loaded,shown⟩ := clipped_loads
  obtain ⟨f,_,each,_⟩ := method_stores loaded
  rw [clipped_lines] at each
  obtain ⟨i,_,⟨_,_,stores⟩,each,code⟩ := List.forall₂_cons_left_iff.mp each
  obtain ⟨j,_,⟨_,_,stores'⟩,_,rfl⟩ := List.forall₂_cons_left_iff.mp each
  rw [code] at shown
  simp only [List.map_cons,List.cons.injEq,Prod.mk.injEq] at shown
  obtain ⟨⟨name,first⟩,⟨name',second⟩,_⟩ := shown
  rw [name] at stores
  rw [name'] at stores'
  exact ⟨m,loaded,stores 1 (-1) first,stores' 2 (-7) second⟩

-- The third number is more than thirty-two bits have room for and cannot be read there, but
-- in the method it is stored, without its highest bit.
theorem clipped_clips : ∃ m, method "La;" clipped = .ok m ∧
    instructions (body clipped) = ["const/4 v0, 0xffffffff".toList,"add-int/lit8 v0, p0, -7t".toList,
      "const v0, ".toList ++ "0x1ffffffff".toList,"return v0".toList] ∧
    Literal false true 8589934591 "0x1ffffffff".toList ∧ ¬signed false 8589934591 < 4294967296 ∧
    readInteger 32 "0x1ffffffff".toList = .bad ∧
    m.code.map (fun i => (i.opcode.name,i.action.immediate?)) =
      [("const/4",some (1,-1)),("add-int/lit8",some (2,-7)),("const",some (1,-1)),("return",none)] := by
  obtain ⟨m,loaded,shown⟩ := clipped_loads
  have digits : Numeral 16 "1ffffffff".toList 8589934591 := by decide
  exact ⟨m,loaded,clipped_lines,.hex (.inl rfl) digits .none,by decide,by decide,shown⟩

end Source
end SmaliPrune
