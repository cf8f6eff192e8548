import SmaliPrune.Proofs.Directives

namespace SmaliPrune.Source

def instructions (lines : List Line) : List (List Char) :=
  lines.filterMap fun
    | .instruction text => some text
    | _ => none

def coded? (text : List Char) : Option (Opcode × List Operand) :=
  (instruction? text).bind fun read => (Opcode.named? read.1).map fun opcode => (opcode,read.2)

def Assembled (f : Frame) (text : List Char) (i : Instr) : Prop :=
  ∃ operands, coded? text = some (i.opcode,operands) ∧ (Slots.mk f operands).action i.opcode = .ok i.action

def Line.sizes : Line → Bool
  | .registers _ | .locals _ => true
  | _ => false

def Line.size? (ins : Nat) : Line → Option Nat
  | .registers text => count? text
  | .locals text => (count? text).map fun n => min (n + ins) registerLimit
  | _ => none

def reserved? (ins : Nat) : List Line → Option Nat
  | [] => none
  | line :: rest => (reserved? ins rest).or (line.size? ins)

def LocalsOf (lines : List Line) (n : Nat) : Prop :=
  ∃ before count after, lines = before ++ .locals count :: after ∧ count? count = some n ∧
    ∀ line ∈ after, line.sizes = false

structure Frame.Holds (f : Frame) (m : Method) : Prop where
  registers : f.registers = m.registers
  base : f.base + m.ins = m.registers

theorem named?_ok {name : String} {o : Opcode} (named : Opcode.named? name = some o) :
    o ∈ Opcode.catalogue ∧ o.name = name := by
  unfold Opcode.named? at named
  have same := List.find?_some named
  exact ⟨List.mem_of_find?_eq_some named,beq_iff_eq.mp same⟩

theorem coded?_iff {text : List Char} {o : Opcode} {operands : List Operand} :
    coded? text = some (o,operands) ↔ Opcode.named? o.name = some o ∧ instruction? text = some (o.name,operands) := by
  unfold coded?
  constructor
  · intro coded
    obtain ⟨⟨name,_⟩,read,coded⟩ := Option.bind_eq_some_iff.mp coded
    obtain ⟨o,named,same⟩ := Option.map_eq_some_iff.mp coded
    cases same
    obtain ⟨_,rfl⟩ := named?_ok named
    exact ⟨named,read⟩
  · rintro ⟨named,read⟩
    rw [read,Option.bind_some,named]
    rfl

theorem instructions_cons (line : Line) (lines : List Line) :
    instructions (line :: lines) = instructions [line] ++ instructions lines :=
  List.filterMap_append (l := [line])

theorem count?_le {text : List Char} {n : Nat} (counted : count? text = some n) : n ≤ registerLimit := by
  unfold count? at counted
  split at counted
  · split at counted
    · next inside =>
      cases counted
      omega
    · cases counted
  · cases counted

theorem count_ok {text : List Char} {n : Nat} (counted : count text = .ok n) : count? text = some n := by
  unfold count at counted
  split at counted
  · next known =>
    cases counted
    exact known
  · cases counted

theorem size?_le {ins n : Nat} {line : Line} (sized : line.size? ins = some n) : n ≤ registerLimit := by
  cases line with
  | registers text => exact count?_le sized
  | locals text =>
    obtain ⟨l,_,rfl⟩ := Option.map_eq_some_iff.mp sized
    exact Nat.min_le_right _ _
  | _ => cases sized

theorem reserved?_le {ins n : Nat} {lines : List Line} (reserved : reserved? ins lines = some n) :
    n ≤ registerLimit := by
  induction lines with
  | nil => cases reserved
  | cons line rest ih =>
    rcases Option.or_eq_some_iff.mp reserved with later | ⟨_,here⟩
    · exact ih later
    · exact size?_le here

theorem reserved?_sizeless {ins : Nat} {lines : List Line} (sizeless : ∀ line ∈ lines, line.sizes = false) :
    reserved? ins lines = none := by
  induction lines with
  | nil => rfl
  | cons line rest ih =>
    have none : line.size? ins = none := by
      have other := sizeless line List.mem_cons_self
      cases line with
      | registers | locals => cases other
      | _ => rfl
    rw [reserved?,ih fun line member => sizeless line (List.mem_cons_of_mem _ member),none]
    rfl

theorem LocalsOf.le {lines : List Line} {l : Nat} (locals : LocalsOf lines l) : l ≤ registerLimit := by
  obtain ⟨_,_,_,_,counted,_⟩ := locals
  exact count?_le counted

theorem reserved?_locals {ins l : Nat} {lines : List Line} (locals : LocalsOf lines l) :
    reserved? ins lines = some (min (l + ins) registerLimit) := by
  obtain ⟨before,count,after,rfl,counted,sizeless⟩ := locals
  induction before with
  | nil =>
    rw [List.nil_append,reserved?,reserved?_sizeless sizeless,Option.none_or,Line.size?,counted]
    rfl
  | cons line before ih =>
    rw [List.cons_append,reserved?,ih]
    rfl

theorem forall₂_compose {α β γ : Type} {R : α → β → Prop} {S : β → γ → Prop} {xs : List α} {ys : List β} {zs : List γ}
    (first : List.Forall₂ R xs ys) (second : List.Forall₂ S ys zs) :
    List.Forall₂ (fun x z => ∃ y, R x y ∧ S y z) xs zs := by
  induction first generalizing zs with
  | nil =>
    cases second
    exact .nil
  | cons head _ ih =>
    cases second with
    | cons head' tail' => exact .cons ⟨_,head,head'⟩ (ih tail')

structure Draft.Holds (d : Draft) (texts : List (List Char)) (size : Option Nat) : Prop where
  pending : List.Forall₂ (fun text p => coded? text = some (p.opcode,p.operands)) texts d.pending.reverse
  registers : d.registers = size

theorem Draft.start_holds : Draft.start.Holds [] none := ⟨.nil,rfl⟩

theorem Draft.add_holds {d e : Draft} {ins n : Nat} {line : Line} {texts : List (List Char)} {size : Option Nat}
    (holds : d.Holds texts size) (ok : d.add ins n line = .ok e) :
    e.Holds (texts ++ instructions [line]) ((line.size? ins).or size) := by
  have same : ∀ {other : Line}, instructions [other] = [] → texts ++ instructions [other] = texts := by
    intro other none
    rw [none,List.append_nil]
  cases line with
  | registers text =>
    simp only [add,bind_ok] at ok
    obtain ⟨l,counted,last⟩ := ok
    cases last
    rw [same rfl]
    exact ⟨holds.pending,by simp only [Line.size?,count_ok counted,Option.some_or]⟩
  | locals text =>
    simp only [add,bind_ok] at ok
    obtain ⟨l,counted,last⟩ := ok
    cases last
    rw [same rfl]
    exact ⟨holds.pending,by simp only [Line.size?,count_ok counted,Option.map_some,Option.some_or]⟩
  | payload => cases ok
  | remark | directive | methodEnd | label =>
    cases ok
    rw [same rfl]
    exact ⟨holds.pending,holds.registers⟩
  | guard text =>
    simp only [add] at ok
    split at ok
    · cases ok
      rw [same rfl]
      exact ⟨holds.pending,holds.registers⟩
    · cases ok
  | instruction text =>
    simp only [add] at ok
    split at ok
    · cases ok
    · next name operands read =>
      split at ok
      · cases ok
      · next opcode named =>
        cases ok
        have coded : coded? text = some (opcode,operands) := by simp [coded?,read,named]
        refine ⟨?_,holds.registers⟩
        rw [List.reverse_cons]
        exact List.rel_append holds.pending (.cons coded .nil)

theorem Draft.collect_holds {d e : Draft} {ins : Nat} {lines : List (Nat × List Char)} {texts : List (List Char)}
    {size : Option Nat} (holds : d.Holds texts size) (ok : collect ins d lines = .ok (some e)) :
    e.Holds (texts ++ instructions (bodyOf d.skipping lines)) ((reserved? ins (bodyOf d.skipping lines)).or size) := by
  induction lines generalizing d texts size with
  | nil => cases ok
  | cons l rest ih =>
    obtain ⟨n,line⟩ := l
    simp only [collect] at ok
    split at ok
    · next skipping =>
      have more := ih (d := if startsWith ".end annotation" line then { d with skipping := false } else d)
        (by split <;> exact ⟨holds.pending,holds.registers⟩) ok
      cases ends : startsWith ".end annotation" line with
      | true => simpa [bodyOf,skipping,ends] using more
      | false => simpa [bodyOf,skipping,ends] using more
    · next reading =>
      rw [Bool.not_eq_true] at reading
      split at ok
      · next ended =>
        cases ok
        simpa [bodyOf,reading,ended,instructions,reserved?] using holds
      · next continues =>
        obtain ⟨f,added,more⟩ := bind_ok.mp ok
        have added := within_ok.mp added
        have skipping := (add_reads added).2.2.1
        rw [reading,Bool.or_false] at skipping
        have rest := ih (add_holds holds added) more
        rw [skipping] at rest
        rw [reading,bodyOf_more continues,instructions_cons,← List.append_assoc,reserved?,Option.or_assoc]
        exact rest

theorem Draft.finish_holds {d : Draft} {owner : String} {h : Header} {m : Method} {texts : List (List Char)}
    {size : Option Nat} (holds : d.Holds texts size) (ok : d.finish owner h = .ok m) :
    ∃ f : Frame, f.Holds m ∧ m.owner = owner ∧ m.ins = h.ins ∧ m.registers = size.getD m.ins ∧
      List.Forall₂ (Assembled f) texts m.code := by
  unfold finish at ok
  dsimp only at ok
  split at ok
  · cases ok
  · next large =>
    obtain ⟨code,assembled,rest⟩ := bind_ok.mp ok
    obtain ⟨table,_,last⟩ := bind_ok.mp rest
    cases last
    let registers := d.registers.getD h.ins
    refine ⟨⟨d.labels,registers - h.ins,registers⟩,⟨rfl,?_⟩,rfl,rfl,by rw [← holds.registers]; rfl,?_⟩
    · exact Nat.sub_add_cancel (Nat.le_of_not_lt large)
    · have each := mapM_ok assembled
      refine List.Forall₂.imp (fun text i => ?_) (forall₂_compose holds.pending each)
      rintro ⟨p,coded,ok⟩
      obtain ⟨a,action,last⟩ := bind_ok.mp (within_ok.mp ok)
      cases last
      exact ⟨p.operands,coded,action⟩

-- A method has the instructions that its lines hold, in their order and in one frame. The
-- frame is as large as the last directive says, or as the arguments need.
theorem method_assembles {owner : String} {text : List Char} {m : Method} (loaded : method owner text = .ok m) :
    ∃ f : Frame, f.Holds m ∧ m.owner = owner ∧ m.registers = (reserved? m.ins (body text)).getD m.ins ∧
      List.Forall₂ (Assembled f) (instructions (body text)) m.code := by
  unfold method at loaded
  split at loaded
  · cases loaded
  · next n first rest split' =>
    obtain ⟨h,_,loaded⟩ := bind_ok.mp loaded
    dsimp only at loaded
    obtain ⟨d?,collected,loaded⟩ := bind_ok.mp (within_ok.mp loaded)
    split at loaded
    · cases loaded
    · have lines : body text = bodyOf Draft.start.skipping rest := by
        rw [body,split']
        rfl
      have holds := Draft.collect_holds Draft.start_holds collected
      rw [← lines,List.nil_append,Option.or_none] at holds
      obtain ⟨f,framed,owned,ins,registers,assembled⟩ := Draft.finish_holds holds loaded
      exact ⟨f,framed,owned,by rw [ins] at registers ⊢; exact registers,assembled⟩

end SmaliPrune.Source
