import SmaliPrune.Instr.Effect
import SmaliPrune.Method.Basic
import SmaliPrune.Opcode.Catalogue

namespace SmaliPrune

def Action.hasForm : Action → Form → Bool
  | .nop,.nop | .move ..,.move | .moveResult _,.moveResult | .moveException _,.moveException => true
  | .const _ (.int _),.constInt | .const _ (.long _),.constLong => true
  | .const _ (.string _),.constString | .const _ (.classOf _),.constClass => true
  | .leave none,.returnVoid | .leave (some _),.returnValue | .goto _,.goto => true
  | .branch test _ none _,.ifZero t | .branch test _ (some _) _,.ifPair t => test == t
  | .arrayLength ..,.arrayLength | .arrayPut ..,.arrayPut => true
  | .arrayGet _ _ _ element,.arrayGet e => element == e
  | .fieldGet ..,.fieldGet | .fieldPut ..,.fieldPut | .staticGet ..,.staticGet | .staticPut ..,.staticPut => true
  | .newInstance ..,.newInstance | .newArray ..,.newArray => true
  | .checkCast ..,.checkCast | .instanceOf ..,.instanceOf => true
  | .invoke kind _ _,.invoke k => kind == k
  | .monitor _ enter,.monitor e => enter == e
  | .throw _,.throw => true
  | .binary op type dest a (.register _),.binary o t inPlace => op == o && type == t && (!inPlace || dest == a)
  | .binary op type _ _ (.literal _),.binary o t inPlace => op == o && type == t && !inPlace
  | .generic _,.other => true
  | _,_ => false

def Form.departs : Form → Bool
  | .returnVoid | .returnValue | .goto | .throw => true
  | _ => false

def Action.departs : Action → Bool
  | .leave _ | .goto _ | .throw _ => true
  | _ => false

theorem Action.departs_of_form {action : Action} {form : Form} (formed : action.hasForm form = true) :
    form.departs = action.departs := by
  unfold hasForm at formed
  split at formed
  all_goals first | rfl | cases formed

-- Whether an exception can come of the opcodes of a form, where all of them have that in common.
def Form.throws? : Form → Option Bool
  | .checkCast | .throw => some true
  | .goto | .ifZero _ | .ifPair _ => some false
  | _ => none

def Action.throws? : Action → Option Bool
  | .checkCast .. | .throw _ => some true
  | .goto _ | .branch .. => some false
  | _ => none

theorem Action.throws?_of_form {action : Action} {form : Form} (formed : action.hasForm form = true) :
    form.throws? = action.throws? := by
  unfold hasForm at formed
  split at formed
  all_goals first | rfl | cases formed

namespace Instr

def Catalogued (i : Instr) : Prop := i.opcode ∈ Opcode.catalogue ∧ i.action.hasForm i.opcode.form = true

instance (i : Instr) : Decidable i.Catalogued := inferInstanceAs (Decidable (_ ∧ _))

-- What every opcode there is keeps to: a cast can throw and no constant is a float.
structure Regular (i : Instr) : Prop where
  castThrows : ∀ reg type, i.action = .checkCast reg type → i.canThrow = true
  constExact : ∀ dest v, i.action = .const dest v → v.isFloating = false

theorem throws_of_form : ∀ o ∈ Opcode.catalogue, ∀ throws, o.form.throws? = some throws → o.traits.throws = throws := by
  decide +kernel

theorem canThrow_of_action {i : Instr} (catalogued : i.Catalogued) {throws : Bool}
    (known : i.action.throws? = some throws) : i.canThrow = throws :=
  throws_of_form i.opcode catalogued.1 throws ((Action.throws?_of_form catalogued.2).trans known)

theorem others_continue : ∀ o ∈ Opcode.catalogue, o.form.departs = false → o.traits.continues = true := by
  decide +kernel

theorem canContinue_of_action {i : Instr} (catalogued : i.Catalogued) (stays : i.action.departs = false) :
    i.canContinue = true :=
  others_continue i.opcode catalogued.1 ((Action.departs_of_form catalogued.2).trans stays)

theorem const_exact {i : Instr} (catalogued : i.Catalogued) {dest : Nat} {v : Value}
    (action : i.action = .const dest v) : v.isFloating = false := by
  have formed := catalogued.2
  rw [action] at formed
  cases v with
  | float | double => cases form : i.opcode.form <;> rw [form] at formed <;> cases formed
  | _ => rfl

theorem Catalogued.regular {i : Instr} (catalogued : i.Catalogued) : i.Regular :=
  ⟨fun _ _ action => canThrow_of_action catalogued (by rw [action]; rfl),fun _ _ => const_exact catalogued⟩

theorem isMoveResult_of_action {i : Instr} (catalogued : i.Catalogued) {dest : Nat}
    (action : i.action = .moveResult dest) : i.isMoveResult = true := by
  have formed := catalogued.2
  rw [action] at formed
  unfold isMoveResult
  cases form : i.opcode.form with
  | moveResult => rfl
  | _ =>
    rw [form] at formed
    cases formed

end Instr

def Method.Catalogued (m : Method) : Prop := ∀ i ∈ m.code, i.Catalogued

def Method.Regular (m : Method) : Prop := ∀ i ∈ m.code, i.Regular

theorem Method.Catalogued.regular {m : Method} (catalogued : m.Catalogued) : m.Regular :=
  fun i member => (catalogued i member).regular

instance (m : Method) : Decidable m.Catalogued := inferInstanceAs (Decidable (∀ i ∈ m.code, i.Catalogued))

end SmaliPrune
