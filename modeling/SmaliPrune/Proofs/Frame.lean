import SmaliPrune.Proofs.Assembly
import SmaliPrune.Proofs.Nodes

namespace SmaliPrune

theorem Descriptor.words_pos (t : Descriptor) : 0 < t.words := by
  unfold words
  split <;> decide

theorem total_take_le {α : Type} (weight : α → Nat) (as : List α) (k : Nat) :
    total weight (as.take k) ≤ total weight as := by
  have whole := total_append weight (as.take k) (as.drop k)
  rw [List.take_append_drop] at whole
  omega

namespace Bindings

theorem put_last {r : Register} {v : Value} {es : List (Register × Value)} (above : ∀ e ∈ es, e.1.before r = true) :
    put r v es = es ++ [(r,v)] := by
  induction es with
  | nil => rfl
  | cons e es ih =>
    obtain ⟨q,w⟩ := e
    have less := above (q,w) List.mem_cons_self
    have other : r ≠ q := by
      rintro rfl
      rw [Register.before_irrefl] at less
      cases less
    have later : ¬r.before q = true := fun more => by
      have circle := Register.before_trans less more
      rw [Register.before_irrefl] at circle
      cases circle
    rw [put,if_neg other,if_neg later,ih fun e member => above e (List.mem_cons_of_mem _ member),List.cons_append]

theorem entries_setAll {b : Bindings} {ws : List (Register × Value)}
    (ascending : (b.entries ++ ws).Pairwise fun a c => a.1.before c.1 = true) : (b.setAll ws).entries = b.entries ++ ws := by
  induction ws generalizing b with
  | nil => exact (List.append_nil _).symm
  | cons w ws ih =>
    have above : ∀ e ∈ b.entries, e.1.before w.1 = true :=
      fun e member => (List.pairwise_append.mp ascending).2.2 e member w List.mem_cons_self
    have entries : (b.set w.1 w.2).entries = b.entries ++ [w] := put_last above
    have rest := ih (b := b.set w.1 w.2) (by rw [entries,List.append_assoc]; exact ascending)
    rw [entries,List.append_assoc] at rest
    exact rest

end Bindings

namespace Method

variable {m : Method} {n : Nat} {types : List Descriptor}

theorem argumentBindings_length : (argumentBindings n types).length = types.length := by
  induction types generalizing n with
  | nil => rfl
  | cons t rest ih => rw [argumentBindings,List.length_cons,List.length_cons,ih]

theorem argumentBindings_inside :
    ∀ e ∈ argumentBindings n types, ∃ r, e.1 = .numbered r ∧ n ≤ r ∧ r < n + total Descriptor.words types := by
  induction types generalizing n with
  | nil => exact fun _ member => absurd member List.not_mem_nil
  | cons t rest ih =>
    have some' := t.words_pos
    intro e member
    simp only [total]
    rcases List.mem_cons.mp member with rfl | later
    · exact ⟨n,rfl,Nat.le_refl n,by omega⟩
    · obtain ⟨r,same,least,most⟩ := ih e later
      exact ⟨r,same,by omega,by omega⟩

theorem argumentBindings_ascending : (argumentBindings n types).Pairwise fun a b => a.1.before b.1 = true := by
  induction types generalizing n with
  | nil => exact .nil
  | cons t rest ih =>
    refine .cons (fun e member => ?_) ih
    obtain ⟨r,same,least,_⟩ := argumentBindings_inside e member
    have some' := t.words_pos
    rw [same]
    simp only [Register.before,decide_eq_true_eq]
    omega

theorem argumentBindings_at (k : Nat) : (argumentBindings n types)[k]? =
    types[k]?.map fun t => (.numbered (n + total Descriptor.words (types.take k)),.unknown t.text) := by
  induction types generalizing n k with
  | nil => rfl
  | cons t rest ih =>
    cases k with
    | zero => rfl
    | succ k =>
      rw [argumentBindings,List.getElem?_cons_succ,ih,List.getElem?_cons_succ,List.take_succ_cons]
      simp only [total,Nat.add_assoc]

def receiver (m : Method) : Nat := if m.isStatic then 0 else 1

def wordAt (m : Method) (k : Nat) : Nat := m.receiver + total Descriptor.words (m.proto.args.take k)

theorem ins_eq (m : Method) : m.ins = m.proto.words + m.receiver := rfl

theorem wordAt_le (m : Method) (k : Nat) : m.wordAt k ≤ m.ins := by
  have part := total_take_le Descriptor.words m.proto.args k
  rw [wordAt,ins_eq,Proto.words]
  omega

theorem wordAt_lt {k : Nat} {t : Descriptor} (here : m.proto.args[k]? = some t) : m.wordAt k < m.ins := by
  obtain ⟨inside,rfl⟩ := List.getElem?_eq_some_iff.mp here
  have some' := (m.proto.args[k]).words_pos
  have next := total_append Descriptor.words (m.proto.args.take k) [m.proto.args[k]]
  have whole := total_take_le Descriptor.words m.proto.args (k + 1)
  rw [← List.take_append_getElem inside,next] at whole
  simp only [total] at whole
  rw [wordAt,ins_eq,Proto.words]
  omega

theorem frameBindings_length (m : Method) : m.frameBindings.length = m.proto.args.length + m.receiver := by
  unfold frameBindings receiver
  dsimp only
  split
  · exact argumentBindings_length
  · rw [List.length_cons,argumentBindings_length]

theorem frameBindings_inside (m : Method) :
    ∀ e ∈ m.frameBindings, ∃ r, e.1 = .numbered r ∧ r < m.registers - m.ins + m.ins := by
  have ins := m.ins_eq
  unfold receiver Proto.words at ins
  intro e member
  cases static' : m.isStatic with
  | true =>
    simp only [frameBindings,static',if_true] at member ins
    obtain ⟨r,same,_,most⟩ := argumentBindings_inside e member
    exact ⟨r,same,by omega⟩
  | false =>
    simp only [frameBindings,static',Bool.false_eq_true,if_false] at member ins
    rcases List.mem_cons.mp member with rfl | later
    · exact ⟨_,rfl,by omega⟩
    · obtain ⟨r,same,_,most⟩ := argumentBindings_inside e later
      exact ⟨r,same,by omega⟩

theorem frameBindings_ascending (m : Method) : m.frameBindings.Pairwise fun a b => a.1.before b.1 = true := by
  unfold frameBindings
  dsimp only
  split
  · exact argumentBindings_ascending
  · refine .cons (fun e member => ?_) argumentBindings_ascending
    obtain ⟨r,same,least,_⟩ := argumentBindings_inside e member
    rw [same]
    simp only [Register.before,decide_eq_true_eq]
    omega

theorem frameBindings_receiver (instance' : m.isStatic = false) :
    ((.numbered (m.registers - m.ins),.unknown m.owner) : Register × Value) ∈ m.frameBindings := by
  unfold frameBindings
  simp [instance']

theorem frameBindings_argument {k : Nat} {t : Descriptor} (here : m.proto.args[k]? = some t) :
    ((.numbered (m.registers - m.ins + m.wordAt k),.unknown t.text) : Register × Value) ∈ m.frameBindings := by
  unfold frameBindings wordAt receiver
  dsimp only
  split
  · refine List.mem_of_getElem? (i := k) ?_
    rw [argumentBindings_at,here,Option.map_some,Nat.zero_add]
  · refine List.mem_cons_of_mem _ (List.mem_of_getElem? (i := k) ?_)
    rw [argumentBindings_at,here,Option.map_some,Nat.add_assoc]

theorem entries_initialState {s : PathState} (entered : m.initialState = .ok s) :
    s.bindings.entries = m.frameBindings := by
  rw [initialState_bindings entered]
  exact Bindings.entries_setAll m.frameBindings_ascending

theorem peek_initialState {s : PathState} (entered : m.initialState = .ok s) {e : Register × Value}
    (bound : e ∈ m.frameBindings) : s.peek e.1 = some e.2 :=
  Bindings.find?_of_mem s.bindings.sorted (entries_initialState entered ▸ bound)

-- The registers on entry, by the names that the instructions have for them: one for each
-- parameter and one for the receiver, all different and inside the frame, and of each no
-- more is known than its type.
structure Enters (m : Method) (f : Source.Frame) (s : PathState) : Prop where
  count : s.bindings.entries.length = m.proto.args.length + m.receiver
  distinct : (s.bindings.entries.map Prod.fst).Nodup
  inside : ∀ e ∈ s.bindings.entries, ∃ n < m.registers, e.1 = .numbered n
  receiver : m.isStatic = false →
    ∃ n, f.resolve (.parameter 0) = .ok n ∧ s.peek (.numbered n) = some (.unknown m.owner)
  argument : ∀ k t, m.proto.args[k]? = some t →
    ∃ n, f.resolve (.parameter (m.wordAt k)) = .ok n ∧ s.peek (.numbered n) = some (.unknown t.text)

-- The sums and differences from which the registers of arguments are found fit sixteen bits:
-- words added up one argument after the other, the base of the frame, the registers counted
-- up from it, and the register that a name stands for.
structure Unwrapped (m : Method) (f : Source.Frame) : Prop where
  words : ∀ k, total Descriptor.words (m.proto.args.take k) ≤ Source.registerLimit
  ins : m.ins ≤ m.registers
  registers : m.registers ≤ Source.registerLimit
  counted : ∀ k, f.base + m.wordAt k ≤ m.registers
  named : ∀ n r, f.resolve (.parameter n) = .ok r ↔ r = f.base + n ∧ n < m.ins

end Method

namespace Source
open Method

variable {m : Method} {f : Frame}

theorem Frame.Holds.ins_le (holds : f.Holds m) : m.ins ≤ m.registers := by
  have base := holds.base
  omega

theorem Frame.Holds.base_eq (holds : f.Holds m) : f.base = m.registers - m.ins := by
  have base := holds.base
  omega

theorem Frame.Holds.resolve (holds : f.Holds m) (n r : Nat) :
    f.resolve (.parameter n) = .ok r ↔ r = f.base + n ∧ n < m.ins := by
  have base := holds.base
  rw [Frame.resolve,holds.registers]
  split
  · next inside =>
    constructor
    · intro same
      cases same
      exact ⟨rfl,by omega⟩
    · rintro ⟨rfl,_⟩
      rfl
  · next outside =>
    constructor
    · intro same
      cases same
    · rintro ⟨_,small⟩
      omega

theorem Frame.Holds.enters (holds : f.Holds m) : ∃ s, m.initialState = .ok s ∧ m.Enters f s := by
  have entered : m.initialState = .ok ((PathState.start m.registers).assignAll m.frameBindings) := if_pos holds.ins_le
  have entries := entries_initialState entered
  have base := holds.base_eq
  refine ⟨_,entered,?_,?_,?_,fun instance' => ?_,fun k t here => ?_⟩
  · rw [entries,frameBindings_length]
  · rw [entries,List.Nodup,List.pairwise_map]
    refine m.frameBindings_ascending.imp fun {a b} less same => ?_
    rw [same,Register.before_irrefl] at less
    cases less
  · intro e member
    rw [entries] at member
    obtain ⟨r,same,small⟩ := m.frameBindings_inside e member
    exact ⟨r,by rwa [Nat.sub_add_cancel holds.ins_le] at small,same⟩
  · have some' : 0 < m.ins := by
      rw [ins_eq,receiver,instance']
      exact Nat.succ_pos _
    have bound := peek_initialState entered (frameBindings_receiver instance')
    rw [← base] at bound
    exact ⟨_,(holds.resolve 0 _).mpr ⟨rfl,some'⟩,bound⟩
  · have bound := peek_initialState entered (frameBindings_argument here)
    rw [← base] at bound
    exact ⟨_,(holds.resolve _ _).mpr ⟨rfl,wordAt_lt here⟩,bound⟩

theorem Frame.Holds.unwrapped (holds : f.Holds m) (few : m.registers ≤ registerLimit) : m.Unwrapped f where
  words k := by
    have part := total_take_le Descriptor.words m.proto.args k
    have ins := m.ins_eq
    have base := holds.ins_le
    rw [Proto.words] at ins
    omega
  ins := holds.ins_le
  registers := few
  counted k := by
    have part := m.wordAt_le k
    have base := holds.base
    omega
  named := holds.resolve

theorem registers_le {size : Option Nat} (registers : m.registers = size.getD m.ins)
    (limited : ∀ n, size = some n → n ≤ registerLimit) (few : m.proto.words ≤ 65534) : m.registers ≤ registerLimit := by
  rw [registers]
  cases size with
  | some n => exact limited n rfl
  | none => exact Proto.words_fit few m.isStatic

theorem method_enters {owner : String} {text : List Char} (loaded : method owner text = .ok m)
    (few : m.proto.words ≤ 65534) :
    ∃ (f : Frame) (s : PathState), f.Holds m ∧ List.Forall₂ (Assembled f) (instructions (body text)) m.code ∧
      m.owner = owner ∧ m.initialState = .ok s ∧ m.Enters f s ∧ m.Unwrapped f := by
  obtain ⟨f,holds,owned,registers,assembled⟩ := method_assembles loaded
  obtain ⟨s,entered,enters⟩ := holds.enters
  have limited := registers_le registers (fun _ => reserved?_le) few
  exact ⟨f,s,holds,assembled,owned,entered,enters,holds.unwrapped limited⟩

def packed : List Char := ofLines [
  ".method run(JILjava/lang/String;D)V",".locals 2","move-wide v0, p1","return-void",".end method"]

theorem packed_loads : ∃ m, method "La;" packed = .ok m ∧ m.isStatic = false ∧ m.registers = 9 ∧
    m.proto.args = [.long,.int,.object "java/lang/String",.double] := by
  obtain ⟨_,ok⟩ := exists_of_isOk (x := do
    let m ← method "La;" packed
    if m.isStatic = false ∧ m.registers = 9 ∧ m.proto.args = [.long,.int,.object "java/lang/String",.double] then pure ()
      else throw ⟨.emptyMethod,[]⟩) (by decide +kernel)
  obtain ⟨m,loaded,ok⟩ := bind_ok.mp ok
  split at ok
  · next facts => exact ⟨m,loaded,facts⟩
  · cases ok

theorem packed_enters : ∃ (m : Method) (f : Frame) (s : PathState), method "La;" packed = .ok m ∧
    m.proto.words ≤ 65534 ∧ m.initialState = .ok s ∧ f.resolve (.parameter 3) = .ok 5 ∧
    s.peek (.numbered 5) = some (.unknown "I") := by
  obtain ⟨m,loaded,instance',registers,args⟩ := packed_loads
  have words : m.proto.words = 6 := by rw [Proto.words,args]; rfl
  have few : m.proto.words ≤ 65534 := by omega
  obtain ⟨f,s,holds,_,_,entered,enters,unwrapped⟩ := method_enters loaded few
  have receiver : m.receiver = 1 := by simp [receiver,instance']
  have third : m.wordAt 1 = 3 := by rw [wordAt,receiver,args]; rfl
  have base : f.base = 2 := by
    have base := holds.base
    rw [ins_eq] at base
    omega
  obtain ⟨n,named,bound⟩ := enters.argument 1 .int (by rw [args]; rfl)
  rw [third] at named
  obtain ⟨rfl,_⟩ := (unwrapped.named 3 n).mp named
  rw [base] at named bound
  exact ⟨m,f,s,loaded,few,entered,named,bound⟩

-- Of `l` locals, the last ones are registers of parameters as well if both together are more
-- than sixteen bits count: the parameters then begin where they just fit.
theorem method_locals {owner : String} {text : List Char} {l : Nat} (loaded : method owner text = .ok m)
    (locals : LocalsOf (body text) l) :
    ∃ f : Frame, List.Forall₂ (Assembled f) (instructions (body text)) m.code ∧
      m.registers = min (l + m.ins) registerLimit ∧
      (∀ n < m.ins, f.resolve (.parameter n) = .ok (min l (registerLimit - m.ins) + n)) ∧
      ((∀ n < m.ins, ∀ v < l, f.resolve (.parameter n) ≠ f.resolve (.plain v)) ↔ l + m.ins ≤ registerLimit) := by
  obtain ⟨f,holds,_,registers,assembled⟩ := method_assembles loaded
  rw [reserved?_locals locals,Option.getD_some] at registers
  have base := holds.base
  have few := locals.le
  have shifted : f.base = min l (registerLimit - m.ins) := by omega
  have named : ∀ n < m.ins, f.resolve (.parameter n) = .ok (f.base + n) :=
    fun n small => (holds.resolve n _).mpr ⟨rfl,small⟩
  refine ⟨f,assembled,registers,fun n small => by rw [named n small,shifted],?_,?_⟩
  · intro apart
    by_cases room : l + m.ins ≤ registerLimit
    · exact room
    · have some' : 0 < m.ins := by omega
      exact absurd (named 0 some') (apart 0 some' f.base (by omega))
  · intro room n small v local' same
    rw [named n small] at same
    cases same
    omega

theorem packed_locals : ∃ (m : Method) (f : Frame), method "La;" packed = .ok m ∧ LocalsOf (body packed) 2 ∧
    f.resolve (.parameter 0) = .ok 2 ∧ f.resolve (.parameter 0) ≠ f.resolve (.plain 1) := by
  obtain ⟨m,loaded,instance',registers,args⟩ := packed_loads
  have ins : m.ins = 7 := by
    rw [ins_eq,Proto.words,args,receiver,instance']
    rfl
  have locals : LocalsOf (body packed) 2 :=
    ⟨[]," 2".toList,[.instruction "move-wide v0, p1".toList,.instruction "return-void".toList],by decide +kernel,
      by decide +kernel,by decide⟩
  obtain ⟨f,_,_,named,apart⟩ := method_locals loaded locals
  have first := named 0 (by omega)
  have room : 2 + m.ins ≤ registerLimit := by
    rw [ins]
    decide
  rw [ins] at first
  exact ⟨m,f,loaded,locals,first,apart.mpr room 0 (by omega) 1 (by decide)⟩

def crowded : List Char := ofLines [
  ".method static run(I)I",".locals 65535","const v65534, 0x5","return p0",".end method"]

-- The parameter that is returned is the local that has been assigned before.
theorem crowded_shares : ∃ (m : Method) (f : Frame), method "La;" crowded = .ok m ∧ LocalsOf (body crowded) 65535 ∧
    m.ins = 1 ∧ List.Forall₂ (Assembled f) ["const v65534, 0x5".toList,"return p0".toList] m.code ∧
    f.resolve (.parameter 0) = f.resolve (.plain 65534) := by
  obtain ⟨_,ok⟩ := exists_of_isOk (x := do
    let m ← method "La;" crowded
    if m.ins = 1 ∧ m.registers = 65535 then pure () else throw ⟨.emptyMethod,[]⟩) (by decide +kernel)
  obtain ⟨m,loaded,ok⟩ := bind_ok.mp ok
  have locals : LocalsOf (body crowded) 65535 :=
    ⟨[]," 65535".toList,[.instruction "const v65534, 0x5".toList,.instruction "return p0".toList],by decide +kernel,
      by decide +kernel,by decide⟩
  have lines : instructions (body crowded) = ["const v65534, 0x5".toList,"return p0".toList] := by decide +kernel
  obtain ⟨f,holds,_,_,assembled⟩ := method_assembles loaded
  rw [lines] at assembled
  split at ok
  · next facts =>
    obtain ⟨ins,registers⟩ := facts
    have base := holds.base
    have first : f.base = 65534 := by omega
    have named := (holds.resolve 0 _).mpr ⟨rfl,by omega⟩
    rw [first] at named
    exact ⟨m,f,loaded,locals,ins,assembled,named⟩
  · cases ok

end Source
end SmaliPrune
