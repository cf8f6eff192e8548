import SmaliPrune.Proofs.Conformance
import SmaliPrune.Proofs.Nodes
import SmaliPrune.Prune.Candidates

namespace SmaliPrune

def Action.reference? : Action → Option Nat
  | .checkCast reg _ | .throw reg => some reg
  | .instanceOf _ src _ => some src
  | _ => none

namespace Bindings

def Alike (b c : Bindings) : Prop :=
  ∀ r, b.lookup r = c.lookup r ∨ (b.lookup r = some (.int 0) ∧ c.lookup r = some .null)

theorem alike_null {b : Bindings} {r : Register} (zero : b.lookup r = some (.int 0)) : Alike b (b.set r .null) := by
  intro q
  rw [lookup_set]
  by_cases here : q = r
  · rw [if_pos here,here]
    exact Or.inr ⟨zero,rfl⟩
  · rw [if_neg here]
    exact Or.inl rfl

theorem Alike.set {b c : Bindings} (alike : Alike b c) (r : Register) {v w : Value}
    (values : v = w ∨ (v = .int 0 ∧ w = .null)) : Alike (b.set r v) (c.set r w) := by
  intro q
  rw [lookup_set,lookup_set]
  by_cases here : q = r
  · rw [if_pos here,if_pos here]
    exact values.imp (congrArg some) fun both => ⟨congrArg some both.1,congrArg some both.2⟩
  · rw [if_neg here,if_neg here]
    exact alike q

end Bindings

namespace Instr
open Bindings

def ActsAlike (i : Instr) (h : Hierarchy) (registers : Nat) (b c : Bindings) : Prop :=
  (i.effect (Method.answer? h i b) b).flow = (i.effect (Method.answer? h i c) c).flow ∧
    Alike (i.run (Method.answer? h i b) b registers).bindings (i.run (Method.answer? h i c) c registers).bindings

variable {i : Instr} {h : Hierarchy} {b : Bindings} {src registers : Nat}

theorem effect_null_cast {type : String} (action : i.action = .checkCast src type) (answer : Option Bool) :
    i.effect answer (b.set (.numbered src) .null) = ⟨[(.numbered src,.null)],i.onward⟩ := by
  simp only [effect,action,read_set_self]

theorem effect_null_test {dest : Nat} {type : String} (action : i.action = .instanceOf dest src type)
    (answer : Option Bool) : i.effect answer (b.set (.numbered src) .null) = ⟨[(.numbered dest,.int 0)],i.onward⟩ := by
  simp only [effect,action,read_set_self]

theorem effect_null_throw (action : i.action = .throw src) (answer : Option Bool) :
    i.effect answer (b.set (.numbered src) .null) = ⟨[],.raise (some "Ljava/lang/NullPointerException;")⟩ := by
  simp only [effect,action,read_set_self]

theorem cast_takes_zero {type : String} (action : i.action = .checkCast src type)
    (zero : b.lookup (.numbered src) = some (.int 0)) :
    i.ActsAlike h registers b (b.set (.numbered src) .null) ↔ h.isInstance "I" type ≠ .ok false := by
  have number := read_of_lookup zero
  have asks : i.action.question? b = some ("I",type) := by simp [Action.question?,action,number,Value.typeName]
  have kept := (alike_null zero).set (.numbered src) (Or.inr ⟨rfl,rfl⟩)
  unfold ActsAlike
  rw [run_bindings,run_bindings,Method.answer?_of_question asks,effect_null_cast action]
  simp only [effect,action,number]
  cases h.isInstance "I" type with
  | error missing => exact iff_of_true ⟨rfl,kept⟩ (by simp)
  | ok yes =>
    cases yes with
    | true => exact iff_of_true ⟨rfl,kept⟩ (by simp)
    | false => exact iff_of_false (fun alike => absurd alike.1 (by simp [Except.toOption,onward])) fun other => other rfl

theorem test_takes_zero {dest : Nat} {type : String} (action : i.action = .instanceOf dest src type)
    (zero : b.lookup (.numbered src) = some (.int 0)) :
    i.ActsAlike h registers b (b.set (.numbered src) .null) ↔ h.isInstance "I" type = .ok false := by
  have number := read_of_lookup zero
  have asks : i.action.question? b = some ("I",type) := by simp [Action.question?,action,number,Value.typeName]
  have differ : ∀ v, v ≠ .int 0 → ¬ Alike (b.set (.numbered dest) v)
      ((b.set (.numbered src) .null).set (.numbered dest) (.int 0)) := by
    intro v other alike
    have here := alike (.numbered dest)
    rw [lookup_set,lookup_set,if_pos rfl,if_pos rfl] at here
    rcases here with same | ⟨_,null⟩
    · exact other (Option.some.inj same)
    · cases null
  unfold ActsAlike
  rw [run_bindings,run_bindings,Method.answer?_of_question asks,effect_null_test action]
  simp only [effect,action,number,true_and]
  cases h.isInstance "I" type with
  | error missing => exact iff_of_false (differ (.unknown "Z") (by simp)) (by simp)
  | ok yes =>
    cases yes with
    | true => exact iff_of_false (differ (.int 1) (by simp)) (by simp)
    | false => exact iff_of_true ((alike_null zero).set _ (Or.inl rfl)) rfl

theorem throw_takes_zero (action : i.action = .throw src) (zero : b.lookup (.numbered src) = some (.int 0)) :
    ¬ i.ActsAlike h registers b (b.set (.numbered src) .null) := by
  intro alike
  have flows := alike.1
  rw [effect_null_throw action] at flows
  simp [effect,action,read_of_lookup zero,Value.typeName] at flows

-- Zero is how null is written, and passes for it where a number is or may be of the type to
-- cast to, and where it is known to be none of the type to test for. It is never thrown as
-- null is.
theorem zero_taken_for_null (refers : i.action.reference? = some src) (zero : b.lookup (.numbered src) = some (.int 0)) :
    i.ActsAlike h registers b (b.set (.numbered src) .null) ↔
      match i.action with
      | .checkCast _ type => h.isInstance "I" type ≠ .ok false
      | .instanceOf _ _ type => h.isInstance "I" type = .ok false
      | _ => False := by
  cases action : i.action with
  | checkCast reg type =>
    rw [action] at refers
    cases refers
    exact cast_takes_zero action zero
  | instanceOf dest reg type =>
    rw [action] at refers
    cases refers
    exact test_takes_zero action zero
  | throw reg =>
    rw [action] at refers
    cases refers
    exact iff_of_false (throw_takes_zero action zero) id
  | _ =>
    rw [action] at refers
    cases refers

theorem comparing_zero : (Hierarchy.casting "Ljava/lang/Comparable;").ActsAlike .library 1
    (.set .empty (.numbered 0) (.int 0)) ((Bindings.set .empty (.numbered 0) (.int 0)).set (.numbered 0) .null) := by
  have refers : (Hierarchy.casting "Ljava/lang/Comparable;").action.reference? = some 0 := rfl
  have comparable : Hierarchy.library.isInstance "I" "Ljava/lang/Comparable;" = .ok true := by decide +kernel
  apply (zero_taken_for_null refers rfl).mpr
  exact fun refused => nomatch comparable.symm.trans refused

end Instr

namespace Bindings

def NullFree (b : Bindings) : Prop := ∀ r, b.lookup r ≠ some .null

theorem NullFree.read {b : Bindings} (free : NullFree b) (r : Register) : b.read r ≠ .null := by
  intro null
  have bound := lookup_of_read (b := b) (r := r) (by rw [null]; rfl)
  exact free r (null ▸ bound)

theorem NullFree.setAll {b : Bindings} {ws : List (Register × Value)} (free : NullFree b)
    (others : ∀ w ∈ ws, w.2 ≠ .null) : NullFree (b.setAll ws) := by
  unfold Bindings.setAll
  induction ws generalizing b with
  | nil => exact free
  | cons w rest ih =>
    apply ih _ fun u member => others u (List.mem_cons_of_mem _ member)
    intro r
    rw [lookup_set]
    split
    · exact fun null => others w List.mem_cons_self (Option.some.inj null)
    · exact free r

theorem Blurs.nullFree {a b : Bindings} (blurs : Blurs a b) (free : NullFree b) : NullFree a := by
  intro r null
  rcases blurs r with ⟨missing,_⟩ | ⟨v,w,here,there,blur⟩
  · rw [null] at missing
    cases missing
  · rw [null] at here
    cases here
    rcases blur with unknown | rfl | same
    · cases unknown
    · exact free r there
    · cases w with
      | null => exact free r there
      | _ => cases same

end Bindings

theorem Value.not_null_of_unknown {v : Value} (unknown : v.isUnknown = true) : v ≠ .null := by
  intro null
  rw [null] at unknown
  cases unknown

theorem Arithmetic.outcome_not_null (op : BinaryOp) (type : NumType) (a b : Value) : outcome op type a b ≠ .null := by
  unfold outcome
  cases result : evaluate op type a b with
  | none => exact nofun
  | some v =>
    rintro rfl
    unfold evaluate at result
    cases type with
    | int => simp [Option.bind_eq_some_iff] at result
    | long => simp [Option.bind_eq_some_iff] at result
    | float => cases a <;> cases b <;> simp at result
    | double => cases a <;> cases b <;> simp at result

namespace Instr
open Bindings

theorem const_not_null {i : Instr} (catalogued : i.Catalogued) {dest : Nat} {v : Value}
    (action : i.action = .const dest v) : v ≠ .null := by
  rintro rfl
  have formed := catalogued.2
  rw [action] at formed
  cases form : i.opcode.form <;> simp [Action.hasForm] at formed

theorem effect_not_null {i : Instr} (catalogued : i.Catalogued) {b : Bindings} (free : b.NullFree)
    (answer : Option Bool) : ∀ w ∈ (i.effect answer b).assigns, w.2 ≠ .null := by
  rintro ⟨q,v⟩ member
  have origin : i.Origin b v := effect_origin i answer b _ member
  cases origin with
  | const action => exact const_not_null catalogued action
  | read r => exact free.read r
  | outcome op type r v => exact Arithmetic.outcome_not_null op type _ v
  | fresh type => exact nofun
  | answer yes => exact nofun
  | unknown unknown => exact Value.not_null_of_unknown unknown

end Instr

namespace Method

theorem initialState_nullFree {m : Method} {s : PathState} (entered : m.initialState = .ok s) : s.bindings.NullFree := by
  rw [initialState_bindings entered]
  exact Bindings.NullFree.setAll (fun r => nofun) fun w member =>
    Value.not_null_of_unknown (m.frameBindings_unknown w member)

theorem Leads.nullFree {m : Method} {h : Hierarchy} {c d : Config} (catalogued : m.Catalogued)
    (free : c.bindings.NullFree) (leads : m.Leads h c d) : d.bindings.NullFree := by
  rcases leads with onward | caught
  · cases onward with
    | mk here flows chosen =>
      dsimp only at free ⊢
      rw [Instr.run_bindings]
      exact free.setAll (Instr.effect_not_null (catalogued _ (mem_of_at? here).1) free _)
  · cases caught <;> exact free

end Method

-- So no node of an execution ever has null in a register: a zero is all the null there is.
theorem Method.execute_null_free {owner : String} {text : List Char} {m : Method} {limits : Limits} {h : Hierarchy}
    {g : PathGraph} {id : Nat} {n : Node} {s : PathState} (loaded : Source.method owner text = .ok m)
    (executed : (m.execute limits h).1 = .ok g) (node : g.node? id = some n) (state : n.state = some s) :
    s.bindings.NullFree := by
  obtain ⟨first,entered,_⟩ := Method.execute_ok executed
  obtain ⟨entries,executed⟩ := Method.executed_of loaded executed entered
  have live : g.Live id := PathGraph.live_iff.mpr ⟨n,node⟩
  obtain ⟨c,stands⟩ := executed.stands id live
  obtain ⟨root,rooted,path⟩ := executed.reached id live
  have free : c.bindings.NullFree := PathGraph.inherits (Method.initialState_nullFree entered)
    (fun _ _ free leads => leads.nullFree executed.catalogued free) (fun _ _ blurs free => blurs.nullFree free)
    executed.honest rooted path stands
  obtain ⟨i,here⟩ := stands.instr
  obtain ⟨n',node',_,state'⟩ := stands.node here
  rw [node] at node'
  cases node'
  rw [state] at state'
  cases state'
  rw [Instr.run_bindings]
  exact free.setAll (Instr.effect_not_null (executed.catalogued i (Method.mem_of_at? here).1) free _)

def nullCast : List Char :=
  (".method static run()I\n.registers 2\nconst/4 v0, 0x0\ncheck-cast v0, Ljava/lang/String;\n" ++
    "const/4 v1, 0x1\nreturn v1\n.end method").toList

-- The cast counts as a failure, so what follows it has no node and may be removed as never
-- reached.
theorem nullCast_unreached : (¬ (Hierarchy.casting "Ljava/lang/String;").ActsAlike .library 1
      (.set .empty (.numbered 0) (.int 0)) ((Bindings.set .empty (.numbered 0) (.int 0)).set (.numbered 0) .null)) ∧
    ∃ m g, Source.method "La;" nullCast = .ok m ∧ (m.execute {} .library).1 = .ok g ∧
      m.addresses = [0,1,3,4] ∧ g.reached = [0,1] ∧ ((⟨m,g⟩ : Traced).candidates m.removable).unreached = [3] := by
  constructor
  · intro alike
    exact (Instr.cast_takes_zero rfl rfl).mp alike (by decide +kernel)
  · obtain ⟨_,ok⟩ := exists_of_isOk (x := do
      let m ← Source.method "La;" nullCast
      let g ← (m.execute {} .library).1
      if m.addresses = [0,1,3,4] ∧ g.reached = [0,1] ∧ ((⟨m,g⟩ : Traced).candidates m.removable).unreached = [3]
        then pure () else throw ⟨.emptyMethod,[]⟩) (by
          generalize chars : nullCast = text
          unfold nullCast at chars
          simp only [String.toList_append,String.reduceToList] at chars
          subst chars
          decide +kernel)
    obtain ⟨m,loaded,ok⟩ := bind_ok.mp ok
    obtain ⟨g,executed,ok⟩ := bind_ok.mp ok
    split at ok
    · next facts => exact ⟨m,g,loaded,executed,facts⟩
    · cases ok

end SmaliPrune
