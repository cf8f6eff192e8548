import Mathlib.Data.List.Forall2
import SmaliPrune.Graph.Exits
import SmaliPrune.Proofs.Bindings
import SmaliPrune.Proofs.Catalogue

namespace SmaliPrune

def Bindings.setAll (b : Bindings) (ws : List (Register × Value)) : Bindings :=
  ws.foldl (fun b w => b.set w.1 w.2) b

namespace PathState

theorem touchAll_bindings (s : PathState) (rs : List Register) : (s.touchAll rs).bindings = s.bindings := by
  unfold touchAll
  induction rs generalizing s with
  | nil => rfl
  | cons r rest ih => exact ih (s.touch r)

theorem touchAll_assigns (s : PathState) (rs : List Register) : (s.touchAll rs).assigns = s.assigns := by
  unfold touchAll
  induction rs generalizing s with
  | nil => rfl
  | cons r rest ih => exact ih (s.touch r)

theorem mem_touchAll (s : PathState) (rs : List Register) (q : Register) :
    q ∈ (s.touchAll rs).reads ↔ q ∈ rs ∨ q ∈ s.reads := by
  unfold touchAll
  induction rs generalizing s with
  | nil => simp
  | cons r rest ih =>
    rw [List.foldl_cons,ih]
    simp only [touch,Register.mem_insert,List.mem_cons]
    tauto

theorem assignAll_bindings (s : PathState) (ws : List (Register × Value)) :
    (s.assignAll ws).bindings = s.bindings.setAll ws := by
  unfold assignAll Bindings.setAll
  induction ws generalizing s with
  | nil => rfl
  | cons w rest ih => exact ih (s.assign w.1 w.2)

theorem assignAll_reads (s : PathState) (ws : List (Register × Value)) : (s.assignAll ws).reads = s.reads := by
  unfold assignAll
  induction ws generalizing s with
  | nil => rfl
  | cons w rest ih => exact ih (s.assign w.1 w.2)

theorem mem_assignAll (s : PathState) (ws : List (Register × Value)) (q : Register) :
    q ∈ (s.assignAll ws).assigns ↔ q ∈ ws.map Prod.fst ∨ q ∈ s.assigns := by
  unfold assignAll
  induction ws generalizing s with
  | nil => simp
  | cons w rest ih =>
    rw [List.foldl_cons,ih]
    simp only [assign,Register.mem_insert,List.map_cons,List.mem_cons]
    tauto

end PathState

namespace Bindings

theorem lookup_setAll_other {b : Bindings} {ws : List (Register × Value)} {r : Register}
    (untouched : r ∉ ws.map Prod.fst) : (b.setAll ws).lookup r = b.lookup r := by
  unfold setAll
  induction ws generalizing b with
  | nil => rfl
  | cons w rest ih =>
    rw [List.map_cons,List.mem_cons,not_or] at untouched
    rw [List.foldl_cons,ih untouched.2,lookup_set,if_neg untouched.1]

theorem plain_setAll {b : Bindings} {ws : List (Register × Value)} (plain : Plain b)
    (exact : ∀ w ∈ ws, w.2.isFloating = false) : Plain (b.setAll ws) := by
  unfold setAll
  induction ws generalizing b with
  | nil => exact plain
  | cons w rest ih =>
    exact ih (plain.set w.1 (exact w List.mem_cons_self)) fun u member => exact u (List.mem_cons_of_mem _ member)

def Fainter (ws vs : List (Register × Value)) : Prop :=
  List.Forall₂ (fun w v => w.1 = v.1 ∧ (w.2.isUnknown = true ∨ w.2 = v.2)) ws vs

theorem Fainter.refl (ws : List (Register × Value)) : Fainter ws ws :=
  List.forall₂_same.mpr fun _ _ => ⟨rfl,Or.inr rfl⟩

theorem Fainter.one {r : Register} {v w : Value} (fainter : v.isUnknown = true ∨ v = w) : Fainter [(r,v)] [(r,w)] :=
  .cons ⟨rfl,fainter⟩ .nil

theorem coversAt_set {r q : Register} {a b : Bindings} {v w : Value} (fainter : v.isUnknown = true ∨ v = w)
    (before : r = q ∨ CoversAt r a b) : CoversAt r (a.set q v) (b.set q w) := by
  intro u found known
  rw [lookup_set] at *
  by_cases here : r = q
  · rw [if_pos here] at *
    cases found
    rcases fainter with unknown | rfl
    · rw [known] at unknown
      cases unknown
    · rfl
  · rw [if_neg here] at *
    exact before.resolve_left here u found known

theorem coversAt_setAll {r : Register} {a b : Bindings} {ws vs : List (Register × Value)} (fainter : Fainter ws vs)
    (before : r ∈ ws.map Prod.fst ∨ CoversAt r a b) : CoversAt r (a.setAll ws) (b.setAll vs) := by
  unfold setAll
  induction fainter generalizing a b with
  | nil => exact before.resolve_left List.not_mem_nil
  | @cons w v ws vs head _ ih =>
    obtain ⟨q,w⟩ := w
    obtain ⟨_,v⟩ := v
    obtain ⟨rfl,faint⟩ := head
    refine ih ?_
    rcases before with member | covers
    · rcases List.mem_cons.mp member with here | later
      · exact Or.inr (coversAt_set faint (Or.inl here))
      · exact Or.inl later
    · exact Or.inr (coversAt_set faint (Or.inr covers))

theorem coversAt_setAll_blank {r : Register} {a b : Bindings} {ws : List (Register × Value)}
    (blank : ∀ w ∈ ws, w.2.isUnknown = true) (covers : CoversAt r a b) : CoversAt r (a.setAll ws) b := by
  unfold setAll
  induction ws generalizing a with
  | nil => exact covers
  | cons w ws ih =>
    refine ih (fun v member => blank v (List.mem_cons_of_mem _ member)) ?_
    intro v found known
    rw [lookup_set] at found
    split at found
    · cases found
      rw [blank w List.mem_cons_self] at known
      cases known
    · exact covers v found known

theorem lookup_setAll_congr {r : Register} {a b : Bindings} (ws : List (Register × Value))
    (before : r ∈ ws.map Prod.fst ∨ a.lookup r = b.lookup r) : (a.setAll ws).lookup r = (b.setAll ws).lookup r := by
  unfold setAll
  induction ws generalizing a b with
  | nil => exact before.resolve_left List.not_mem_nil
  | cons w ws ih =>
    refine ih ?_
    rw [lookup_set,lookup_set]
    rcases before with member | same
    · rcases List.mem_cons.mp member with here | later
      · exact Or.inr (by rw [if_pos here,if_pos here])
      · exact Or.inl later
    · exact Or.inr (by rw [same])

end Bindings

namespace Instr
open Bindings

theorem run_bindings (i : Instr) (answer : Option Bool) (b : Bindings) (registers : Nat) :
    (i.run answer b registers).bindings = b.setAll (i.effect answer b).assigns := by
  unfold run
  rw [PathState.assignAll_bindings,PathState.touchAll_bindings]
  rfl

theorem run_hasRead (i : Instr) (answer : Option Bool) (b : Bindings) (registers : Nat) (r : Register) :
    (i.run answer b registers).hasRead r = true ↔ r ∈ i.reads := by
  unfold run PathState.hasRead
  rw [List.contains_iff_mem,PathState.assignAll_reads,PathState.mem_touchAll]
  exact or_iff_left List.not_mem_nil

theorem run_mem_assigns (i : Instr) (answer : Option Bool) (b : Bindings) (registers : Nat) (r : Register) :
    r ∈ (i.run answer b registers).assigns ↔ r ∈ (i.effect answer b).assigns.map Prod.fst := by
  unfold run
  rw [PathState.mem_assignAll,PathState.touchAll_assigns]
  exact or_iff_left List.not_mem_nil

def writes (i : Instr) : List Register :=
  match i.action with
  | .move dest _ | .moveResult dest | .moveException dest | .const dest _ | .binary _ _ dest _ _
  | .arrayLength dest _ | .arrayGet dest _ _ _ | .fieldGet dest _ _ | .staticGet dest _ | .newInstance dest _
  | .newArray dest _ _ | .checkCast dest _ | .instanceOf dest _ _ => [.numbered dest]
  | .leave (some _) => [.returned]
  | .invoke _ _ method => if method.isVoid then [] else [.result]
  | .generic registers => (i.genericAssigns registers).map Prod.fst
  | .nop | .arrayPut .. | .fieldPut .. | .staticPut .. | .monitor .. | .leave none | .goto _ | .branch .. | .throw _ => []

theorem effect_checkCast {i : Instr} {reg : Nat} {type : String} (action : i.action = .checkCast reg type)
    (answer : Option Bool) (b : Bindings) :
    (∃ v, i.effect answer b = ⟨[(.numbered reg,v)],i.onward⟩ ∧ (v.isUnknown = true ∨ v = b.read (.numbered reg))) ∨
      i.effect answer b = ⟨[],.raise (some "Ljava/lang/ClassCastException;")⟩ := by
  unfold effect
  rw [action]
  dsimp only
  split
  · exact Or.inl ⟨_,rfl,Or.inl rfl⟩
  · next null => exact Or.inl ⟨_,rfl,Or.inr null.symm⟩
  · split
    · exact Or.inr rfl
    · exact Or.inl ⟨_,rfl,Or.inr rfl⟩

theorem cast_fails {i : Instr} {reg : Nat} {type : String} (action : i.action = .checkCast reg type)
    {answer : Option Bool} {b : Bindings} {thrown : Option String} (raises : (i.effect answer b).flow = .raise thrown) :
    answer = some false ∧ thrown = some "Ljava/lang/ClassCastException;" := by
  unfold effect at raises
  simp only [action] at raises
  split at raises
  · cases raises
  · cases raises
  · split at raises
    · next no =>
      cases raises
      exact ⟨beq_iff_eq.mp no,rfl⟩
    · cases raises

theorem effect_throw {i : Instr} {reg : Nat} (action : i.action = .throw reg) (answer : Option Bool) (b : Bindings) :
    ∃ thrown, i.effect answer b = ⟨[],.raise thrown⟩ := by
  unfold effect
  rw [action]
  dsimp only
  split <;> exact ⟨_,rfl⟩

theorem effect_raise {i : Instr} {answer : Option Bool} {b : Bindings} {thrown : Option String}
    (raises : (i.effect answer b).flow = .raise thrown) : (i.effect answer b).assigns = [] := by
  cases action : i.action with
  | checkCast reg type =>
    rcases effect_checkCast action answer b with ⟨v,kept,_⟩ | threw
    · rw [kept] at raises
      cases raises
    · rw [threw]
  | throw reg =>
    obtain ⟨_,threw⟩ := effect_throw action answer b
    rw [threw]
  | leave src => cases src <;> simp [effect,action] at raises
  | _ => simp [effect,onward,action] at raises

theorem effect_next {i : Instr} {answer : Option Bool} {b : Bindings} {addresses : List Nat}
    (flows : (i.effect answer b).flow = .next addresses) : (i.effect answer b).assigns.map Prod.fst = i.writes := by
  cases action : i.action with
  | checkCast reg type =>
    rcases effect_checkCast action answer b with ⟨v,kept,_⟩ | threw
    · simp [kept,writes,action]
    · rw [threw] at flows
      cases flows
  | throw reg =>
    obtain ⟨_,threw⟩ := effect_throw action answer b
    rw [threw] at flows
    cases flows
  | leave src => cases src <;> simp [effect,writes,action]
  | invoke kind registers method =>
    simp only [effect,writes,action]
    split <;> rfl
  | _ => simp [effect,writes,action]

theorem flow_of_writes {i : Instr} {answer : Option Bool} {b : Bindings} {r : Register} (written : r ∈ i.writes)
    (stays : r ≠ .returned) :
    (i.effect answer b).flow = i.onward ∨ ∃ thrown, (i.effect answer b).flow = .raise thrown := by
  cases action : i.action with
  | checkCast reg type =>
    rcases effect_checkCast action answer b with ⟨v,kept,_⟩ | threw
    · exact Or.inl (by rw [kept])
    · exact Or.inr ⟨_,by rw [threw]⟩
  | throw reg => simp [writes,action] at written
  | leave src => cases src <;> simp_all [writes]
  | goto target => simp [writes,action] at written
  | branch test x y target => simp [writes,action] at written
  | _ => exact Or.inl (by simp [effect,action])

theorem mem_onward {i : Instr} {addresses : List Nat} (onward : i.onward = .next addresses) {x : Nat}
    (chosen : x ∈ addresses) : x = i.next := by
  unfold Instr.onward at onward
  cases onward
  split at chosen
  · exact List.mem_singleton.mp chosen
  · cases chosen

theorem flow_successors {i : Instr} {answer : Option Bool} {b : Bindings} {addresses : List Nat}
    (flows : (i.effect answer b).flow = .next addresses) : ∀ x ∈ addresses, x ∈ i.successors := by
  intro x chosen
  have along : i.successors = (if i.canContinue then [i.next] else []) → i.onward = .next addresses →
      x ∈ i.successors := by
    intro plain onward
    unfold Instr.onward at onward
    cases onward
    rw [plain]
    exact chosen
  cases action : i.action with
  | goto target =>
    simp only [effect,action] at flows
    cases flows
    simpa only [successors,action] using chosen
  | branch test a b target =>
    simp only [effect,action] at flows
    cases flows
    simp only [successors,action]
    split at chosen
    all_goals split
    all_goals simp_all
  | leave src =>
    cases src <;> simp only [effect,action] at flows <;> cases flows <;> cases chosen
  | checkCast reg type =>
    rcases effect_checkCast action answer b with ⟨v,kept,_⟩ | threw
    · rw [kept] at flows
      exact along (by simp only [successors,action]) flows
    · rw [threw] at flows
      cases flows
  | throw reg =>
    obtain ⟨_,threw⟩ := effect_throw action answer b
    rw [threw] at flows
    cases flows
  | _ =>
    simp only [effect,action] at flows
    exact along (by simp only [successors,action]) flows

theorem mem_successors {i : Instr} {x : Nat} (listed : x ∈ i.successors) : x = i.next ∨ i.action.target? = some x := by
  unfold successors at listed
  split at listed
  · cases listed
  · cases listed
  · next target action => exact Or.inr (by rw [action,List.mem_singleton.mp listed]; rfl)
  · next test a b target action =>
    split at listed
    · exact Or.inl (List.mem_singleton.mp listed)
    · simp only [List.mem_cons,List.not_mem_nil,or_false] at listed
      exact listed.imp_right fun same => by rw [action,same]; rfl
  · split at listed
    · exact Or.inl (List.mem_singleton.mp listed)
    · cases listed

theorem flow_targets {i : Instr} {answer : Option Bool} {b : Bindings} {addresses : List Nat}
    (flows : (i.effect answer b).flow = .next addresses) {x : Nat} (chosen : x ∈ addresses) :
    x = i.next ∨ i.action.target? = some x := mem_successors (flow_successors flows x chosen)

theorem returned_not_read (i : Instr) : .returned ∉ i.reads := by
  cases i with
  | mk address opcode action =>
    cases action with
    | leave src => cases src <;> simp [reads,Action.reads]
    | branch test a b target => cases b <;> simp [reads,Action.reads]
    | binary op type dest a b => cases b <;> simp [reads,Action.reads]
    | generic registers => simp [reads,genericReads]
    | _ => simp [reads,Action.reads]

theorem moveResult_of_read {i : Instr} (reads : .result ∈ i.reads) : ∃ dest, i.action = .moveResult dest := by
  cases i with
  | mk address opcode action =>
    cases action with
    | moveResult dest => exact ⟨dest,rfl⟩
    | leave src => cases src <;> simp [Instr.reads,Action.reads] at reads
    | branch test a b target => cases b <;> simp [Instr.reads,Action.reads] at reads
    | binary op type dest a b => cases b <;> simp [Instr.reads,Action.reads] at reads
    | generic registers => simp [Instr.reads,genericReads] at reads
    | _ => simp [Instr.reads,Action.reads] at reads

theorem question?_congr {i : Instr} {a b : Bindings} (same : ∀ r ∈ i.reads, a.read r = b.read r) :
    i.action.question? a = i.action.question? b := by
  unfold Action.question?
  cases action : i.action with
  | checkCast reg type =>
    dsimp only
    rw [same (.numbered reg) (by simp [reads,action,Action.reads])]
  | instanceOf dest src type =>
    dsimp only
    rw [same (.numbered src) (by simp [reads,action,Action.reads])]
  | _ => rfl

theorem effect_congr {i : Instr} {a b : Bindings} (answer : Option Bool) (same : ∀ r ∈ i.reads, a.read r = b.read r) :
    i.effect answer a = i.effect answer b := by
  unfold effect
  cases action : i.action with
  | branch test x y target =>
    have first := same (.numbered x) (by cases y <;> simp [reads,action,Action.reads])
    cases y with
    | none => simp only [first,Option.map_none]
    | some y =>
      have second := same (.numbered y) (by simp [reads,action,Action.reads])
      simp only [first,second,Option.map_some]
  | binary op type dest x rhs =>
    have first := same (.numbered x) (by cases rhs <;> simp [reads,action,Action.reads])
    cases rhs with
    | literal n => simp only [first]
    | register y =>
      have second := same (.numbered y) (by simp [reads,action,Action.reads])
      simp only [first,second]
  | leave src =>
    cases src with
    | none => rfl
    | some src => simp only [same (.numbered src) (by simp [reads,action,Action.reads])]
  | move dest src => simp only [same (.numbered src) (by simp [reads,action,Action.reads])]
  | moveResult dest => simp only [same .result (by simp [reads,action,Action.reads])]
  | arrayGet dest array index element =>
    simp only [same (.numbered array) (by simp [reads,action,Action.reads])]
  | checkCast reg type => simp only [same (.numbered reg) (by simp [reads,action,Action.reads])]
  | instanceOf dest src type => simp only [same (.numbered src) (by simp [reads,action,Action.reads])]
  | throw reg => simp only [same (.numbered reg) (by simp [reads,action,Action.reads])]
  | _ => rfl

end Instr

theorem Arithmetic.outcome_unknown {op : BinaryOp} {type : NumType} {a b : Value}
    (unknown : a.isUnknown = true ∨ b.isUnknown = true) : (outcome op type a b).isUnknown = true := by
  have undecided : evaluate op type a b = none := by
    unfold evaluate
    rcases unknown with unknown | unknown
    · cases a <;> simp_all [Value.isUnknown,Value.int?,Value.long?]
      cases type <;> rfl
    · cases b <;> simp_all [Value.isUnknown,Value.int?,Value.long?]
      cases type <;> cases a <;> rfl
  unfold outcome
  rw [undecided]
  rfl

theorem decided?_unknown {test : Comparison} {a : Value} {b : Option Value}
    (unknown : a.isUnknown = true ∨ ∃ v, b = some v ∧ v.isUnknown = true) : decided? test a b = none := by
  unfold decided?
  rcases unknown with unknown | ⟨v,rfl,unknown⟩
  · cases a <;> simp_all [Value.isUnknown,Value.zeroTest?,Value.long?]
    cases b <;> rfl
  · cases v <;> simp_all [Value.isUnknown,Value.long?]

-- The first effect leaves open whatever the second may come to. Where the second throws
-- and the first does not, the instruction is one that can throw.
inductive Effect.Covers (throws : Bool) : Effect → Effect → Prop where
  | next {ws vs : List (Register × Value)} {many few : List Nat} (fewer : ∀ x ∈ few, x ∈ many)
      (fainter : Bindings.Fainter ws vs) : Covers throws ⟨ws,.next many⟩ ⟨vs,.next few⟩
  | raise {s t : Option String} (vaguer : s = none ∨ s = t) : Covers throws ⟨[],.raise s⟩ ⟨[],.raise t⟩
  | escape {ws : List (Register × Value)} {many : List Nat} {t : Option String} (can : throws = true)
      (blank : ∀ w ∈ ws, w.2.isUnknown = true) : Covers throws ⟨ws,.next many⟩ ⟨[],.raise t⟩

namespace Instr
open Bindings

theorem effect_covers_self (i : Instr) (answer : Option Bool) (b : Bindings) :
    (i.effect answer b).Covers i.canThrow (i.effect answer b) := by
  have quiet : ∀ thrown, (i.effect answer b).flow = .raise thrown → (i.effect answer b).assigns = [] :=
    fun _ raises => effect_raise raises
  cases effect : i.effect answer b with
  | mk ws flow =>
    rw [effect] at quiet
    cases flow with
    | next addresses => exact .next (fun _ member => member) (.refl ws)
    | raise thrown =>
      have none : ws = [] := quiet thrown rfl
      subst none
      exact .raise (Or.inr rfl)

theorem effect_covers {i : Instr} (regular : i.Regular) {a b : Bindings} {p q : Option Bool}
    (fainter : ∀ r ∈ i.reads, (a.read r).isUnknown = true ∨ a.read r = b.read r)
    (answers : (∀ r ∈ i.reads, a.read r = b.read r) → p = q) :
    (i.effect p a).Covers i.canThrow (i.effect q b) := by
  by_cases same : ∀ r ∈ i.reads, a.read r = b.read r
  · rw [answers same,effect_congr q same]
    exact effect_covers_self i q b
  · -- Now something it reads is unknown in the first.
    have ⟨r,member,unknown⟩ : ∃ r ∈ i.reads, (a.read r).isUnknown = true := by
      apply Classical.byContradiction
      intro none
      exact same fun r member => (fainter r member).resolve_left fun unknown => none ⟨r,member,unknown⟩
    cases action : i.action with
    | move dest src =>
      simp only [reads,action,Action.reads,List.mem_singleton] at member
      subst member
      simpa only [effect,action] using .next (fun _ h => h) (.one (Or.inl unknown))
    | moveResult dest =>
      simp only [reads,action,Action.reads,List.mem_singleton] at member
      subst member
      simpa only [effect,action] using .next (fun _ h => h) (.one (Or.inl unknown))
    | leave src =>
      cases src with
      | none => simp [reads,action,Action.reads] at member
      | some src =>
        simp only [reads,action,Action.reads,List.mem_singleton] at member
        subst member
        simpa only [effect,action] using .next (fun _ h => h) (.one (Or.inl unknown))
    | branch test x y target =>
      have open' : decided? test (a.read (.numbered x)) (y.map fun r => a.read (.numbered r)) = none := by
        apply decided?_unknown
        cases y with
        | none =>
          simp only [reads,action,Action.reads,List.mem_singleton] at member
          exact Or.inl (member ▸ unknown)
        | some y =>
          simp only [reads,action,Action.reads,List.mem_cons,List.not_mem_nil,or_false] at member
          rcases member with rfl | rfl
          · exact Or.inl unknown
          · exact Or.inr ⟨_,rfl,unknown⟩
      simp only [effect,action,open']
      refine .next (fun x chosen => ?_) .nil
      split at chosen
      all_goals split
      all_goals simp_all
    | binary op type dest x rhs =>
      simp only [effect,action]
      refine .next (fun _ h => h) (.one (Or.inl (Arithmetic.outcome_unknown ?_)))
      cases rhs with
      | literal n =>
        simp only [reads,action,Action.reads,List.mem_singleton] at member
        exact Or.inl (member ▸ unknown)
      | register y =>
        simp only [reads,action,Action.reads,List.mem_cons,List.not_mem_nil,or_false] at member
        rcases member with rfl | rfl
        · exact Or.inl unknown
        · exact Or.inr unknown
    | arrayGet dest array index element =>
      simpa only [effect,action] using .next (fun _ h => h) (.one (Or.inl rfl))
    | checkCast reg type =>
      simp only [reads,action,Action.reads,List.mem_singleton] at member
      subst member
      have can := regular.castThrows _ _ action
      have blank : i.effect p a = ⟨[(.numbered reg,.unknown type)],i.onward⟩ := by
        simp only [effect,action]
        cases value : a.read (.numbered reg) <;> simp_all [Value.isUnknown]
      rw [blank]
      rcases effect_checkCast action q b with ⟨v,kept,_⟩ | threw
      · rw [kept]
        exact .next (fun _ h => h) (.one (Or.inl rfl))
      · rw [threw]
        exact .escape can fun w member => List.mem_singleton.mp member ▸ rfl
    | instanceOf dest src type =>
      simp only [reads,action,Action.reads,List.mem_singleton] at member
      subst member
      simp only [effect,action]
      refine .next (fun _ h => h) (.one (Or.inl ?_))
      cases value : a.read (.numbered src) <;> simp_all [Value.isUnknown]
    | throw reg =>
      simp only [reads,action,Action.reads,List.mem_singleton] at member
      subst member
      have blank : i.effect p a = ⟨[],.raise none⟩ := by
        simp only [effect,action]
        cases value : a.read (.numbered reg) <;> simp_all [Value.isUnknown]
      obtain ⟨thrown,threw⟩ := effect_throw action q b
      rw [blank,threw]
      exact .raise (Or.inl rfl)
    | generic registers =>
      simpa only [effect,action] using .next (fun _ h => h) (.refl _)
    | invoke kind registers method =>
      simpa only [effect,action] using .next (fun _ h => h) (.refl _)
    | _ => simpa only [effect,action,onward] using .next (fun _ h => h) (.refl _)

end Instr

theorem Arithmetic.outcome_exact {op : BinaryOp} {type : NumType} {a b : Value} (exact : a.isFloating = false) :
    (outcome op type a b).isFloating = false := by
  unfold outcome
  cases result : evaluate op type a b with
  | none => rfl
  | some v =>
    unfold evaluate at result
    cases type with
    | int =>
      simp only [Option.bind_eq_bind,Option.bind_eq_some_iff,Option.map_eq_some_iff] at result
      obtain ⟨_,_,_,_,_,_,rfl⟩ := result
      rfl
    | long =>
      simp only [Option.bind_eq_bind,Option.bind_eq_some_iff,Option.map_eq_some_iff] at result
      obtain ⟨_,_,_,_,_,_,rfl⟩ := result
      rfl
    | float => cases a <;> simp_all [Value.isFloating]
    | double => cases a <;> simp_all [Value.isFloating]

namespace Instr
open Bindings

-- What an instruction assigns it was told, has read, computed, made or found out, or else
-- it knows nothing of it.
inductive Origin (i : Instr) (b : Bindings) : Value → Prop where
  | const {dest : Nat} {v : Value} (action : i.action = .const dest v) : Origin i b v
  | read (r : Register) : Origin i b (b.read r)
  | outcome (op : BinaryOp) (type : NumType) (r : Register) (v : Value) :
      Origin i b (Arithmetic.outcome op type (b.read r) v)
  | fresh (type : String) : Origin i b (.fresh type)
  | answer (yes : Bool) : Origin i b (.int (if yes then 1 else 0))
  | unknown {v : Value} (unknown : v.isUnknown = true) : Origin i b v

theorem effect_origin (i : Instr) (answer : Option Bool) (b : Bindings) :
    ∀ w ∈ (i.effect answer b).assigns, i.Origin b w.2 := by
  intro w member
  cases action : i.action with
  | const dest value =>
    simp only [effect,action,List.mem_singleton] at member
    exact member ▸ .const action
  | leave src =>
    cases src with
    | none => simp [effect,action] at member
    | some src =>
      simp only [effect,action,List.mem_singleton] at member
      exact member ▸ .read _
  | move dest src =>
    simp only [effect,action,List.mem_singleton] at member
    exact member ▸ .read _
  | moveResult dest =>
    simp only [effect,action,List.mem_singleton] at member
    exact member ▸ .read _
  | binary op type dest x rhs =>
    simp only [effect,action,List.mem_singleton] at member
    exact member ▸ .outcome op type _ _
  | newInstance dest type =>
    simp only [effect,action,List.mem_singleton] at member
    exact member ▸ .fresh type
  | newArray dest size type =>
    simp only [effect,action,List.mem_singleton] at member
    exact member ▸ .fresh type
  | checkCast reg type =>
    rcases effect_checkCast action answer b with ⟨v,kept,origin⟩ | threw
    · simp only [kept,List.mem_singleton] at member
      rw [member]
      rcases origin with unknown | rfl
      · exact .unknown unknown
      · exact .read _
    · rw [threw] at member
      cases member
  | instanceOf dest src type =>
    simp only [effect,action,List.mem_singleton] at member
    rw [member]
    dsimp only
    split
    · exact .answer false
    · exact .unknown rfl
    · split
      · exact .answer true
      · exact .answer false
      · exact .unknown rfl
  | throw reg =>
    obtain ⟨_,threw⟩ := effect_throw action answer b
    rw [threw] at member
    cases member
  | invoke kind registers method =>
    simp only [effect,action] at member
    split at member
    · cases member
    · exact List.mem_singleton.mp member ▸ .unknown rfl
  | generic registers =>
    simp only [effect,action,genericAssigns,List.mem_append] at member
    rcases member with dest | result
    · split at dest
      · obtain ⟨_,_,rfl⟩ := List.mem_map.mp dest
        exact .unknown rfl
      · cases dest
    · split at result
      · exact List.mem_singleton.mp result ▸ .unknown rfl
      · cases result
  | moveException | arrayLength | arrayGet | fieldGet | staticGet =>
    simp only [effect,action,List.mem_singleton] at member
    exact member ▸ .unknown rfl
  | nop | goto | branch | arrayPut | fieldPut | staticPut | monitor => simp [effect,action] at member

theorem effect_exact {i : Instr} (regular : i.Regular) {b : Bindings} (plain : b.Plain) (answer : Option Bool) :
    ∀ w ∈ (i.effect answer b).assigns, w.2.isFloating = false := by
  rintro ⟨q,v⟩ member
  have origin : i.Origin b v := effect_origin i answer b _ member
  cases origin with
  | const action => exact regular.constExact _ _ action
  | read r => exact plain.read r
  | outcome op type r v => exact Arithmetic.outcome_exact (plain.read r)
  | fresh type => rfl
  | answer yes => rfl
  | unknown unknown => exact Value.exact_of_unknown unknown

end Instr
end SmaliPrune
