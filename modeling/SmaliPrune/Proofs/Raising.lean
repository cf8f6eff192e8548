import SmaliPrune.Proofs.ControlFlow
import SmaliPrune.Proofs.Retention

namespace SmaliPrune

-- Some way on from a place on a path reads the register before it is overwritten. Whoever
-- is left by an exception has overwritten nothing.
inductive Method.Awaits (m : Method) (h : Hierarchy) (r : Register) : Config → Prop where
  | here {c : Config} {i : Instr} (found : m.at? c.address = some i) (reads : r ∈ i.reads) : Awaits m h r c
  | on {c d : Config} {i : Instr} (found : m.at? c.address = some i) (step : m.Continues h c d) (keeps : r ∉ i.writes)
      (later : Awaits m h r d) : Awaits m h r c
  | out {c d : Config} (step : m.Escapes h c d) (later : Awaits m h r d) : Awaits m h r c

theorem Method.Awaits.lands {m : Method} {h : Hierarchy} {r : Register} {c : Config} (awaits : m.Awaits h r c) :
    (m.at? c.address).isSome = true := by
  cases awaits with
  | here found _ | on found _ _ _ => exact Option.isSome_of_eq_some found
  | out step _ =>
    cases step with
    | guarded found _ _ _ _ | thrown found _ _ => exact Option.isSome_of_eq_some found

-- An instruction that assigns goes on, if it is none of those that throw for certain.
theorem Instr.flow_of_calm {i : Instr} {answer : Option Bool} {b : Bindings} {r : Register}
    (calm : i.action.throws? = none) (written : r ∈ i.writes) (stays : r ≠ .returned) :
    (i.effect answer b).flow = i.onward := by
  rcases Instr.flow_of_writes written stays with onward | raises
  · exact onward
  · obtain ⟨_,raises⟩ := raises
    rcases Instr.raises_action raises with ⟨_,action⟩ | ⟨_,_,action⟩
    · rw [action] at calm
      cases calm
    · rw [action] at calm
      cases calm

namespace Traced

-- What became of the instruction at an address when one of its nodes was made.
def flowAt? (t : Traced) (h : Hierarchy) (entries : Array Bindings) (a id : Nat) : Option Flow :=
  entries[id]?.bind fun e => (t.method.at? a).map fun i => (i.effect (Method.answer? h i e) e).flow

def Fails (t : Traced) (h : Hierarchy) (entries : Array Bindings) (a : Nat) : Prop :=
  ∃ id ∈ t.graph.pile a, ∃ type, t.flowAt? h entries a id = some (.raise type)

-- One of the nodes has a child that nothing but an exception leads to.
def Catches (t : Traced) (h : Hierarchy) (entries : Array Bindings) (a : Nat) : Prop :=
  ∃ id ∈ t.graph.pile a, ∃ e, entries[id]? = some e ∧ ∃ child ∈ t.graph.childrenOf id,
    ∀ d, t.method.Continues h ⟨a,e⟩ d → ¬ Meets (t.graph.Stands t.method h entries) child d

def Unread (t : Traced) (i : Instr) : Prop :=
  (∃ r ∈ i.writes, r ≠ .returned) ∧ ∀ r ∈ i.writes, ∀ child ∈ t.graph.childrenAt i.address, ¬ t.Wanted r child

-- A cast that its first node came past, and whose register nothing reads behind it.
inductive PassedCast (t : Traced) (h : Hierarchy) (entries : Array Bindings) (a : Nat) : Prop where
  | mk {i : Instr} {reg id : Nat} {type : String} {addresses : List Nat} (here : t.method.at? a = some i)
      (cast : i.action = .checkCast reg type) (first : (t.graph.pile a)[0]? = some id)
      (passes : t.flowAt? h entries a id = some (.next addresses)) (unread : t.Unread i) : PassedCast t h entries a

-- What exceptions decide about the addresses that go. Of a cast that fails, though not at
-- its first node, nothing is said but when it stays.
structure Heeds (t : Traced) (h : Hierarchy) (entry : Bindings) (entries : Array Bindings) (gone : List Nat) : Prop where
  thrower : ∀ i ∈ t.method.code, ∀ reg, i.action = .throw reg → i.address ∉ gone
  first : ∀ a id type, (t.graph.pile a)[0]? = some id → t.flowAt? h entries a id = some (.raise type) → a ∉ gone
  failing : ∀ a, t.Fails h entries a → a ∈ gone → t.PassedCast h entries a
  awaited : ∀ cs c d i r, t.method.Path h entry cs → c ∈ cs → t.method.at? c.address = some i → r ∈ i.writes →
    t.method.Leads h c d → t.method.Awaits h r d → c.address ∈ gone → i.Discards t.method
  caught : ∀ a i, t.method.at? a = some i → t.Catches h entries a → ¬ t.Fails h entries a →
    (a ∈ gone ↔ a ∈ t.method.removable ∧ (t.Unread i ∨ i.Discards t.method))

variable {t : Traced} {h : Hierarchy} {entries : Array Bindings} {a : Nat} {i : Instr}

theorem flowAt?_eq {id : Nat} {e : Bindings} (here : t.method.at? a = some i) (entered : entries[id]? = some e) :
    t.flowAt? h entries a id = some (i.effect (Method.answer? h i e) e).flow := by
  unfold flowAt?
  rw [entered,here]
  rfl

theorem Catches.of_elsewhere {id child x : Nat} {addresses : List Nat} (member : id ∈ t.graph.pile a)
    (flows : t.flowAt? h entries a id = some (.next addresses)) (edge : child ∈ t.graph.childrenOf id)
    (spot : (t.graph.spot? child).map Prod.fst = some x) (elsewhere : x ∉ addresses) : t.Catches h entries a := by
  obtain ⟨e,entered,flows⟩ := Option.bind_eq_some_iff.mp flows
  obtain ⟨i,here,flows⟩ := Option.map_eq_some_iff.mp flows
  refine ⟨id,member,e,entered,child,edge,fun d step meets => elsewhere ?_⟩
  obtain ⟨c,stands,same,_⟩ := meets
  obtain ⟨_,spot'⟩ := stands.spot
  rw [spot'] at spot
  cases step with
  | mk here' flows' chosen =>
    rw [here] at here'
    cases here'
    rw [flows] at flows'
    cases flows'
    exact Option.some.inj spot ▸ same ▸ chosen

theorem unread_of_dead {r : Register} (writes : i.writes = [r]) (stays : r ≠ .returned)
    (dead : t.isLive (t.graph.childrenAt i.address) r = false) : t.Unread i := by
  unfold Unread
  rw [writes]
  refine ⟨⟨r,List.mem_singleton_self r,stays⟩,fun q written child listed wanted => ?_⟩
  cases List.mem_singleton.mp written
  rw [(isLive_iff _ _ _).mpr ⟨child,listed,wanted⟩] at dead
  cases dead

end Traced

namespace Executed
variable {m : Method} {h : Hierarchy} {entry : Bindings} {g : PathGraph} {entries : Array Bindings}
variable {a id : Nat} {i : Instr} {r : Register} {c d : Config}

theorem wanted_of_awaits (executed : Executed m h entry g entries) (awaits : m.Awaits h r c)
    (follows : Certified.Follows g m h entries c id) : (⟨m,g⟩ : Traced).Wanted r id := by
  induction awaits generalizing id with
  | here found reads =>
    obtain ⟨e,stands,_⟩ := follows
    exact Traced.wanted_of_read ((stands.reads found).mpr reads)
  | on found step keeps later ih =>
    obtain ⟨e,stands,covers⟩ := follows
    obtain ⟨child,_,edge,step',follows⟩ :=
      executed.follows_continues executed.catalogued.regular executed.plain stands covers step later.lands
    exact Traced.wanted_of_flow (stands.flows_on found step' keeps edge) (ih follows)
  | out step later ih =>
    obtain ⟨e,stands,covers⟩ := follows
    obtain ⟨i,found⟩ := stands.instr
    obtain ⟨child,edge,step',follows⟩ :=
      executed.follows_escapes executed.catalogued.regular executed.plain stands covers step later.lands
    have ⟨_,stands',_⟩ := follows
    exact Traced.wanted_of_flow (stands.flows_out found step' edge stands'.spot) (ih follows)

theorem awaited_stays (executed : Executed m h entry g entries) {cs : List Config} (path : m.Path h entry cs)
    (member : c ∈ cs) (here : m.at? c.address = some i) (written : r ∈ i.writes) (leads : m.Leads h c d)
    (awaits : m.Awaits h r d) (condemned : c.address ∈ (⟨m,g⟩ : Traced).condemned) : i.Discards m := by
  obtain ⟨ids,_,all⟩ := executed.follows_path executed.catalogued.regular executed.plain path
  obtain ⟨id,_,follows⟩ := forall₂_mem all.flip c member
  obtain ⟨child,edge,follows'⟩ :=
    executed.follows_step executed.catalogued.regular executed.plain follows ⟨leads,awaits.lands⟩
  obtain ⟨e,stands,_⟩ := follows
  have listed : child ∈ g.childrenAt c.address :=
    executed.childrenAt (c := ⟨c.address,e⟩) stands (PathGraph.edge_iff.mp edge)
  have wanted := executed.wanted_of_awaits awaits follows'
  obtain ⟨_,unreached | assignment | result | branch⟩ := Traced.mem_condemned.mp condemned
  · rw [executed.not_unreached stands] at unreached
    cases unreached
  · exact absurd wanted ((executed.dead_assignment here assignment).2 r written child listed)
  · exact (Traced.isDeadResult_iff here).mp result
  · rw [Instr.writes,Traced.useless_goto here branch] at written
    cases written

theorem reached_pile (executed : Executed m h entry g entries) (member : id ∈ g.pile a) :
    (⟨m,g⟩ : Traced).isUnreached a = false := by
  obtain ⟨_,_,stands⟩ := executed.entered_pile member
  exact executed.not_unreached stands

theorem first_passes (executed : Executed m h entry g entries) (here : m.at? a = some i)
    (assignment : (⟨m,g⟩ : Traced).isDeadAssignment a = true) : ∃ id addresses, (g.pile a)[0]? = some id ∧
      (⟨m,g⟩ : Traced).flowAt? h entries a id = some (.next addresses) := by
  obtain ⟨id,e,first,entered,some',_⟩ := executed.first_assigns here assignment
  have flow : (⟨m,g⟩ : Traced).flowAt? h entries a id = some _ := Traced.flowAt?_eq here entered
  cases flows : (i.effect (Method.answer? h i e) e).flow with
  | next addresses => exact ⟨id,addresses,first,flows ▸ flow⟩
  | raise type =>
    obtain ⟨q,assigned⟩ := List.exists_mem_of_ne_nil _ some'
    have member := (Instr.run_mem_assigns i _ e _ q).mp (List.mem_filter.mp assigned).1
    rw [Instr.effect_raise flows] at member
    cases member

theorem thrower_stays (executed : Executed m h entry g entries) (member : i ∈ m.code) {reg : Nat}
    (action : i.action = .throw reg) : i.address ∉ (⟨m,g⟩ : Traced).condemned := by
  intro condemned
  apply Method.removable_free executed.aligned.laid member (Traced.mem_condemned.mp condemned).1
  refine Or.inl (Or.inl ?_)
  rw [Instr.sideEffect,action]
  rfl

-- What throws for certain is a throw or a cast, and of these only the cast assigns.
theorem failing_passed (executed : Executed m h entry g entries) (fails : (⟨m,g⟩ : Traced).Fails h entries a)
    (condemned : a ∈ (⟨m,g⟩ : Traced).condemned) : (⟨m,g⟩ : Traced).PassedCast h entries a := by
  obtain ⟨id,member,type,raises⟩ := fails
  obtain ⟨e,entered,flows⟩ := Option.bind_eq_some_iff.mp raises
  obtain ⟨i,here,flows⟩ := Option.map_eq_some_iff.mp flows
  obtain ⟨inside,address⟩ := Method.mem_of_at? here
  rcases Instr.raises_action flows with ⟨reg,action⟩ | ⟨reg,type,action⟩
  · exact absurd (address ▸ condemned) (executed.thrower_stays inside action)
  · obtain ⟨_,unreached | assignment | result | branch⟩ := Traced.mem_condemned.mp condemned
    · rw [executed.reached_pile member] at unreached
      cases unreached
    · obtain ⟨first,addresses,begins,passes⟩ := executed.first_passes here assignment
      subst a
      exact .mk here action begins passes (executed.dead_assignment here assignment)
    · obtain ⟨_,_,_,call,_⟩ := (Traced.isDeadResult_iff here).mp result
      rw [action] at call
      cases call
    · have jump := Traced.useless_goto here branch
      rw [action] at jump
      cases jump

theorem catches_not_goto (executed : Executed m h entry g entries) (here : m.at? a = some i)
    (catches : (⟨m,g⟩ : Traced).Catches h entries a) (target : Nat) : i.action ≠ .goto target := by
  intro action
  obtain ⟨id,member,e,entered,child,edge,only⟩ := catches
  obtain ⟨e',entered',stands⟩ := executed.entered_pile member
  cases entered.symm.trans entered'
  obtain ⟨d,⟨c,stands',leads⟩,meets⟩ := executed.honest (some id) child edge
  rw [stands'.unique stands] at leads
  rcases leads with onward | escapes
  · exact only d onward meets
  · have can : i.canThrow = true := escapes.canThrow executed.catalogued here
    have quiet : i.canThrow = false :=
      Instr.canThrow_of_action (executed.catalogued i (Method.mem_of_at? here).1) (by rw [action]; rfl)
    rw [quiet] at can
    cases can

theorem assignment_of_unread (executed : Executed m h entry g entries) (here : m.at? a = some i) (member : id ∈ g.pile a)
    (sure : ¬ (⟨m,g⟩ : Traced).Fails h entries a) (unread : (⟨m,g⟩ : Traced).Unread i) :
    (⟨m,g⟩ : Traced).isDeadAssignment a = true := by
  obtain ⟨_,rfl⟩ := Method.mem_of_at? here
  have inside : 0 < (g.pile i.address).size := Array.size_pos_of_mem member
  have listed : (g.pile i.address)[0] ∈ g.pile i.address := Array.getElem_mem inside
  obtain ⟨e,entered,stands⟩ := executed.entered_pile listed
  obtain ⟨n,node,_,state⟩ := stands.node here
  have first : g.firstAt? i.address = some n := by
    rw [PathGraph.firstAt?,Array.getElem?_eq_getElem inside]
    exact node
  have flow := Traced.flowAt?_eq (t := ⟨m,g⟩) (h := h) here entered
  cases flows : (i.effect (Method.answer? h i e) e).flow with
  | raise type => exact absurd ⟨_,listed,type,flows ▸ flow⟩ sure
  | next addresses =>
    obtain ⟨⟨q,written,stays⟩,unwanted⟩ := unread
    have assigns : ∀ r, r ∈ (i.run (Method.answer? h i e) e m.registers).assigns ↔ r ∈ i.writes := fun r =>
      Instr.effect_next flows ▸ Instr.run_mem_assigns i _ e m.registers r
    refine (Traced.isDeadAssignment_iff _ _).mpr ⟨n,_,first,state,⟨q,(assigns q).mpr written,stays⟩,fun r assigned _ => ?_⟩
    cases live : (⟨m,g⟩ : Traced).isLive (g.childrenAt i.address) r with
    | false => rfl
    | true =>
      obtain ⟨child,edge,wanted⟩ := (Traced.isLive_iff _ _ _).mp live
      exact absurd wanted (unwanted r ((assigns r).mp assigned) child edge)

theorem caught_condemned (executed : Executed m h entry g entries) (here : m.at? a = some i)
    (catches : (⟨m,g⟩ : Traced).Catches h entries a) (sure : ¬ (⟨m,g⟩ : Traced).Fails h entries a) :
    a ∈ (⟨m,g⟩ : Traced).condemned ↔ a ∈ m.removable ∧ ((⟨m,g⟩ : Traced).Unread i ∨ i.Discards m) := by
  have ⟨id,member,_⟩ := catches
  have jumps := executed.catches_not_goto here catches
  obtain ⟨_,rfl⟩ := Method.mem_of_at? here
  constructor
  · intro condemned
    obtain ⟨removable,unreached | assignment | result | branch⟩ := Traced.mem_condemned.mp condemned
    · rw [executed.reached_pile member] at unreached
      cases unreached
    · exact ⟨removable,Or.inl (executed.dead_assignment here assignment)⟩
    · exact ⟨removable,Or.inr ((Traced.isDeadResult_iff here).mp result)⟩
    · exact absurd (Traced.useless_goto here branch) (jumps _)
  · intro free
    obtain ⟨removable,unread | discards⟩ := free
    · exact Traced.mem_condemned.mpr ⟨removable,Or.inr (Or.inl (executed.assignment_of_unread here member sure unread))⟩
    · have result : (⟨m,g⟩ : Traced).isDeadResult i.address = true := (Traced.isDeadResult_iff here).mpr discards
      exact Traced.mem_condemned.mpr ⟨removable,Or.inr (Or.inr (Or.inl result))⟩

theorem heeds (executed : Executed m h entry g entries) :
    (⟨m,g⟩ : Traced).Heeds h entry entries (⟨m,g⟩ : Traced).condemned := by
  constructor
  case thrower => exact fun i member _ action => executed.thrower_stays member action
  case first =>
    intro a id type first raises condemned
    cases executed.failing_passed ⟨id,Array.mem_of_getElem? first,type,raises⟩ condemned with
    | mk _ _ first' passes _ =>
      cases first.symm.trans first'
      cases raises.symm.trans passes
  case failing => exact fun a fails condemned => executed.failing_passed fails condemned
  case awaited =>
    intro cs c d i r path member here written leads awaits condemned
    exact executed.awaited_stays path member here written leads awaits condemned
  case caught => exact fun a i here catches sure => executed.caught_condemned here catches sure

end Executed

-- One pass takes out the instructions at some addresses, and exceptions have a say in which.
theorem Pruner.perform_heeds_exceptions {owner : String} {text : List Char} {m : Method} {limits : Limits}
    {h : Hierarchy} {g : PathGraph} {s : PathState} (p : Pruner) (loaded : Source.method owner text = .ok m)
    (executed : (m.execute limits h).1 = .ok g) (entered : m.initialState = .ok s) :
    (p.perform ⟨m,g⟩).2.2.method.code = (m.cut (⟨m,g⟩ : Traced).condemned).code ∧
      (⟨m,g⟩ : Traced).Heeds h s.bindings (m.entries limits h s.bindings) (⟨m,g⟩ : Traced).condemned := by
  obtain ⟨catalogued,aligned⟩ := Source.method_ok loaded
  obtain ⟨s',entered',explored⟩ := Method.execute_ok executed
  cases entered.symm.trans entered'
  rw [p.perform_eq,Traced.remove_code]
  have executed : Executed m h s.bindings g (m.entries limits h s.bindings) :=
    ⟨Method.entries_certified explored,catalogued,aligned,Method.initialState_plain entered⟩
  exact ⟨rfl,executed.heeds⟩

-- An exception out of the first two instructions is caught, and neither is needed.
def needless : List Char := Source.ofLines [
  ".method static run([I)V",".registers 2",":a","array-length v0, p0",
  "invoke-static \x7bp0\x7d, Ljava/lang/String;->valueOf(Ljava/lang/Object;)Ljava/lang/String;",":b","return-void",
  ":h","return-void",".catchall \x7b:a .. :b\x7d :h",".end method"]

theorem needless_pruned : ∃ m g s, Source.method "La;" needless = .ok m ∧
    (m.execute {} (.fresh Platform.standard)).1 = .ok g ∧ m.initialState = .ok s ∧
    (m.at? 0).map (fun i => i.opcode.name) = some "array-length" ∧
    (⟨m,g⟩ : Traced).Catches (.fresh Platform.standard) (m.entries {} (.fresh Platform.standard) s.bindings) 0 ∧
    (m.at? 1).map (fun i => i.opcode.name) = some "invoke-static" ∧
    (⟨m,g⟩ : Traced).Catches (.fresh Platform.standard) (m.entries {} (.fresh Platform.standard) s.bindings) 1 ∧
    ∀ k ∈ (({} : Pruner).perform ⟨m,g⟩).2.2.method.code, k.opcode.name = "return-void" := by
  obtain ⟨_,ok⟩ := exists_of_isOk (x := do
    let m ← Source.method "La;" needless
    let g ← (m.execute {} (.fresh Platform.standard)).1
    let s ← m.initialState
    let entries := m.entries {} (.fresh Platform.standard) s.bindings
    if (m.at? 0).map (fun i => i.opcode.name) = some "array-length" ∧
      (m.at? 1).map (fun i => i.opcode.name) = some "invoke-static" ∧
      (0 ∈ g.pile 0 ∧ (⟨m,g⟩ : Traced).flowAt? (.fresh Platform.standard) entries 0 0 = some (.next [1]) ∧
        2 ∈ g.childrenOf 0 ∧ (g.spot? 2).map Prod.fst = some 5) ∧
      (1 ∈ g.pile 1 ∧ (⟨m,g⟩ : Traced).flowAt? (.fresh Platform.standard) entries 1 1 = some (.next [4]) ∧
        4 ∈ g.childrenOf 1 ∧ (g.spot? 4).map Prod.fst = some 5) ∧
      (∀ k ∈ (({} : Pruner).perform ⟨m,g⟩).2.2.method.code, k.opcode.name = "return-void") then pure ()
      else throw ⟨.emptyMethod,[]⟩) (by decide +kernel)
  obtain ⟨m,loaded,ok⟩ := bind_ok.mp ok
  obtain ⟨g,executed,ok⟩ := bind_ok.mp ok
  obtain ⟨s,entered,ok⟩ := bind_ok.mp ok
  dsimp only at ok
  split at ok
  · next facts =>
    obtain ⟨measure,call,⟨member,flows,edge,spot⟩,⟨member',flows',edge',spot'⟩,left⟩ := facts
    exact ⟨m,g,s,loaded,executed,entered,measure,.of_elsewhere member flows edge spot (by decide),call,
      .of_elsewhere member' flows' edge' spot' (by decide),left⟩
  · cases ok

-- A handler reads the first length and nothing the second; the cast fails, and so nothing
-- comes to the throw.
def weighing : List Char := Source.ofLines [
  ".method static run([II)I",".registers 3",":a","array-length p1, p0","array-length v0, p0",":b","const-class v0, La;",
  "check-cast v0, Ljava/lang/String;","throw v0",":h","return p1",".catchall \x7b:a .. :b\x7d :h",".end method"]

theorem weighing_heeded : ∃ m g s, Source.method "La;" weighing = .ok m ∧
    (m.execute {} (.fresh Platform.standard)).1 = .ok g ∧ m.initialState = .ok s ∧
    (({} : Pruner).perform ⟨m,g⟩).2.2.method.code = (m.cut (⟨m,g⟩ : Traced).condemned).code ∧
    0 ∉ (⟨m,g⟩ : Traced).condemned ∧ 1 ∈ (⟨m,g⟩ : Traced).condemned ∧ 4 ∉ (⟨m,g⟩ : Traced).condemned ∧
    6 ∉ (⟨m,g⟩ : Traced).condemned := by
  obtain ⟨_,ok⟩ := exists_of_isOk (x := do
    let m ← Source.method "La;" weighing
    let g ← (m.execute {} (.fresh Platform.standard)).1
    let s ← m.initialState
    let t : Traced := ⟨m,g⟩
    let entries := m.entries {} (.fresh Platform.standard) s.bindings
    if m.code.head?.map Instr.address = some 0 ∧
      ((m.at? 0).map (fun i => (i.action.throws?,i.canThrow,i.writes)) = some (none,true,[.numbered 2]) ∧
        m.handlersFor 0 ≠ [] ∧ 7 ∈ m.exceptionTargets (.fresh Platform.standard) 0 none ∧
        (m.at? 7).map Instr.reads = some [.numbered 2]) ∧
      ((m.at? 1).map Instr.writes = some [.numbered 0] ∧ 1 ∈ m.removable ∧
        t.isLive (g.childrenAt 1) (.numbered 0) = false) ∧
      (g.pile 1 = #[1] ∧ t.flowAt? (.fresh Platform.standard) entries 1 1 = some (.next [2]) ∧
        2 ∈ g.childrenOf 1 ∧ (g.spot? 2).map Prod.fst = some 7) ∧
      ((g.pile 4)[0]? = some 4 ∧ t.flowAt? (.fresh Platform.standard) entries 4 4 =
        some (.raise (some "Ljava/lang/ClassCastException;"))) ∧
      (m.at? 6).map (fun i => (i.action.throws?,i.writes)) = some (some true,[]) then pure () else throw ⟨.emptyMethod,[]⟩)
    (by decide +kernel)
  obtain ⟨m,loaded,ok⟩ := bind_ok.mp ok
  obtain ⟨g,executed,ok⟩ := bind_ok.mp ok
  obtain ⟨s,entered,ok⟩ := bind_ok.mp ok
  dsimp only at ok
  split at ok
  · next facts =>
    obtain ⟨code,heeds⟩ := Pruner.perform_heeds_exceptions {} loaded executed entered
    obtain ⟨begins,measure,second,caught,⟨fourth,fails⟩,last⟩ := facts
    refine ⟨m,g,s,loaded,executed,entered,code,fun condemned => ?_,?_,heeds.first 4 4 _ fourth fails,?_⟩
    · obtain ⟨shape,protected',handler,reads⟩ := measure
      obtain ⟨i,here,shape⟩ := Option.map_eq_some_iff.mp shape
      obtain ⟨j,found,reads⟩ := Option.map_eq_some_iff.mp reads
      obtain ⟨calm,can,writes⟩ := by simpa only [Prod.mk.injEq] using shape
      have written : .numbered 2 ∈ i.writes := by rw [writes]; exact List.mem_singleton_self _
      have escapes : m.Escapes (.fresh Platform.standard) ⟨0,s.bindings⟩ ⟨7,s.bindings⟩ :=
        .guarded here (Instr.flow_of_calm calm written nofun) can protected' handler
      have path : m.Path (.fresh Platform.standard) s.bindings [⟨0,s.bindings⟩] :=
        Method.along?_path begins (by rw [Method.along?,if_pos (Option.isSome_of_eq_some here)])
      have lost := heeds.awaited _ _ _ i (.numbered 2) path (List.mem_singleton_self _) here written (Or.inr escapes)
        (.here found (by rw [reads]; exact List.mem_singleton_self _)) condemned
      cases lost.written written
    · obtain ⟨writes,removable,dead⟩ := second
      obtain ⟨pile,flows,edge,spot⟩ := caught
      obtain ⟨i,here,writes⟩ := Option.map_eq_some_iff.mp writes
      have unread : (⟨m,g⟩ : Traced).Unread i :=
        Traced.unread_of_dead writes nofun ((Method.mem_of_at? here).2.symm ▸ dead)
      have member : 1 ∈ g.pile 1 := by rw [pile]; exact Array.mem_singleton_self 1
      refine (heeds.caught 1 i here (.of_elsewhere member flows edge spot (by decide)) fun fails => ?_).mpr
        ⟨removable,Or.inl unread⟩
      obtain ⟨id,listed,type,raises⟩ := fails
      rw [pile] at listed
      cases Array.mem_singleton.mp listed
      cases flows.symm.trans raises
    · obtain ⟨i,here,shape⟩ := Option.map_eq_some_iff.mp last
      obtain ⟨throws,writes⟩ := by simpa only [Prod.mk.injEq] using shape
      obtain ⟨member,address⟩ := Method.mem_of_at? here
      cases action : i.action with
      | throw reg => exact address ▸ heeds.thrower i member reg action
      | checkCast reg type => simp [Instr.writes,action] at writes
      | _ => simp [Action.throws?,action] at throws
  · cases ok

end SmaliPrune
