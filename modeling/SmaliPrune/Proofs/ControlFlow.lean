import SmaliPrune.Proofs.Nodes

namespace SmaliPrune

namespace Instr

theorem raises_action {i : Instr} {answer : Option Bool} {b : Bindings} {thrown : Option String}
    (raises : (i.effect answer b).flow = .raise thrown) :
    (∃ reg, i.action = .throw reg) ∨ ∃ reg type, i.action = .checkCast reg type := by
  cases action : i.action with
  | throw reg => exact Or.inl ⟨reg,rfl⟩
  | checkCast reg type => exact Or.inr ⟨reg,type,rfl⟩
  | leave src => cases src <;> simp [effect,action] at raises
  | _ => simp [effect,onward,action] at raises

theorem canThrow_of_raise {i : Instr} (catalogued : i.Catalogued) {answer : Option Bool} {b : Bindings}
    {thrown : Option String} (raises : (i.effect answer b).flow = .raise thrown) : i.canThrow = true := by
  rcases raises_action raises with ⟨reg,action⟩ | ⟨reg,type,action⟩
  · exact canThrow_of_action catalogued (by rw [action]; rfl)
  · exact canThrow_of_action catalogued (by rw [action]; rfl)

theorem onward_some {i : Instr} (catalogued : i.Catalogued) (stays : i.action.departs = false) : i.onward ≠ .next [] := by
  unfold onward
  rw [canContinue_of_action catalogued stays]
  exact nofun

theorem leaves_of_flow {i : Instr} (catalogued : i.Catalogued) {answer : Option Bool} {b : Bindings}
    (flows : (i.effect answer b).flow = .next []) : ∃ src, i.action = .leave src := by
  cases action : i.action with
  | leave src => exact ⟨src,rfl⟩
  | goto target =>
    simp only [effect,action] at flows
    cases flows
  | branch test a rhs target =>
    simp only [effect,action] at flows
    split at flows
    · cases flows
    · cases flows
    · split at flows
      · cases flows
      · cases flows
  | throw reg =>
    obtain ⟨_,threw⟩ := effect_throw action answer b
    rw [threw] at flows
    cases flows
  | checkCast reg type =>
    rcases effect_checkCast action answer b with ⟨v,kept,_⟩ | threw
    · rw [kept] at flows
      exact absurd flows (onward_some catalogued (by rw [action]; rfl))
    · rw [threw] at flows
      cases flows
  | _ =>
    simp only [effect,action] at flows
    exact absurd flows (onward_some catalogued (by rw [action]; rfl))

end Instr

-- Why a path ends at an instruction: it returns; it throws, or casts what is known to be
-- of another type, and no handler may catch that; or all it leads to is the end of the code.
inductive Method.Ends (m : Method) (h : Hierarchy) (i : Instr) (e : Bindings) : Prop where
  | returns {src : Option Nat} (action : i.action = .leave src) : Ends m h i e
  | throws {reg : Nat} {thrown : Option String} (action : i.action = .throw reg)
      (raises : (i.effect (answer? h i e) e).flow = .raise thrown)
      (uncaught : m.exceptionTargets h i.address thrown = []) : Ends m h i e
  | fails {reg : Nat} {type : String} (action : i.action = .checkCast reg type) (no : answer? h i e = some false)
      (uncaught : m.exceptionTargets h i.address (some "Ljava/lang/ClassCastException;") = []) : Ends m h i e
  | runsOut (some : m.exits h i e ≠ []) (all : ∀ x ∈ m.exits h i e, x.1 = m.units) : Ends m h i e

-- A node shows what the instruction at its address came to in some registers, and no more:
-- it read what the instruction reads and assigned what it writes, unless it raised.
structure Node.Shows (n : Node) (m : Method) (h : Hierarchy) (i : Instr) (e : Bindings) : Prop where
  here : m.at? n.address = some i
  state : n.state = some (i.run (Method.answer? h i e) e m.registers)
  reads : ∀ s, n.state = some s → ∀ r, s.hasRead r = true ↔ r ∈ i.reads
  assigns : ∀ s, n.state = some s → ∀ r, s.hasAssigned r = true ↔
    r ∈ i.writes ∧ ∃ addresses, (i.effect (Method.answer? h i e) e).flow = .next addresses
  ends : n.isLeaf = true → m.Ends h i e

-- A graph goes along the control flow that the code declares: from the first instruction,
-- to successors and to the handlers of what can throw.
structure PathGraph.Follows (g : PathGraph) (m : Method) (h : Hierarchy) : Prop where
  root : ∃ first id n, m.code.head? = some first ∧ g.roots = [id] ∧ g.node? id = some n ∧ n.address = first.address
  reached : ∀ id, g.Live id → ∃ root ∈ g.roots, Relation.ReflTransGen g.Edge root id
  nodes : ∀ id n, g.node? id = some n → ∃ i e, n.Shows m h i e
  edges : ∀ a b, g.Edge a b → ∃ n k i, g.node? a = some n ∧ g.node? b = some k ∧ m.at? n.address = some i ∧
    (k.address ∈ i.successors ∨ i.canThrow = true ∧ ∃ c ∈ m.handlersFor n.address, c.entry = k.address)

namespace Instr

theorem run_hasAssigned (i : Instr) (answer : Option Bool) (b : Bindings) (registers : Nat) (r : Register) :
    (i.run answer b registers).hasAssigned r = true ↔
      r ∈ i.writes ∧ ∃ addresses, (i.effect answer b).flow = .next addresses := by
  unfold PathState.hasAssigned
  rw [List.contains_iff_mem,run_mem_assigns]
  cases flow : (i.effect answer b).flow with
  | next addresses =>
    rw [effect_next flow]
    exact ⟨fun written => ⟨written,addresses,rfl⟩,And.left⟩
  | raise thrown =>
    rw [effect_raise flow]
    constructor
    · exact fun written => absurd written List.not_mem_nil
    · intro goes
      obtain ⟨_,_,goes⟩ := goes
      cases goes

end Instr

namespace Method
variable {m : Method} {h : Hierarchy} {i : Instr} {e : Bindings}

theorem Leads.end_of {c d : Config} (aligned : m.Aligned) (leads : m.Leads h c d) (nowhere : m.at? d.address = none) :
    d.address = m.units := by
  rcases leads.boundary aligned with starts | ending
  · obtain ⟨j,member,address⟩ := List.mem_map.mp starts
    rw [← address,at?_of_mem aligned.laid member] at nowhere
    cases nowhere
  · exact ending

theorem at?_units (aligned : m.Aligned) : m.at? m.units = none := by
  cases found : m.at? m.units with
  | none => rfl
  | some i =>
    obtain ⟨member,address⟩ := mem_of_at? found
    have inside := (laid_le aligned.laid member).2
    have := i.units_pos
    rw [units_eq aligned.laid] at address
    unfold Instr.next at inside
    omega

theorem Escapes.canThrow {c d : Config} (catalogued : m.Catalogued) (here : m.at? c.address = some i)
    (escapes : m.Escapes h c d) : i.canThrow = true := by
  cases escapes with
  | guarded here' _ can _ _ =>
    cases here.symm.trans here'
    exact can
  | thrown here' raises _ =>
    cases here.symm.trans here'
    exact Instr.canThrow_of_raise (catalogued i (mem_of_at? here).1) raises

theorem Leads.declared {c d : Config} (catalogued : m.Catalogued) (here : m.at? c.address = some i)
    (leads : m.Leads h c d) :
    d.address ∈ i.successors ∨ i.canThrow = true ∧ ∃ handler ∈ m.handlersFor c.address, handler.entry = d.address := by
  rcases leads with onward | caught
  · cases onward with
    | mk here' flows chosen =>
      cases here.symm.trans here'
      exact Or.inl (Instr.flow_successors flows _ chosen)
  · exact Or.inr ⟨caught.canThrow catalogued here,caught.handled⟩

theorem ends_of_exits (catalogued : i.Catalogued) (all : ∀ x ∈ m.exits h i e, x.1 = m.units) : m.Ends h i e := by
  by_cases none : m.exits h i e = []
  · unfold exits at none
    obtain ⟨ahead,caught⟩ := List.append_eq_nil_iff.mp none
    cases flow : (i.effect (answer? h i e) e).flow with
    | next addresses =>
      simp only [flow,List.map_eq_nil_iff] at ahead
      subst ahead
      obtain ⟨src,action⟩ := Instr.leaves_of_flow catalogued flow
      exact .returns action
    | raise thrown =>
      simp only [flow,raised?,List.map_eq_nil_iff] at caught
      rcases Instr.raises_action flow with ⟨reg,action⟩ | ⟨reg,type,action⟩
      · exact .throws action flow caught
      · obtain ⟨no,rfl⟩ := Instr.cast_fails action flow
        exact .fails action no caught
  · exact .runsOut none all

end Method

section
variable {m : Method} {h : Hierarchy} {entry : Bindings} {g : PathGraph} {entries : Array Bindings}

theorem Certified.ends (certified : Certified m h entry g entries) (catalogued : m.Catalogued) (aligned : m.Aligned)
    {id : Nat} {c : Config} {i : Instr} (stands : g.Stands m h entries id c) (here : m.at? c.address = some i)
    (leaf : g.childrenOf id = []) : m.Ends h i c.bindings := by
  apply Method.ends_of_exits (catalogued i (Method.mem_of_at? here).1)
  intro x exit
  have leads : m.Leads h c ⟨x.1,x.2⟩ := (Method.mem_exits here).mp exit
  cases lands : m.at? x.1 with
  | none => exact leads.end_of aligned lands
  | some j =>
    obtain ⟨child,edge,_⟩ := certified.paid (some id) _ ⟨c,stands,leads⟩ (Option.isSome_of_eq_some lands)
    have edge : child ∈ g.childrenOf id := edge
    rw [leaf] at edge
    cases edge

theorem Certified.shows (certified : Certified m h entry g entries) (catalogued : m.Catalogued) (aligned : m.Aligned)
    {id : Nat} {n : Node} (node : g.node? id = some n) : ∃ i e, n.Shows m h i e := by
  obtain ⟨c,stands⟩ := certified.stands id (PathGraph.live_iff.mpr ⟨n,node⟩)
  obtain ⟨i,here⟩ := stands.instr
  obtain ⟨n',node',address,state⟩ := stands.node here
  cases node.symm.trans node'
  refine ⟨i,c.bindings,address ▸ here,state,?_,?_,?_⟩
  · intro s ran
    cases state.symm.trans ran
    exact i.run_hasRead _ _ _
  · intro s ran
    cases state.symm.trans ran
    exact i.run_hasAssigned _ _ _
  · intro leaf
    exact certified.ends catalogued aligned stands here ((PathGraph.childrenOf_eq_nil node).mpr leaf)

theorem Certified.follows (certified : Certified m h entry g entries) (catalogued : m.Catalogued) (aligned : m.Aligned)
    (some : m.code ≠ []) : g.Follows m h := by
  constructor
  case root =>
    obtain ⟨id,only⟩ := certified.single some
    have child : g.Child none id := by
      change id ∈ g.roots
      rw [only]
      exact List.mem_singleton_self id
    obtain ⟨d,⟨first,_⟩,c,stands,same,_⟩ := certified.honest none id child
    obtain ⟨i,head,address⟩ := Option.map_eq_some_iff.mp first
    obtain ⟨j,here⟩ := stands.instr
    obtain ⟨n,node,at',_⟩ := stands.node here
    exact ⟨i,id,n,head,only,node,at'.trans (same.trans address.symm)⟩
  case reached =>
    intro id live
    obtain ⟨root,rooted,path⟩ := certified.reached id live
    exact ⟨root,rooted,Relation.ReflTransGen.mono (fun _ _ edge => PathGraph.edge_iff.mpr edge) _ _ path⟩
  case nodes => exact fun id n node => certified.shows catalogued aligned node
  case edges =>
    intro a b edge
    obtain ⟨d,⟨c,stands,leads⟩,c',stands',same,_⟩ := certified.honest (.some a) b (PathGraph.edge_iff.mp edge)
    obtain ⟨i,here⟩ := stands.instr
    obtain ⟨j,there⟩ := stands'.instr
    obtain ⟨n,node,address,_⟩ := stands.node here
    obtain ⟨k,node',address',_⟩ := stands'.node there
    refine ⟨n,k,i,node,node',address ▸ here,?_⟩
    rw [address,address',same]
    exact leads.declared catalogued here

end

theorem Method.explore_follows {owner : String} {text : List Char} {m : Method} {limits : Limits} {h : Hierarchy}
    {entry : Bindings} {g : PathGraph} (loaded : Source.method owner text = .ok m)
    (explored : (m.explore limits h entry).1 = .ok g) (some : m.code ≠ []) :
    g.Follows m h ∧ m.at? m.units = none ∧ ∀ i ∈ m.code, ∀ answer b addresses,
      (i.effect answer b).flow = .next addresses → ∀ x ∈ addresses, x ∈ i.successors := by
  obtain ⟨catalogued,aligned⟩ := Source.method_ok loaded
  obtain ⟨entries,certified⟩ := explore_certified explored
  exact ⟨certified.follows catalogued aligned some,at?_units aligned,fun _ _ _ _ _ flows => Instr.flow_successors flows⟩

def awaiting : List Char := Source.ofLines [
  ".method static run(I)V",":a","if-eqz p0, :b","goto :a",":b","throw p0",":c",".catchall \x7b:b .. :c\x7d :c",
  "return-void",".end method"]

theorem awaiting_follows : ∃ m g, Source.method "La;" awaiting = .ok m ∧ (m.explore {} (.fresh []) .empty).1 = .ok g ∧
    m.addresses = [0,2,3,4] ∧ g.reached = [0,2,3,4] ∧ g.terminating = [4] ∧ g.Follows m (.fresh []) := by
  obtain ⟨_,ok⟩ := exists_of_isOk (x := do
    let m ← Source.method "La;" awaiting
    let g ← (m.explore {} (.fresh []) .empty).1
    if m.addresses = [0,2,3,4] ∧ g.reached = [0,2,3,4] ∧ g.terminating = [4] then pure ()
      else throw ⟨.emptyMethod,[]⟩) (by decide +kernel)
  obtain ⟨m,loaded,ok⟩ := bind_ok.mp ok
  obtain ⟨g,explored,ok⟩ := bind_ok.mp ok
  split at ok
  · next facts =>
    obtain ⟨addresses,reached,ends⟩ := facts
    have some : m.code ≠ [] := by
      intro none
      rw [Method.addresses,none] at addresses
      cases addresses
    exact ⟨m,g,loaded,explored,addresses,reached,ends,(Method.explore_follows loaded explored some).1⟩
  · cases ok

end SmaliPrune
