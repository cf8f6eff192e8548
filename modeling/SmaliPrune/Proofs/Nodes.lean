import SmaliPrune.Proofs.Coverage
import SmaliPrune.Proofs.Layout
import SmaliPrune.Proofs.Liveness
import SmaliPrune.Proofs.Loading

namespace SmaliPrune

structure Executed (m : Method) (h : Hierarchy) (entry : Bindings) (g : PathGraph) (entries : Array Bindings) : Prop
    extends Certified m h entry g entries where
  catalogued : m.Catalogued
  aligned : m.Aligned
  plain : entry.Plain

theorem Method.argumentBindings_unknown (n : Nat) (types : List Descriptor) :
    ∀ w ∈ argumentBindings n types, w.2.isUnknown = true := by
  induction types generalizing n with
  | nil => exact fun _ member => absurd member List.not_mem_nil
  | cons t rest ih =>
    intro w member
    rcases List.mem_cons.mp member with rfl | member
    · rfl
    · exact ih _ w member

theorem Method.frameBindings_unknown (m : Method) : ∀ w ∈ m.frameBindings, w.2.isUnknown = true := by
  intro w member
  unfold frameBindings at member
  dsimp only at member
  split at member
  · exact argumentBindings_unknown _ _ w member
  · rcases List.mem_cons.mp member with rfl | member
    · rfl
    · exact argumentBindings_unknown _ _ w member

theorem Method.initialState_bindings {m : Method} {s : PathState} (entered : m.initialState = .ok s) :
    s.bindings = Bindings.empty.setAll m.frameBindings := by
  unfold initialState at entered
  split at entered
  · cases entered
    exact PathState.assignAll_bindings _ _
  · cases entered

theorem Method.initialState_plain {m : Method} {s : PathState} (entered : m.initialState = .ok s) :
    s.bindings.Plain := by
  rw [initialState_bindings entered]
  exact Bindings.plain_setAll Bindings.plain_empty fun w member => Value.exact_of_unknown (m.frameBindings_unknown w member)

theorem Method.executed_of {owner : String} {text : List Char} {m : Method} {limits : Limits} {h : Hierarchy}
    {g : PathGraph} {s : PathState} (loaded : Source.method owner text = .ok m)
    (executed : (m.execute limits h).1 = .ok g) (entered : m.initialState = .ok s) :
    ∃ entries, Executed m h s.bindings g entries := by
  obtain ⟨catalogued,aligned⟩ := Source.method_ok loaded
  obtain ⟨s',entered',explored⟩ := execute_ok executed
  rw [entered] at entered'
  cases entered'
  obtain ⟨entries,certified⟩ := explore_certified explored
  exact ⟨entries,certified,catalogued,aligned,initialState_plain entered⟩

theorem Method.Leads.boundary {m : Method} {h : Hierarchy} {c d : Config} (aligned : m.Aligned) (leads : m.Leads h c d) :
    m.Boundary d.address := by
  rcases leads with onward | caught
  · cases onward with
    | mk here flows chosen =>
      obtain ⟨member,_⟩ := mem_of_at? here
      rcases Instr.flow_targets flows chosen with next | target
      · exact next ▸ boundary_next aligned.laid member
      · exact aligned.targets _ member _ target
  · obtain ⟨handler,protects,entry⟩ := caught.handled
    obtain ⟨t,covers,listed⟩ := List.mem_flatMap.mp protects
    exact entry ▸ (aligned.tries t (List.mem_filter.mp covers).1).2.2 handler listed

section
variable {m : Method} {h : Hierarchy} {entry : Bindings} {g : PathGraph} {entries : Array Bindings}
variable {id child : Nat} {c d : Config} {i : Instr} {r : Register}

namespace PathGraph

theorem Stands.node (stands : g.Stands m h entries id c) (here : m.at? c.address = some i) :
    ∃ n, g.node? id = some n ∧ n.address = c.address ∧
      n.state = some (i.run (Method.answer? h i c.bindings) c.bindings m.registers) := by
  obtain ⟨_,j,here',spot⟩ := stands
  rw [here] at here'
  cases here'
  obtain ⟨n,node,seen⟩ := Option.map_eq_some_iff.mp spot
  obtain ⟨address,state⟩ := Prod.mk.inj seen
  exact ⟨n,node,address,state⟩

theorem Stands.instr (stands : g.Stands m h entries id c) : ∃ i, m.at? c.address = some i := by
  obtain ⟨_,i,here,_⟩ := stands
  exact ⟨i,here⟩

theorem Stands.reads (stands : g.Stands m h entries id c) (here : m.at? c.address = some i) :
    (⟨m,g⟩ : Traced).readsAt r id = true ↔ r ∈ i.reads := by
  obtain ⟨n,node,_,state⟩ := stands.node here
  unfold Traced.readsAt
  simp only [node,state]
  exact Instr.run_hasRead i _ _ _ r

-- A value passes an instruction that goes on without assigning the register, and one that
-- is left by an exception.

theorem Stands.flows_on (stands : g.Stands m h entries id c) (here : m.at? c.address = some i)
    (step : m.Continues h c d) (other : r ∉ i.writes) (edge : child ∈ g.childrenOf id) :
    child ∈ (⟨m,g⟩ : Traced).flowsTo r id := by
  obtain ⟨n,node,_,state⟩ := stands.node here
  unfold childrenOf at edge
  rw [node] at edge
  refine Traced.mem_flowsTo.mpr ⟨n,_,node,state,Array.mem_toList_iff.mp edge,Or.inl fun assigned => other ?_⟩
  cases step with
  | mk found flows _ =>
    rw [here] at found
    cases found
    exact Instr.effect_next flows ▸ (Instr.run_mem_assigns i _ _ _ r).mp assigned

theorem Stands.flows_out (stands : g.Stands m h entries id c) (here : m.at? c.address = some i)
    (step : m.Escapes h c d) (edge : child ∈ g.childrenOf id) (at' : ∃ s, g.spot? child = some (d.address,s)) :
    child ∈ (⟨m,g⟩ : Traced).flowsTo r id := by
  obtain ⟨n,node,address,state⟩ := stands.node here
  unfold childrenOf at edge
  rw [node] at edge
  refine Traced.mem_flowsTo.mpr ⟨n,_,node,state,Array.mem_toList_iff.mp edge,?_⟩
  obtain ⟨s,spot⟩ := at'
  obtain ⟨k,found,seen⟩ := Option.map_eq_some_iff.mp spot
  cases step with
  | guarded found' _ can _ chosen =>
    rw [here] at found'
    cases found'
    obtain ⟨handler,member,entry⟩ := Method.exceptionTargets_handlers chosen
    refine Or.inr ⟨k,found,?_⟩
    rw [(Prod.mk.inj seen).1,address]
    exact Method.mem_throwTargets.mpr ⟨i,here,can,handler,member,entry⟩
  | thrown found' flows _ =>
    rw [here] at found'
    cases found'
    -- Nothing was assigned.
    refine Or.inl fun assigned => ?_
    have written := (Instr.run_mem_assigns i _ _ m.registers r).mp assigned
    rw [Instr.effect_raise flows] at written
    cases written

theorem Stands.of_flow (stands : g.Stands m h entries id c) (here : m.at? c.address = some i)
    (flows : child ∈ (⟨m,g⟩ : Traced).flowsTo r id) : child ∈ g.childrenOf id ∧
      (r ∈ (i.effect (Method.answer? h i c.bindings) c.bindings).assigns.map Prod.fst →
        ∃ n, g.node? child = some n ∧ n.address ∈ m.throwTargets c.address) := by
  obtain ⟨n,node,address,state⟩ := stands.node here
  obtain ⟨n',s,node',state',edge,free⟩ := Traced.mem_flowsTo.mp flows
  cases node.symm.trans node'
  cases state.symm.trans state'
  refine ⟨?_,fun assigned => ?_⟩
  · unfold childrenOf
    rw [node]
    exact Array.mem_toList_iff.mpr edge
  · obtain ⟨k,found,listed⟩ := free.resolve_left fun idle => idle ((Instr.run_mem_assigns i _ _ _ r).mpr assigned)
    exact ⟨k,found,address ▸ listed⟩

end PathGraph

end
end SmaliPrune
