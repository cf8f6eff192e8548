import SmaliPrune.Proofs.Nodes

namespace SmaliPrune

def Instr.leavesResult (i : Instr) : Bool :=
  match i.action with
  | .invoke _ _ method => !method.isVoid
  | _ => i.opcode.name == "filled-new-array" || i.opcode.name == "filled-new-array/range"

-- Results are taken by the instruction behind, and there is no other way to that one.
structure Method.ResultsFollow (m : Method) : Prop where
  behind : ∀ i ∈ m.code, i.isMoveResult = true → ∃ j ∈ m.code, j.next = i.address ∧ j.leavesResult = true
  untargeted : ∀ i ∈ m.code, i.isMoveResult = true → ∀ j ∈ m.code, j.action.target? ≠ some i.address
  unhandled : ∀ i ∈ m.code, i.isMoveResult = true → ∀ t ∈ m.tries, ∀ c ∈ t.handlers, c.entry ≠ i.address

instance (m : Method) : Decidable m.ResultsFollow :=
  decidable_of_iff
    ((∀ i ∈ m.code, i.isMoveResult = true → ∃ j ∈ m.code, j.next = i.address ∧ j.leavesResult = true) ∧
      (∀ i ∈ m.code, i.isMoveResult = true → ∀ j ∈ m.code, j.action.target? ≠ some i.address) ∧
      ∀ i ∈ m.code, i.isMoveResult = true → ∀ t ∈ m.tries, ∀ c ∈ t.handlers, c.entry ≠ i.address)
    ⟨fun ⟨behind,untargeted,unhandled⟩ => ⟨behind,untargeted,unhandled⟩,
      fun follow => ⟨follow.behind,follow.untargeted,follow.unhandled⟩⟩

namespace Instr

theorem arrays_leave_results : ∀ o ∈ Opcode.catalogue, o.name = "filled-new-array" ∨ o.name = "filled-new-array/range" →
    o.form = .other ∧ o.traits.setsResult = true := by decide +kernel

theorem writes_result {i : Instr} (catalogued : i.Catalogued) (leaves : i.leavesResult = true) : .result ∈ i.writes := by
  obtain ⟨listed,formed⟩ := catalogued
  unfold leavesResult at leaves
  split at leaves
  · next kind registers method action => simp_all [writes]
  · next other =>
    simp only [Bool.or_eq_true,beq_iff_eq] at leaves
    obtain ⟨form,sets⟩ := arrays_leave_results i.opcode listed leaves
    rw [form] at formed
    cases action : i.action with
    | generic registers => simp [writes,action,genericAssigns,sets]
    | _ => simp_all [Action.hasForm]

end Instr

section
variable {m : Method} {h : Hierarchy} {entry : Bindings} {g : PathGraph} {entries : Array Bindings}
variable {id child : Nat} {c d : Config} {i : Instr}

theorem Method.ResultsFollow.unprotected (follow : m.ResultsFollow) (member : i ∈ m.code)
    (takes : i.isMoveResult = true) {a : Nat} : ∀ c ∈ m.handlersFor a, c.entry ≠ i.address := by
  intro c protects
  obtain ⟨t,covers,listed⟩ := List.mem_flatMap.mp protects
  exact follow.unhandled i member takes t (List.mem_filter.mp covers).1 c listed

theorem Executed.result_lost (executed : Executed m h entry g entries) (follow : m.ResultsFollow)
    (stands : g.Stands m h entries id c) (here : m.at? c.address = some i) (other : i.isMoveResult = false) :
    ¬ (⟨m,g⟩ : Traced).Wanted .result id := by
  rintro ⟨k,path,reads⟩
  obtain ⟨e,at'⟩ := executed.stands k (Traced.live_of_reads reads)
  obtain ⟨j,there⟩ := at'.instr
  obtain ⟨member,address⟩ := Method.mem_of_at? there
  obtain ⟨_,action⟩ := Instr.moveResult_of_read ((at'.reads there).mp reads)
  have takes : j.isMoveResult = true := Instr.isMoveResult_of_action (executed.catalogued j member) action
  rcases Relation.ReflTransGen.cases_tail path with rfl | ⟨p,_,flows⟩
  · rw [stands.unique at',there] at here
    cases here
    rw [takes] at other
    cases other
  · -- The last step on the way comes from what left the result, and so assigned it.
    obtain ⟨b,stands'⟩ := executed.stands p (Traced.live_of_flows flows)
    obtain ⟨l,before⟩ := stands'.instr
    obtain ⟨inside,_⟩ := Method.mem_of_at? before
    obtain ⟨edge,handled⟩ := stands'.of_flow before flows
    obtain ⟨d,⟨b',stands'',leads⟩,e',at'',same,_⟩ := executed.honest (some p) k edge
    rw [stands''.unique stands'] at leads
    rw [at''.unique at',← address] at same
    rcases leads with onward | caught
    · cases onward with
      | mk before' flows' chosen =>
        rw [before] at before'
        cases before'
        rcases Instr.flow_targets flows' chosen with next | target
        · obtain ⟨l',inside',behind,leaves⟩ := follow.behind j member takes
          have back := laid_eq_of_next executed.aligned.laid inside' inside (behind.trans (same.trans next))
          have written := Instr.writes_result (executed.catalogued l inside) (back ▸ leaves)
          rw [← Instr.effect_next flows'] at written
          obtain ⟨n,node,listed⟩ := handled written
          obtain ⟨_,spot⟩ := at'.spot
          obtain ⟨n',node',seen⟩ := Option.map_eq_some_iff.mp spot
          rw [node] at node'
          cases node'
          obtain ⟨_,_,_,handler,protects,entry⟩ := Method.mem_throwTargets.mp listed
          exact follow.unprotected member takes handler protects (entry.trans ((Prod.mk.inj seen).1.trans address.symm))
        · exact follow.untargeted j member takes l inside (same ▸ target)
    · obtain ⟨handler,protects,entry⟩ := caught.handled
      exact follow.unprotected member takes handler protects (entry.trans same.symm)

end
end SmaliPrune
