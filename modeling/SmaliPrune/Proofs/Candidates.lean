import SmaliPrune.Proofs.Nodes
import SmaliPrune.Prune.Candidates

namespace SmaliPrune

theorem mem_ascending {ns : List Nat} {n : Nat} : n ∈ ascending ns ↔ n ∈ ns := by
  unfold ascending
  rw [Std.TreeSet.mem_toList,Std.TreeSet.mem_ofList,List.contains_iff_mem]

namespace Method

theorem removable_next {m : Method} (laid : Laid 0 m.code) {a : Nat} (removable : a ∈ m.removable) :
    ∃ i, m.at? a = some i ∧ ∃ j ∈ m.code, j.address = i.next := by
  unfold Method.removable at removable
  have member := (List.mem_filter.mp removable).1
  unfold addresses at member
  rw [← List.map_dropLast] at member
  obtain ⟨i,inside,rfl⟩ := List.mem_map.mp member
  refine ⟨i,at?_of_mem laid ((List.dropLast_sublist _).subset inside),?_⟩
  obtain ⟨before,after,split⟩ := List.append_of_mem inside
  cases last : m.code.getLast? with
  | none =>
    rw [List.getLast?_eq_none_iff.mp last] at inside
    cases inside
  | some l =>
    obtain ⟨front,code⟩ := List.getLast?_eq_some_iff.mp last
    have code' : m.code = before ++ i :: (after ++ [l]) := by
      rw [code,List.dropLast_concat] at split
      rw [code,split]
      simp
    rw [code'] at laid
    obtain ⟨here,rest⟩ := (laid_append.mp laid).2
    cases more : after ++ [l] with
    | nil => simp at more
    | cons j rest' =>
      rw [more] at rest code'
      refine ⟨j,by rw [code']; simp,?_⟩
      rw [rest.1,Instr.next,here]

theorem removable_not_last {m : Method} (laid : Laid 0 m.code) {l : Instr} (last : m.code.getLast? = some l) :
    l.address ∉ m.removable := by
  intro removable
  obtain ⟨i,here,j,behind,begins⟩ := removable_next laid removable
  rw [at?_of_mem laid (List.mem_of_getLast? last)] at here
  cases here
  have ending : l.next = width m.code := by
    rw [← units_eq laid,units,last]
    rfl
  have inside := (laid_le laid behind).2
  have := j.units_pos
  unfold Instr.next at *
  omega

end Method

-- Addresses that one pass takes out.
def Traced.condemned (t : Traced) : List Nat := (t.candidates t.method.removable).all

theorem Traced.mem_condemned {t : Traced} {a : Nat} : a ∈ t.condemned ↔ a ∈ t.method.removable ∧
    (t.isUnreached a = true ∨ t.isDeadAssignment a = true ∨ t.isDeadResult a = true ∨ t.isUselessBranch a = true) := by
  unfold Traced.condemned candidates Candidates.all
  simp only [List.mem_append,List.mem_filter,← and_or_left,or_assoc]

section
variable {m : Method} {h : Hierarchy} {entry : Bindings} {g : PathGraph} {entries : Array Bindings}
variable {id child : Nat} {c d : Config} {i : Instr} {r : Register}

theorem Certified.childrenAt (certified : Certified m h entry g entries) (stands : g.Stands m h entries id c)
    (edge : child ∈ g.childrenOf id) : child ∈ g.childrenAt c.address := by
  obtain ⟨s,spot⟩ := stands.spot
  exact PathGraph.mem_childrenAt.mpr ⟨id,(certified.piled.members _ _).mpr ⟨s,spot⟩,edge⟩

theorem Certified.returned_unwanted (certified : Certified m h entry g entries) (id : Nat) :
    ¬ (⟨m,g⟩ : Traced).Wanted .returned id := by
  rintro ⟨reader,_,reads⟩
  obtain ⟨c,stands⟩ := certified.stands reader (Traced.live_of_reads reads)
  obtain ⟨i,here⟩ := stands.instr
  exact i.returned_not_read ((stands.reads here).mp reads)

def Instr.Discards (i : Instr) (m : Method) : Prop :=
  ∃ kind registers method, i.action = .invoke kind registers method ∧ method.isVoid = false ∧ kind ≠ .direct ∧
    (m.at? i.next).any Instr.isMoveResult = false

theorem Instr.Discards.written {m : Method} (discards : i.Discards m) (written : r ∈ i.writes) : r = .result := by
  obtain ⟨_,_,_,action,some,_⟩ := discards
  simpa [Instr.writes,action,some] using written

theorem Instr.Discards.unknown {m : Method} {v : Value} (discards : i.Discards m) (here : m.at? c.address = some i)
    (step : m.Continues h c d) (found : d.bindings.lookup .result = some v) : v.isUnknown = true := by
  obtain ⟨kind,registers,method,action,some',_⟩ := discards
  cases step with
  | mk here' _ _ =>
    rw [here] at here'
    cases here'
    simp only [Instr.run_bindings,Instr.effect,action,some',Bool.false_eq_true,if_false,Bindings.setAll,List.foldl_cons,
      List.foldl_nil,Bindings.lookup_set,if_true] at found
    cases found
    rfl

theorem Certified.assigns_unwanted (certified : Certified m h entry g entries) {start : List Nat}
    {answer : Option Bool} {b : Bindings} {n : Nat}
    (some' : (i.run answer b n).assigns.filter (· != .returned) ≠ [])
    (dead : ∀ r ∈ (i.run answer b n).assigns.filter (· != .returned), (⟨m,g⟩ : Traced).isLive start r = false) :
    (∃ r ∈ i.writes, r ≠ .returned) ∧ ∀ r ∈ i.writes, ∀ id ∈ start, ¬ (⟨m,g⟩ : Traced).Wanted r id := by
  obtain ⟨q,assigned⟩ := List.exists_mem_of_ne_nil _ some'
  obtain ⟨member,stays⟩ := List.mem_filter.mp assigned
  have written : (i.effect answer b).assigns.map Prod.fst = i.writes := by
    cases flow : (i.effect answer b).flow with
    | next addresses => exact Instr.effect_next flow
    | raise type =>
      have member := (Instr.run_mem_assigns i answer b n q).mp member
      rw [Instr.effect_raise flow] at member
      cases member
  have agree : ∀ r, r ∈ (i.run answer b n).assigns ↔ r ∈ i.writes := fun r =>
    written ▸ Instr.run_mem_assigns i answer b n r
  refine ⟨⟨q,(agree q).mp member,by simpa using stays⟩,fun r write id listed wanted => ?_⟩
  by_cases returned : r = .returned
  · exact certified.returned_unwanted id (returned ▸ wanted)
  · have no := dead r (List.mem_filter.mpr ⟨(agree r).mpr write,by simpa using returned⟩)
    rw [(Traced.isLive_iff _ _ _).mpr ⟨id,listed,wanted⟩] at no
    cases no

theorem Certified.not_unreached (certified : Certified m h entry g entries) (stands : g.Stands m h entries id c) :
    (⟨m,g⟩ : Traced).isUnreached c.address = false := by
  obtain ⟨s,spot⟩ := stands.spot
  have member := (certified.piled.members _ _).mpr ⟨s,spot⟩
  cases unreached : (⟨m,g⟩ : Traced).isUnreached c.address with
  | false => rfl
  | true =>
    have empty : g.pile c.address = #[] := by simpa [Traced.isUnreached,PathGraph.isReached] using unreached
    rw [empty] at member
    simp at member

theorem Certified.entered_pile (certified : Certified m h entry g entries) {a : Nat} (member : id ∈ g.pile a) :
    ∃ e, entries[id]? = some e ∧ g.Stands m h entries id ⟨a,e⟩ := by
  obtain ⟨s,spot⟩ := (certified.piled.members _ _).mp member
  have live : g.Live id := by
    rw [PathGraph.Live,spot]
    rfl
  obtain ⟨⟨_,e⟩,stands⟩ := certified.stands id live
  obtain ⟨_,spot'⟩ := stands.spot
  rw [spot] at spot'
  cases spot'
  exact ⟨e,stands.1,stands⟩

theorem Certified.first_assigns (certified : Certified m h entry g entries) {a : Nat} (here : m.at? a = some i)
    (assignment : (⟨m,g⟩ : Traced).isDeadAssignment a = true) : ∃ id e, (g.pile a)[0]? = some id ∧ entries[id]? = some e ∧
      (i.run (Method.answer? h i e) e m.registers).assigns.filter (· != .returned) ≠ [] ∧
      ∀ r ∈ (i.run (Method.answer? h i e) e m.registers).assigns.filter (· != .returned),
        (⟨m,g⟩ : Traced).isLive (g.childrenAt a) r = false := by
  unfold Traced.isDeadAssignment at assignment
  cases first : (g.firstAt? a).bind Node.state with
  | none => simp [first] at assignment
  | some s =>
    simp only [first,Bool.and_eq_true,Bool.not_eq_true',List.isEmpty_eq_false_iff,List.all_eq_true] at assignment
    obtain ⟨some,dead⟩ := assignment
    obtain ⟨n,atFirst,state⟩ := Option.bind_eq_some_iff.mp first
    obtain ⟨id,pile,node⟩ := Option.bind_eq_some_iff.mp atFirst
    obtain ⟨e,entered,stands⟩ := certified.entered_pile (Array.mem_of_getElem? pile)
    obtain ⟨n',node',_,state'⟩ := stands.node here
    rw [node] at node'
    cases node'
    rw [state] at state'
    cases state'
    exact ⟨id,e,pile,entered,some,fun r assigned => by simpa using dead r assigned⟩

theorem Certified.dead_assignment (certified : Certified m h entry g entries) {a : Nat} (here : m.at? a = some i)
    (assignment : (⟨m,g⟩ : Traced).isDeadAssignment a = true) :
    (∃ r ∈ i.writes, r ≠ .returned) ∧ ∀ r ∈ i.writes, ∀ child ∈ g.childrenAt a, ¬ (⟨m,g⟩ : Traced).Wanted r child := by
  obtain ⟨_,_,_,_,some,dead⟩ := certified.first_assigns here assignment
  exact certified.assigns_unwanted some dead

theorem Traced.isDeadResult_iff {t : Traced} {a : Nat} (here : t.method.at? a = some i) :
    t.isDeadResult a = true ↔ i.Discards t.method := by
  unfold Traced.isDeadResult Instr.Discards
  rw [here]
  dsimp only
  constructor
  · intro result
    split at result
    · next kind registers method action =>
      simp only [Bool.and_eq_true,Bool.not_eq_true',bne_iff_ne] at result
      exact ⟨kind,registers,method,action,result.1.1,result.1.2,result.2⟩
    · cases result
  · intro discards
    obtain ⟨kind,registers,method,action,some,other,lost⟩ := discards
    rw [action]
    dsimp only
    rw [some,lost]
    simpa using other

theorem Traced.useless_goto {t : Traced} {a : Nat} (here : t.method.at? a = some i)
    (branch : t.isUselessBranch a = true) : i.action = .goto i.next := by
  simp only [Traced.isUselessBranch,here,Option.any_some,Bool.and_eq_true,beq_iff_eq] at branch
  obtain ⟨jump,distance⟩ := branch
  unfold Instr.isGoto at jump
  split at jump
  · next target action =>
    simp only [Instr.offset?,action,Action.target?] at distance
    have distance : (target : Int) - i.address = i.units := Option.some.inj distance
    have next : target = i.next := by
      unfold Instr.next
      omega
    rw [action,next]
  · cases jump

-- What is condemned and yet reached goes on to the next instruction, unless it throws. No
-- node behind it wants what it assigns, or else it is a result that is lost.
theorem Certified.condemned_continues (certified : Certified m h entry g entries)
    (condemned : c.address ∈ (⟨m,g⟩ : Traced).condemned) (here : m.at? c.address = some i)
    (stands : g.Stands m h entries id c) {b : Bindings} (step : m.Continues h ⟨c.address,b⟩ d) :
    d.address = i.next ∧ ((∀ r ∈ i.writes, ∀ child ∈ g.childrenAt c.address, ¬ (⟨m,g⟩ : Traced).Wanted r child) ∨
      i.Discards m) := by
  cases step with
  | @mk _ x _ _ addresses found flows chosen =>
    rw [here] at found
    cases found
    dsimp only
    obtain ⟨_,unreached | assignment | result | branch⟩ := Traced.mem_condemned.mp condemned
    · rw [certified.not_unreached stands] at unreached
      cases unreached
    · obtain ⟨⟨r,member,stays⟩,unwanted⟩ := certified.dead_assignment here assignment
      refine ⟨?_,Or.inl unwanted⟩
      have flow : (i.effect (Method.answer? h i b) b).flow = i.onward ∨
          ∃ thrown, (i.effect (Method.answer? h i b) b).flow = .raise thrown := Instr.flow_of_writes member stays
      rcases flow with onward | ⟨_,threw⟩
      · rw [onward] at flows
        exact Instr.mem_onward flows chosen
      · rw [threw] at flows
        cases flows
    · have discards : i.Discards m := (Traced.isDeadResult_iff here).mp result
      refine ⟨?_,Or.inr discards⟩
      obtain ⟨kind,registers,method,action,_⟩ := discards
      have onward : (i.effect (Method.answer? h i b) b).flow = i.onward := by simp only [Instr.effect,action]
      rw [onward] at flows
      exact Instr.mem_onward flows chosen
    · have action : i.action = .goto i.next := Traced.useless_goto here branch
      simp only [Instr.effect,action] at flows
      cases flows
      refine ⟨List.mem_singleton.mp chosen,Or.inl fun r written => ?_⟩
      simp [Instr.writes,action] at written

end
end SmaliPrune
