import SmaliPrune.Proofs.Arena
import SmaliPrune.Proofs.Search
import SmaliPrune.Prune.Candidates

namespace SmaliPrune

theorem Method.mem_throwTargets {m : Method} {a target : Nat} : target ∈ m.throwTargets a ↔
    ∃ i, m.at? a = some i ∧ i.canThrow = true ∧ ∃ h ∈ m.handlersFor a, h.entry = target := by
  unfold throwTargets
  cases found : m.at? a with
  | none => simp
  | some i =>
    cases throws : i.canThrow with
    | false => simp [throws]
    | true => simp [throws]

namespace Traced
open Search

theorem flowsTo_length (t : Traced) (r : Register) (id : Nat) :
    (t.flowsTo r id).length ≤ ((t.graph.node? id).map fun n => n.children.size).getD 0 := by
  unfold flowsTo
  cases t.graph.node? id with
  | none => exact Nat.le_refl 0
  | some n =>
    dsimp only [Option.map_some,Option.getD_some]
    split
    · exact Nat.zero_le _
    · split
      · exact Nat.le_trans (List.length_filter_le _ _) (Nat.le_of_eq Array.length_toList)
      · exact Nat.le_of_eq Array.length_toList

theorem flowsTo_outside (t : Traced) (r : Register) {id : Nat} (outside : id ∉ List.range t.graph.nodes.size) :
    t.flowsTo r id = [] := by
  rw [List.mem_range] at outside
  have none : t.graph.node? id = none := by
    unfold PathGraph.node?
    rw [Array.getD_eq_getD_getElem?,Array.getElem?_eq_none (Nat.le_of_not_lt outside)]
    rfl
  unfold flowsTo
  rw [none]

theorem live_of_reads {t : Traced} {r : Register} {id : Nat} (reads : t.readsAt r id = true) : t.graph.Live id := by
  unfold readsAt at reads
  cases node : t.graph.node? id with
  | none => simp [node] at reads
  | some n => exact PathGraph.live_iff.mpr ⟨n,node⟩

theorem live_of_flows {t : Traced} {r : Register} {id next : Nat} (flows : next ∈ t.flowsTo r id) :
    t.graph.Live id := by
  unfold flowsTo at flows
  cases node : t.graph.node? id with
  | none => simp [node] at flows
  | some n => exact PathGraph.live_iff.mpr ⟨n,node⟩

theorem edgeCount_eq (t : Traced) : t.edgeCount =
    total (fun id => ((t.graph.node? id).map fun n => n.children.size).getD 0) (List.range t.graph.nodes.size) := by
  have slots : t.graph.nodes.toList = (List.range t.graph.nodes.size).map t.graph.node? := by
    apply List.ext_getElem?
    intro id
    rw [List.getElem?_map,Array.getElem?_toList]
    by_cases inside : id < t.graph.nodes.size
    · rw [List.getElem?_range inside,Array.getElem?_eq_getElem inside]
      unfold PathGraph.node?
      simp [Array.getD_eq_getD_getElem?,inside]
    · rw [Array.getElem?_eq_none (Nat.le_of_not_lt inside),
        List.getElem?_eq_none (by simpa using Nat.le_of_not_lt inside)]
      rfl
  unfold edgeCount
  rw [slots,total_map]

theorem enough_edges (t : Traced) (start : List Nat) (r : Register) :
    Enough (t.flowsTo r) (start.length + t.edgeCount + 1) start ∅ := by
  refine ⟨List.range t.graph.nodes.size,List.nodup_range,fun id outside => t.flowsTo_outside r outside,?_⟩
  have bound := total_le (t.flowsTo_length r) (List.range t.graph.nodes.size)
  rw [← t.edgeCount_eq] at bound
  have same : owed (t.flowsTo r) (List.range t.graph.nodes.size) ∅ =
      total (fun id => (t.flowsTo r id).length) (List.range t.graph.nodes.size) := rfl
  rw [same]
  omega

-- Some way on from a node comes to one that reads the register, and all along it the value
-- the register had is still there.
def Wanted (t : Traced) (r : Register) (id : Nat) : Prop :=
  ∃ reader, Reaches (t.flowsTo r) id reader ∧ t.readsAt r reader = true

theorem isLive_iff (t : Traced) (start : List Nat) (r : Register) :
    t.isLive start r = true ↔ ∃ id ∈ start, t.Wanted r id := start_halted_iff (t.enough_edges start r)

theorem wanted_of_read {t : Traced} {r : Register} {id : Nat} (reads : t.readsAt r id = true) : t.Wanted r id :=
  ⟨id,.refl,reads⟩

theorem wanted_of_flow {t : Traced} {r : Register} {id next : Nat} (flows : next ∈ t.flowsTo r id)
    (wanted : t.Wanted r next) : t.Wanted r id := by
  obtain ⟨reader,path,reads⟩ := wanted
  exact ⟨reader,.head flows path,reads⟩

-- A node that uses a register reads it, or is one of whose path nothing is known.
def Uses (t : Traced) (r : Register) (id : Nat) : Prop :=
  ∃ n, t.graph.node? id = some n ∧ ∀ s, n.state = some s → r ∈ s.reads

-- An edge hands a register on if the node it leaves neither reads nor assigns it, or assigns
-- it but may throw into the handler at which the edge ends.
def HandsOn (t : Traced) (r : Register) (a b : Nat) : Prop :=
  ∃ n s, t.graph.node? a = some n ∧ n.state = some s ∧ b ∈ n.children ∧ r ∉ s.reads ∧
    (r ∉ s.assigns ∨ ∃ i, t.method.at? n.address = some i ∧ i.canThrow = true ∧
      ∃ h ∈ t.method.handlersFor n.address, ∃ m, t.graph.node? b = some m ∧ m.address = h.entry)

section
variable {t : Traced} {r : Register} {a b : Nat}

theorem readsAt_iff : t.readsAt r a = true ↔ t.Uses r a := by
  unfold readsAt Uses
  cases t.graph.node? a with
  | none => simp
  | some n =>
    cases state : n.state with
    | none => simp [state]
    | some s => simp [state,PathState.hasRead]

theorem mem_flowsTo : b ∈ t.flowsTo r a ↔ ∃ n s, t.graph.node? a = some n ∧ n.state = some s ∧ b ∈ n.children ∧
    (r ∉ s.assigns ∨ ∃ m, t.graph.node? b = some m ∧ m.address ∈ t.method.throwTargets n.address) := by
  unfold flowsTo
  cases t.graph.node? a with
  | none => simp
  | some n =>
    cases state : n.state with
    | none => simp [state]
    | some s =>
      by_cases assigned : r ∈ s.assigns
      · have known : s.hasAssigned r = true := List.contains_iff_mem.mpr assigned
        simp [state,known,assigned,Option.any_eq_true]
      · have unknown : s.hasAssigned r = false := Bool.eq_false_iff.mpr (mt List.contains_iff_mem.mp assigned)
        simp [state,unknown,assigned]

theorem handsOn_iff : t.HandsOn r a b ↔ b ∈ t.flowsTo r a ∧ ¬ t.Uses r a := by
  unfold HandsOn Uses
  rw [mem_flowsTo]
  constructor
  · intro hands
    obtain ⟨n,s,node,state,edge,unread,free⟩ := hands
    refine ⟨⟨n,s,node,state,edge,free.imp_right fun caught => ?_⟩,fun uses => ?_⟩
    · obtain ⟨i,here,throws,h,protects,m,target,entry⟩ := caught
      exact ⟨m,target,Method.mem_throwTargets.mpr ⟨i,here,throws,h,protects,entry.symm⟩⟩
    · obtain ⟨n',node',reads⟩ := uses
      cases node.symm.trans node'
      exact unread (reads s state)
  · intro flows
    obtain ⟨⟨n,s,node,state,edge,free⟩,unused⟩ := flows
    refine ⟨n,s,node,state,edge,fun read => unused ⟨n,node,fun s' state' => ?_⟩,free.imp_right fun caught => ?_⟩
    · cases state.symm.trans state'
      exact read
    · obtain ⟨m,target,listed⟩ := caught
      obtain ⟨i,here,throws,h,protects,entry⟩ := Method.mem_throwTargets.mp listed
      exact ⟨i,here,throws,h,protects,m,target,entry.symm⟩

theorem wanted_iff : t.Wanted r a ↔ ∃ last, Relation.ReflTransGen (t.HandsOn r) a last ∧ t.Uses r last := by
  constructor
  · intro wanted
    obtain ⟨reader,path,reads⟩ := wanted
    induction path using Relation.ReflTransGen.head_induction_on with
    | refl => exact ⟨reader,.refl,readsAt_iff.mp reads⟩
    | @head a b step _ ih =>
      by_cases uses : t.Uses r a
      · exact ⟨a,.refl,uses⟩
      · obtain ⟨last,path,used⟩ := ih
        exact ⟨last,.head (handsOn_iff.mpr ⟨step,uses⟩) path,used⟩
  · intro handed
    obtain ⟨last,path,used⟩ := handed
    have flows : ∀ a b, t.HandsOn r a b → b ∈ t.flowsTo r a := fun a b step => (handsOn_iff.mp step).1
    exact ⟨last,Relation.ReflTransGen.mono flows _ _ path,readsAt_iff.mpr used⟩

end

theorem isDeadAssignment_iff (t : Traced) (a : Nat) : t.isDeadAssignment a = true ↔
    ∃ n s, t.graph.firstAt? a = some n ∧ n.state = some s ∧ (∃ r ∈ s.assigns, r ≠ .returned) ∧
      ∀ r ∈ s.assigns, r ≠ .returned → t.isLive (t.graph.childrenAt a) r = false := by
  have assigned : ∀ s : PathState, (!(s.assigns.filter (· != .returned)).isEmpty) = true ↔
      ∃ r ∈ s.assigns, r ≠ .returned := by
    intro s
    rw [Bool.not_eq_true',List.isEmpty_eq_false_iff_exists_mem]
    simp
  have lost : ∀ s : PathState,
      ((s.assigns.filter (· != .returned)).all fun r => !t.isLive (t.graph.childrenAt a) r) = true ↔
        ∀ r ∈ s.assigns, r ≠ .returned → t.isLive (t.graph.childrenAt a) r = false := by
    intro s
    simp only [List.all_eq_true,List.mem_filter,bne_iff_ne,and_imp,Bool.not_eq_true']
  unfold isDeadAssignment
  cases t.graph.firstAt? a with
  | none => simp
  | some n =>
    cases state : n.state with
    | none => simp [state]
    | some s =>
      simp only [Option.bind_some,state,Bool.and_eq_true,assigned,lost]
      simp [state]

-- Whatever the method and the graph: a register is live exactly where it is handed on, over
-- finitely many edges, to a node that uses it; and an assignment is dead exactly where the
-- first node of its pile assigns something, what is returned aside, and nothing of that is
-- live behind any node of the pile.
theorem liveness_exact (t : Traced) :
    (∀ start r, t.isLive start r = true ↔
      ∃ first ∈ start, ∃ last, Relation.ReflTransGen (t.HandsOn r) first last ∧ t.Uses r last) ∧
    ∀ valid a, a ∈ (t.candidates valid).assignments ↔ a ∈ valid ∧
      ∃ n s, t.graph.firstAt? a = some n ∧ n.state = some s ∧ (∃ r ∈ s.assigns, r ≠ .returned) ∧
        ∀ r ∈ s.assigns, r ≠ .returned → ¬ ∃ id ∈ t.graph.pile a, ∃ child ∈ t.graph.childrenOf id,
          ∃ last, Relation.ReflTransGen (t.HandsOn r) child last ∧ t.Uses r last := by
  have live : ∀ start r, t.isLive start r = true ↔
      ∃ first ∈ start, ∃ last, Relation.ReflTransGen (t.HandsOn r) first last ∧ t.Uses r last := by
    intro start r
    simp only [isLive_iff,wanted_iff]
  refine ⟨live,fun valid a => ?_⟩
  have behind : ∀ r, t.isLive (t.graph.childrenAt a) r = false ↔ ¬ ∃ id ∈ t.graph.pile a,
      ∃ child ∈ t.graph.childrenOf id, ∃ last, Relation.ReflTransGen (t.HandsOn r) child last ∧ t.Uses r last := by
    intro r
    rw [← Bool.not_eq_true,live]
    apply not_congr
    constructor
    · intro found
      obtain ⟨child,listed,path⟩ := found
      obtain ⟨id,member,edge⟩ := PathGraph.mem_childrenAt.mp listed
      exact ⟨id,member,child,edge,path⟩
    · intro found
      obtain ⟨id,member,child,edge,path⟩ := found
      exact ⟨child,PathGraph.mem_childrenAt.mpr ⟨id,member,edge⟩,path⟩
  unfold candidates
  rw [List.mem_filter,isDeadAssignment_iff]
  simp only [behind]

end Traced
end SmaliPrune
