import Mathlib.Data.List.Chain
import SmaliPrune.Proofs.Splice

namespace SmaliPrune.PathGraph

def spliced (g : PathGraph) (ids : List Nat) : PathGraph := ids.foldl spliceOut g

-- A way from one node to another on which all stops are among the given nodes.
inductive Through (g : PathGraph) (gone : List Nat) : Nat → Nat → Prop where
  | edge {a b : Nat} (edge : b ∈ g.childrenOf a) : Through g gone a b
  | hop {a d b : Nat} (edge : d ∈ g.childrenOf a) (stop : d ∈ gone) (rest : Through g gone d b) : Through g gone a b

theorem spot?_spliced (g : PathGraph) (ids : List Nat) (x : Nat) :
    (g.spliced ids).spot? x = if x ∈ ids then none else g.spot? x := by
  unfold spliced
  induction ids generalizing g with
  | nil => rfl
  | cons id rest ih =>
    rw [List.foldl_cons,ih,spot?_spliceOut]
    by_cases here : x = id
    · simp [here]
    · simp [here]

theorem spliced_linked {g : PathGraph} (linked : g.Linked) (ids : List Nat) : (g.spliced ids).Linked := by
  unfold spliced
  induction ids generalizing g with
  | nil => exact linked
  | cons id rest ih => exact ih (spliceOut_linked linked id)

section
variable {g : PathGraph} {id : Nat} {rest : List Nat} {a b : Nat}

theorem Through.target (woven : g.Woven) (through : (g.spliceOut id).Through rest a b) : b ≠ id := by
  induction through with
  | edge edge => exact ((mem_childrenOf_spliceOut woven _ _).mp edge).2.1
  | hop _ _ _ ih => exact ih

theorem Through.expand (woven : g.Woven) (through : (g.spliceOut id).Through rest a b) : g.Through (id :: rest) a b := by
  induction through with
  | edge edge =>
    obtain ⟨_,_,direct | ⟨up,down⟩⟩ := (mem_childrenOf_spliceOut woven _ _).mp edge
    · exact .edge direct
    · exact .hop up List.mem_cons_self (.edge down)
  | hop edge stop _ ih =>
    obtain ⟨_,_,direct | ⟨up,down⟩⟩ := (mem_childrenOf_spliceOut woven _ _).mp edge
    · exact .hop direct (List.mem_cons_of_mem _ stop) ih
    · exact .hop up List.mem_cons_self (.hop down (List.mem_cons_of_mem _ stop) ih)

theorem Through.contract (woven : g.Woven) (other : b ≠ id) (through : g.Through (id :: rest) a b) :
    (a ≠ id → (g.spliceOut id).Through rest a b) ∧
      (a = id → ∀ p, p ≠ id → id ∈ g.childrenOf p → (g.spliceOut id).Through rest p b) := by
  induction through with
  | edge edge =>
    constructor
    · exact fun different => .edge ((mem_childrenOf_spliceOut woven _ _).mpr ⟨different,other,Or.inl edge⟩)
    · rintro rfl p different up
      exact .edge ((mem_childrenOf_spliceOut woven _ _).mpr ⟨different,other,Or.inr ⟨up,edge⟩⟩)
  | @hop a d b edge stop _ ih =>
    obtain ⟨outside,inside⟩ := ih other
    by_cases here : d = id
    · subst d
      exact ⟨fun different => inside rfl a different edge,fun _ => inside rfl⟩
    · have later := (List.mem_cons.mp stop).resolve_left here
      constructor
      · exact fun different => .hop ((mem_childrenOf_spliceOut woven _ _).mpr ⟨different,here,Or.inl edge⟩) later
          (outside here)
      · rintro rfl p different up
        exact .hop ((mem_childrenOf_spliceOut woven _ _).mpr ⟨different,here,Or.inr ⟨up,edge⟩⟩) later (outside here)

theorem Through.promoted (linked : g.Linked) (other : b ≠ id) (root : id ∈ g.roots)
    (through : g.Through (id :: rest) a b) (here : a = id) :
    b ∈ (g.spliceOut id).roots ∨ ∃ d ∈ (g.spliceOut id).roots, d ∈ rest ∧ (g.spliceOut id).Through rest d b := by
  induction through with
  | edge edge =>
    subst here
    exact Or.inl ((mem_roots_spliceOut linked _).mpr ⟨other,Or.inr ⟨root,edge⟩⟩)
  | @hop a d b edge stop through ih =>
    subst here
    by_cases again : d = a
    · exact ih other again
    · exact Or.inr ⟨d,(mem_roots_spliceOut linked d).mpr ⟨again,Or.inr ⟨root,edge⟩⟩,
        (List.mem_cons.mp stop).resolve_left again,(through.contract linked.toWoven other).1 again⟩

end

theorem mem_childrenOf_spliced {g : PathGraph} (linked : g.Linked) (ids : List Nat) (a b : Nat) :
    b ∈ (g.spliced ids).childrenOf a ↔ a ∉ ids ∧ b ∉ ids ∧ g.Through ids a b := by
  unfold spliced
  induction ids generalizing g with
  | nil =>
    constructor
    · exact fun edge => ⟨List.not_mem_nil,List.not_mem_nil,.edge edge⟩
    · rintro ⟨_,_,through⟩
      cases through with
      | edge edge => exact edge
      | hop _ stop _ => cases stop
  | cons id rest ih =>
    have woven := linked.toWoven
    rw [List.foldl_cons,ih (spliceOut_linked linked id),List.mem_cons,List.mem_cons,not_or,not_or]
    constructor
    · rintro ⟨first,second,through⟩
      have source : a ≠ id := by
        cases through with
        | edge edge => exact ((mem_childrenOf_spliceOut woven _ _).mp edge).1
        | hop edge _ _ => exact ((mem_childrenOf_spliceOut woven _ _).mp edge).1
      exact ⟨⟨source,first⟩,⟨through.target woven,second⟩,through.expand woven⟩
    · rintro ⟨⟨source,first⟩,⟨target,second⟩,through⟩
      exact ⟨first,second,(through.contract woven target).1 source⟩

theorem mem_roots_spliced {g : PathGraph} (linked : g.Linked) (ids : List Nat) (r : Nat) :
    r ∈ (g.spliced ids).roots ↔ r ∉ ids ∧ (r ∈ g.roots ∨ ∃ d ∈ g.roots, d ∈ ids ∧ g.Through ids d r) := by
  unfold spliced
  induction ids generalizing g with
  | nil => simp
  | cons id rest ih =>
    have woven := linked.toWoven
    rw [List.foldl_cons,ih (spliceOut_linked linked id),List.mem_cons,not_or]
    constructor
    · rintro ⟨outside,root | ⟨d,root,inside,through⟩⟩
      · obtain ⟨different,root | ⟨gone,edge⟩⟩ := (mem_roots_spliceOut linked r).mp root
        · exact ⟨⟨different,outside⟩,Or.inl root⟩
        · exact ⟨⟨different,outside⟩,Or.inr ⟨id,gone,List.mem_cons_self,.edge edge⟩⟩
      · have different := through.target woven
        obtain ⟨_,root | ⟨gone,edge⟩⟩ := (mem_roots_spliceOut linked d).mp root
        · exact ⟨⟨different,outside⟩,Or.inr ⟨d,root,List.mem_cons_of_mem _ inside,through.expand woven⟩⟩
        · exact ⟨⟨different,outside⟩,
            Or.inr ⟨id,gone,List.mem_cons_self,.hop edge (List.mem_cons_of_mem _ inside) (through.expand woven)⟩⟩
    · rintro ⟨⟨different,outside⟩,root | ⟨d,root,inside,through⟩⟩
      · exact ⟨outside,Or.inl ((mem_roots_spliceOut linked r).mpr ⟨different,Or.inl root⟩)⟩
      · by_cases here : d = id
        · subst d
          exact ⟨outside,through.promoted linked different root rfl⟩
        · refine ⟨outside,Or.inr ⟨d,(mem_roots_spliceOut linked d).mpr ⟨here,Or.inl root⟩,?_,
            (through.contract woven different).1 here⟩⟩
          exact (List.mem_cons.mp inside).resolve_left here

theorem node?_relocate (g : PathGraph) (f : Nat → Nat) (id : Nat) :
    (g.relocate f).node? id = (g.node? id).map fun n => { n with address := f n.address } := by
  unfold node? relocate
  dsimp only
  rw [Array.getD_eq_getD_getElem?,Array.getD_eq_getD_getElem?,Array.getElem?_map]
  cases g.nodes[id]? <;> rfl

theorem spot?_relocate (g : PathGraph) (f : Nat → Nat) (id : Nat) :
    (g.relocate f).spot? id = (g.spot? id).map fun s => (f s.1,s.2) := by
  unfold spot?
  rw [node?_relocate]
  cases g.node? id <;> rfl

theorem childrenOf_relocate (g : PathGraph) (f : Nat → Nat) (id : Nat) :
    (g.relocate f).childrenOf id = g.childrenOf id := by
  unfold childrenOf
  rw [node?_relocate]
  cases g.node? id <;> rfl

theorem parentsOf_relocate (g : PathGraph) (f : Nat → Nat) (id : Nat) :
    (g.relocate f).parentsOf id = g.parentsOf id := by
  unfold parentsOf
  rw [node?_relocate]
  cases g.node? id <;> rfl

theorem relocate_linked {g : PathGraph} (linked : g.Linked) (f : Nat → Nat) : (g.relocate f).Linked := by
  refine ⟨⟨?_,?_,?_⟩,?_,linked.rootsOnce⟩
  · intro a b
    rw [childrenOf_relocate,parentsOf_relocate]
    exact linked.agree a b
  · intro id
    rw [childrenOf_relocate]
    exact linked.children id
  · intro id
    rw [parentsOf_relocate]
    exact linked.parents id
  · intro id root
    unfold Live
    rw [spot?_relocate,Option.isSome_map]
    exact linked.roots id root

theorem foldl_piles {step : Std.TreeMap Nat (Array Nat) → Option Node × Nat → Std.TreeMap Nat (Array Nat)} {a : Nat}
    (one : ∀ piles e, ((step piles e).getD a #[]).toList =
      (piles.getD a #[]).toList ++ if e.1.any fun n => n.address == a then [e.2] else [])
    (slots : List (Option Node × Nat)) (piles : Std.TreeMap Nat (Array Nat)) :
    ((slots.foldl step piles).getD a #[]).toList = (piles.getD a #[]).toList ++
      slots.filterMap fun e => if e.1.any fun n => n.address == a then some e.2 else none := by
  induction slots generalizing piles with
  | nil => simp
  | cons e rest ih =>
    rw [List.foldl_cons,ih,one,List.append_assoc]
    by_cases here : (e.1.any fun n => n.address == a) = true
    · simp [here]
    · simp [here]

theorem pilesOf_toList (nodes : Array (Option Node)) (a : Nat) :
    ((pilesOf nodes).getD a #[]).toList =
      nodes.toList.zipIdx.filterMap fun e => if e.1.any fun n => n.address == a then some e.2 else none := by
  refine (foldl_piles (fun piles e => ?_) nodes.toList.zipIdx ∅).trans (by simp)
  obtain ⟨slot,id⟩ := e
  cases slot with
  | none => simp
  | some n =>
    dsimp only
    rw [Std.TreeMap.getD_insert]
    by_cases here : n.address = a
    · simp [here]
    · simp [here]

theorem relocate_piled (g : PathGraph) (f : Nat → Nat) : (g.relocate f).Piled := by
  have list : ∀ a, ((g.relocate f).pile a).toList = (g.relocate f).nodes.toList.zipIdx.filterMap fun e =>
      if e.1.any fun n => n.address == a then some e.2 else none := pilesOf_toList _
  constructor
  · intro a id
    rw [← Array.mem_toList_iff,list,List.mem_filterMap]
    have slot : (g.relocate f).node? id = ((g.relocate f).nodes.toList[id]?).getD none := by
      unfold node?
      rw [Array.getD_eq_getD_getElem?,Array.getElem?_toList]
    unfold spot?
    constructor
    · rintro ⟨⟨s,k⟩,member,picked⟩
      rw [List.mem_zipIdx_iff_getElem?] at member
      cases s with
      | none => simp at picked
      | some n =>
        by_cases here : n.address = a
        · simp only [Option.any_some,here,beq_self_eq_true,if_true,Option.some.injEq] at picked
          subst k
          rw [slot,member]
          exact ⟨n.state,by rw [← here]; rfl⟩
        · simp [here] at picked
    · rintro ⟨s,spot⟩
      obtain ⟨n,node,seen⟩ := Option.map_eq_some_iff.mp spot
      rw [slot] at node
      cases found : (g.relocate f).nodes.toList[id]? with
      | none => simp [found] at node
      | some t =>
        rw [found,Option.getD_some] at node
        subst t
        refine ⟨(some n,id),List.mem_zipIdx_iff_getElem?.mpr found,?_⟩
        simp [(Prod.mk.inj seen).1]
  · intro a
    rw [list,List.pairwise_filterMap]
    have ascending : (g.relocate f).nodes.toList.zipIdx.Pairwise fun e d => e.2 < d.2 := by
      rw [← List.pairwise_map (f := Prod.snd) (R := (· < ·)),List.zipIdx_map_snd]
      exact List.pairwise_lt_range'
    refine ascending.imp fun less k first l second => ?_
    split at first
    · split at second
      · cases first
        cases second
        exact less
      · cases second
    · cases first

def doomedAt (g : PathGraph) (addresses : List Nat) : List Nat := addresses.flatMap fun a => (g.pile a).toList

section
variable {g : PathGraph} (addresses : List Nat) (f : Nat → Nat)

theorem mem_doomedAt (piled : g.Piled) {id : Nat} :
    id ∈ g.doomedAt addresses ↔ ∃ a s, g.spot? id = some (a,s) ∧ a ∈ addresses := by
  unfold doomedAt
  rw [List.mem_flatMap]
  constructor
  · rintro ⟨a,listed,member⟩
    obtain ⟨s,spot⟩ := (piled.members a id).mp (Array.mem_toList_iff.mp member)
    exact ⟨a,s,spot,listed⟩
  · rintro ⟨a,s,spot,listed⟩
    exact ⟨a,listed,Array.mem_toList_iff.mpr ((piled.members a id).mpr ⟨s,spot⟩)⟩

theorem removeAt_linked (linked : g.Linked) : (g.removeAt addresses f).Linked :=
  relocate_linked (spliced_linked linked (g.doomedAt addresses)) f

theorem removeAt_piled : (g.removeAt addresses f).Piled := relocate_piled _ f

theorem spot?_removeAt (id : Nat) : (g.removeAt addresses f).spot? id =
    if id ∈ g.doomedAt addresses then none else (g.spot? id).map fun s => (f s.1,s.2) := by
  have relocated := spot?_relocate (g.spliced (g.doomedAt addresses)) f id
  rw [spot?_spliced] at relocated
  refine relocated.trans ?_
  split <;> rfl

theorem mem_childrenOf_removeAt (linked : g.Linked) (a b : Nat) : b ∈ (g.removeAt addresses f).childrenOf a ↔
    a ∉ g.doomedAt addresses ∧ b ∉ g.doomedAt addresses ∧ g.Through (g.doomedAt addresses) a b := by
  have same : (g.removeAt addresses f).childrenOf a = (g.spliced (g.doomedAt addresses)).childrenOf a :=
    childrenOf_relocate _ f a
  rw [same,mem_childrenOf_spliced linked]

theorem mem_roots_removeAt (linked : g.Linked) (r : Nat) : r ∈ (g.removeAt addresses f).roots ↔
    r ∉ g.doomedAt addresses ∧
      (r ∈ g.roots ∨ ∃ d ∈ g.roots, d ∈ g.doomedAt addresses ∧ g.Through (g.doomedAt addresses) d r) := by
  rw [← mem_roots_spliced linked]
  rfl

end

-- Graphs as they are made: of roots, of children of nodes there are, and of edges between
-- nodes there are. Any number of roots, cycles and loops come about in this way.
inductive Built : PathGraph → Prop where
  | empty : Built .empty
  | root {g : PathGraph} (built : Built g) (address : Nat) (state : Option PathState) : Built (g.addRoot address state)
  | child {g : PathGraph} (built : Built g) {parent : Nat} (live : g.Live parent) (address : Nat)
      (state : Option PathState) : Built (g.addChild parent address state)
  | edge {g : PathGraph} (built : Built g) {parent child : Nat} (above : g.Live parent) (below : g.Live child) :
      Built (g.connect parent child)

theorem Built.linked {g : PathGraph} (built : g.Built) : g.Linked := by
  induction built with
  | empty => exact empty_linked
  | root _ address state ih => exact addRoot_linked ih address state
  | child _ live address state ih => exact addChild_linked ih live address state
  | edge _ above below ih => exact connect_linked ih above below

theorem Built.piled {g : PathGraph} (built : g.Built) : g.Piled := by
  induction built with
  | empty => exact empty_piled
  | root _ address state ih => exact addRoot_piled ih address state
  | child _ _ address state ih => exact addChild_piled ih _ address state
  | edge _ _ _ ih => exact connect_piled ih _ _

def LocatedIn (g : PathGraph) (addresses : List Nat) (id : Nat) : Prop := ∃ n, g.node? id = some n ∧ n.address ∈ addresses

instance (g : PathGraph) (addresses : List Nat) (id : Nat) : Decidable (g.LocatedIn addresses id) :=
  decidable_of_iff ((g.node? id).any fun n => addresses.contains n.address) (by simp [LocatedIn,Option.any_eq_true])

def Bypass (g : PathGraph) (addresses : List Nat) (a b : Nat) : Prop :=
  ∃ inner : List Nat, (a :: inner ++ [b]).IsChain g.Edge ∧ ∀ d ∈ inner, g.LocatedIn addresses d

-- What contracting a graph at some addresses comes to: the other nodes keep number and state
-- and move, the paths that only passed through those addresses are edges, and what a root
-- there led to in this way is a root.
structure Contracts (g : PathGraph) (addresses : List Nat) (f : Nat → Nat) (c : PathGraph) : Prop where
  nodes : ∀ id, c.spot? id = ((g.spot? id).filter fun s => !addresses.contains s.1).map fun s => (f s.1,s.2)
  edges : ∀ a b, c.Edge a b ↔ ¬ g.LocatedIn addresses a ∧ ¬ g.LocatedIn addresses b ∧ g.Bypass addresses a b
  back : ∀ a b, a ∈ c.parentsOf b ↔ c.Edge a b
  roots : ∀ r, r ∈ c.roots ↔ ¬ g.LocatedIn addresses r ∧
    (r ∈ g.roots ∨ ∃ d ∈ g.roots, g.LocatedIn addresses d ∧ g.Bypass addresses d r)
  piles : c.Piled

theorem locatedIn_iff {g : PathGraph} {addresses : List Nat} {id : Nat} :
    g.LocatedIn addresses id ↔ ∃ a s, g.spot? id = some (a,s) ∧ a ∈ addresses := by
  unfold LocatedIn spot?
  cases g.node? id with
  | none => simp
  | some n => simp

theorem through_iff_bypass {g : PathGraph} {addresses ids : List Nat} (same : ∀ id, id ∈ ids ↔ g.LocatedIn addresses id)
    {a b : Nat} : g.Through ids a b ↔ g.Bypass addresses a b := by
  constructor
  · intro through
    induction through with
    | @edge a b edge =>
      exact ⟨[],List.isChain_pair.mpr (edge_iff.mpr edge),fun _ member => absurd member List.not_mem_nil⟩
    | @hop a d b edge stop _ ih =>
      obtain ⟨inner,chain,located⟩ := ih
      refine ⟨d :: inner,.cons_cons (edge_iff.mpr edge) chain,fun x member => ?_⟩
      rcases List.mem_cons.mp member with rfl | member
      · exact (same x).mp stop
      · exact located x member
  · intro bypass
    obtain ⟨inner,chain,located⟩ := bypass
    induction inner generalizing a with
    | nil => exact .edge (edge_iff.mp (List.isChain_pair.mp chain))
    | cons d inner ih =>
      obtain ⟨edge,chain⟩ := List.isChain_cons_cons.mp chain
      exact .hop (edge_iff.mp edge) ((same d).mpr (located d List.mem_cons_self))
        (ih chain fun x member => located x (List.mem_cons_of_mem _ member))

theorem spliced_contracts {g : PathGraph} (linked : g.Linked) {addresses ids : List Nat}
    (same : ∀ id, id ∈ ids ↔ g.LocatedIn addresses id) (f : Nat → Nat) :
    g.Contracts addresses f ((g.spliced ids).relocate f) := by
  have woven := (relocate_linked (spliced_linked linked ids) f).toWoven
  constructor
  · intro id
    rw [spot?_relocate,spot?_spliced]
    have located := (same id).trans locatedIn_iff
    cases spot : g.spot? id with
    | none => simp
    | some s =>
      by_cases listed : s.1 ∈ addresses
      · have doomed : id ∈ ids := located.mpr ⟨s.1,s.2,spot,listed⟩
        simp [doomed,listed,Option.filter]
      · have stays : id ∉ ids := by
          intro doomed
          obtain ⟨a,t,spot',listed'⟩ := located.mp doomed
          cases spot.symm.trans spot'
          exact listed listed'
        simp [stays,listed,Option.filter]
  · intro a b
    rw [edge_iff,childrenOf_relocate,mem_childrenOf_spliced linked,same,same,through_iff_bypass same]
  · intro a b
    rw [edge_iff,woven.agree]
  · intro r
    have roots : ((g.spliced ids).relocate f).roots = (g.spliced ids).roots := rfl
    rw [roots,mem_roots_spliced linked]
    simp only [same,through_iff_bypass same]
  · exact relocate_piled _ f

-- However a graph was made, to remove what is at some addresses contracts it there, and it
-- does not matter in which order, or how often, the nodes are taken out.
theorem removeAt_contracts {g : PathGraph} (built : g.Built) (addresses : List Nat) (f : Nat → Nat) :
    g.Contracts addresses f (g.removeAt addresses f) ∧
      ∀ ids : List Nat, (∀ id, id ∈ ids ↔ g.LocatedIn addresses id) →
        g.Contracts addresses f ((ids.foldl spliceOut g).relocate f) := by
  refine ⟨spliced_contracts built.linked (fun id => ?_) f,fun ids same => spliced_contracts built.linked same f⟩
  exact (mem_doomedAt addresses built.piled).trans locatedIn_iff.symm

-- A cycle of four nodes, one of them with a loop. All but the last are taken out.
def looping : PathGraph :=
  (((((empty.addRoot 0 none).addChild 0 1 none).addChild 1 3 none).addChild 2 4 none).connect 1 1).connect 3 0

theorem looping_contracts : looping.Built ∧ (∀ id, id ∈ [2,1,0,2] ↔ looping.LocatedIn [0,1,3] id) ∧
    (looping.removeAt [0,1,3] (· - 4)).Edge 3 3 ∧ 3 ∈ (looping.removeAt [0,1,3] (· - 4)).roots ∧
    (([2,1,0,2].foldl spliceOut looping).relocate (· - 4)).Edge 3 3 := by
  have built : looping.Built := by
    apply Built.edge (.edge (.child (.child (.child (.root .empty 0 none) ?_ 1 none) ?_ 3 none) ?_ 4 none) ?_ ?_)
    all_goals decide +kernel
  have listed : looping.doomedAt [0,1,3] = [0,1,2] := by decide +kernel
  have same : ∀ id, id ∈ [2,1,0,2] ↔ looping.LocatedIn [0,1,3] id := by
    intro id
    rw [locatedIn_iff,← mem_doomedAt [0,1,3] built.piled,listed]
    simp only [List.mem_cons,List.not_mem_nil,or_false]
    omega
  obtain ⟨removed,spliced⟩ := removeAt_contracts built [0,1,3] (· - 4)
  have around : looping.Bypass [0,1,3] 3 3 := ⟨[0,1,2],by decide +kernel,by decide +kernel⟩
  have down : looping.Bypass [0,1,3] 0 3 := ⟨[1,2],by decide +kernel,by decide +kernel⟩
  have stays : ¬ looping.LocatedIn [0,1,3] 3 := by decide +kernel
  refine ⟨built,same,(removed.edges 3 3).mpr ⟨stays,stays,around⟩,(removed.roots 3).mpr ⟨stays,Or.inr ⟨0,?_,?_,down⟩⟩,
    ((spliced _ same).edges 3 3).mpr ⟨stays,stays,around⟩⟩
  all_goals decide +kernel

end SmaliPrune.PathGraph
