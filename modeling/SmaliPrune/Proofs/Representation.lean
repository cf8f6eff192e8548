import Mathlib.Data.List.Nodup
import Mathlib.Logic.Relation
import SmaliPrune.Proofs.Candidates
import SmaliPrune.Proofs.Contraction

namespace SmaliPrune.PathGraph

-- What is done to a graph from outside: a root, a child of a node there is, an edge between
-- nodes there are, and the removal of some addresses while the others move.
inductive Revises : PathGraph → PathGraph → Prop where
  | root (g : PathGraph) (address : Nat) (state : Option PathState) : Revises g (g.addRoot address state)
  | child {g : PathGraph} {parent : Nat} (live : g.Live parent) (address : Nat) (state : Option PathState) :
      Revises g (g.addChild parent address state)
  | edge {g : PathGraph} {parent child : Nat} (above : g.Live parent) (below : g.Live child) :
      Revises g (g.connect parent child)
  | removal (g : PathGraph) (addresses : List Nat) (f : Nat → Nat) : Revises g (g.removeAt addresses f)

theorem Revises.linked {g g' : PathGraph} (revises : g.Revises g') (linked : g.Linked) : g'.Linked := by
  cases revises with
  | root address state => exact addRoot_linked linked address state
  | child live address state => exact addChild_linked linked live address state
  | edge above below => exact connect_linked linked above below
  | removal addresses f => exact removeAt_linked addresses f linked

theorem Revises.piled {g g' : PathGraph} (revises : g.Revises g') (piled : g.Piled) : g'.Piled := by
  cases revises with
  | root address state => exact addRoot_piled piled address state
  | child _ address state => exact addChild_piled piled _ address state
  | edge _ _ => exact connect_piled piled _ _
  | removal addresses f => exact removeAt_piled addresses f

theorem revised {g : PathGraph} (run : Relation.ReflTransGen Revises empty g) : g.Linked ∧ g.Piled := by
  induction run with
  | refl => exact ⟨empty_linked,empty_piled⟩
  | tail _ step ih => exact ⟨step.linked ih.1,step.piled ih.2⟩

def At (g : PathGraph) (a id : Nat) : Prop := ∃ n, g.node? id = some n ∧ n.address = a

theorem at_iff {g : PathGraph} {a id : Nat} : g.At a id ↔ ∃ s, g.spot? id = some (a,s) := by
  unfold At spot?
  cases g.node? id with
  | none => simp
  | some n => simp

def living (g : PathGraph) : List Nat := (List.range g.nodes.size).filter fun id => g.Live id

theorem mem_living {g : PathGraph} {id : Nat} : id ∈ g.living ↔ g.Live id := by
  unfold living
  rw [List.mem_filter,List.mem_range,decide_eq_true_iff]
  exact ⟨And.right,fun live => ⟨lt_of_live live,live⟩⟩

-- What is stored twice or derived agrees with the nodes: the piles hold them by address, in
-- the order they were made; the two sides of the edges match; and the queries answer as if
-- they had gone through all nodes.
structure Faithful (g : PathGraph) : Prop where
  piles : ∀ a id, id ∈ g.pile a ↔ g.At a id
  order : ∀ a, (g.pile a).toList.Pairwise (· < ·)
  edges : ∀ p c, c ∈ g.childrenOf p ↔ p ∈ g.parentsOf c
  children : ∀ p, (g.childrenOf p).Nodup ∧ ∀ c ∈ g.childrenOf p, g.Live c
  parents : ∀ c, (g.parentsOf c).Nodup ∧ ∀ p ∈ g.parentsOf c, g.Live p
  roots : g.roots.Nodup ∧ ∀ r ∈ g.roots, g.Live r
  count : g.count = g.living.length
  reached : ∀ a, g.isReached a = true ↔ ∃ id, g.At a id
  first : ∀ a n, g.firstAt? a = some n ↔ ∃ id, g.node? id = some n ∧ n.address = a ∧ ∀ other, g.At a other → id ≤ other
  below : ∀ a, (g.childrenAt a).Nodup ∧ ∀ c, c ∈ g.childrenAt a ↔ ∃ p, g.At a p ∧ c ∈ g.childrenOf p
  ends : ∀ a, a ∈ g.terminating ↔ ∃ id, g.At a id ∧ g.childrenOf id = []

section
variable {g : PathGraph}

theorem Piled.mem_pile (piled : g.Piled) {a id : Nat} : id ∈ g.pile a ↔ g.At a id :=
  (piled.members a id).trans at_iff.symm

theorem At.live {a id : Nat} (here : g.At a id) : g.Live id := by
  obtain ⟨n,node,_⟩ := here
  exact live_iff.mpr ⟨n,node⟩

theorem At.unique {a b id : Nat} (here : g.At a id) (there : g.At b id) : a = b := by
  obtain ⟨n,node,address⟩ := here
  obtain ⟨n',node',address'⟩ := there
  cases node.symm.trans node'
  exact address.symm.trans address'

theorem pile_of_row {a : Nat} {pile : Array Nat} (row : (a,pile) ∈ g.piles.toList) : g.pile a = pile := by
  have found := Std.TreeMap.mem_toList_iff_getElem?_eq_some.mp row
  unfold PathGraph.pile
  rw [Std.TreeMap.getD_eq_getD_getElem?,found]
  rfl

def stacked (g : PathGraph) : List Nat := g.piles.toList.flatMap fun row => row.2.toList

theorem Piled.mem_stacked (piled : g.Piled) {id : Nat} : id ∈ g.stacked ↔ g.Live id := by
  unfold stacked
  rw [List.mem_flatMap]
  constructor
  · intro stacked
    obtain ⟨⟨a,pile⟩,row,member⟩ := stacked
    rw [← pile_of_row row,Array.mem_toList_iff] at member
    exact (piled.mem_pile.mp member).live
  · intro live
    obtain ⟨n,node⟩ := live_iff.mp live
    have member : id ∈ g.pile n.address := piled.mem_pile.mpr ⟨n,node,rfl⟩
    have listed : n.address ∈ g.reached := mem_reached.mpr ⟨id,member⟩
    unfold PathGraph.reached at listed
    obtain ⟨pile,found⟩ := Option.isSome_iff_exists.mp
      (Std.TreeMap.isSome_getElem?_iff_mem.mpr (Std.TreeMap.mem_keys.mp (List.mem_filter.mp listed).1))
    have row : (n.address,pile) ∈ g.piles.toList := Std.TreeMap.mem_toList_iff_getElem?_eq_some.mpr found
    rw [pile_of_row row] at member
    exact ⟨_,row,Array.mem_toList_iff.mpr member⟩

theorem Piled.stacked_nodup (piled : g.Piled) : g.stacked.Nodup := by
  unfold stacked
  apply List.nodup_flatMap.mpr
  constructor
  · intro row member
    rw [← pile_of_row member]
    exact (piled.order row.1).imp Nat.ne_of_lt
  · have distinct : g.piles.toList.Pairwise fun a b => compare a.1 b.1 ≠ .eq := Std.TreeMap.distinct_keys_toList
    apply distinct.imp_of_mem
    intro row other member member' differ id here there
    have here : g.At row.1 id := piled.mem_pile.mp (pile_of_row member ▸ Array.mem_toList_iff.mp here)
    have there : g.At other.1 id := piled.mem_pile.mp (pile_of_row member' ▸ Array.mem_toList_iff.mp there)
    apply differ
    rw [here.unique there]
    exact Std.ReflCmp.compare_self

theorem count_stacked (g : PathGraph) : g.count = g.stacked.length := by
  rw [count_eq]
  unfold stacked
  induction g.piles.toList with
  | nil => rfl
  | cons row rest ih =>
    rw [List.flatMap_cons,List.length_append,Array.length_toList,← ih]
    rfl

theorem Piled.count (piled : g.Piled) : g.count = g.living.length := by
  have living : g.living.Nodup := List.nodup_range.filter _
  have perm : g.stacked.Perm g.living :=
    (List.perm_ext_iff_of_nodup piled.stacked_nodup living).mpr fun id => piled.mem_stacked.trans mem_living.symm
  rw [count_stacked,perm.length_eq]

theorem Piled.reached (piled : g.Piled) (a : Nat) : g.isReached a = true ↔ ∃ id, g.At a id := by
  rw [isReached_iff]
  simp only [piled.mem_pile]

theorem Piled.first_least (piled : g.Piled) {a id : Nat} :
    (g.pile a)[0]? = some id ↔ g.At a id ∧ ∀ other, g.At a other → id ≤ other := by
  have order := piled.order a
  simp only [← piled.mem_pile,← Array.mem_toList_iff,← Array.getElem?_toList]
  cases pile : (g.pile a).toList with
  | nil => simp
  | cons first rest =>
    rw [pile] at order
    have least := (List.pairwise_cons.mp order).1
    constructor
    · intro here
      cases Option.some.inj here
      refine ⟨List.mem_cons_self,fun other member => ?_⟩
      rcases List.mem_cons.mp member with rfl | later
      · exact Nat.le_refl _
      · exact Nat.le_of_lt (least other later)
    · intro lowest
      obtain ⟨member,lowest⟩ := lowest
      rcases List.mem_cons.mp member with rfl | later
      · rfl
      · exact absurd (lowest first List.mem_cons_self) (Nat.not_le_of_lt (least id later))

theorem Piled.first (piled : g.Piled) (a : Nat) (n : Node) : g.firstAt? a = some n ↔
    ∃ id, g.node? id = some n ∧ n.address = a ∧ ∀ other, g.At a other → id ≤ other := by
  unfold firstAt?
  rw [Option.bind_eq_some_iff]
  apply exists_congr
  intro id
  rw [piled.first_least]
  constructor
  · intro found
    obtain ⟨⟨⟨n',node',address⟩,least⟩,node⟩ := found
    cases node'.symm.trans node
    exact ⟨node,address,least⟩
  · intro found
    obtain ⟨node,address,least⟩ := found
    exact ⟨⟨⟨n,node,address⟩,least⟩,node⟩

theorem nodup_eraseDups (ns : List Nat) : ns.eraseDups.Nodup := by
  induction length : ns.length using Nat.strongRecOn generalizing ns with
  | ind k ih =>
    cases ns with
    | nil => exact .nil
    | cons n rest =>
      rw [List.eraseDups_cons,List.nodup_cons]
      constructor
      · intro again
        simpa using (List.mem_filter.mp (List.mem_eraseDups.mp again)).2
      · apply ih _ ?_ _ rfl
        have := List.length_filter_le (fun b => !b == n) rest
        rw [List.length_cons] at length
        omega

theorem Piled.below (piled : g.Piled) (a : Nat) :
    (g.childrenAt a).Nodup ∧ ∀ c, c ∈ g.childrenAt a ↔ ∃ p, g.At a p ∧ c ∈ g.childrenOf p := by
  refine ⟨nodup_eraseDups _,fun c => ?_⟩
  rw [mem_childrenAt]
  simp only [piled.mem_pile]

theorem node?_eq_some {id : Nat} {n : Node} : g.node? id = some n ↔ g.nodes.toList[id]? = some (some n) := by
  unfold node?
  rw [Array.getD_eq_getD_getElem?,Array.getElem?_toList]
  cases g.nodes[id]? with
  | none => simp
  | some slot => simp

theorem mem_terminating {a : Nat} : a ∈ g.terminating ↔ ∃ id, g.At a id ∧ g.childrenOf id = [] := by
  unfold terminating
  rw [mem_ascending,List.mem_filterMap]
  constructor
  · intro ends
    obtain ⟨slot,listed,picked⟩ := ends
    obtain ⟨n,here,leaf⟩ := Option.bind_eq_some_iff.mp picked
    subst here
    obtain ⟨id,slot⟩ := List.getElem?_of_mem listed
    have node := node?_eq_some.mpr slot
    split at leaf
    · next leaf' => exact ⟨id,⟨n,node,Option.some.inj leaf⟩,(childrenOf_eq_nil node).mpr leaf'⟩
    · cases leaf
  · intro leaf
    obtain ⟨id,⟨n,node,address⟩,childless⟩ := leaf
    refine ⟨some n,List.mem_of_getElem? (node?_eq_some.mp node),?_⟩
    simp [(childrenOf_eq_nil node).mp childless,address]

end

theorem revised_faithful {g : PathGraph} (run : Relation.ReflTransGen Revises empty g) : g.Faithful := by
  obtain ⟨linked,piled⟩ := revised run
  constructor
  case piles => exact fun _ _ => piled.mem_pile
  case order => exact piled.order
  case edges => exact linked.agree
  case children => exact fun p => ⟨linked.children p,fun _ edge => linked.live_child edge⟩
  case parents => exact fun c => ⟨linked.parents c,fun p edge => live_of_child ((linked.agree p c).mpr edge)⟩
  case roots => exact ⟨linked.rootsOnce,linked.roots⟩
  case count => exact piled.count
  case reached => exact piled.reached
  case first => exact piled.first
  case below => exact piled.below
  case ends => exact fun _ => mem_terminating

-- Two nodes on a cycle, the first with a loop. Its address goes and the other moves there,
-- where a second child of it is made afterwards.
def turned : PathGraph :=
  ((((empty.addRoot 0 none).addChild 0 2 none).connect 1 0).connect 0 0).removeAt [0] (· - 2)

theorem turned_faithful : turned.Live 1 ∧ (turned.addChild 1 0 none).Faithful ∧
    turned.childrenOf 1 = [1] ∧ turned.roots = [1] ∧ ((turned.addChild 1 0 none).pile 0).toList = [1,2] := by
  have below : turned.Live 1 := by decide +kernel
  have run : Relation.ReflTransGen Revises empty (turned.addChild 1 0 none) := by
    refine .tail (.tail (.tail (.tail (.tail (.single (.root _ 0 none)) (.child ?_ 2 none)) (.edge ?_ ?_)) (.edge ?_ ?_))
      (.removal _ [0] (· - 2))) (.child below 0 none)
    all_goals decide +kernel
  exact ⟨below,revised_faithful run,by decide +kernel,by decide +kernel,by decide +kernel⟩

end SmaliPrune.PathGraph
