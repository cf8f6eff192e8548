import SmaliPrune.Graph.Basic

namespace SmaliPrune.PathGraph

def spot? (g : PathGraph) (id : Nat) : Option (Nat × Option PathState) :=
  (g.node? id).map fun n => (n.address,n.state)

def childrenOf (g : PathGraph) (id : Nat) : List Nat := ((g.node? id).map fun n => n.children.toList).getD []

def parentsOf (g : PathGraph) (id : Nat) : List Nat := ((g.node? id).map fun n => n.parents.toList).getD []

def Live (g : PathGraph) (id : Nat) : Prop := (g.spot? id).isSome = true

instance (g : PathGraph) (id : Nat) : Decidable (g.Live id) := inferInstanceAs (Decidable (_ = true))

-- Both ends of an edge know it, once each.
structure Woven (g : PathGraph) : Prop where
  agree : ∀ a b, b ∈ g.childrenOf a ↔ a ∈ g.parentsOf b
  children : ∀ id, (g.childrenOf id).Nodup
  parents : ∀ id, (g.parentsOf id).Nodup

structure Linked (g : PathGraph) : Prop extends Woven g where
  roots : ∀ id ∈ g.roots, g.Live id
  rootsOnce : g.roots.Nodup

structure Piled (g : PathGraph) : Prop where
  members : ∀ a id, id ∈ g.pile a ↔ ∃ s, g.spot? id = some (a,s)
  order : ∀ a, (g.pile a).toList.Pairwise (· < ·)

theorem edge_iff {g : PathGraph} {a b : Nat} : g.Edge a b ↔ b ∈ g.childrenOf a := by
  unfold Edge childrenOf
  cases node : g.node? a with
  | none => simp
  | some n => simp

instance (g : PathGraph) (a b : Nat) : Decidable (g.Edge a b) := decidable_of_iff _ edge_iff.symm

theorem childrenOf_eq_nil {g : PathGraph} {id : Nat} {n : Node} (node : g.node? id = some n) :
    g.childrenOf id = [] ↔ n.isLeaf = true := by
  unfold childrenOf Node.isLeaf
  simp [node]

theorem live_of_child {g : PathGraph} {a b : Nat} (child : b ∈ g.childrenOf a) : g.Live a := by
  unfold Live spot?
  cases node : g.node? a with
  | none => simp [childrenOf,node] at child
  | some n => rfl

theorem live_of_parent {g : PathGraph} {a b : Nat} (parent : a ∈ g.parentsOf b) : g.Live b := by
  unfold Live spot?
  cases node : g.node? b with
  | none => simp [parentsOf,node] at parent
  | some n => rfl

theorem Woven.live_child {g : PathGraph} (woven : g.Woven) {a b : Nat} (child : b ∈ g.childrenOf a) : g.Live b :=
  live_of_parent ((woven.agree a b).mp child)

theorem live_iff {g : PathGraph} {id : Nat} : g.Live id ↔ ∃ n, g.node? id = some n := by
  unfold Live spot?
  rw [Option.isSome_map,Option.isSome_iff_exists]

theorem node?_modify (g : PathGraph) (id x : Nat) (f : Node → Node) :
    (g.modify id f).node? x = if x = id then (g.node? x).map f else g.node? x := by
  unfold node? modify
  dsimp only
  rw [Array.getD_eq_getD_getElem?,Array.getD_eq_getD_getElem?,Array.getElem?_modify]
  by_cases equal : x = id
  · subst x
    rw [if_pos rfl,if_pos rfl]
    cases g.nodes[id]? <;> rfl
  · rw [if_neg (Ne.symm equal),if_neg equal]

theorem node?_place (g : PathGraph) (address : Nat) (state : Option PathState) (x : Nat) :
    (g.place address state).node? x = if x = g.nodes.size then some ⟨address,state,#[],#[]⟩ else g.node? x := by
  unfold node? place
  dsimp only
  rw [Array.getD_eq_getD_getElem?,Array.getD_eq_getD_getElem?,Array.getElem?_push]
  by_cases equal : x = g.nodes.size
  · rw [if_pos equal,if_pos equal]
    rfl
  · rw [if_neg equal,if_neg equal]

theorem lt_of_live {g : PathGraph} {id : Nat} (live : g.Live id) : id < g.nodes.size := by
  obtain ⟨n,node⟩ := live_iff.mp live
  unfold node? at node
  rw [Array.getD_eq_getD_getElem?] at node
  by_cases inside : id < g.nodes.size
  · exact inside
  · rw [Array.getElem?_eq_none (Nat.le_of_not_lt inside)] at node
    cases node

theorem spot?_size (g : PathGraph) : g.spot? g.nodes.size = none := by
  cases spot : g.spot? g.nodes.size with
  | none => rfl
  | some s => exact absurd (lt_of_live (g := g) (by rw [Live,spot]; rfl)) (Nat.lt_irrefl _)

theorem spot?_place (g : PathGraph) (address : Nat) (state : Option PathState) (x : Nat) :
    (g.place address state).spot? x = if x = g.nodes.size then some (address,state) else g.spot? x := by
  unfold spot?
  rw [node?_place]
  split <;> rfl

theorem childrenOf_place (g : PathGraph) (address : Nat) (state : Option PathState) (x : Nat) :
    (g.place address state).childrenOf x = g.childrenOf x := by
  unfold childrenOf
  rw [node?_place]
  split
  · next equal =>
    have none := spot?_size g
    rw [spot?,Option.map_eq_none_iff] at none
    rw [equal,none]
    rfl
  · rfl

theorem parentsOf_place (g : PathGraph) (address : Nat) (state : Option PathState) (x : Nat) :
    (g.place address state).parentsOf x = g.parentsOf x := by
  unfold parentsOf
  rw [node?_place]
  split
  · next equal =>
    have none := spot?_size g
    rw [spot?,Option.map_eq_none_iff] at none
    rw [equal,none]
    rfl
  · rfl

theorem live_place {g : PathGraph} {address : Nat} {state : Option PathState} {x : Nat} :
    (g.place address state).Live x ↔ x = g.nodes.size ∨ g.Live x := by
  unfold Live
  rw [spot?_place]
  by_cases equal : x = g.nodes.size
  · simp [equal]
  · simp [equal]

theorem pile_place (g : PathGraph) (address : Nat) (state : Option PathState) (a : Nat) :
    (g.place address state).pile a = if a = address then (g.pile a).push g.nodes.size else g.pile a := by
  unfold place pile
  rw [Std.TreeMap.getD_insert]
  by_cases equal : a = address
  · simp [equal]
  · have different : address ≠ a := Ne.symm equal
    simp [equal,different]

theorem place_linked {g : PathGraph} (linked : g.Linked) (address : Nat) (state : Option PathState) :
    (g.place address state).Linked := by
  refine ⟨⟨?_,?_,?_⟩,?_,linked.rootsOnce⟩
  · intro a b
    rw [childrenOf_place,parentsOf_place]
    exact linked.agree a b
  · intro id
    rw [childrenOf_place]
    exact linked.children id
  · intro id
    rw [parentsOf_place]
    exact linked.parents id
  · exact fun id member => live_place.mpr (Or.inr (linked.roots id member))

theorem place_piled {g : PathGraph} (piled : g.Piled) (address : Nat) (state : Option PathState) :
    (g.place address state).Piled := by
  constructor
  · intro a id
    rw [pile_place,spot?_place]
    by_cases new : id = g.nodes.size
    · subst id
      have outside : ∀ b, g.nodes.size ∉ g.pile b := by
        intro b member
        obtain ⟨s,spot⟩ := (piled.members b _).mp member
        rw [spot?_size] at spot
        cases spot
      by_cases here : a = address
      · simp [here]
      · simp [here,outside a,Ne.symm here]
    · rw [if_neg new,← piled.members a id]
      by_cases here : a = address
      · simp [here,new]
      · simp [here]
  · intro a
    rw [pile_place]
    split
    · rw [Array.toList_push,List.pairwise_append]
      refine ⟨piled.order a,List.pairwise_singleton _ _,fun id member new last => ?_⟩
      rw [List.mem_singleton.mp last]
      obtain ⟨s,spot⟩ := (piled.members a id).mp (Array.mem_toList_iff.mp member)
      exact lt_of_live (by rw [Live,spot]; rfl)
    · exact piled.order a

def withChildren (g : PathGraph) (id : Nat) (change : Array Nat → Array Nat) : PathGraph :=
  g.modify id fun n => { n with children := change n.children }

def withParents (g : PathGraph) (id : Nat) (change : Array Nat → Array Nat) : PathGraph :=
  g.modify id fun n => { n with parents := change n.parents }

section
variable (g : PathGraph) (id : Nat) (change : Array Nat → Array Nat) (x : Nat)

theorem spot?_modify {f : Node → Node} (kept : ∀ n, (f n).address = n.address ∧ (f n).state = n.state) :
    (g.modify id f).spot? x = g.spot? x := by
  unfold spot?
  rw [node?_modify]
  split
  · cases g.node? x with
    | none => rfl
    | some n => simp [kept n]
  · rfl

theorem spot?_withChildren : (g.withChildren id change).spot? x = g.spot? x :=
  spot?_modify g id x fun _ => ⟨rfl,rfl⟩

theorem spot?_withParents : (g.withParents id change).spot? x = g.spot? x :=
  spot?_modify g id x fun _ => ⟨rfl,rfl⟩

theorem childrenOf_withParents : (g.withParents id change).childrenOf x = g.childrenOf x := by
  unfold childrenOf withParents
  rw [node?_modify]
  split
  · cases g.node? x <;> rfl
  · rfl

theorem parentsOf_withChildren : (g.withChildren id change).parentsOf x = g.parentsOf x := by
  unfold parentsOf withChildren
  rw [node?_modify]
  split
  · cases g.node? x <;> rfl
  · rfl

end

theorem childrenOf_withChildren {g : PathGraph} {id : Nat} {change : Array Nat → Array Nat}
    (listed : List Nat → List Nat) (agree : ∀ xs, (change xs).toList = listed xs.toList)
    (blank : g.Live id ∨ listed [] = []) (x : Nat) :
    (g.withChildren id change).childrenOf x = if x = id then listed (g.childrenOf x) else g.childrenOf x := by
  unfold childrenOf withChildren
  rw [node?_modify]
  by_cases here : x = id
  · subst x
    rw [if_pos rfl,if_pos rfl]
    cases node : g.node? id with
    | some n => exact agree n.children
    | none =>
      rcases blank with live | blank
      · simp [live_iff,node] at live
      · exact blank.symm
  · rw [if_neg here,if_neg here]

theorem parentsOf_withParents {g : PathGraph} {id : Nat} {change : Array Nat → Array Nat}
    (listed : List Nat → List Nat) (agree : ∀ xs, (change xs).toList = listed xs.toList)
    (blank : g.Live id ∨ listed [] = []) (x : Nat) :
    (g.withParents id change).parentsOf x = if x = id then listed (g.parentsOf x) else g.parentsOf x := by
  unfold parentsOf withParents
  rw [node?_modify]
  by_cases here : x = id
  · subst x
    rw [if_pos rfl,if_pos rfl]
    cases node : g.node? id with
    | some n => exact agree n.parents
    | none =>
      rcases blank with live | blank
      · simp [live_iff,node] at live
      · exact blank.symm
  · rw [if_neg here,if_neg here]

theorem contains_iff (g : PathGraph) (p c : Nat) :
    ((g.node? p).any fun n => n.children.contains c) = true ↔ c ∈ g.childrenOf p := by
  unfold childrenOf
  cases node : g.node? p with
  | none => simp
  | some n => simp

theorem connect_known {g : PathGraph} {p c : Nat} (known : c ∈ g.childrenOf p) : g.connect p c = g := by
  unfold connect
  rw [if_pos ((contains_iff g p c).mpr known)]

theorem connect_new {g : PathGraph} {p c : Nat} (new : c ∉ g.childrenOf p) :
    g.connect p c = (g.withChildren p fun xs => xs.push c).withParents c fun xs => xs.push p := by
  unfold connect
  rw [if_neg fun known => new ((contains_iff g p c).mp known)]
  rfl

theorem spot?_connect (g : PathGraph) (p c x : Nat) : (g.connect p c).spot? x = g.spot? x := by
  by_cases known : c ∈ g.childrenOf p
  · rw [connect_known known]
  · rw [connect_new known,spot?_withParents,spot?_withChildren]

theorem live_connect {g : PathGraph} {p c x : Nat} : (g.connect p c).Live x ↔ g.Live x := by
  unfold Live
  rw [spot?_connect]

theorem childrenOf_connect {g : PathGraph} {p c : Nat} (live : g.Live p) (new : c ∉ g.childrenOf p) (x : Nat) :
    (g.connect p c).childrenOf x = if x = p then g.childrenOf x ++ [c] else g.childrenOf x := by
  rw [connect_new new,childrenOf_withParents,
    childrenOf_withChildren (fun xs => xs ++ [c]) (fun _ => Array.toList_push) (Or.inl live)]

theorem parentsOf_connect {g : PathGraph} {p c : Nat} (live : g.Live c) (new : c ∉ g.childrenOf p) (x : Nat) :
    (g.connect p c).parentsOf x = if x = c then g.parentsOf x ++ [p] else g.parentsOf x := by
  have live' : (g.withChildren p fun xs => xs.push c).Live c := by
    rw [Live,spot?_withChildren]
    exact live
  rw [connect_new new,parentsOf_withParents (fun xs => xs ++ [p]) (fun _ => Array.toList_push) (Or.inl live'),
    parentsOf_withChildren]

theorem mem_childrenOf_connect {g : PathGraph} {p c : Nat} (live : g.Live p) (a b : Nat) :
    b ∈ (g.connect p c).childrenOf a ↔ b ∈ g.childrenOf a ∨ (a = p ∧ b = c) := by
  by_cases known : c ∈ g.childrenOf p
  · rw [connect_known known]
    refine ⟨Or.inl,fun h => h.elim id ?_⟩
    rintro ⟨rfl,rfl⟩
    exact known
  · rw [childrenOf_connect live known]
    by_cases here : a = p
    · simp [here]
    · simp [here]

theorem connect_woven {g : PathGraph} (woven : g.Woven) {p c : Nat} (parent : g.Live p) (child : g.Live c) :
    (g.connect p c).Woven := by
  by_cases known : c ∈ g.childrenOf p
  · rw [connect_known known]
    exact woven
  · have unknown : p ∉ g.parentsOf c := fun member => known ((woven.agree p c).mpr member)
    refine ⟨?_,?_,?_⟩
    · intro a b
      rw [mem_childrenOf_connect parent,parentsOf_connect child known,woven.agree a b]
      by_cases here : b = c
      · simp [here]
      · simp [here]
    · intro id
      rw [childrenOf_connect parent known]
      split
      · next here =>
        subst id
        refine List.nodup_append.mpr ⟨woven.children p,List.pairwise_singleton _ _,fun x member y new => ?_⟩
        rintro rfl
        exact known (List.mem_singleton.mp new ▸ member)
      · exact woven.children id
    · intro id
      rw [parentsOf_connect child known]
      split
      · next here =>
        subst id
        refine List.nodup_append.mpr ⟨woven.parents c,List.pairwise_singleton _ _,fun x member y new => ?_⟩
        rintro rfl
        exact unknown (List.mem_singleton.mp new ▸ member)
      · exact woven.parents id

theorem roots_connect (g : PathGraph) (p c : Nat) : (g.connect p c).roots = g.roots := by
  unfold connect
  split <;> rfl

theorem connect_linked {g : PathGraph} (linked : g.Linked) {p c : Nat} (parent : g.Live p) (child : g.Live c) :
    (g.connect p c).Linked := by
  refine ⟨connect_woven linked.toWoven parent child,?_,?_⟩
  · intro id member
    rw [roots_connect] at member
    exact live_connect.mpr (linked.roots id member)
  · rw [roots_connect]
    exact linked.rootsOnce

theorem pile_connect (g : PathGraph) (p c a : Nat) : (g.connect p c).pile a = g.pile a := by
  unfold connect
  split <;> rfl

theorem size_connect (g : PathGraph) (p c : Nat) : (g.connect p c).nodes.size = g.nodes.size := by
  unfold connect
  split
  · rfl
  · simp only [modify,Array.size_modify]

theorem connect_piled {g : PathGraph} (piled : g.Piled) (p c : Nat) : (g.connect p c).Piled := by
  constructor
  · intro a id
    rw [pile_connect,spot?_connect]
    exact piled.members a id
  · intro a
    rw [pile_connect]
    exact piled.order a

theorem addRoot_linked {g : PathGraph} (linked : g.Linked) (address : Nat) (state : Option PathState) :
    (g.addRoot address state).Linked := by
  have placed := place_linked linked address state
  refine ⟨⟨placed.agree,placed.children,placed.parents⟩,?_,?_⟩
  · intro id member
    rcases List.mem_append.mp member with old | new
    · exact placed.roots id old
    · exact live_place.mpr (Or.inl (List.mem_singleton.mp new))
  · refine List.nodup_append.mpr ⟨linked.rootsOnce,List.pairwise_singleton _ _,fun id old other new => ?_⟩
    rw [List.mem_singleton.mp new]
    exact Nat.ne_of_lt (lt_of_live (linked.roots id old))

theorem addRoot_piled {g : PathGraph} (piled : g.Piled) (address : Nat) (state : Option PathState) :
    (g.addRoot address state).Piled :=
  ⟨(place_piled piled address state).members,(place_piled piled address state).order⟩

theorem addChild_linked {g : PathGraph} (linked : g.Linked) {parent : Nat} (live : g.Live parent) (address : Nat)
    (state : Option PathState) : (g.addChild parent address state).Linked :=
  connect_linked (place_linked linked address state) (live_place.mpr (Or.inr live)) (live_place.mpr (Or.inl rfl))

theorem addChild_piled {g : PathGraph} (piled : g.Piled) (parent address : Nat) (state : Option PathState) :
    (g.addChild parent address state).Piled := connect_piled (place_piled piled address state) _ _

theorem values_eq (piles : Std.TreeMap Nat (Array Nat)) : piles.values = piles.toList.map Prod.snd := by
  have folded : piles.values = piles.foldr (fun _ pile rest => pile :: rest) [] := rfl
  rw [folded,Std.TreeMap.foldr_eq_foldr_toList]
  induction piles.toList with
  | nil => rfl
  | cons row rest ih => rw [List.foldr_cons,ih,List.map_cons]

theorem count_eq (g : PathGraph) : g.count = total (fun row => row.2.size) g.piles.toList := by
  unfold count
  rw [values_eq,total_map]

theorem total_row {rows : List (Nat × Array Nat)} (distinct : rows.Pairwise fun a b => a.1 ≠ b.1) {key : Nat}
    {pile : Array Nat} (member : (key,pile) ∈ rows) :
    total (fun row => row.2.size) rows =
      pile.size + total (fun row => row.2.size) (rows.filter fun row => key != row.1) := by
  induction rows with
  | nil => cases member
  | cons row rest ih =>
    obtain ⟨here,later⟩ := List.pairwise_cons.mp distinct
    rcases List.mem_cons.mp member with rfl | member
    · have others : rest.filter (fun row => key != row.1) = rest :=
        List.filter_eq_self.mpr fun row listed => by simpa using here row listed
      rw [List.filter_cons_of_neg (by simp),others]
      rfl
    · have differs : key ≠ row.1 := (here _ member).symm
      rw [List.filter_cons_of_pos (by simpa using differs)]
      simp only [total,ih later member]
      omega

theorem count_place (g : PathGraph) (address : Nat) (state : Option PathState) :
    (g.place address state).count = g.count + 1 := by
  have perm : (g.place address state).piles.toList.Perm _ := Std.TreeMap.toList_insert_perm
  have distinct : g.piles.toList.Pairwise fun a b => a.1 ≠ b.1 := by
    refine Std.TreeMap.distinct_keys_toList.imp fun differ same => differ ?_
    rw [same]
    exact Std.ReflCmp.compare_self
  rw [count_eq,count_eq,total_perm perm]
  simp only [total,Array.size_push]
  unfold pile
  rw [Std.TreeMap.getD_eq_getD_getElem?]
  cases found : g.piles[address]? with
  | some pile =>
    have row := total_row distinct (Std.TreeMap.mem_toList_iff_getElem?_eq_some.mpr found)
    simp only [Option.getD_some,bne,decide_not,Bool.decide_eq_true] at row ⊢
    omega
  | none =>
    have others : g.piles.toList.filter (fun row => decide ¬(address == row.1) = true) = g.piles.toList := by
      refine List.filter_eq_self.mpr fun row listed => ?_
      have found' := Std.TreeMap.mem_toList_iff_getElem?_eq_some.mp listed
      have differs : address ≠ row.1 := by
        rintro rfl
        rw [found] at found'
        cases found'
      simpa using differs
    rw [others]
    simp only [Option.getD_none,List.size_toArray,List.length_nil]
    omega

theorem count_connect (g : PathGraph) (p c : Nat) : (g.connect p c).count = g.count := by
  unfold connect
  split <;> rfl

section
variable (g : PathGraph) (parent address : Nat) (state : Option PathState)

theorem pile_addRoot (a : Nat) :
    (g.addRoot address state).pile a = if a = address then (g.pile a).push g.nodes.size else g.pile a :=
  pile_place g address state a

theorem pile_addChild (a : Nat) :
    (g.addChild parent address state).pile a = if a = address then (g.pile a).push g.nodes.size else g.pile a := by
  unfold addChild
  rw [pile_connect,pile_place]

theorem count_addRoot : (g.addRoot address state).count = g.count + 1 := count_place g address state

theorem count_addChild : (g.addChild parent address state).count = g.count + 1 := by
  unfold addChild
  rw [count_connect,count_place]

end

theorem isReached_iff {g : PathGraph} {a : Nat} : g.isReached a = true ↔ ∃ id, id ∈ g.pile a := by
  unfold isReached
  rw [Bool.not_eq_true',Bool.eq_false_iff,ne_eq,Array.isEmpty_iff,Array.eq_empty_iff_forall_not_mem]
  simp

theorem Piled.first_reached {g : PathGraph} (piled : g.Piled) {a : Nat} (reached : g.isReached a = true) :
    ∃ id n, g.firstAt? a = some n ∧ g.node? id = some n ∧ n.address = a := by
  obtain ⟨id,member⟩ := isReached_iff.mp reached
  have inside : 0 < (g.pile a).size := Array.size_pos_of_mem member
  obtain ⟨s,spot⟩ := (piled.members a _).mp (Array.getElem_mem inside)
  obtain ⟨n,node,seen⟩ := Option.map_eq_some_iff.mp spot
  refine ⟨(g.pile a)[0],n,?_,node,(Prod.mk.inj seen).1⟩
  rw [firstAt?,Array.getElem?_eq_getElem inside]
  exact node

theorem mem_reached {g : PathGraph} {a : Nat} : a ∈ g.reached ↔ ∃ id, id ∈ g.pile a := by
  rw [reached,List.mem_filter,isReached_iff,Std.TreeMap.mem_keys]
  refine ⟨And.right,fun stands => ⟨?_,stands⟩⟩
  apply Classical.byContradiction
  intro missing
  obtain ⟨id,member⟩ := stands
  rw [pile,Std.TreeMap.getD_eq_fallback missing] at member
  exact Array.not_mem_empty id member

theorem mem_childrenAt {g : PathGraph} {a child : Nat} :
    child ∈ g.childrenAt a ↔ ∃ id ∈ g.pile a, child ∈ g.childrenOf id := by
  unfold childrenAt
  rw [List.mem_eraseDups,List.mem_flatMap]
  apply exists_congr
  intro id
  rw [Array.mem_toList_iff]
  rfl

theorem empty_linked : empty.Linked := by
  refine ⟨⟨?_,?_,?_⟩,?_,.nil⟩
  · intro a b
    exact ⟨nofun,nofun⟩
  · exact fun _ => .nil
  · exact fun _ => .nil
  · exact fun _ member => nomatch member

theorem empty_piled : empty.Piled := by
  constructor
  · intro a id
    refine ⟨?_,nofun⟩
    simp [empty,pile]
  · intro a
    simp [empty,pile]

end SmaliPrune.PathGraph
