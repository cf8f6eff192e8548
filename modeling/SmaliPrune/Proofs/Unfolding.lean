import Mathlib.Data.Set.Card
import SmaliPrune.Proofs.Exploration

namespace SmaliPrune

inductive Method.Reaches (m : Method) (h : Hierarchy) (entry : Bindings) : Config → Prop where
  | start {a : Nat} (begins : m.code.head?.map Instr.address = some a) : Reaches m h entry ⟨a,entry⟩
  | step {c d : Config} (before : Reaches m h entry c) (step : m.Step h c d) : Reaches m h entry d

theorem Method.Reaches.plain {m : Method} {h : Hierarchy} {entry : Bindings} (regular : m.Regular) (plain : entry.Plain)
    {c : Config} (reaches : m.Reaches h entry c) : c.bindings.Plain := by
  induction reaches with
  | start => exact plain
  | step _ step ih => exact step.1.plain regular ih

theorem Method.Reaches.lands {m : Method} {h : Hierarchy} {entry : Bindings} {c : Config}
    (reaches : m.Reaches h entry c) : (m.at? c.address).isSome = true := by
  cases reaches with
  | start begins => exact Method.at?_head begins
  | step _ step => exact step.2

theorem PathGraph.Stands.lands {g : PathGraph} {m : Method} {h : Hierarchy} {entries : Array Bindings} {id : Nat}
    {c : Config} (stands : g.Stands m h entries id c) : (m.at? c.address).isSome = true := by
  obtain ⟨_,i,here,_⟩ := stands
  rw [here]
  rfl

namespace Explored
variable {m : Method} {h : Hierarchy} {entry : Bindings}

-- An exploration in which nothing was widened so far: each node stands exactly where its
-- parents lead, and no two nodes stand at one configuration.
structure Exact (m : Method) (h : Hierarchy) (entry : Bindings) (pending : List Visit) (x : Explored) : Prop where
  sharp : ∀ parent id c, x.graph.Child parent id → x.graph.Stands m h x.entries id c →
    m.Due h entry (x.graph.Stands m h x.entries) parent c
  paid : ∀ parent d, m.Due h entry (x.graph.Stands m h x.entries) parent d → (m.at? d.address).isSome = true →
    (∃ id, x.graph.Child parent id ∧ x.graph.Stands m h x.entries id d) ∨
      (⟨parent,d.address,d.bindings⟩ : Visit) ∈ pending
  distinct : ∀ id other c, x.graph.Stands m h x.entries id c → x.graph.Stands m h x.entries other c → id = other

section
variable {pending : List Visit} {x : Explored}

theorem Exact.reaches (exact : x.Exact m h entry pending) (valid : x.Valid m h entry pending) {id : Nat} {c : Config}
    (stands : x.graph.Stands m h x.entries id c) : m.Reaches h entry c := by
  obtain ⟨root,rooted,path⟩ := valid.reached id (PathGraph.lt_of_live stands.live)
  induction path generalizing c with
  | refl =>
    obtain ⟨begins,same⟩ := exact.sharp none root c rooted stands
    obtain ⟨address,bindings⟩ := c
    dsimp only at same
    rw [same]
    exact .start begins
  | @tail p id _ child ih =>
    obtain ⟨d,parent,leads⟩ := exact.sharp (some p) id c child stands
    exact .step (ih parent) ⟨leads,stands.lands⟩

theorem Exact.due_reaches (exact : x.Exact m h entry pending) (valid : x.Valid m h entry pending)
    {parent : Option Nat} {d : Config} (due : m.Due h entry (x.graph.Stands m h x.entries) parent d)
    (lands : (m.at? d.address).isSome = true) : m.Reaches h entry d := by
  cases parent with
  | none =>
    obtain ⟨address,bindings⟩ := d
    obtain ⟨begins,same⟩ := due
    dsimp only at same
    rw [same]
    exact .start begins
  | some p =>
    obtain ⟨c,stands,leads⟩ := due
    exact .step (exact.reaches valid stands) ⟨leads,lands⟩

theorem Exact.card_le (exact : x.Exact m h entry pending) (ids : Finset Nat) (places : Set Config)
    (stand : ∀ id ∈ ids, ∃ c ∈ places, x.graph.Stands m h x.entries id c) : (ids.card : ℕ∞) ≤ places.encard := by
  have : Nonempty Config := ⟨⟨0,.empty⟩⟩
  choose! place inside stands using stand
  rw [← Set.encard_coe_eq_coe_finsetCard]
  refine Set.encard_le_encard_of_injOn inside fun id first other second same => ?_
  exact exact.distinct id other _ (stands id first) (same ▸ stands other second)

theorem Exact.card_lt (exact : x.Exact m h entry pending) (ids : Finset Nat) (places : Set Config) {d : Config}
    (free : d ∈ places) (stand : ∀ id ∈ ids, ∃ c ∈ places, x.graph.Stands m h x.entries id c)
    (none : ∀ id, ¬ x.graph.Stands m h x.entries id d) {most : Nat} (few : places.encard ≤ most) : ids.card < most := by
  have others : (ids.card : ℕ∞) ≤ (places \ {d}).encard := by
    refine exact.card_le ids _ fun id member => ?_
    obtain ⟨c,inside,stands⟩ := stand id member
    exact ⟨c,⟨inside,fun same => none id (same ▸ stands)⟩,stands⟩
  have all : ((ids.card + 1 : Nat) : ℕ∞) ≤ most := by
    refine le_trans ?_ few
    rw [← Set.encard_sdiff_singleton_add_one free]
    exact_mod_cast add_le_add_left others 1
  exact_mod_cast all

theorem Exact.drop {v : Visit} {rest : List Visit} (exact : x.Exact m h entry (v :: rest))
    (nowhere : m.at? v.address = none) : x.Exact m h entry rest := by
  refine { exact with paid := fun parent d due lands => ?_ }
  rcases exact.paid parent d due lands with done | waits
  · exact Or.inl done
  · rcases List.mem_cons.mp waits with rfl | waits
    · rw [nowhere] at lands
      cases lands
    · exact Or.inr waits

theorem Exact.join {v : Visit} {rest : List Visit} {id : Nat} (exact : x.Exact m h entry (v :: rest))
    (valid : x.Valid m h entry (v :: rest)) (stands : x.graph.Stands m h x.entries id ⟨v.address,v.entry⟩) :
    (x.join v.parent id).Exact m h entry rest := by
  obtain ⟨p,c,parent,above,leads⟩ := valid.comes_from stands.live
  rw [parent]
  have children := PathGraph.child_connect (c := id) above.live
  unfold Explored.join
  dsimp only
  refine ⟨?_,?_,?_⟩
  all_goals simp only [PathGraph.stands_connect,children]
  · rintro q k d (old | ⟨rfl,rfl⟩) at'
    · exact exact.sharp q k d old at'
    · rw [at'.unique stands]
      exact ⟨c,above,leads⟩
  · intro q d due lands
    rcases exact.paid q d due lands with ⟨k,old,at'⟩ | waits
    · exact Or.inl ⟨k,Or.inl old,at'⟩
    · rcases List.mem_cons.mp waits with rfl | waits
      · exact Or.inl ⟨id,Or.inr ⟨parent,rfl⟩,stands⟩
      · exact Or.inr waits
  · exact exact.distinct

theorem Exact.enter {v : Visit} {rest : List Visit} {i : Instr} (exact : x.Exact m h entry (v :: rest))
    (valid : x.Valid m h entry (v :: rest)) (here : m.at? v.address = some i)
    (free : ∀ id, ¬ x.graph.Stands m h x.entries id ⟨v.address,v.entry⟩) :
    (x.enter m i v).Exact m h entry (rest ++ x.onward m i v) := by
  have due := valid.asked v List.mem_cons_self
  have live := valid.live_parent
  have stands := stands_enter valid.agrees valid.sizes here
  have children := child_enter (m := m) (i := i) live
  have owed := due_enter valid.agrees valid.sizes here entry
  have fresh : ∀ c, ¬ x.graph.Stands m h x.entries x.graph.nodes.size c :=
    fun c at' => absurd (PathGraph.lt_of_live at'.live) (Nat.lt_irrefl _)
  refine ⟨?_,?_,?_⟩
  · intro q k c child at'
    rcases (children q k).mp child with child | ⟨rfl,rfl⟩
    · rcases (stands k c).mp at' with at' | ⟨rfl,rfl⟩
      · exact (owed q c).mpr (Or.inl (exact.sharp q k c child at'))
      · obtain ⟨_,_,d,at'',_⟩ := valid.honest q _ child
        exact absurd at'' (fresh d)
    · rcases (stands _ c).mp at' with at' | ⟨_,rfl⟩
      · exact absurd at' (fresh c)
      · exact (owed _ _).mpr (Or.inl due)
  · intro q d due' lands
    rcases (owed q d).mp due' with due' | ⟨rfl,leads⟩
    · rcases exact.paid q d due' lands with ⟨k,child,at'⟩ | waits
      · exact Or.inl ⟨k,(children q k).mpr (Or.inl child),(stands k d).mpr (Or.inl at')⟩
      · rcases List.mem_cons.mp waits with rfl | waits
        · exact Or.inl ⟨_,(children _ _).mpr (Or.inr ⟨rfl,rfl⟩),(stands _ _).mpr (Or.inr ⟨rfl,rfl⟩)⟩
        · exact Or.inr (List.mem_append_left _ waits)
    · exact Or.inr (List.mem_append_right _ ((mem_onward valid.agrees here).mpr ⟨rfl,leads⟩))
  · intro id other c first second
    rcases (stands id c).mp first with first | ⟨rfl,rfl⟩
    · rcases (stands other c).mp second with second | ⟨rfl,rfl⟩
      · exact exact.distinct id other c first second
      · exact absurd first (free id)
    · rcases (stands other _).mp second with second | ⟨same,_⟩
      · exact absurd second (free other)
      · exact same.symm

theorem Exact.arrives {visits : Nat} {v : Visit} {rest : List Visit} {i : Instr}
    (exact : x.Exact m h entry (v :: rest)) (valid : x.Valid m h entry (v :: rest))
    (plain : ∀ c, m.Reaches h entry c → c.bindings.Plain)
    (few : ∀ a, {c | m.Reaches h entry c ∧ c.address = a}.encard ≤ visits) (here : m.at? v.address = some i) :
    match x.arrival visits v with
    | .joins id => x.graph.Stands m h x.entries id ⟨v.address,v.entry⟩
    | .opens e => e = v.entry ∧ ∀ id, ¬ x.graph.Stands m h x.entries id ⟨v.address,v.entry⟩ := by
  have reaches : m.Reaches h entry ⟨v.address,v.entry⟩ :=
    exact.due_reaches valid (valid.asked v List.mem_cons_self) (by rw [here]; rfl)
  unfold arrival
  cases found : x.match? v.address v.entry with
  | some id =>
    obtain ⟨member,e,entered,same⟩ := match?_some found
    obtain ⟨f,entered',stands⟩ := valid.entered_pile member
    obtain rfl : e = f := Option.some.inj (entered.symm.trans entered')
    rw [← Bindings.eq_of_same (plain _ (exact.reaches valid stands)) same]
    exact stands
  | none =>
    have free : ∀ id, ¬ x.graph.Stands m h x.entries id ⟨v.address,v.entry⟩ := by
      intro id stands
      obtain ⟨s,spot⟩ := stands.spot
      have member := (valid.piled.members v.address id).mpr ⟨s,spot⟩
      have differs := match?_none found v.entry
        (List.mem_filterMap.mpr ⟨id,Array.mem_toList_iff.mpr member,stands.1⟩)
      rw [Bindings.same_self (plain _ reaches)] at differs
      cases differs
    have once : (x.graph.pile v.address).toList.Nodup := (valid.piled.order v.address).imp Nat.ne_of_lt
    have stand : ∀ id ∈ (x.graph.pile v.address).toList.toFinset,
        ∃ c ∈ {c | m.Reaches h entry c ∧ c.address = v.address}, x.graph.Stands m h x.entries id c := by
      intro id member
      obtain ⟨e,_,stands⟩ := valid.entered_pile (Array.mem_toList_iff.mp (List.mem_toFinset.mp member))
      exact ⟨_,⟨exact.reaches valid stands,rfl⟩,stands⟩
    have inside : (⟨v.address,v.entry⟩ : Config) ∈ {c | m.Reaches h entry c ∧ c.address = v.address} := ⟨reaches,rfl⟩
    have room := exact.card_lt _ _ inside stand free (few v.address)
    rw [List.toFinset_card_of_nodup once,Array.length_toList] at room
    dsimp only
    rw [if_pos room]
    exact ⟨rfl,free⟩

end

theorem exact_kept {visits : Nat} (plain : ∀ c, m.Reaches h entry c → c.bindings.Plain)
    (few : ∀ a, {c | m.Reaches h entry c ∧ c.address = a}.encard ≤ visits) :
    Kept m visits fun pending x => x.Valid m h entry pending ∧ x.Exact m h entry pending where
  drop v rest x nowhere both := ⟨(valid_kept visits).drop v rest x nowhere both.1,both.2.drop nowhere⟩
  join v rest x i id here joins both := by
    have arrives := both.2.arrives both.1 plain few here
    rw [joins] at arrives
    exact ⟨(valid_kept visits).join v rest x i id here joins both.1,both.2.join both.1 arrives⟩
  enter v rest x i e here opens both := by
    have arrives := both.2.arrives both.1 plain few here
    rw [opens] at arrives
    obtain ⟨rfl,free⟩ := arrives
    exact ⟨(valid_kept visits).enter v rest x i _ here opens both.1,both.2.enter both.1 here free⟩

theorem initial_exact {first : Instr} {code : List Instr} (begins : m.code = first :: code) :
    (⟨.empty,#[],h⟩ : Explored).Exact m h entry [⟨none,first.address,entry⟩] := by
  have childless : ∀ parent id, ¬ PathGraph.empty.Child parent id := by
    intro parent id
    cases parent <;> exact nofun
  refine ⟨fun parent id _ child => absurd child (childless parent id),fun parent d due lands => ?_,?_⟩
  · rcases (initial_valid begins).paid parent d due lands with ⟨id,child,_⟩ | waits
    · exact absurd child (childless parent id)
    · exact Or.inr waits
  · exact fun id _ c stands => absurd (PathGraph.lt_of_live stands.live) (Nat.not_lt_zero id)

-- At the end nothing is pending, so every configuration that is come to has its node.
theorem Exact.stood {x : Explored} (exact : x.Exact m h entry []) {c : Config} (reaches : m.Reaches h entry c) :
    ∃ id, x.graph.Stands m h x.entries id c := by
  induction reaches with
  | @start a begins =>
    obtain ⟨id,_,stands⟩ :=
      (exact.paid none ⟨a,entry⟩ ⟨begins,rfl⟩ (Method.at?_head begins)).resolve_right List.not_mem_nil
    exact ⟨id,stands⟩
  | @step c d _ step ih =>
    obtain ⟨p,above⟩ := ih
    obtain ⟨id,_,stands⟩ := (exact.paid (some p) d ⟨c,above,step.1⟩ step.2).resolve_right List.not_mem_nil
    exact ⟨id,stands⟩

end Explored

-- A graph that is the method unfolded. Its nodes are the configurations the method comes
-- to, one node for each, with what the instruction makes of the registers and a history
-- that is its own; its edges are the steps from one to another, each once.
structure PathGraph.Unfolds (g : PathGraph) (m : Method) (h : Hierarchy) (entry : Bindings) (config : Nat → Config) :
    Prop where
  reaches : ∀ id, g.Live id → m.Reaches h entry (config id)
  once : ∀ c, m.Reaches h entry c → ∃! id, g.Live id ∧ config id = c
  ran : ∀ id n, g.node? id = some n → n.address = (config id).address ∧ ∃ i, m.at? n.address = some i ∧
    n.state = some (i.run (Method.answer? h i (config id).bindings) (config id).bindings m.registers)
  history : ∀ id n i s, g.node? id = some n → m.at? n.address = some i → n.state = some s →
    (∀ r, s.hasRead r = true ↔ r ∈ i.reads) ∧
      ∀ r, s.hasAssigned r = true ↔
        r ∈ (i.effect (Method.answer? h i (config id).bindings) (config id).bindings).assigns.map Prod.fst
  edge : ∀ a b, g.Edge a b ↔ g.Live a ∧ g.Live b ∧ m.Step h (config a) (config b)
  simple : ∀ id n, g.node? id = some n → n.children.toList.Nodup

theorem Explored.Exact.unfolds {m : Method} {h : Hierarchy} {entry : Bindings} {x : Explored}
    (exact : x.Exact m h entry []) (valid : x.Valid m h entry []) : ∃ config, x.graph.Unfolds m h entry config := by
  have : Nonempty Config := ⟨⟨0,.empty⟩⟩
  have stand : ∀ id, x.graph.Live id → ∃ c, x.graph.Stands m h x.entries id c :=
    fun id live => valid.stands id (PathGraph.lt_of_live live)
  choose! config stands using stand
  have ran : ∀ id n, x.graph.node? id = some n → n.address = (config id).address ∧ ∃ i, m.at? n.address = some i ∧
      n.state = some (i.run (Method.answer? h i (config id).bindings) (config id).bindings m.registers) := by
    intro id n node
    obtain ⟨_,i,here,spot⟩ := stands id (PathGraph.live_iff.mpr ⟨n,node⟩)
    rw [PathGraph.spot?,node,Option.map_some,Option.some.injEq,Prod.mk.injEq] at spot
    exact ⟨spot.1,i,spot.1 ▸ here,spot.2⟩
  refine ⟨config,fun id live => exact.reaches valid (stands id live),?_,ran,?_,?_,?_⟩
  · intro c reaches
    obtain ⟨id,at'⟩ := exact.stood reaches
    refine ⟨id,⟨at'.live,(stands id at'.live).unique at'⟩,fun other both => ?_⟩
    obtain ⟨live,same⟩ := both
    exact exact.distinct other id c (same ▸ stands other live) at'
  · intro id n i s node here state
    obtain ⟨_,j,here',state'⟩ := ran id n node
    obtain rfl : i = j := Option.some.inj (here.symm.trans here')
    obtain rfl := Option.some.inj (state.symm.trans state')
    refine ⟨Instr.run_hasRead i _ _ _,fun r => ?_⟩
    rw [PathState.hasAssigned,List.contains_iff_mem]
    exact Instr.run_mem_assigns i _ _ _ r
  · intro a b
    rw [PathGraph.edge_iff]
    constructor
    · intro child
      have live := valid.linked.live_child child
      obtain ⟨c,above,leads⟩ := exact.sharp (some a) b _ child (stands b live)
      have parent := PathGraph.live_of_child child
      rw [above.unique (stands a parent)] at leads
      exact ⟨parent,live,leads,(stands b live).lands⟩
    · rintro ⟨live,live',leads,lands⟩
      obtain ⟨k,child,at'⟩ := (exact.paid (some a) _ ⟨_,stands a live,leads⟩ lands).resolve_right List.not_mem_nil
      rwa [exact.distinct k b _ at' (stands b live')] at child
  · intro id n node
    have once := valid.linked.children id
    rwa [PathGraph.childrenOf,node,Option.map_some,Option.getD_some] at once

namespace PathGraph.Unfolds
variable {g : PathGraph} {m : Method} {h : Hierarchy} {entry : Bindings} {config : Nat → Config}

theorem distinct (unfolds : g.Unfolds m h entry config) {a b : Nat} (first : g.Live a) (second : g.Live b)
    (same : config a = config b) : a = b :=
  (unfolds.once _ (unfolds.reaches b second)).unique ⟨first,same⟩ ⟨second,rfl⟩

theorem follows (unfolds : g.Unfolds m h entry config) {a : Nat} (live : g.Live a) {c : Config}
    (way : Relation.TransGen (m.Step h) (config a) c) :
    ∃ b, g.Live b ∧ config b = c ∧ Relation.TransGen g.Edge a b := by
  induction way with
  | single step =>
    obtain ⟨b,⟨live',rfl⟩,_⟩ := unfolds.once _ (.step (unfolds.reaches a live) step)
    exact ⟨b,live',rfl,.single ((unfolds.edge a b).mpr ⟨live,live',step⟩)⟩
  | tail _ step ih =>
    obtain ⟨p,above,rfl,walk⟩ := ih
    obtain ⟨b,⟨live',rfl⟩,_⟩ := unfolds.once _ (.step (unfolds.reaches p above) step)
    exact ⟨b,live',rfl,walk.tail ((unfolds.edge p b).mpr ⟨above,live',step⟩)⟩

theorem closes (unfolds : g.Unfolds m h entry config) {id : Nat} (live : g.Live id)
    (loop : Relation.TransGen (m.Step h) (config id) (config id)) : Relation.TransGen g.Edge id id := by
  obtain ⟨b,live',same,walk⟩ := unfolds.follows live loop
  rwa [unfolds.distinct live' live same] at walk

theorem mem_reached_iff (unfolds : g.Unfolds m h entry config) (piled : g.Piled) {a : Nat} :
    a ∈ g.reached ↔ ∃ c, m.Reaches h entry c ∧ c.address = a := by
  rw [PathGraph.mem_reached]
  constructor
  · rintro ⟨id,member⟩
    obtain ⟨_,spot⟩ := (piled.members a id).mp member
    obtain ⟨n,node,seen⟩ := Option.map_eq_some_iff.mp spot
    refine ⟨config id,unfolds.reaches id (PathGraph.live_iff.mpr ⟨n,node⟩),?_⟩
    rw [← (unfolds.ran id n node).1]
    exact (Prod.mk.inj seen).1
  · rintro ⟨c,reaches,rfl⟩
    obtain ⟨id,⟨live,rfl⟩,_⟩ := unfolds.once c reaches
    obtain ⟨n,node⟩ := PathGraph.live_iff.mp live
    refine ⟨id,(piled.members _ id).mpr ⟨n.state,?_⟩⟩
    rw [PathGraph.spot?,node,Option.map_some,(unfolds.ran id n node).1]

end PathGraph.Unfolds

theorem Method.Leads.decided {m : Method} {h : Hierarchy} {c d : Config} {i : Instr} {test : Comparison} {a : Nat}
    {rhs : Option Nat} {target : Nat} {taken : Bool} (leads : m.Leads h c d) (here : m.at? c.address = some i)
    (catalogued : i.Catalogued) (action : i.action = .branch test a rhs target)
    (known : decided? test (c.bindings.read (.numbered a)) (rhs.map fun r => c.bindings.read (.numbered r)) =
      some taken) : d = ⟨if taken then target else i.next,c.bindings⟩ := by
  have effect : i.effect (answer? h i c.bindings) c.bindings = ⟨[],.next [if taken then target else i.next]⟩ := by
    simp only [Instr.effect,action,known]
    cases taken <;> rfl
  rcases leads with onward | caught
  · cases onward with
    | mk here' flows chosen =>
      obtain rfl := Option.some.inj (here.symm.trans here')
      rw [effect] at flows
      cases flows
      rw [List.mem_singleton.mp chosen,Instr.run_bindings,effect]
      rfl
  · cases caught with
    | guarded here' _ can =>
      obtain rfl := Option.some.inj (here.symm.trans here')
      have quiet : i.canThrow = false := Instr.canThrow_of_action catalogued (by rw [action]; rfl)
      rw [quiet] at can
      cases can
    | thrown here' flows =>
      obtain rfl := Option.some.inj (here.symm.trans here')
      rw [effect] at flows
      cases flows

theorem PathGraph.Unfolds.never_forks {g : PathGraph} {m : Method} {h : Hierarchy} {entry : Bindings}
    {config : Nat → Config} (unfolds : g.Unfolds m h entry config) {id : Nat} {n : Node} {i : Instr} {test : Comparison}
    {a : Nat} {rhs : Option Nat} {target : Nat} {taken : Bool} (node : g.node? id = some n)
    (here : m.at? n.address = some i) (catalogued : i.Catalogued) (action : i.action = .branch test a rhs target)
    (known : decided? test ((config id).bindings.read (.numbered a))
      (rhs.map fun r => (config id).bindings.read (.numbered r)) = some taken) : n.children.size ≤ 1 := by
  have here' : m.at? (config id).address = some i := (unfolds.ran id n node).1 ▸ here
  have one : ∀ x ∈ n.children.toList, ∀ y ∈ n.children.toList, x = y := by
    intro x first y second
    obtain ⟨_,live,step,_⟩ := (unfolds.edge id x).mp ⟨n,node,Array.mem_toList_iff.mp first⟩
    obtain ⟨_,live',step',_⟩ := (unfolds.edge id y).mp ⟨n,node,Array.mem_toList_iff.mp second⟩
    refine unfolds.distinct live live' ?_
    rw [step.decided here' catalogued action known,step'.decided here' catalogued action known]
  have once := unfolds.simple id n node
  rw [← Array.length_toList,← List.toFinset_card_of_nodup once]
  exact Finset.card_le_one.mpr (by simpa using one)

theorem Method.explore_unfolds {m : Method} {limits : Limits} {h : Hierarchy} {entry : Bindings}
    (regular : m.Regular) (plain : entry.Plain)
    (visits : ∀ a, {c | m.Reaches h entry c ∧ c.address = a}.encard ≤ limits.visits)
    (nodes : {c | m.Reaches h entry c}.encard ≤ limits.nodes) :
    ∃ g config, (m.explore limits h entry).1 = .ok g ∧ g.Piled ∧ g.Unfolds m h entry config := by
  unfold explore
  cases code : m.code with
  | nil =>
    have nowhere : ∀ id, ¬ PathGraph.empty.Live id := fun id live => Nat.not_lt_zero id (PathGraph.lt_of_live live)
    have never : ∀ c, ¬ m.Reaches h entry c := by
      intro c reaches
      have lands := reaches.lands
      rw [at?,code] at lands
      cases lands
    refine ⟨.empty,fun _ => ⟨0,.empty⟩,rfl,PathGraph.empty_piled,?_⟩
    constructor
    · exact fun id live => absurd live (nowhere id)
    · exact fun c reaches => absurd reaches (never c)
    · exact fun id n node => absurd (PathGraph.live_iff.mpr ⟨n,node⟩) (nowhere id)
    · exact fun id n _ _ node => absurd (PathGraph.live_iff.mpr ⟨n,node⟩) (nowhere id)
    · refine fun a b => ⟨fun edge => ?_,fun both => absurd both.1 (nowhere a)⟩
      exact absurd (PathGraph.live_of_child (PathGraph.edge_iff.mp edge)) (nowhere a)
    · exact fun id n node => absurd (PathGraph.live_iff.mpr ⟨n,node⟩) (nowhere id)
  | cons first rest =>
    dsimp only
    have kept := Explored.exact_kept (h := h) (fun c reaches => reaches.plain regular plain) visits
    have holds : (⟨.empty,#[],h⟩ : Explored).Valid m h entry [⟨none,first.address,entry⟩] ∧
        (⟨.empty,#[],h⟩ : Explored).Exact m h entry [⟨none,first.address,entry⟩] :=
      ⟨Explored.initial_valid code,Explored.initial_exact code⟩
    have few : ∀ pending x, Explored.Valid m h entry pending x ∧ Explored.Exact m h entry pending x →
        x.graph.nodes.size ≤ limits.nodes := by
      rintro pending x ⟨valid,exact⟩
      have least : ((Finset.range x.graph.nodes.size).card : ℕ∞) ≤ {c | m.Reaches h entry c}.encard := by
        refine exact.card_le _ _ fun id inside => ?_
        obtain ⟨c,stands⟩ := valid.stands id (Finset.mem_range.mp inside)
        exact ⟨c,exact.reaches valid stands,stands⟩
      rw [Finset.card_range] at least
      exact_mod_cast least.trans nodes
    obtain ⟨y,result,valid,exact⟩ := kept.finishes few holds (Nat.le_add_left _ _)
    obtain ⟨config,unfolds⟩ := exact.unfolds valid
    rw [result]
    exact ⟨y.graph,config,rfl,valid.piled,unfolds⟩

-- Below the limits the graph is the method unfolded. So a branch that is decided never
-- forks, a loop that changes nothing closes into a cycle, and an address is reached just
-- if the method comes to it.
theorem Method.explore_exact {m : Method} {limits : Limits} {h : Hierarchy} {entry : Bindings}
    (regular : m.Regular) (plain : entry.Plain)
    (visits : ∀ a, {c | m.Reaches h entry c ∧ c.address = a}.encard ≤ limits.visits)
    (nodes : {c | m.Reaches h entry c}.encard ≤ limits.nodes) :
    ∃ g config, (m.explore limits h entry).1 = .ok g ∧ g.Unfolds m h entry config ∧
      (∀ id n i test a rhs target taken, g.node? id = some n → m.at? n.address = some i → i.Catalogued →
        i.action = .branch test a rhs target →
        decided? test ((config id).bindings.read (.numbered a))
          (rhs.map fun r => (config id).bindings.read (.numbered r)) = some taken → n.children.size ≤ 1) ∧
      (∀ id, g.Live id → Relation.TransGen (m.Step h) (config id) (config id) → Relation.TransGen g.Edge id id) ∧
      ∀ a, a ∈ g.reached ↔ ∃ c, m.Reaches h entry c ∧ c.address = a := by
  obtain ⟨g,config,explored,piled,unfolds⟩ := explore_unfolds regular plain visits nodes
  refine ⟨g,config,explored,unfolds,?_,fun _ => unfolds.closes,fun _ => unfolds.mem_reached_iff piled⟩
  exact fun id n i test a rhs target taken => unfolds.never_forks

theorem encard_le_length {α : Type} {s : Set α} {xs : List α} (inside : ∀ x ∈ s, x ∈ xs) : s.encard ≤ xs.length := by
  classical
  have listed : s ⊆ (xs.toFinset : Set α) := fun x member => List.mem_toFinset.mpr (inside x member)
  calc s.encard ≤ (xs.toFinset : Set α).encard := Set.encard_le_encard listed
    _ = xs.toFinset.card := Set.encard_coe_eq_coe_finsetCard _
    _ ≤ xs.length := Nat.cast_le.mpr (List.toFinset_card_le xs)

theorem Method.Reaches.inside {m : Method} {h : Hierarchy} {entry : Bindings} {places : List Config}
    (start : ∀ i ∈ m.code.head?, ⟨i.address,entry⟩ ∈ places)
    (closed : ∀ c ∈ places, ∃ i, m.at? c.address = some i ∧ ∀ e ∈ m.exits h i c.bindings, ⟨e.1,e.2⟩ ∈ places)
    {c : Config} (reaches : m.Reaches h entry c) : c ∈ places := by
  induction reaches with
  | start begins =>
    obtain ⟨i,first,rfl⟩ := Option.map_eq_some_iff.mp begins
    exact start i first
  | step _ step ih =>
    obtain ⟨i,here,exits⟩ := closed _ ih
    exact exits _ ((mem_exits here).mpr step.1)

def turning : Method := {
  owner := "Lturn;", name := "run", proto := ⟨[],.void⟩, isStatic := true, registers := 1, tries := []
  code := [⟨0,⟨0x12,"const/4",.f11n,.sets,.constInt⟩,.const 0 (.int 1)⟩,
    ⟨1,⟨0x38,"if-eqz",.f21t,.on,.ifZero .eq⟩,.branch .eq 0 none 4⟩,⟨3,⟨0x28,"goto",.f10t,.leaves,.goto⟩,.goto 1⟩,
    ⟨4,⟨0x0e,"return-void",.f10x,.leaves,.returnVoid⟩,.leave none⟩] }

theorem turning_unfolds : (∀ a, {c | turning.Reaches (.fresh []) .empty c ∧ c.address = a}.encard ≤ 1) ∧
    {c | turning.Reaches (.fresh []) .empty c}.encard ≤ 3 ∧
    ∃ g config, (turning.explore ⟨1,3⟩ (.fresh []) .empty).1 = .ok g ∧ g.Unfolds turning (.fresh []) .empty config ∧
      ∀ a, a ∈ g.reached ↔ ∃ c, turning.Reaches (.fresh []) .empty c ∧ c.address = a := by
  have catalogued : turning.Catalogued := by decide +kernel
  let set : Bindings := Bindings.empty.set (.numbered 0) (.int 1)
  have inside : ∀ c, turning.Reaches (.fresh []) .empty c → c ∈ ([⟨0,.empty⟩,⟨1,set⟩,⟨3,set⟩] : List Config) := by
    intro c
    apply Method.Reaches.inside
    · exact fun i first => Option.some.inj first ▸ List.mem_cons_self
    · intro c member
      simp only [List.mem_cons,List.not_mem_nil,or_false] at member
      rcases member with rfl | rfl | rfl
      · exact ⟨(turning.at? 0).get rfl,rfl,List.forall_mem_singleton.mpr (.tail _ (.head _))⟩
      · exact ⟨(turning.at? 1).get rfl,rfl,List.forall_mem_singleton.mpr (.tail _ (.tail _ (.head _)))⟩
      · exact ⟨(turning.at? 3).get rfl,rfl,List.forall_mem_singleton.mpr (.tail _ (.head _))⟩
  have visits : ∀ a, {c | turning.Reaches (.fresh []) .empty c ∧ c.address = a}.encard ≤ 1 := by
    intro a
    apply Set.encard_le_one_iff.mpr
    rintro c d ⟨first,here⟩ ⟨second,there⟩
    have one := inside c first
    have other := inside d second
    simp only [List.mem_cons,List.not_mem_nil,or_false] at one other
    subst here
    rcases one with rfl | rfl | rfl <;> rcases other with rfl | rfl | rfl <;> first | rfl | cases there
  have nodes : {c | turning.Reaches (.fresh []) .empty c}.encard ≤ 3 := encard_le_length inside
  obtain ⟨g,config,explored,unfolds,_,_,reached⟩ :=
    @Method.explore_exact turning ⟨1,3⟩ (.fresh []) .empty catalogued.regular Bindings.plain_empty visits nodes
  exact ⟨visits,nodes,g,config,explored,unfolds,reached⟩

end SmaliPrune
