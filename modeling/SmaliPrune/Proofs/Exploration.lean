import SmaliPrune.Graph.Explore
import SmaliPrune.Proofs.Arena
import SmaliPrune.Proofs.Paths

namespace SmaliPrune

-- A node stands where it was made: entered with these registers, it ran the instruction.
def PathGraph.Stands (g : PathGraph) (m : Method) (h : Hierarchy) (entries : Array Bindings) (id : Nat) (c : Config) :
    Prop :=
  entries[id]? = some c.bindings ∧ ∃ i, m.at? c.address = some i ∧
    g.spot? id = some (c.address,some (i.run (Method.answer? h i c.bindings) c.bindings m.registers))

def PathGraph.Child (g : PathGraph) : Option Nat → Nat → Prop
  | none,id => id ∈ g.roots
  | some parent,id => id ∈ g.childrenOf parent

def Method.Due (m : Method) (h : Hierarchy) (entry : Bindings) (stands : Nat → Config → Prop) :
    Option Nat → Config → Prop
  | none,d => m.code.head?.map Instr.address = some d.address ∧ d.bindings = entry
  | some parent,d => ∃ c, stands parent c ∧ m.Leads h c d

def Meets (stands : Nat → Config → Prop) (id : Nat) (d : Config) : Prop :=
  ∃ c, stands id c ∧ c.address = d.address ∧ c.bindings.Blurs d.bindings

-- What an exploration comes to: a graph in which every node stands somewhere, every way on
-- from a node leads to a child that stands in for it, and every child is there for one.
structure Certified (m : Method) (h : Hierarchy) (entry : Bindings) (g : PathGraph) (entries : Array Bindings) : Prop where
  linked : g.Linked
  piled : g.Piled
  stands : ∀ id, g.Live id → ∃ c, g.Stands m h entries id c
  paid : ∀ parent d, m.Due h entry (g.Stands m h entries) parent d → (m.at? d.address).isSome = true →
    ∃ id, g.Child parent id ∧ Meets (g.Stands m h entries) id d
  honest : ∀ parent id, g.Child parent id →
    ∃ d, m.Due h entry (g.Stands m h entries) parent d ∧ Meets (g.Stands m h entries) id d
  single : m.code ≠ [] → ∃ root, g.roots = [root]
  reached : ∀ id, g.Live id → ∃ root ∈ g.roots, Relation.ReflTransGen (fun a b => b ∈ g.childrenOf a) root id

-- The same on the way there. What is owed may still be among the visits to come, and each
-- of those is owed.
structure Explored.Valid (m : Method) (h : Hierarchy) (entry : Bindings) (pending : List Visit) (x : Explored) :
    Prop where
  agrees : x.hierarchy.Agrees h
  linked : x.graph.Linked
  piled : x.graph.Piled
  sizes : x.entries.size = x.graph.nodes.size
  stands : ∀ id, id < x.graph.nodes.size → ∃ c, x.graph.Stands m h x.entries id c
  paid : ∀ parent d, m.Due h entry (x.graph.Stands m h x.entries) parent d → (m.at? d.address).isSome = true →
    (∃ id, x.graph.Child parent id ∧ Meets (x.graph.Stands m h x.entries) id d) ∨
      (⟨parent,d.address,d.bindings⟩ : Visit) ∈ pending
  honest : ∀ parent id, x.graph.Child parent id →
    ∃ d, m.Due h entry (x.graph.Stands m h x.entries) parent d ∧ Meets (x.graph.Stands m h x.entries) id d
  asked : ∀ v ∈ pending, m.Due h entry (x.graph.Stands m h x.entries) v.parent ⟨v.address,v.entry⟩
  start : (x.graph.nodes.size = 0 ∧ x.graph.roots = [] ∧ ∃ v, pending = [v] ∧ v.parent = none) ∨
    ((∃ root, x.graph.roots = [root]) ∧ ∀ v ∈ pending, v.parent ≠ none)
  reached : ∀ id, id < x.graph.nodes.size →
    ∃ root ∈ x.graph.roots, Relation.ReflTransGen (fun a b => b ∈ x.graph.childrenOf a) root id

namespace Method

theorem at?_head {m : Method} {a : Nat} (first : m.code.head?.map Instr.address = some a) : (m.at? a).isSome = true := by
  unfold at?
  cases code : m.code with
  | nil => simp [code] at first
  | cons i rest =>
    simp only [code,List.head?_cons,Option.map_some,Option.some.injEq] at first
    simp [first]

end Method

namespace PathGraph

theorem Stands.spot {g : PathGraph} {m : Method} {h : Hierarchy} {entries : Array Bindings} {id : Nat} {c : Config}
    (stands : g.Stands m h entries id c) : ∃ s, g.spot? id = some (c.address,s) := by
  obtain ⟨_,_,_,spot⟩ := stands
  exact ⟨_,spot⟩

theorem Stands.live {g : PathGraph} {m : Method} {h : Hierarchy} {entries : Array Bindings} {id : Nat} {c : Config}
    (stands : g.Stands m h entries id c) : g.Live id := by
  obtain ⟨_,spot⟩ := stands.spot
  rw [Live,spot]
  rfl

theorem stands_connect (g : PathGraph) (m : Method) (h : Hierarchy) (entries : Array Bindings) (p c : Nat) :
    (g.connect p c).Stands m h entries = g.Stands m h entries := by
  funext id d
  unfold Stands
  rw [spot?_connect]

theorem Stands.unique {g : PathGraph} {m : Method} {h : Hierarchy} {entries : Array Bindings} {id : Nat} {c d : Config}
    (first : g.Stands m h entries id c) (second : g.Stands m h entries id d) : c = d := by
  obtain ⟨entry,_,_,spot⟩ := first
  obtain ⟨entry',_,_,spot'⟩ := second
  rw [entry] at entry'
  rw [spot] at spot'
  cases c
  cases d
  simp_all

end PathGraph

theorem Meets.mono {stands stands' : Nat → Config → Prop} {id : Nat} {d : Config}
    (more : ∀ c, stands id c → stands' id c) (meets : Meets stands id d) : Meets stands' id d := by
  obtain ⟨c,at',rest⟩ := meets
  exact ⟨c,more c at',rest⟩

theorem Method.Due.mono {m : Method} {h : Hierarchy} {entry : Bindings} {stands stands' : Nat → Config → Prop}
    {parent : Option Nat} {d : Config} (more : ∀ id c, stands id c → stands' id c)
    (due : m.Due h entry stands parent d) : m.Due h entry stands' parent d := by
  cases parent with
  | none => exact due
  | some p =>
    obtain ⟨c,at',leads⟩ := due
    exact ⟨c,more p c at',leads⟩

-- What holds of the entry, stays true along the ways on and with less known, holds of all
-- that the nodes were entered with.
theorem PathGraph.inherits {g : PathGraph} {m : Method} {h : Hierarchy} {entry : Bindings} {entries : Array Bindings}
    {P : Bindings → Prop} (start : P entry) (leads : ∀ c d, P c.bindings → m.Leads h c d → P d.bindings)
    (blurs : ∀ e f, e.Blurs f → P f → P e)
    (honest : ∀ parent id, g.Child parent id →
      ∃ d, m.Due h entry (g.Stands m h entries) parent d ∧ Meets (g.Stands m h entries) id d)
    {root id : Nat} (rooted : root ∈ g.roots) (path : Relation.ReflTransGen (fun a b => b ∈ g.childrenOf a) root id)
    {c : Config} (stands : g.Stands m h entries id c) : P c.bindings := by
  induction path generalizing c with
  | refl =>
    obtain ⟨d,due,c',stands',_,blurred⟩ := honest none root rooted
    rw [stands.unique stands']
    exact blurs _ _ blurred (due.2 ▸ start)
  | @tail a b _ step ih =>
    obtain ⟨d,⟨p,parent,onward⟩,c',stands',_,blurred⟩ := honest (some a) b step
    rw [stands.unique stands']
    exact blurs _ _ blurred (leads p d (ih parent) onward)

theorem PathGraph.child_connect {g : PathGraph} {p c : Nat} (live : g.Live p) (q : Option Nat) (k : Nat) :
    (g.connect p c).Child q k ↔ g.Child q k ∨ (q = some p ∧ k = c) := by
  cases q with
  | none =>
    change k ∈ (g.connect p c).roots ↔ _
    rw [roots_connect]
    simp [Child]
  | some q =>
    refine (mem_childrenOf_connect live q k).trans ?_
    simp [Child]

namespace Explored
variable {m : Method} {h : Hierarchy} {entry : Bindings}

theorem match?_some {x : Explored} {address : Nat} {e : Bindings} {id : Nat} (found : x.match? address e = some id) :
    id ∈ x.graph.pile address ∧ ∃ f, x.entries[id]? = some f ∧ f.same e = true := by
  unfold match? at found
  refine ⟨Array.mem_toList_iff.mp (List.mem_of_find?_eq_some found),?_⟩
  have same := List.find?_some found
  cases entered : x.entries[id]? with
  | none => simp [entered] at same
  | some f =>
    rw [entered,Option.any_some] at same
    exact ⟨f,rfl,same⟩

theorem match?_none {x : Explored} {a : Nat} {e : Bindings} (missed : x.match? a e = none) :
    ∀ f ∈ x.entriesAt a, f.same e = false := by
  intro f member
  obtain ⟨id,listed,entered⟩ := List.mem_filterMap.mp member
  have differs := List.find?_eq_none.mp missed id listed
  rw [entered] at differs
  simpa using differs

theorem arrival_joins {x : Explored} {visits : Nat} {v : Visit} {id : Nat} (joins : x.arrival visits v = .joins id) :
    id ∈ x.graph.pile v.address ∧ ∃ e, x.entries[id]? = some e ∧ e.Blurs v.entry := by
  unfold arrival at joins
  split at joins
  · next found =>
    cases joins
    obtain ⟨member,e,entered,same⟩ := match?_some found
    exact ⟨member,e,entered,Bindings.same_blurs same⟩
  · split at joins
    · cases joins
    · dsimp only at joins
      split at joins
      · next found =>
        cases joins
        obtain ⟨member,e,entered,same⟩ := match?_some found
        exact ⟨member,e,entered,Bindings.same_widened_blurs same⟩
      · cases joins

-- A node is made with the entry as it came, as long as there are few at its address, and
-- else with the entry as widened. Either way no node there was entered with the same.
theorem arrival_fresh {x : Explored} {visits : Nat} {v : Visit} {e : Bindings} (opens : x.arrival visits v = .opens e) :
    x.match? v.address e = none ∧
      (((x.graph.pile v.address).size < visits ∧ e = v.entry) ∨
        (visits ≤ (x.graph.pile v.address).size ∧ e = v.entry.widened (x.entriesAt v.address))) := by
  unfold arrival at opens
  split at opens
  · cases opens
  · next missed =>
    split at opens
    · next few =>
      cases opens
      exact ⟨missed,Or.inl ⟨few,rfl⟩⟩
    · next many =>
      dsimp only at opens
      split at opens
      · cases opens
      · next missed' =>
        cases opens
        exact ⟨missed',Or.inr ⟨Nat.le_of_not_lt many,rfl⟩⟩

theorem arrival_opens {x : Explored} {visits : Nat} {v : Visit} {e : Bindings} (opens : x.arrival visits v = .opens e) :
    e.Blurs v.entry := by
  obtain ⟨_,⟨_,rfl⟩ | ⟨_,rfl⟩⟩ := arrival_fresh opens
  · exact .refl _
  · exact Bindings.widened_blurs _ _

theorem Valid.parents {x : Explored} {v : Visit} {rest : List Visit} (valid : x.Valid m h entry (v :: rest)) :
    ∀ w ∈ rest, w.parent ≠ none := by
  intro w member
  rcases valid.start with ⟨_,_,_,only,_⟩ | ⟨_,parents⟩
  · rw [(List.cons.inj only).2] at member
    cases member
  · exact parents w (List.mem_cons_of_mem _ member)

theorem Valid.live_parent {x : Explored} {v : Visit} {rest : List Visit} (valid : x.Valid m h entry (v :: rest)) :
    ∀ p, v.parent = some p → x.graph.Live p := by
  intro p parent
  have due := valid.asked v List.mem_cons_self
  rw [parent] at due
  obtain ⟨c,stands,_⟩ := due
  exact stands.live

theorem Valid.comes_from {x : Explored} {v : Visit} {rest : List Visit} (valid : x.Valid m h entry (v :: rest))
    {id : Nat} (live : x.graph.Live id) :
    ∃ p c, v.parent = some p ∧ x.graph.Stands m h x.entries p c ∧ m.Leads h c ⟨v.address,v.entry⟩ := by
  have ⟨p,parent⟩ : ∃ p, v.parent = some p := by
    rcases valid.start with ⟨bare,_⟩ | ⟨_,parents⟩
    · have := PathGraph.lt_of_live live
      omega
    · exact Option.ne_none_iff_exists'.mp (parents v List.mem_cons_self)
  have due := valid.asked v List.mem_cons_self
  rw [parent] at due
  obtain ⟨c,above,leads⟩ := due
  exact ⟨p,c,parent,above,leads⟩

theorem Valid.entered_pile {x : Explored} {pending : List Visit} (valid : x.Valid m h entry pending) {a id : Nat}
    (member : id ∈ x.graph.pile a) :
    ∃ e, x.entries[id]? = some e ∧ x.graph.Stands m h x.entries id ⟨a,e⟩ := by
  obtain ⟨s,spot⟩ := (valid.piled.members a id).mp member
  obtain ⟨⟨b,e⟩,stands⟩ := valid.stands id (PathGraph.lt_of_live (by rw [PathGraph.Live,spot]; rfl))
  obtain ⟨_,spot'⟩ := stands.spot
  rw [spot] at spot'
  obtain rfl : a = b := (Prod.mk.inj (Option.some.inj spot')).1
  exact ⟨e,stands.1,stands⟩

theorem Valid.drop {x : Explored} {v : Visit} {rest : List Visit} (valid : x.Valid m h entry (v :: rest))
    (nowhere : m.at? v.address = none) : x.Valid m h entry rest := by
  refine { valid with paid := ?_, asked := ?_, start := ?_ }
  · intro parent d due lands
    rcases valid.paid parent d due lands with done | waits
    · exact Or.inl done
    · rcases List.mem_cons.mp waits with rfl | waits
      · rw [nowhere] at lands
        cases lands
      · exact Or.inr waits
  · exact fun w member => valid.asked w (List.mem_cons_of_mem _ member)
  · rcases valid.start with ⟨_,_,w,only,parentless⟩ | ⟨rooted,parents⟩
    · obtain ⟨rfl,_⟩ := List.cons.inj only
      have due := valid.asked v List.mem_cons_self
      rw [parentless] at due
      have lands := Method.at?_head due.1
      rw [nowhere] at lands
      cases lands
    · exact Or.inr ⟨rooted,valid.parents⟩

theorem Valid.join {x : Explored} {v : Visit} {rest : List Visit} {id : Nat} {e : Bindings}
    (valid : x.Valid m h entry (v :: rest)) (member : id ∈ x.graph.pile v.address) (entered : x.entries[id]? = some e)
    (blurs : e.Blurs v.entry) : (x.join v.parent id).Valid m h entry rest := by
  obtain ⟨f,entered',stands⟩ := valid.entered_pile member
  obtain rfl : e = f := Option.some.inj (entered.symm.trans entered')
  have live := stands.live
  have meets : Meets (x.graph.Stands m h x.entries) id ⟨v.address,v.entry⟩ := ⟨_,stands,rfl,blurs⟩
  obtain ⟨p,c,parent,above,leads⟩ := valid.comes_from live
  rw [parent]
  have children := PathGraph.child_connect (c := id) above.live
  unfold Explored.join
  dsimp only
  refine ⟨valid.agrees,PathGraph.connect_linked valid.linked above.live live,PathGraph.connect_piled valid.piled _ _,
    ?_,?_,?_,?_,?_,?_,?_⟩
  all_goals simp only [PathGraph.stands_connect,PathGraph.size_connect,PathGraph.roots_connect,children]
  · exact valid.sizes
  · exact valid.stands
  · intro q d due lands
    rcases valid.paid q d due lands with ⟨k,child,meets'⟩ | waits
    · exact Or.inl ⟨k,Or.inl child,meets'⟩
    · rcases List.mem_cons.mp waits with rfl | waits
      · exact Or.inl ⟨id,Or.inr ⟨parent,rfl⟩,meets⟩
      · exact Or.inr waits
  · rintro q k (old | ⟨rfl,rfl⟩)
    · exact valid.honest q k old
    · exact ⟨_,⟨c,above,leads⟩,meets⟩
  · exact fun w member => valid.asked w (List.mem_cons_of_mem _ member)
  · rcases valid.start with ⟨bare,_⟩ | ⟨rooted,_⟩
    · have := PathGraph.lt_of_live live
      omega
    · exact Or.inr ⟨rooted,valid.parents⟩
  · intro k inside
    obtain ⟨root,rooted,path⟩ := valid.reached k inside
    exact ⟨root,rooted,Relation.ReflTransGen.mono
      (fun a b step => (PathGraph.mem_childrenOf_connect above.live a b).mpr (Or.inl step)) _ _ path⟩

theorem graph_enter (x : Explored) (i : Instr) (v : Visit) :
    (∀ k, (x.enter m i v).graph.spot? k = if k = x.graph.nodes.size then
      some (v.address,some (i.run (Method.answer? x.hierarchy i v.entry) v.entry m.registers)) else x.graph.spot? k) ∧
    (x.enter m i v).graph.nodes.size = x.graph.nodes.size + 1 := by
  unfold enter
  cases v.parent with
  | none =>
    refine ⟨fun k => ?_,?_⟩
    · exact PathGraph.spot?_place _ _ _ k
    · simp [PathGraph.addRoot,PathGraph.place]
  | some p =>
    refine ⟨fun k => ?_,?_⟩
    · dsimp only [PathGraph.addChild]
      rw [PathGraph.spot?_connect]
      exact PathGraph.spot?_place _ _ _ k
    · dsimp only [PathGraph.addChild]
      rw [PathGraph.size_connect]
      simp [PathGraph.place]

theorem child_enter {x : Explored} {i : Instr} {v : Visit} (live : ∀ p, v.parent = some p → x.graph.Live p)
    (q : Option Nat) (k : Nat) :
    (x.enter m i v).graph.Child q k ↔ x.graph.Child q k ∨ (q = v.parent ∧ k = x.graph.nodes.size) := by
  unfold enter
  cases parent : v.parent with
  | none =>
    cases q with
    | none => simp [PathGraph.Child,PathGraph.addRoot]
    | some q =>
      change k ∈ (x.graph.place v.address _).childrenOf q ↔ _
      rw [PathGraph.childrenOf_place]
      simp [PathGraph.Child]
  | some p =>
    cases q with
    | none =>
      change k ∈ (PathGraph.connect _ _ _).roots ↔ _
      rw [PathGraph.roots_connect]
      simp [PathGraph.Child,PathGraph.place]
    | some q =>
      have live' : ∀ s, (x.graph.place v.address s).Live p := fun s => PathGraph.live_place.mpr (Or.inr (live p parent))
      change k ∈ (PathGraph.connect _ _ _).childrenOf q ↔ _
      rw [PathGraph.mem_childrenOf_connect (live' _),PathGraph.childrenOf_place]
      simp [PathGraph.Child]

theorem stands_enter {x : Explored} {i : Instr} {v : Visit} (agrees : x.hierarchy.Agrees h)
    (sizes : x.entries.size = x.graph.nodes.size) (here : m.at? v.address = some i) (id : Nat) (c : Config) :
    (x.enter m i v).graph.Stands m h (x.enter m i v).entries id c ↔
      x.graph.Stands m h x.entries id c ∨ (id = x.graph.nodes.size ∧ c = ⟨v.address,v.entry⟩) := by
  unfold PathGraph.Stands
  have entries : (x.enter m i v).entries = x.entries.push v.entry := rfl
  rw [(graph_enter x i v).1,entries,Array.getElem?_push,sizes]
  by_cases new : id = x.graph.nodes.size
  · subst id
    rw [if_pos rfl,if_pos rfl,PathGraph.spot?_size]
    constructor
    · rintro ⟨entered,j,found,spot⟩
      refine Or.inr ⟨rfl,?_⟩
      cases c
      simp only [Option.some.injEq,Prod.mk.injEq] at entered spot
      rw [entered,spot.1]
    · rintro (⟨_,_,_,spot⟩ | ⟨_,rfl⟩)
      · cases spot
      · refine ⟨rfl,i,here,?_⟩
        rw [Method.answer?_agrees agrees]
  · rw [if_neg new,if_neg new]
    exact ⟨Or.inl,fun either => either.resolve_right fun h => new h.1⟩

theorem due_enter {x : Explored} {i : Instr} {v : Visit} (agrees : x.hierarchy.Agrees h)
    (sizes : x.entries.size = x.graph.nodes.size) (here : m.at? v.address = some i) (e : Bindings)
    (q : Option Nat) (d : Config) :
    m.Due h e ((x.enter m i v).graph.Stands m h (x.enter m i v).entries) q d ↔
      m.Due h e (x.graph.Stands m h x.entries) q d ∨
        (q = some x.graph.nodes.size ∧ m.Leads h ⟨v.address,v.entry⟩ d) := by
  cases q with
  | none => simp [Method.Due]
  | some q =>
    constructor
    · rintro ⟨c,stands,leads⟩
      rcases (stands_enter agrees sizes here q c).mp stands with old | ⟨rfl,rfl⟩
      · exact Or.inl ⟨c,old,leads⟩
      · exact Or.inr ⟨rfl,leads⟩
    · rintro (⟨c,stands,leads⟩ | ⟨new,leads⟩)
      · exact ⟨c,(stands_enter agrees sizes here q c).mpr (Or.inl stands),leads⟩
      · exact ⟨_,(stands_enter agrees sizes here q _).mpr (Or.inr ⟨Option.some.inj new,rfl⟩),leads⟩

theorem mem_onward {x : Explored} {i : Instr} {v w : Visit} (agrees : x.hierarchy.Agrees h)
    (here : m.at? v.address = some i) :
    w ∈ x.onward m i v ↔
      w.parent = some x.graph.nodes.size ∧ m.Leads h ⟨v.address,v.entry⟩ ⟨w.address,w.entry⟩ := by
  unfold onward
  rw [Method.exits_agrees agrees,List.mem_map]
  constructor
  · rintro ⟨e,exits,rfl⟩
    exact ⟨rfl,(Method.mem_exits (d := ⟨e.1,e.2⟩) here).mp exits⟩
  · rintro ⟨parent,leads⟩
    refine ⟨⟨w.address,w.entry⟩,(Method.mem_exits here).mpr leads,?_⟩
    rw [← parent]

theorem Valid.rooted_enter {x : Explored} {v w : Visit} {rest : List Visit} (valid : x.Valid m h entry (v :: rest))
    (i : Instr) (same : w.parent = v.parent) : ∃ root, (x.enter m i w).graph.roots = [root] := by
  unfold Explored.enter
  dsimp only
  rw [same]
  rcases valid.start with ⟨_,bare,first,only,parentless⟩ | ⟨⟨root,rooted⟩,parents⟩
  · obtain ⟨rfl,_⟩ := List.cons.inj only
    refine ⟨x.graph.nodes.size,?_⟩
    rw [parentless]
    dsimp only [PathGraph.addRoot,PathGraph.place]
    rw [bare]
    rfl
  · have parent := parents v List.mem_cons_self
    refine ⟨root,?_⟩
    cases known : v.parent with
    | none => exact absurd known parent
    | some p =>
      dsimp only [PathGraph.addChild]
      rw [PathGraph.roots_connect]
      exact rooted

theorem Valid.enter {x : Explored} {v : Visit} {rest : List Visit} {i : Instr} {wide : Bindings}
    (valid : x.Valid m h entry (v :: rest)) (here : m.at? v.address = some i) (blurs : wide.Blurs v.entry) :
    (x.enter m i { v with entry := wide }).Valid m h entry (rest ++ x.onward m i { v with entry := wide }) := by
  have due := valid.asked v List.mem_cons_self
  have live := valid.live_parent
  have stands := stands_enter (h := h) (v := { v with entry := wide }) valid.agrees valid.sizes here
  have old : ∀ id c, x.graph.Stands m h x.entries id c → _ := fun id c at' => (stands id c).mpr (Or.inl at')
  have children := child_enter (m := m) (i := i) (v := { v with entry := wide }) live
  have owed := due_enter (h := h) (v := { v with entry := wide }) valid.agrees valid.sizes here entry
  have onward : ∀ w, w ∈ x.onward m i { v with entry := wide } ↔
      w.parent = some x.graph.nodes.size ∧ m.Leads h ⟨v.address,wide⟩ ⟨w.address,w.entry⟩ :=
    fun w => mem_onward valid.agrees here
  have meets : Meets ((x.enter m i { v with entry := wide }).graph.Stands m h
      (x.enter m i { v with entry := wide }).entries) x.graph.nodes.size ⟨v.address,v.entry⟩ :=
    ⟨_,(stands _ _).mpr (Or.inr ⟨rfl,rfl⟩),rfl,blurs⟩
  have size : (x.enter m i { v with entry := wide }).graph.nodes.size = x.graph.nodes.size + 1 := (graph_enter _ _ _).2
  refine ⟨?_,?_,?_,?_,?_,?_,?_,?_,?_,?_⟩
  · exact (Method.rememberExits_agrees m _ _ _).trans valid.agrees
  · unfold Explored.enter
    cases parent : v.parent with
    | none => exact PathGraph.addRoot_linked valid.linked _ _
    | some p => exact PathGraph.addChild_linked valid.linked (live p parent) _ _
  · unfold Explored.enter
    cases v.parent with
    | none => exact PathGraph.addRoot_piled valid.piled _ _
    | some p => exact PathGraph.addChild_piled valid.piled _ _ _
  · rw [size]
    exact (Array.size_push _).trans (congrArg (· + 1) valid.sizes)
  · intro id inside
    rw [size] at inside
    by_cases new : id = x.graph.nodes.size
    · exact ⟨_,(stands id _).mpr (Or.inr ⟨new,rfl⟩)⟩
    · obtain ⟨c,at'⟩ := valid.stands id (by omega)
      exact ⟨c,old id c at'⟩
  · intro q d due' lands
    rcases (owed q d).mp due' with due' | ⟨rfl,leads⟩
    · rcases valid.paid q d due' lands with ⟨k,child,meets'⟩ | waits
      · exact Or.inl ⟨k,(children q k).mpr (Or.inl child),meets'.mono (old k)⟩
      · rcases List.mem_cons.mp waits with rfl | waits
        · exact Or.inl ⟨_,(children _ _).mpr (Or.inr ⟨rfl,rfl⟩),meets⟩
        · exact Or.inr (List.mem_append_left _ waits)
    · exact Or.inr (List.mem_append_right _ ((onward _).mpr ⟨rfl,leads⟩))
  · intro q k child
    rcases (children q k).mp child with child | ⟨rfl,rfl⟩
    · obtain ⟨d,due',meets'⟩ := valid.honest q k child
      exact ⟨d,due'.mono old,meets'.mono (old k)⟩
    · exact ⟨_,due.mono old,meets⟩
  · intro w member
    rcases List.mem_append.mp member with member | member
    · exact (valid.asked w (List.mem_cons_of_mem _ member)).mono old
    · obtain ⟨parent,leads⟩ := (onward w).mp member
      rw [parent]
      exact (owed _ _).mpr (Or.inr ⟨rfl,leads⟩)
  · refine Or.inr ⟨valid.rooted_enter i rfl,fun w member => ?_⟩
    rcases List.mem_append.mp member with member | member
    · exact valid.parents w member
    · rw [((onward w).mp member).1]
      exact Option.some_ne_none _
  · intro k inside
    rw [size] at inside
    have walk : ∀ root k, Relation.ReflTransGen (fun a b => b ∈ x.graph.childrenOf a) root k →
        Relation.ReflTransGen (fun a b => b ∈ (x.enter m i { v with entry := wide }).graph.childrenOf a) root k :=
      Relation.ReflTransGen.mono fun a b step => (children (some a) b).mpr (Or.inl step)
    by_cases new : k = x.graph.nodes.size
    · subst k
      rcases Option.eq_none_or_eq_some v.parent with parent | ⟨p,parent⟩
      · exact ⟨_,(children none _).mpr (Or.inr ⟨parent.symm,rfl⟩),.refl⟩
      · obtain ⟨root,rooted,path⟩ := valid.reached p (PathGraph.lt_of_live (live p parent))
        exact ⟨root,(children none root).mpr (Or.inl rooted),
          (walk _ _ path).tail ((children (some p) _).mpr (Or.inr ⟨parent.symm,rfl⟩))⟩
    · obtain ⟨root,rooted,path⟩ := valid.reached k (by omega)
      exact ⟨root,(children none root).mpr (Or.inl rooted),walk _ _ path⟩

theorem size_join (x : Explored) (parent : Option Nat) (id : Nat) :
    (x.join parent id).graph.nodes.size = x.graph.nodes.size := by
  cases parent with
  | none => rfl
  | some p => exact PathGraph.size_connect x.graph p id

theorem settle_size (m : Method) (visits : Nat) (pending : List Visit) (x : Explored) :
    (settle m visits pending x).1.graph.nodes.size = x.graph.nodes.size := by
  induction pending generalizing x with
  | nil => rfl
  | cons v rest ih =>
    unfold settle
    split
    · exact ih x
    · split
      · exact (ih _).trans (size_join x _ _)
      · rfl

-- What each step of an exploration preserves: a visit that leads nowhere is dropped, one
-- joins a node, one makes a node.
structure Kept (m : Method) (visits : Nat) (P : List Visit → Explored → Prop) : Prop where
  drop : ∀ v rest x, m.at? v.address = none → P (v :: rest) x → P rest x
  join : ∀ v rest x i id, m.at? v.address = some i → x.arrival visits v = .joins id → P (v :: rest) x →
    P rest (x.join v.parent id)
  enter : ∀ v rest x i e, m.at? v.address = some i → x.arrival visits v = .opens e → P (v :: rest) x →
    P (rest ++ x.onward m i { v with entry := e }) (x.enter m i { v with entry := e })

section
variable {visits : Nat} {P : List Visit → Explored → Prop}

theorem Kept.settle (kept : Kept m visits P) {pending : List Visit} {x : Explored} (holds : P pending x) :
    match settle m visits pending x with
    | (y,none) => P [] y
    | (y,some (i,v,rest)) => m.at? v.address = some i ∧
        ∃ e, y.arrival visits { v with entry := e } = .opens v.entry ∧ P ({ v with entry := e } :: rest) y := by
  induction pending generalizing x with
  | nil => exact holds
  | cons v rest ih =>
    unfold Explored.settle
    cases found : m.at? v.address with
    | none => exact ih (kept.drop v rest x found holds)
    | some i =>
      cases arrives : x.arrival visits v with
      | joins id => exact ih (kept.join v rest x i id found arrives holds)
      | opens e => exact ⟨found,v.entry,arrives,holds⟩

theorem Kept.run (kept : Kept m visits P) {budget : Nat} {pending : List Visit} {x y : Explored}
    (holds : P pending x) (ends : run m visits budget pending x = (y,true)) : P [] y := by
  induction budget generalizing pending x with
  | zero =>
    have settled := kept.settle holds
    unfold Explored.run at ends
    split at ends
    · next z result =>
      cases ends
      rw [result] at settled
      exact settled
    · cases ends
  | succ budget ih =>
    have settled := kept.settle holds
    unfold Explored.run at ends
    split at ends
    · next z result =>
      cases ends
      rw [result] at settled
      exact settled
    · next z i v rest result =>
      rw [result] at settled
      obtain ⟨found,e,opens,holds'⟩ := settled
      exact ih (kept.enter { v with entry := e } rest z i v.entry found opens holds') ends

theorem Kept.ends (kept : Kept m visits P) {most : Nat} (bounded : ∀ pending x, P pending x → x.graph.nodes.size ≤ most)
    {budget : Nat} {pending : List Visit} {x : Explored} (holds : P pending x)
    (enough : most ≤ x.graph.nodes.size + budget) : (Explored.run m visits budget pending x).2 = true := by
  induction budget generalizing pending x with
  | zero =>
    have settled := kept.settle holds
    unfold Explored.run
    split
    · rfl
    · next z one result =>
      obtain ⟨i,v,rest⟩ := one
      have size : z.graph.nodes.size = x.graph.nodes.size := by rw [← settle_size m visits pending x,result]
      rw [result] at settled
      obtain ⟨found,e,opens,holds'⟩ := settled
      have grown := bounded _ _ (kept.enter { v with entry := e } rest z i v.entry found opens holds')
      rw [(graph_enter z i _).2] at grown
      omega
  | succ budget ih =>
    have settled := kept.settle holds
    unfold Explored.run
    split
    · rfl
    · next z i v rest result =>
      have size : z.graph.nodes.size = x.graph.nodes.size := by rw [← settle_size m visits pending x,result]
      rw [result] at settled
      obtain ⟨found,e,opens,holds'⟩ := settled
      refine ih (kept.enter { v with entry := e } rest z i v.entry found opens holds') ?_
      rw [(graph_enter z i _).2]
      omega

theorem Kept.finishes (kept : Kept m visits P) {most : Nat}
    (bounded : ∀ pending x, P pending x → x.graph.nodes.size ≤ most) {budget : Nat} {pending : List Visit}
    {x : Explored} (holds : P pending x) (enough : most ≤ x.graph.nodes.size + budget) :
    ∃ y, Explored.run m visits budget pending x = (y,true) ∧ P [] y := by
  have result : Explored.run m visits budget pending x = ((Explored.run m visits budget pending x).1,true) :=
    Prod.ext rfl (kept.ends bounded holds enough)
  exact ⟨_,result,kept.run holds result⟩

end

theorem valid_kept (visits : Nat) : Kept m visits fun pending x => x.Valid m h entry pending where
  drop _ _ _ nowhere valid := valid.drop nowhere
  join _ _ _ _ _ _ joins valid := by
    obtain ⟨member,e,entered,blurs⟩ := arrival_joins joins
    exact valid.join member entered blurs
  enter _ _ _ _ _ here opens valid := valid.enter here (arrival_opens opens)

theorem initial_valid {first : Instr} {code : List Instr} (begins : m.code = first :: code) :
    (⟨.empty,#[],h⟩ : Explored).Valid m h entry [⟨none,first.address,entry⟩] := by
  have nothing : ∀ id c, ¬ PathGraph.empty.Stands m h #[] id c := by
    rintro id c ⟨entered,_⟩
    simp at entered
  have due : m.Due h entry (PathGraph.empty.Stands m h #[]) none ⟨first.address,entry⟩ := by
    refine ⟨?_,rfl⟩
    rw [begins]
    rfl
  refine ⟨.refl h,PathGraph.empty_linked,PathGraph.empty_piled,rfl,?_,?_,?_,?_,Or.inl ⟨rfl,rfl,_,rfl,rfl⟩,?_⟩
  · exact fun id inside => absurd inside (Nat.not_lt_zero id)
  · intro q d owed lands
    cases q with
    | none =>
      obtain ⟨head,same⟩ := owed
      rw [begins] at head
      refine Or.inr (List.mem_singleton.mpr ?_)
      rw [same,← Option.some.inj head]
    | some q =>
      obtain ⟨c,at',_⟩ := owed
      exact absurd at' (nothing q c)
  · intro q k child
    cases q with
    | none => cases child
    | some q => cases child
  · intro v member
    rw [List.mem_singleton.mp member]
    exact due
  · exact fun id inside => absurd inside (Nat.not_lt_zero id)

theorem Valid.certified {x : Explored} (valid : x.Valid m h entry []) : Certified m h entry x.graph x.entries := by
  refine ⟨valid.linked,valid.piled,?_,?_,valid.honest,?_,?_⟩
  · exact fun id live => valid.stands id (PathGraph.lt_of_live live)
  · intro parent d due lands
    exact (valid.paid parent d due lands).resolve_right List.not_mem_nil
  · intro _
    rcases valid.start with ⟨_,_,v,only,_⟩ | ⟨rooted,_⟩
    · cases only
    · exact rooted
  · exact fun id live => valid.reached id (PathGraph.lt_of_live live)

end Explored

theorem exists_of_isOk {α : Type} {x : Checked α} (ok : x.isOk = true) : ∃ a, x = .ok a := by
  cases x with
  | ok a => exact ⟨a,rfl⟩
  | error f => cases ok

def Method.entries (m : Method) (limits : Limits) (h : Hierarchy) (entry : Bindings) : Array Bindings :=
  match m.code with
  | [] => #[]
  | first :: _ => (Explored.run m limits.visits limits.nodes [⟨none,first.address,entry⟩] ⟨.empty,#[],h⟩).1.entries

theorem Method.entries_certified {m : Method} {limits : Limits} {h : Hierarchy} {entry : Bindings} {g : PathGraph}
    (explored : (m.explore limits h entry).1 = .ok g) : Certified m h entry g (m.entries limits h entry) := by
  unfold explore at explored
  unfold entries
  cases code : m.code with
  | nil =>
    rw [code] at explored
    cases explored
    refine ⟨PathGraph.empty_linked,PathGraph.empty_piled,?_,?_,?_,?_,?_⟩
    · exact fun id live => absurd (PathGraph.lt_of_live live) (Nat.not_lt_zero id)
    · intro parent d due lands
      cases parent with
      | none => simp [code,Due] at due
      | some p =>
        obtain ⟨c,at',_⟩ := due
        exact absurd (PathGraph.lt_of_live at'.live) (Nat.not_lt_zero p)
    · intro parent id child
      cases parent <;> cases child
    · exact fun some => absurd code some
    · exact fun id live => absurd (PathGraph.lt_of_live live) (Nat.not_lt_zero id)
  | cons first rest =>
    rw [code] at explored
    dsimp only at explored ⊢
    split at explored
    · next x result =>
      cases explored
      rw [result]
      exact ((Explored.valid_kept limits.visits).run (Explored.initial_valid code) result).certified
    · cases explored

theorem Method.explore_certified {m : Method} {limits : Limits} {h : Hierarchy} {entry : Bindings} {g : PathGraph}
    (explored : (m.explore limits h entry).1 = .ok g) : ∃ entries, Certified m h entry g entries :=
  ⟨_,entries_certified explored⟩

theorem Method.execute_ok {m : Method} {limits : Limits} {h : Hierarchy} {g : PathGraph}
    (executed : (m.execute limits h).1 = .ok g) :
    ∃ s, m.initialState = .ok s ∧ (m.explore limits h s.bindings).1 = .ok g := by
  unfold execute at executed
  cases state : m.initialState with
  | error f =>
    rw [state] at executed
    cases executed
  | ok s =>
    rw [state] at executed
    exact ⟨s,rfl,executed⟩

end SmaliPrune
