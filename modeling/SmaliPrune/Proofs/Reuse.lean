import SmaliPrune.Proofs.Remainder

namespace SmaliPrune

-- Every node that goes has a child at the instruction behind it: none of the instructions
-- that go throws for certain.
def Traced.GoesOn (t : Traced) : Prop :=
  ∀ id n i, t.graph.node? id = some n → n.address ∈ t.condemned → t.method.at? n.address = some i →
    ∃ child k, t.graph.Edge id child ∧ t.graph.node? child = some k ∧ k.address = i.next

theorem Traced.goesOn_iff {t : Traced} : t.GoesOn ↔ ∀ id ∈ List.range t.graph.nodes.size,
    (t.graph.node? id).all (fun n => !t.condemned.contains n.address || (t.method.at? n.address).all fun i =>
      n.children.any fun child => (t.graph.node? child).any fun k => k.address == i.next) = true := by
  constructor
  · intro onward id _
    rw [Option.all_eq_true]
    intro n node
    rw [Bool.or_eq_true,Bool.not_eq_true']
    cases gone : t.condemned.contains n.address with
    | false => exact Or.inl rfl
    | true =>
      refine Or.inr ((Option.all_eq_true _ _).mpr fun i here => ?_)
      obtain ⟨child,k,⟨n',node',member⟩,found,behind⟩ := onward id n i node (List.contains_iff_mem.mp gone) here
      rw [node] at node'
      cases node'
      exact Array.any_eq_true'.mpr ⟨child,member,(Option.any_eq_true _ _).mpr ⟨k,found,beq_iff_eq.mpr behind⟩⟩
  · intro checked id n i node gone here
    have slot := PathGraph.lt_of_live (PathGraph.live_iff.mpr ⟨n,node⟩)
    have found := (Option.all_eq_true _ _).mp (checked id (List.mem_range.mpr slot)) n node
    simp only [List.contains_iff_mem.mpr gone,Bool.not_true,Bool.false_or] at found
    obtain ⟨child,member,known⟩ := Array.any_eq_true'.mp ((Option.all_eq_true _ _).mp found i here)
    obtain ⟨k,node',behind⟩ := (Option.any_eq_true _ _).mp known
    exact ⟨child,k,⟨n,node,member⟩,node',beq_iff_eq.mp behind⟩

instance (t : Traced) : Decidable t.GoesOn := decidable_of_iff _ Traced.goesOn_iff.symm

-- A node is where a path is, and what it knows of a register that its instruction reads
-- and does not assign is what the path has in it.
def PathGraph.Matches (g : PathGraph) (m : Method) (c : Config) (id : Nat) : Prop :=
  ∃ n i s, g.node? id = some n ∧ n.address = c.address ∧ m.at? c.address = some i ∧ n.state = some s ∧
    ∀ r ∈ i.reads, s.hasAssigned r = false → s.bindings.CoversAt r c.bindings

def Knows (m : Method) (h : Hierarchy) (g : PathGraph) (entries : Array Bindings) (id a : Nat) (b : Bindings) : Prop :=
  ∃ e, g.Stands m h entries id ⟨a,e⟩ ∧ ∀ r, (⟨m,g⟩ : Traced).Wanted r id → e.CoversAt r b

def Shadows (m : Method) (h : Hierarchy) (g : PathGraph) (entries : Array Bindings) (c : Config) (id : Nat) : Prop :=
  ∃ a, a ∉ (⟨m,g⟩ : Traced).condemned ∧ m.placed (⟨m,g⟩ : Traced).condemned a = c.address ∧
    Knows m h g entries id a c.bindings

namespace Executed
variable {m : Method} {h : Hierarchy} {entry : Bindings} {g : PathGraph} {entries : Array Bindings}
variable {a x id child : Nat} {b b' : Bindings} {c c' : Config} {i : Instr} {t : Traced}

theorem knows_step (executed : Executed m h entry g entries) (knows : Knows m h g entries id a b)
    (step : m.Leads h ⟨a,b⟩ ⟨x,b'⟩) (lands : (m.at? x).isSome = true) :
    ∃ child ∈ g.childrenOf id, Knows m h g entries child x b' := by
  have regular := executed.catalogued.regular
  obtain ⟨e,stands,right⟩ := knows
  obtain ⟨i,here⟩ := stands.instr
  have reads : ∀ r ∈ i.reads, e.CoversAt r b := fun r read => right r (Traced.wanted_of_read ((stands.reads here).mpr read))
  rcases step with onward | caught
  · obtain ⟨after,onward',covers⟩ := onward.fainter regular here reads
    obtain ⟨child,f,edge,stands',covers'⟩ :=
      executed.child_of_leads regular executed.plain stands (Or.inl onward') lands
    refine ⟨child,edge,f,stands',fun r wanted v found known => covers r ?_ v (covers' r v found known) known⟩
    by_cases written : r ∈ i.writes
    · exact Or.inl written
    · exact Or.inr (right r (Traced.wanted_of_flow (stands.flows_on here onward' written edge) wanted))
  · obtain ⟨rfl,caught'⟩ := caught.fainter regular here reads
    obtain ⟨child,f,edge,stands',covers'⟩ :=
      executed.child_of_leads regular executed.plain stands (Or.inr caught') lands
    refine ⟨child,edge,f,stands',fun r wanted v found known => ?_⟩
    exact right r (Traced.wanted_of_flow (stands.flows_out here caught' edge stands'.spot) wanted) v
      (covers' r v found known) known

-- Where an instruction goes the path stands still. What the node assigned is not wanted
-- behind it, or it is a result, of which nothing is known.
theorem knows_fall (executed : Executed m h entry g entries) (condemned : a ∈ (⟨m,g⟩ : Traced).condemned)
    (here : m.at? a = some i) (knows : Knows m h g entries id a b) (edge : child ∈ g.childrenOf id)
    (behind : ∃ s, g.spot? child = some (i.next,s)) : Knows m h g entries child i.next b := by
  have regular := executed.catalogued.regular
  obtain ⟨e,stands,right⟩ := knows
  obtain ⟨d,⟨c,stands',leads⟩,⟨x,f⟩,at',same,blurs⟩ := executed.honest (some id) child edge
  rw [stands'.unique stands] at leads
  obtain ⟨_,spot⟩ := at'.spot
  obtain ⟨_,spot'⟩ := behind
  rw [spot'] at spot
  cases spot
  have covers := blurs.covers (executed.entered_plain regular executed.plain at')
  dsimp only at covers
  refine ⟨f,at',fun r wanted v found known => ?_⟩
  have found' := covers r v found known
  rcases leads with onward | caught
  · by_cases written : r ∈ i.writes
    · rcases (executed.condemned_continues condemned here stands onward).2 with unwanted | discards
      · exact absurd wanted (unwanted r written child (executed.childrenAt stands edge))
      · rw [discards.written written] at found'
        rw [discards.unknown here onward found'] at known
        cases known
    · rw [onward.untouched here written] at found'
      exact right r (Traced.wanted_of_flow (stands.flows_on here onward written edge) wanted) v found' known
  · have there : ∃ s, g.spot? child = some (d.address,s) := by rw [← same]; exact at'.spot
    have flows := stands.flows_out (r := r) here caught edge there
    have kept : d.bindings = e := by cases caught <;> rfl
    rw [kept] at found'
    exact right r (Traced.wanted_of_flow flows wanted) v found' known

theorem knows_rest (executed : Executed m h entry g entries) (onward : (⟨m,g⟩ : Traced).GoesOn)
    (knows : Knows m h g entries id a b) :
    ∃ last, Shadows m h g entries ⟨m.placed (⟨m,g⟩ : Traced).condemned a,b⟩ last ∧
      (last = id ∨ id ∈ (⟨m,g⟩ : Traced).doomed (⟨m,g⟩ : Traced).condemned ∧
        g.Through ((⟨m,g⟩ : Traced).doomed (⟨m,g⟩ : Traced).condemned) id last) := by
  induction far : m.units - a using Nat.strongRecOn generalizing id a with
  | ind _ ih =>
    by_cases gone : a ∈ (⟨m,g⟩ : Traced).condemned
    · have ⟨e,stands,_⟩ := knows
      obtain ⟨i,here⟩ := stands.instr
      obtain ⟨n,node,address,_⟩ := stands.node here
      dsimp only at here address
      obtain ⟨child,k,edge,found,behind⟩ := onward id n i node (address ▸ gone) (address ▸ here)
      have edge := PathGraph.edge_iff.mp edge
      have knows' := executed.knows_fall gone here knows edge ⟨k.state,by rw [PathGraph.spot?,found,← behind]; rfl⟩
      obtain ⟨member,rfl⟩ := Method.mem_of_at? here
      have nearer : m.units - i.next < m.units - i.address := by
        have := (laid_le executed.aligned.laid member).2
        rw [← Method.units_eq executed.aligned.laid] at this
        have := i.units_pos
        unfold Instr.next at *
        omega
      obtain ⟨last,shadows,way⟩ := ih _ (far ▸ nearer) knows' rfl
      rw [Method.placed_next executed.aligned.laid member,if_pos gone] at shadows
      have doomed : id ∈ (⟨m,g⟩ : Traced).doomed (⟨m,g⟩ : Traced).condemned :=
        (Traced.mem_doomed (executed.sound executed.aligned)).mpr ⟨i,member,gone,stands.spot⟩
      refine ⟨last,shadows,Or.inr ⟨doomed,?_⟩⟩
      rcases way with rfl | ⟨stop,rest⟩
      · exact .edge edge
      · exact .hop edge stop rest
    · exact ⟨id,⟨a,gone,rfl,knows⟩,Or.inl rfl⟩

theorem shadows_stays (executed : Executed m h entry g entries) (shadows : Shadows m h g entries c id) :
    id ∉ (⟨m,g⟩ : Traced).doomed (⟨m,g⟩ : Traced).condemned := by
  intro doomed
  obtain ⟨a,stays,_,e,stands,_⟩ := shadows
  obtain ⟨i,_,listed,_,spot⟩ := (Traced.mem_doomed (executed.sound executed.aligned)).mp doomed
  obtain ⟨_,spot'⟩ := stands.spot
  rw [spot] at spot'
  cases spot'
  exact stays listed

theorem shadows_entry (executed : Executed m h entry g entries) (onward : (⟨m,g⟩ : Traced).GoesOn)
    (left : (⟨m,g⟩ : Traced).Leaves h (⟨m,g⟩ : Traced).condemned t)
    (first : t.method.code.head?.map (fun i => (⟨i.address,entry⟩ : Config)) = some c) :
    ∃ root ∈ t.graph.roots, Shadows m h g entries c root := by
  obtain ⟨j,code,rfl⟩ := Option.map_eq_some_iff.mp first
  have begins := left.first (by rintro none; simp [none] at code)
  rw [code] at begins
  obtain ⟨i,code',address⟩ := Option.map_eq_some_iff.mp begins.symm
  obtain ⟨root,rooted,e,stands,covers⟩ := executed.follows_root executed.catalogued.regular executed.plain
    (a := i.address) (by rw [code']; rfl)
  obtain ⟨last,shadows,way⟩ := executed.knows_rest onward ⟨e,stands,fun r _ => covers r⟩
  rw [address] at shadows
  refine ⟨last,(left.roots last).mpr ⟨executed.shadows_stays shadows,?_⟩,shadows⟩
  rcases way with rfl | ⟨stop,through⟩
  · exact Or.inl rooted
  · exact Or.inr ⟨root,rooted,stop,through⟩

theorem shadows_step (executed : Executed m h entry g entries) (onward : (⟨m,g⟩ : Traced).GoesOn)
    (left : (⟨m,g⟩ : Traced).Leaves h (⟨m,g⟩ : Traced).condemned t) (shadows : Shadows m h g entries c id)
    (step : t.method.Step h c c') : ∃ id', t.graph.Edge id id' ∧ Shadows m h g entries c' id' := by
  have stays := executed.shadows_stays shadows
  obtain ⟨a,out,there,knows⟩ := shadows
  obtain ⟨y,b⟩ := c
  obtain ⟨y',b'⟩ := c'
  obtain ⟨moved,lands⟩ := step
  dsimp only at there lands
  subst y
  obtain ⟨i,here⟩ : ∃ i, m.at? a = some i := by
    obtain ⟨_,stands,_⟩ := knows
    exact stands.instr
  obtain ⟨x,there',leads⟩ := (left.leads a i b y' b' here out).mp moved
  subst y'
  have lands := left.lands x (leads.boundary executed.aligned) lands
  obtain ⟨child,edge,knows'⟩ := executed.knows_step knows leads lands
  obtain ⟨last,shadows,way⟩ := executed.knows_rest onward knows'
  refine ⟨last,PathGraph.edge_iff.mpr ((left.children id last).mpr ⟨stays,executed.shadows_stays shadows,?_⟩),shadows⟩
  rcases way with rfl | ⟨stop,through⟩
  · exact .edge edge
  · exact .hop edge stop through

theorem shadows_matches (executed : Executed m h entry g entries)
    (left : (⟨m,g⟩ : Traced).Leaves h (⟨m,g⟩ : Traced).condemned t) (shadows : Shadows m h g entries c id) :
    t.graph.Matches t.method c id := by
  have stays := executed.shadows_stays shadows
  obtain ⟨a,out,there,e,stands,right⟩ := shadows
  have ⟨_,i,here,spot⟩ := stands
  have spot' := left.spot id
  rw [if_neg stays,spot] at spot'
  obtain ⟨n,node,seen⟩ := Option.map_eq_some_iff.mp spot'
  obtain ⟨address,state⟩ := Prod.mk.inj seen
  refine ⟨n,_,_,node,address.trans there,there ▸ left.found a i here out,state,fun r read idle v found known => ?_⟩
  rw [Instr.reads_relocate] at read
  refine right r (Traced.wanted_of_read ((stands.reads here).mpr read)) v ?_ known
  rw [Instr.run_bindings,Bindings.lookup_setAll_other] at found
  · exact found
  · intro assigned
    have := (Instr.run_mem_assigns i (Method.answer? h i e) e m.registers r).mpr assigned
    exact absurd (List.contains_iff_mem.mpr this) (by simpa [PathState.hasAssigned] using idle)

end Executed

-- What is left of the graph after one pass still has a way along every path of what is
-- left of the method, if no instruction that went throws for certain.
theorem Pruner.perform_covers_paths {owner : String} {text : List Char} {m : Method} {limits : Limits}
    {h : Hierarchy} {g : PathGraph} {s : PathState} {p : Pruner} {t : Traced} {cs : List Config}
    (loaded : Source.method owner text = .ok m) (executed : (m.execute limits h).1 = .ok g)
    (performed : (p.perform ⟨m,g⟩).2.2 = t) (onward : (⟨m,g⟩ : Traced).GoesOn) (entered : m.initialState = .ok s)
    (path : t.method.Path h s.bindings cs) :
    (∃ ids, t.graph.Walk ids ∧ List.Forall₂ (t.graph.Matches t.method) cs ids) ∧
      ∀ c ∈ cs, t.graph.isReached c.address = true := by
  obtain ⟨entries,executed⟩ := Method.executed_of loaded executed entered
  have left := p.perform_leaves (executed.sound executed.aligned) h
  rw [performed] at left
  have ⟨ids,walk,all⟩ : ∃ ids, t.graph.Walk ids ∧ List.Forall₂ (Shadows m h g entries) cs ids := by
    obtain ⟨starts,steps⟩ := path
    cases cs with
    | nil => exact ⟨[],⟨nofun,.nil⟩,.nil⟩
    | cons c rest =>
      obtain ⟨root,rooted,shadows⟩ := executed.shadows_entry onward left (starts c rfl)
      obtain ⟨ids,walk,all⟩ := isChain_simulation (M := Shadows m h g entries)
        (fun _ _ _ shadows step => executed.shadows_step onward left shadows step) rest shadows steps
      refine ⟨root :: ids,⟨?_,walk⟩,all⟩
      intro id head
      cases head
      exact rooted
  have matched := all.imp fun _ _ shadows => executed.shadows_matches left shadows
  refine ⟨⟨ids,walk,matched⟩,fun c member => ?_⟩
  obtain ⟨id,_,n,_,_,node,address,_⟩ := forall₂_mem matched.flip c member
  have piled := (left.piled.members c.address id).mpr ⟨n.state,by rw [PathGraph.spot?,node,← address]; rfl⟩
  unfold PathGraph.isReached
  rw [Bool.not_eq_true',Array.isEmpty_eq_false_iff]
  exact Array.ne_empty_of_mem piled

def idling : List Char :=
  (".method static run(I)V\n.registers 2\n:top\nconst/4 v0, 0x1\ngoto :a\n:a\n" ++
    "if-eqz v1, :top\nreturn-void\n.end method").toList

theorem idling_covered : ∃ m g s t cs, Source.method "La;" idling = .ok m ∧ (m.execute {} (.fresh [])).1 = .ok g ∧
    (({} : Pruner).perform ⟨m,g⟩).2.2 = t ∧ (⟨m,g⟩ : Traced).condemned = [0,1] ∧ (⟨m,g⟩ : Traced).GoesOn ∧
    m.initialState = .ok s ∧ t.method.Path (.fresh []) s.bindings cs ∧ cs.map Config.address = [0,0,2] ∧
    (∃ ids, t.graph.Walk ids ∧ List.Forall₂ (t.graph.Matches t.method) cs ids) ∧
      ∀ c ∈ cs, t.graph.isReached c.address = true := by
  obtain ⟨_,ok⟩ := exists_of_isOk (x := do
    let m ← Source.method "La;" idling
    let s ← m.initialState
    let g ← (m.execute {} (.fresh [])).1
    let t := (({} : Pruner).perform ⟨m,g⟩).2.2
    if (⟨m,g⟩ : Traced).condemned = [0,1] ∧ (⟨m,g⟩ : Traced).GoesOn ∧
      t.method.code.head?.map Instr.address = some 0 ∧
      (t.method.along? (.fresh []) ⟨0,s.bindings⟩ [0,2]).isSome = true then pure () else throw ⟨.emptyMethod,[]⟩)
    (by decide +kernel)
  obtain ⟨m,loaded,ok⟩ := bind_ok.mp ok
  obtain ⟨s,entered,ok⟩ := bind_ok.mp ok
  obtain ⟨g,executed,ok⟩ := bind_ok.mp ok
  dsimp only at ok
  split at ok
  · next facts =>
    obtain ⟨condemned,onward,first,some'⟩ := facts
    obtain ⟨cs,followed⟩ := Option.isSome_iff_exists.mp some'
    obtain ⟨_,_,_,_,listed⟩ := Method.along?_some followed
    have path := Method.along?_path first followed
    exact ⟨m,g,s,_,cs,loaded,executed,rfl,condemned,onward,entered,path,listed,
      Pruner.perform_covers_paths loaded executed rfl onward entered path⟩
  · cases ok

end SmaliPrune
