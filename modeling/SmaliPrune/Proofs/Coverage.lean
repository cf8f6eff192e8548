import SmaliPrune.Proofs.Exploration

namespace SmaliPrune

-- A node mirrors a place on a path: it is there, and what it knows of a register, before
-- its instruction and behind it, is what the path has in it.
def PathGraph.Mirrors (g : PathGraph) (m : Method) (h : Hierarchy) (c : Config) (id : Nat) : Prop :=
  ∃ n i e, g.node? id = some n ∧ n.address = c.address ∧ m.at? c.address = some i ∧
    n.state = some (i.run (Method.answer? h i e) e m.registers) ∧ e.Covers c.bindings ∧
    (i.run (Method.answer? h i e) e m.registers).bindings.Covers
      (i.run (Method.answer? h i c.bindings) c.bindings m.registers).bindings

namespace Certified
variable {m : Method} {h : Hierarchy} {entry : Bindings} {g : PathGraph} {entries : Array Bindings}

-- A node that stands for a place on a path, with no more known than there is.
def Follows (g : PathGraph) (m : Method) (h : Hierarchy) (entries : Array Bindings) (c : Config) (id : Nat) : Prop :=
  ∃ e, g.Stands m h entries id ⟨c.address,e⟩ ∧ e.Covers c.bindings

theorem entered_plain (certified : Certified m h entry g entries) (regular : m.Regular) (plain : entry.Plain)
    {id : Nat} {c : Config} (stands : g.Stands m h entries id c) : c.bindings.Plain := by
  obtain ⟨root,rooted,path⟩ := certified.reached id stands.live
  exact PathGraph.inherits plain (fun _ _ plain leads => leads.plain regular plain)
    (fun _ _ blurs plain => blurs.plain plain) certified.honest rooted path stands

theorem child_of_leads (certified : Certified m h entry g entries) (regular : m.Regular) (plain : entry.Plain)
    {id : Nat} {c d : Config} (stands : g.Stands m h entries id c) (leads : m.Leads h c d)
    (lands : (m.at? d.address).isSome = true) :
    ∃ child f, child ∈ g.childrenOf id ∧ g.Stands m h entries child ⟨d.address,f⟩ ∧ f.Covers d.bindings := by
  obtain ⟨child,edge,⟨address,f⟩,stands',here,blurs⟩ := certified.paid (some id) d ⟨c,stands,leads⟩ lands
  dsimp only at here blurs
  subst here
  exact ⟨child,f,edge,stands',blurs.covers (certified.entered_plain regular plain stands')⟩

theorem follows_root (certified : Certified m h entry g entries) (regular : m.Regular) (plain : entry.Plain)
    {a : Nat} (first : m.code.head?.map Instr.address = some a) :
    ∃ root ∈ g.roots, Follows g m h entries ⟨a,entry⟩ root := by
  obtain ⟨root,rooted,⟨address,f⟩,stands,here,blurs⟩ :=
    certified.paid none ⟨a,entry⟩ ⟨first,rfl⟩ (Method.at?_head first)
  dsimp only at here blurs
  subst here
  exact ⟨root,rooted,f,stands,blurs.covers (certified.entered_plain regular plain stands)⟩

theorem follows_continues (certified : Certified m h entry g entries) (regular : m.Regular) (plain : entry.Plain)
    {id : Nat} {c d : Config} {e : Bindings} (stands : g.Stands m h entries id ⟨c.address,e⟩)
    (covers : e.Covers c.bindings) (step : m.Continues h c d) (lands : (m.at? d.address).isSome = true) :
    ∃ child after, child ∈ g.childrenOf id ∧ m.Continues h ⟨c.address,e⟩ ⟨d.address,after⟩ ∧
      Follows g m h entries d child := by
  obtain ⟨i,here,_⟩ := stands.2
  obtain ⟨after,step',covers'⟩ := step.fainter regular here fun r _ => covers r
  obtain ⟨child,f,edge,stands',covers''⟩ := certified.child_of_leads regular plain stands (Or.inl step') lands
  exact ⟨child,after,edge,step',f,stands',covers''.trans fun r => covers' r (Or.inr (covers r))⟩

theorem follows_escapes (certified : Certified m h entry g entries) (regular : m.Regular) (plain : entry.Plain)
    {id : Nat} {c d : Config} {e : Bindings} (stands : g.Stands m h entries id ⟨c.address,e⟩)
    (covers : e.Covers c.bindings) (step : m.Escapes h c d) (lands : (m.at? d.address).isSome = true) :
    ∃ child, child ∈ g.childrenOf id ∧ m.Escapes h ⟨c.address,e⟩ ⟨d.address,e⟩ ∧ Follows g m h entries d child := by
  obtain ⟨i,here,_⟩ := stands.2
  obtain ⟨same,step'⟩ := step.fainter regular here fun r _ => covers r
  obtain ⟨child,f,edge,stands',covers'⟩ := certified.child_of_leads regular plain stands (Or.inr step') lands
  exact ⟨child,edge,step',f,stands',covers'.trans (same ▸ covers)⟩

theorem follows_step (certified : Certified m h entry g entries) (regular : m.Regular) (plain : entry.Plain)
    {id : Nat} {c d : Config} (follows : Follows g m h entries c id) (step : m.Step h c d) :
    ∃ child, g.Edge id child ∧ Follows g m h entries d child := by
  obtain ⟨e,stands,covers⟩ := follows
  obtain ⟨onward | caught,lands⟩ := step
  · obtain ⟨child,_,edge,_,follows⟩ := certified.follows_continues regular plain stands covers onward lands
    exact ⟨child,PathGraph.edge_iff.mpr edge,follows⟩
  · obtain ⟨child,edge,_,follows⟩ := certified.follows_escapes regular plain stands covers caught lands
    exact ⟨child,PathGraph.edge_iff.mpr edge,follows⟩

theorem Follows.mirrors (regular : m.Regular) {c : Config} {id : Nat} (follows : Follows g m h entries c id) :
    g.Mirrors m h c id := by
  obtain ⟨e,⟨_,i,here,spot⟩,covers⟩ := follows
  obtain ⟨n,node,seen⟩ := Option.map_eq_some_iff.mp spot
  obtain ⟨address,state⟩ := Prod.mk.inj seen
  exact ⟨n,i,e,node,address,here,state,covers,Method.run_covers regular here covers⟩

theorem follows_path (certified : Certified m h entry g entries) (regular : m.Regular) (plain : entry.Plain)
    {cs : List Config} (path : m.Path h entry cs) :
    ∃ ids, g.Walk ids ∧ List.Forall₂ (Follows g m h entries) cs ids := by
  obtain ⟨starts,steps⟩ := path
  cases cs with
  | nil => exact ⟨[],⟨nofun,.nil⟩,.nil⟩
  | cons c rest =>
    obtain ⟨first,code,same⟩ := Option.map_eq_some_iff.mp (starts c rfl)
    have head : m.code.head?.map Instr.address = some c.address := by rw [code,← same]; rfl
    have bindings : c.bindings = entry := by rw [← same]
    obtain ⟨root,rooted,follows⟩ := certified.follows_root regular plain head
    rw [← bindings] at follows
    obtain ⟨ids,walk,all⟩ := isChain_simulation (M := Follows g m h entries)
      (fun _ _ _ follows step => certified.follows_step regular plain follows step) rest follows steps
    refine ⟨root :: ids,⟨?_,walk⟩,all⟩
    intro id head
    cases head
    exact rooted

end Certified

-- Whatever path a method takes, its graph has a way along it from a root, node for node.
theorem Method.explore_covers_paths {m : Method} {limits : Limits} {h : Hierarchy} {entry : Bindings} {g : PathGraph}
    (regular : m.Regular) (plain : entry.Plain) (explored : (m.explore limits h entry).1 = .ok g) {cs : List Config}
    (path : m.Path h entry cs) : ∃ ids, g.Walk ids ∧ List.Forall₂ (g.Mirrors m h) cs ids := by
  obtain ⟨entries,certified⟩ := explore_certified explored
  obtain ⟨ids,walk,all⟩ := certified.follows_path regular plain path
  exact ⟨ids,walk,all.imp fun _ _ follows => follows.mirrors regular⟩

def spinning : Method := {
  owner := "Lspin;", name := "run", proto := ⟨[],.void⟩, isStatic := true, registers := 1, tries := []
  code := [⟨0,⟨0x12,"const/4",.f11n,.sets,.constInt⟩,.const 0 (.int 1)⟩,⟨1,⟨0x28,"goto",.f10t,.leaves,.goto⟩,.goto 0⟩] }

theorem spinning_covered : ∃ g, (spinning.explore {} (.fresh []) .empty).1 = .ok g ∧
    ∃ ids, g.Walk ids ∧ List.Forall₂ (g.Mirrors spinning (.fresh [])) [⟨0,.empty⟩,
      ⟨1,Bindings.empty.set (.numbered 0) (.int 1)⟩,⟨0,Bindings.empty.set (.numbered 0) (.int 1)⟩] ids := by
  have catalogued : spinning.Catalogued := by decide +kernel
  have set : spinning.Step (.fresh []) ⟨0,.empty⟩ ⟨1,Bindings.empty.set (.numbered 0) (.int 1)⟩ :=
    ⟨Or.inl (.mk (i := (spinning.at? 0).get rfl) rfl rfl (List.mem_singleton.mpr rfl)),rfl⟩
  have back : spinning.Step (.fresh []) ⟨1,Bindings.empty.set (.numbered 0) (.int 1)⟩
      ⟨0,Bindings.empty.set (.numbered 0) (.int 1)⟩ :=
    ⟨Or.inl (.mk (i := (spinning.at? 1).get rfl) rfl rfl (List.mem_singleton.mpr rfl)),rfl⟩
  have path : spinning.Path (.fresh []) .empty [⟨0,.empty⟩,⟨1,Bindings.empty.set (.numbered 0) (.int 1)⟩,
      ⟨0,Bindings.empty.set (.numbered 0) (.int 1)⟩] :=
    ⟨fun c head => head.symm ▸ rfl,.cons_cons set (.cons_cons back (.singleton _))⟩
  obtain ⟨g,explored⟩ := exists_of_isOk (x := (spinning.explore {} (.fresh []) .empty).1) (by decide +kernel)
  exact ⟨g,explored,Method.explore_covers_paths catalogued.regular Bindings.plain_empty explored path⟩

end SmaliPrune
