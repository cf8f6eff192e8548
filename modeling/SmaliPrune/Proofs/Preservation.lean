import SmaliPrune.Proofs.Remainder
import SmaliPrune.Proofs.Results

namespace SmaliPrune

-- The same instruction at another place. It finds the same in every register it reads,
-- and so it assigns the same.
def Survives (h : Hierarchy) (m m' : Method) (f : Nat → Nat) (c d : Config) : Prop :=
  d.address = f c.address ∧ ∃ i, m.at? c.address = some i ∧ m'.at? d.address = some (i.relocate f) ∧
    (∀ r ∈ i.reads, c.bindings.lookup r = d.bindings.lookup r) ∧
    ((i.relocate f).effect (Method.answer? h (i.relocate f) d.bindings) d.bindings).assigns =
      (i.effect (Method.answer? h i c.bindings) c.bindings).assigns

-- The reduced method is where a path of the whole one is, and its registers agree with
-- those on the path on all that is still wanted there.
def Tracks (m : Method) (h : Hierarchy) (g : PathGraph) (entries : Array Bindings) (c d : Config) : Prop :=
  d.address = m.placed (⟨m,g⟩ : Traced).condemned c.address ∧
    ∃ id e, g.Stands m h entries id ⟨c.address,e⟩ ∧ e.Covers c.bindings ∧
      ∀ r, (⟨m,g⟩ : Traced).Wanted r id → c.bindings.lookup r = d.bindings.lookup r

namespace Executed
variable {m : Method} {h : Hierarchy} {entry : Bindings} {g : PathGraph} {entries : Array Bindings}
variable {c c' d : Config} {i : Instr} {t : Traced}

theorem tracks_entry (executed : Executed m h entry g entries)
    (first : m.code.head?.map Instr.address = some c.address) (same : c.bindings = entry) :
    Tracks m h g entries c ⟨m.placed (⟨m,g⟩ : Traced).condemned c.address,entry⟩ := by
  obtain ⟨root,_,e,stands,covers⟩ := executed.follows_root executed.catalogued.regular executed.plain first
  exact ⟨rfl,root,e,stands,same ▸ covers,fun r _ => by rw [same]⟩

theorem tracks_reads (tracks : Tracks m h g entries c d) (here : m.at? c.address = some i) :
    ∀ r ∈ i.reads, c.bindings.lookup r = d.bindings.lookup r := by
  intro r member
  obtain ⟨_,id,e,stands,_,agree⟩ := tracks
  exact agree r (Traced.wanted_of_read ((stands.reads here).mpr member))

theorem tracks_erased (executed : Executed m h entry g entries) (follow : m.ResultsFollow)
    (condemned : c.address ∈ (⟨m,g⟩ : Traced).condemned) (tracks : Tracks m h g entries c d)
    (step : m.Continues h c c') (lands : (m.at? c'.address).isSome = true) : Tracks m h g entries c' d := by
  obtain ⟨there,id,e,stands,covers,agree⟩ := tracks
  obtain ⟨i,here⟩ := stands.instr
  obtain ⟨member,address⟩ := Method.mem_of_at? here
  obtain ⟨child,after,edge,step',e',stands',covers'⟩ :=
    executed.follows_continues executed.catalogued.regular executed.plain stands covers step lands
  obtain ⟨next,unwanted⟩ := executed.condemned_continues (c := ⟨c.address,e⟩) condemned here stands step
  refine ⟨?_,child,e',stands',covers',fun r wanted => ?_⟩
  · rw [there,next,Method.placed_next executed.aligned.laid member,if_pos (address ▸ condemned),address]
  · by_cases written : r ∈ i.writes
    · rcases unwanted with unwanted | discards
      · exact absurd wanted (unwanted r written child (executed.childrenAt stands edge))
      · -- Nothing takes the result.
        rw [discards.written written] at wanted
        obtain ⟨_,_,_,_,_,_,lost⟩ := discards
        obtain ⟨j,found⟩ := stands'.instr
        dsimp only at found
        rw [next] at found
        rw [found,Option.any_some] at lost
        exact absurd wanted (executed.result_lost follow stands' (next ▸ found) lost)
    · rw [step.untouched here written]
      exact agree r (Traced.wanted_of_flow (stands.flows_on here step' written edge) wanted)

-- An instruction that stays does the same, so what is wanted behind it was wanted before
-- it or is assigned anew.
theorem tracks_step (executed : Executed m h entry g entries)
    (left : (⟨m,g⟩ : Traced).Leaves h (⟨m,g⟩ : Traced).condemned t) (stays : c.address ∉ (⟨m,g⟩ : Traced).condemned)
    (tracks : Tracks m h g entries c d) (step : m.Step h c c') :
    ∃ d', t.method.Leads h d d' ∧ Tracks m h g entries c' d' := by
  have reads := fun i => tracks_reads (i := i) tracks
  obtain ⟨there,id,e,stands,covers,agree⟩ := tracks
  obtain ⟨i,here⟩ := stands.instr
  obtain ⟨a,b⟩ := d
  dsimp only at there
  subst a
  obtain ⟨onward | caught,lands⟩ := step
  · obtain ⟨child,after,edge,step',e',stands',covers'⟩ :=
      executed.follows_continues executed.catalogued.regular executed.plain stands covers onward lands
    obtain ⟨b',onward',same⟩ := onward.congr here (reads i here)
    refine ⟨⟨_,b'⟩,(left.leads _ i b _ b' here stays).mpr ⟨_,rfl,Or.inl onward'⟩,rfl,child,e',stands',covers',
      fun r wanted => same r ?_⟩
    by_cases written : r ∈ i.writes
    · exact Or.inl written
    · exact Or.inr (agree r (Traced.wanted_of_flow (stands.flows_on here step' written edge) wanted))
  · obtain ⟨child,edge,step',e',stands',covers'⟩ :=
      executed.follows_escapes executed.catalogued.regular executed.plain stands covers caught lands
    obtain ⟨same,caught'⟩ := caught.congr here (reads i here)
    refine ⟨⟨_,b⟩,(left.leads _ i b _ b here stays).mpr ⟨_,rfl,Or.inr caught'⟩,rfl,child,e',stands',covers',
      fun r wanted => ?_⟩
    rw [same]
    exact agree r (Traced.wanted_of_flow (stands.flows_out here step' edge stands'.spot) wanted)

theorem tracks_survives (executed : Executed m h entry g entries)
    (left : (⟨m,g⟩ : Traced).Leaves h (⟨m,g⟩ : Traced).condemned t) (stays : c.address ∉ (⟨m,g⟩ : Traced).condemned)
    (tracks : Tracks m h g entries c d) :
    Survives h m t.method (m.placed (⟨m,g⟩ : Traced).condemned) c d := by
  have reads := fun i => tracks_reads (i := i) tracks
  obtain ⟨there,id,e,stands,_,_⟩ := tracks
  obtain ⟨i,here⟩ := stands.instr
  obtain ⟨member,address⟩ := Method.mem_of_at? here
  have next := Method.next_relocate executed.aligned member (address ▸ stays)
  have same : ∀ r ∈ i.reads, d.bindings.read r = c.bindings.read r := fun r read => by
    rw [Bindings.read,Bindings.read,reads i here r read]
  refine ⟨there,i,here,there ▸ left.found _ i here stays,reads i here,?_⟩
  rw [Method.answer?_relocate,(Instr.effect_relocate next _ _).1,Method.answer?_congr same,Instr.effect_congr _ same]

theorem erased_path (executed : Executed m h entry g entries) (follow : m.ResultsFollow)
    (left : (⟨m,g⟩ : Traced).Leaves h (⟨m,g⟩ : Traced).condemned t) {cs : List Config} (path : m.Path h entry cs)
    (caught : cs.IsChain fun c d => c.address ∈ (⟨m,g⟩ : Traced).condemned → m.Continues h c d) :
    ∃ ds, t.method.Path h entry ds ∧ List.Forall₂ (Survives h m t.method (m.placed (⟨m,g⟩ : Traced).condemned))
      (cs.filter fun c => !(⟨m,g⟩ : Traced).condemned.contains c.address) ds := by
  obtain ⟨starts,steps⟩ := path
  cases cs with
  | nil => exact ⟨[],⟨nofun,.nil⟩,.nil⟩
  | cons c rest =>
    obtain ⟨first,code,same⟩ := Option.map_eq_some_iff.mp (starts c rfl)
    have head : m.code.head?.map Instr.address = some c.address := by rw [code,← same]; rfl
    have tracked := executed.tracks_entry head (by rw [← same])
    obtain ⟨ds,along,begins,all⟩ := isChain_erasure (M := Tracks m h g entries)
      (fun c d c' tracks step gone =>
        have condemned := List.contains_iff_mem.mp gone
        executed.tracks_erased follow condemned tracks (step.2 condemned) step.1.2)
      (fun c d c' tracks step stays => executed.tracks_step left (by simpa using stays) tracks step.1)
      rest tracked (isChain_and steps caught)
    have survive : List.Forall₂ (Survives h m t.method (m.placed (⟨m,g⟩ : Traced).condemned))
        ((c :: rest).filter fun c => !(⟨m,g⟩ : Traced).condemned.contains c.address) ds :=
      all.imp fun c d ⟨stays,tracks⟩ => executed.tracks_survives left (by simpa using stays) tracks
    have found : ∀ d ∈ ds, (t.method.at? d.address).isSome = true := by
      intro d member
      obtain ⟨_,_,_,_,_,there,_⟩ := forall₂_mem survive d member
      rw [there]
      rfl
    refine ⟨ds,⟨fun d begin => ?_,along.imp_of_mem_imp fun _ d _ member leads => ⟨leads,found d member⟩⟩,survive⟩
    have some' : t.method.code ≠ [] := by
      intro none
      have here := found d (List.mem_of_mem_head? begin)
      simp [Method.at?,none] at here
    have first' := left.first some'
    rw [code] at first'
    obtain ⟨i,code',address⟩ := Option.map_eq_some_iff.mp first'
    rw [code',begins d begin,← same,Option.map_some,address]

end Executed

-- One pass leaves of every path, on which nothing that is removed is left by an exception,
-- a path with the same steps, but for those that are removed. Each finds what it found.
theorem Pruner.perform_preserves_paths {owner : String} {text : List Char} {m : Method} {limits : Limits}
    {h : Hierarchy} {g : PathGraph} {s : PathState} {p : Pruner} {t : Traced} {cs : List Config}
    (loaded : Source.method owner text = .ok m) (follow : m.ResultsFollow) (executed : (m.execute limits h).1 = .ok g)
    (performed : (p.perform ⟨m,g⟩).2.2 = t) (entered : m.initialState = .ok s) (path : m.Path h s.bindings cs)
    (caught : cs.IsChain fun c d => c.address ∈ (⟨m,g⟩ : Traced).condemned → m.Continues h c d) :
    t.method.initialState = .ok s ∧ ∃ ds, t.method.Path h s.bindings ds ∧
      List.Forall₂ (Survives h m t.method (m.placed (⟨m,g⟩ : Traced).condemned))
        (cs.filter fun c => !(⟨m,g⟩ : Traced).condemned.contains c.address) ds := by
  obtain ⟨entries,executed⟩ := Method.executed_of loaded executed entered
  have left := p.perform_leaves (executed.sound executed.aligned) h
  rw [performed] at left
  exact ⟨left.entered.trans entered,executed.erased_path follow left path caught⟩

def delegating : List Char :=
  (".method static run()I\n.registers 1\nconst/4 v0, 0x1\ninvoke-static \x7b\x7d, La;->get()I\n" ++
    "move-result v0\ngoto :a\n:a\nreturn v0\n.end method").toList

theorem delegating_preserved : ∃ m g s cs, Source.method "La;" delegating = .ok m ∧ m.ResultsFollow ∧
    (m.execute {} (.fresh [])).1 = .ok g ∧ m.initialState = .ok s ∧ m.Path (.fresh []) s.bindings cs ∧
    cs.map Config.address = [0,1,4,5,6] ∧ (⟨m,g⟩ : Traced).condemned = [0,5] ∧
    ∃ t, (({} : Pruner).perform ⟨m,g⟩).2.2 = t ∧ t.method.initialState = .ok s ∧
      ∃ ds, t.method.Path (.fresh []) s.bindings ds ∧
        List.Forall₂ (Survives (.fresh []) m t.method (m.placed (⟨m,g⟩ : Traced).condemned))
          (cs.filter fun c => !(⟨m,g⟩ : Traced).condemned.contains c.address) ds := by
  obtain ⟨_,ok⟩ := exists_of_isOk (x := do
    let m ← Source.method "La;" delegating
    let s ← m.initialState
    let g ← (m.execute {} (.fresh [])).1
    if m.ResultsFollow ∧ m.code.head?.map Instr.address = some 0 ∧ (⟨m,g⟩ : Traced).condemned = [0,5] ∧
      (m.along? (.fresh []) ⟨0,s.bindings⟩ [1,4,5,6]).isSome = true then pure () else throw ⟨.emptyMethod,[]⟩)
    (by decide +kernel)
  obtain ⟨m,loaded,ok⟩ := bind_ok.mp ok
  obtain ⟨s,entered,ok⟩ := bind_ok.mp ok
  obtain ⟨g,executed,ok⟩ := bind_ok.mp ok
  split at ok
  · next facts =>
    obtain ⟨follow,first,condemned,some'⟩ := facts
    obtain ⟨cs,followed⟩ := Option.isSome_iff_exists.mp some'
    obtain ⟨_,_,_,onward,listed⟩ := Method.along?_some followed
    have path := Method.along?_path first followed
    exact ⟨m,g,s,cs,loaded,follow,executed,entered,path,listed,condemned,_,rfl,
      Pruner.perform_preserves_paths loaded follow executed rfl entered path (onward.imp fun _ _ step _ => step)⟩
  · cases ok

end SmaliPrune
