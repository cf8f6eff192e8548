import SmaliPrune.Proofs.Contraction
import SmaliPrune.Proofs.Exploration
import SmaliPrune.Proofs.Loading
import SmaliPrune.Proofs.Relocation
import SmaliPrune.Prune.Traced

namespace SmaliPrune

namespace Traced

-- The method has no gaps and the graph no loose ends, and every node is at an instruction.
structure Sound (t : Traced) : Prop where
  aligned : t.method.Aligned
  linked : t.graph.Linked
  piled : t.graph.Piled
  stands : ∀ id, t.graph.Live id → ∃ i ∈ t.method.code, ∃ s, t.graph.spot? id = some (i.address,s)

def mentioned (t : Traced) : List Nat :=
  t.method.code.flatMap (fun i => i.address :: i.action.target?.toList) ++
    t.method.tries.flatMap (fun r => r.first :: r.stop :: r.handlers.map Handler.entry) ++
    t.graph.nodes.toList.filterMap (fun slot => slot.map Node.address)

def doomed (t : Traced) (addresses : List Nat) : List Nat :=
  t.graph.doomedAt ((t.method.located addresses).map Instr.address)

theorem remove_eq (t : Traced) (addresses : List Nat) : t.remove addresses =
    if t.method.located addresses = [] then t else ⟨t.method.cut addresses,
      t.graph.removeAt ((t.method.located addresses).map Instr.address) (t.method.placed addresses)⟩ := by
  unfold remove Method.cut Method.placed
  split
  · next none => rw [if_pos none]
  · next some => rw [if_neg some]

theorem remove_nothing {t : Traced} {addresses : List Nat} (nothing : t.method.located addresses = []) : t.remove addresses = t := by
  rw [remove_eq,if_pos nothing]

theorem remove_code (t : Traced) (addresses : List Nat) :
    (t.remove addresses).method.code = (t.method.cut addresses).code := by
  by_cases nothing : t.method.located addresses = []
  · have all : kept addresses t.method.code = t.method.code := by
      refine List.filter_eq_self.mpr fun i member => ?_
      have := Method.located_eq_nil.mp nothing i.address (List.mem_map_of_mem member)
      simpa using this
    have same : Instr.relocate id = id := funext Instr.relocate_id
    rw [remove_nothing nothing,Method.cut_code,all,Method.placed_of_none nothing,same,List.map_id]
  · rw [remove_eq,if_neg nothing]

theorem mem_remove {t : Traced} {addresses : List Nat} {j : Instr} : j ∈ (t.remove addresses).method.code ↔
    ∃ i ∈ t.method.code, i.address ∉ addresses ∧ j = i.relocate (t.method.placed addresses) := by
  rw [remove_code]
  exact Method.mem_cut

theorem mem_doomed {t : Traced} (sound : t.Sound) {addresses : List Nat} {id : Nat} :
    id ∈ t.doomed addresses ↔ ∃ i ∈ t.method.code, i.address ∈ addresses ∧ ∃ s, t.graph.spot? id = some (i.address,s) := by
  unfold doomed Method.located
  rw [PathGraph.mem_doomedAt _ sound.piled]
  constructor
  · rintro ⟨a,s,spot,listed⟩
    obtain ⟨i,member,rfl⟩ := List.mem_map.mp listed
    obtain ⟨inside,listed⟩ := List.mem_filter.mp member
    exact ⟨i,inside,List.contains_iff_mem.mp listed,s,spot⟩
  · rintro ⟨i,inside,listed,s,spot⟩
    exact ⟨i.address,s,spot,List.mem_map_of_mem (List.mem_filter.mpr ⟨inside,List.contains_iff_mem.mpr listed⟩)⟩

theorem remove_sound {t : Traced} (sound : t.Sound) (addresses : List Nat) : (t.remove addresses).Sound := by
  rw [remove_eq]
  split
  · exact sound
  · refine ⟨Method.cut_aligned sound.aligned,PathGraph.removeAt_linked _ _ sound.linked,PathGraph.removeAt_piled _ _,?_⟩
    intro id live
    unfold PathGraph.Live at live
    rw [PathGraph.spot?_removeAt] at live ⊢
    by_cases gone : id ∈ t.graph.doomedAt ((t.method.located addresses).map Instr.address)
    · rw [if_pos gone] at live
      cases live
    · rw [if_neg gone] at live ⊢
      rw [Option.isSome_map] at live
      obtain ⟨i,inside,s,spot⟩ := sound.stands id live
      have stays : i.address ∉ addresses := fun listed => gone ((mem_doomed sound).mpr ⟨i,inside,listed,s,spot⟩)
      exact ⟨_,Method.mem_cut.mpr ⟨i,inside,stays,rfl⟩,s,by rw [spot]; rfl⟩

def removeAll (t : Traced) (requests : List (List Nat)) : Traced := requests.foldl remove t

theorem removeAll_sound {t : Traced} (sound : t.Sound) (requests : List (List Nat)) : (t.removeAll requests).Sound := by
  unfold removeAll
  induction requests generalizing t with
  | nil => exact sound
  | cons addresses rest ih => exact ih (remove_sound sound addresses)

theorem Sound.shift_le {t : Traced} (sound : t.Sound) (addresses : List Nat) :
    ∀ a ∈ t.mentioned, shift (t.method.located addresses) a ≤ a := by
  intro a mentioned
  refine Method.shift_le sound.aligned.laid ?_
  rcases List.mem_append.mp mentioned with mentioned | node
  · rcases List.mem_append.mp mentioned with code | table
    · obtain ⟨i,member,here⟩ := List.mem_flatMap.mp code
      rcases List.mem_cons.mp here with rfl | target
      · exact Or.inl (List.mem_map_of_mem member)
      · exact sound.aligned.targets i member a (Option.mem_toList.mp target)
    · obtain ⟨r,member,here⟩ := List.mem_flatMap.mp table
      obtain ⟨first,stop,entries⟩ := sound.aligned.tries r member
      rcases List.mem_cons.mp here with rfl | here
      · exact first
      · rcases List.mem_cons.mp here with rfl | here
        · exact stop
        · obtain ⟨c,handler,rfl⟩ := List.mem_map.mp here
          exact entries c handler
  · obtain ⟨slot,member,seen⟩ := List.mem_filterMap.mp node
    obtain ⟨n,rfl,rfl⟩ := Option.map_eq_some_iff.mp seen
    obtain ⟨id,inside,same⟩ := List.mem_iff_getElem.mp member
    have found : t.graph.node? id = some n := by
      unfold PathGraph.node?
      rw [Array.getD_eq_getD_getElem?,← Array.getElem?_toList,List.getElem?_eq_getElem inside,same]
      rfl
    obtain ⟨i,member,s,spot⟩ := sound.stands id (PathGraph.live_iff.mpr ⟨n,found⟩)
    unfold PathGraph.spot? at spot
    rw [found] at spot
    exact Or.inl ((Prod.mk.inj (Option.some.inj spot)).1 ▸ List.mem_map_of_mem member)

end Traced

theorem Certified.sound {m : Method} {h : Hierarchy} {entry : Bindings} {g : PathGraph} {entries : Array Bindings}
    (certified : Certified m h entry g entries) (aligned : m.Aligned) : (⟨m,g⟩ : Traced).Sound := by
  refine ⟨aligned,certified.linked,certified.piled,fun id live => ?_⟩
  obtain ⟨c,_,i,here,spot⟩ := certified.stands id live
  obtain ⟨member,address⟩ := Method.mem_of_at? here
  exact ⟨i,member,_,by rw [address]; exact spot⟩

-- Whatever is taken out of a method that was read and executed, and however often: the
-- code closes up, no branch, range or node is left behind, and no address is moved too far.
theorem removeAll_keeps_layout {owner : String} {text : List Char} {m : Method} {limits : Limits} {h : Hierarchy}
    {g : PathGraph} (loaded : Source.method owner text = .ok m) (executed : (m.execute limits h).1 = .ok g)
    (requests : List (List Nat)) {t : Traced} (reduced : t = Traced.removeAll ⟨m,g⟩ requests) :
    t.method.Aligned ∧ (∀ id n, t.graph.node? id = some n → n.address ∈ t.method.addresses) ∧
      ∀ addresses, ∀ a ∈ t.mentioned, shift (t.method.located addresses) a ≤ a := by
  obtain ⟨_,aligned⟩ := Source.method_ok loaded
  obtain ⟨s,_,explored⟩ := Method.execute_ok executed
  obtain ⟨entries,certified⟩ := Method.explore_certified explored
  have sound := Traced.removeAll_sound (certified.sound aligned) requests
  rw [← reduced] at sound
  refine ⟨sound.aligned,fun id n found => ?_,sound.shift_le⟩
  obtain ⟨i,member,s,spot⟩ := sound.stands id (PathGraph.live_iff.mpr ⟨n,found⟩)
  unfold PathGraph.spot? at spot
  rw [found] at spot
  exact (Prod.mk.inj (Option.some.inj spot)).1 ▸ List.mem_map_of_mem member

def labelled : List Char :=
  (".method static run()V\n.registers 1\n:a\nconst/4 v0, 0x1\n:b\nif-eqz v0, :a\n:c\nreturn-void\n:d\n" ++
    ".catchall \x7b:a .. :d\x7d :c\n.end method").toList

theorem labelled_keeps_layout : ∃ m g, Source.method "La;" labelled = .ok m ∧ (m.execute {} (.fresh [])).1 = .ok g ∧
    ∃ t, t = Traced.removeAll ⟨m,g⟩ [[0],[7,0]] ∧ t.method.Aligned ∧
      (∀ id n, t.graph.node? id = some n → n.address ∈ t.method.addresses) ∧
      ∀ addresses, ∀ a ∈ t.mentioned, shift (t.method.located addresses) a ≤ a := by
  obtain ⟨g,both⟩ := exists_of_isOk
    (x := Source.method "La;" labelled >>= fun m => (m.execute {} (.fresh [])).1) (by decide +kernel)
  obtain ⟨m,loaded,executed⟩ := bind_ok.mp both
  exact ⟨m,g,loaded,executed,_,rfl,removeAll_keeps_layout loaded executed [[0],[7,0]] rfl⟩

end SmaliPrune
