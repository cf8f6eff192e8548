import SmaliPrune.Graph.Removal
import SmaliPrune.Proofs.Arena

namespace SmaliPrune.PathGraph

-- Taking one node out, step by step: its slot is cleared, its neighbours forget it and are
-- connected to each other.

def elders (g : PathGraph) (id : Nat) : List Nat := (g.parentsOf id).filter (· != id)

def heirs (g : PathGraph) (id : Nat) : List Nat := (g.childrenOf id).filter (· != id)

def cleared (g : PathGraph) (id : Nat) : PathGraph := { g with nodes := g.nodes.setIfInBounds id none }

def forgotten (g : PathGraph) (id : Nat) : PathGraph :=
  (g.heirs id).foldl (fun g c => g.withParents c fun xs => xs.filter (· != id))
    ((g.elders id).foldl (fun g p => g.withChildren p fun xs => xs.filter (· != id)) (g.cleared id))

def bridged (g : PathGraph) (parents children : List Nat) : PathGraph :=
  parents.foldl (fun g p => children.foldl (fun g c => g.connect p c) g) g

theorem spliceOut_eq {g : PathGraph} {id : Nat} (live : g.Live id) :
    g.spliceOut id = { (g.forgotten id).bridged (g.elders id) (g.heirs id) with
      roots := promote id (g.heirs id) ((g.forgotten id).bridged (g.elders id) (g.heirs id)).roots } := by
  obtain ⟨n,node⟩ := live_iff.mp live
  unfold spliceOut forgotten elders heirs parentsOf childrenOf
  rw [node]
  rfl

theorem spliceOut_dead {g : PathGraph} {id : Nat} (dead : ¬ g.Live id) : g.spliceOut id = g := by
  unfold spliceOut
  cases node : g.node? id with
  | none => rfl
  | some n => exact absurd (live_iff.mpr ⟨n,node⟩) dead

theorem node?_cleared (g : PathGraph) (id x : Nat) : (g.cleared id).node? x = if x = id then none else g.node? x := by
  unfold node? cleared
  dsimp only
  rw [Array.getD_eq_getD_getElem?,Array.getD_eq_getD_getElem?,Array.getElem?_setIfInBounds]
  by_cases here : x = id
  · subst x
    rw [if_pos rfl,if_pos rfl]
    by_cases inside : id < g.nodes.size
    · rw [if_pos inside]
      rfl
    · rw [if_neg inside]
      rfl
  · rw [if_neg (Ne.symm here),if_neg here]

theorem mem_filter_ne {xs : List Nat} {id x : Nat} : x ∈ xs.filter (· != id) ↔ x ∈ xs ∧ x ≠ id := by simp

theorem array_filter_ne (id : Nat) (xs : Array Nat) :
    (xs.filter (· != id)).toList = xs.toList.filter (· != id) := Array.toList_filter

section
variable (id : Nat) (ids : List Nat) (g : PathGraph) (x : Nat)

theorem spot?_forgetChild :
    (ids.foldl (fun g p => g.withChildren p fun xs => xs.filter (· != id)) g).spot? x = g.spot? x := by
  induction ids generalizing g with
  | nil => rfl
  | cons p rest ih => rw [List.foldl_cons,ih,spot?_withChildren]

theorem spot?_forgetParent :
    (ids.foldl (fun g c => g.withParents c fun xs => xs.filter (· != id)) g).spot? x = g.spot? x := by
  induction ids generalizing g with
  | nil => rfl
  | cons c rest ih => rw [List.foldl_cons,ih,spot?_withParents]

theorem parentsOf_forgetChild :
    (ids.foldl (fun g p => g.withChildren p fun xs => xs.filter (· != id)) g).parentsOf x = g.parentsOf x := by
  induction ids generalizing g with
  | nil => rfl
  | cons p rest ih => rw [List.foldl_cons,ih,parentsOf_withChildren]

theorem childrenOf_forgetParent :
    (ids.foldl (fun g c => g.withParents c fun xs => xs.filter (· != id)) g).childrenOf x = g.childrenOf x := by
  induction ids generalizing g with
  | nil => rfl
  | cons c rest ih => rw [List.foldl_cons,ih,childrenOf_withParents]

theorem childrenOf_forgetChild :
    (ids.foldl (fun g p => g.withChildren p fun xs => xs.filter (· != id)) g).childrenOf x =
      if x ∈ ids then (g.childrenOf x).filter (· != id) else g.childrenOf x := by
  induction ids generalizing g with
  | nil => rfl
  | cons p rest ih =>
    rw [List.foldl_cons,ih,childrenOf_withChildren (fun xs => xs.filter (· != id)) (array_filter_ne id) (Or.inr rfl)]
    by_cases here : x = p
    · by_cases later : x ∈ rest
      · simp [here]
      · simp [here]
    · simp [here]

theorem parentsOf_forgetParent :
    (ids.foldl (fun g c => g.withParents c fun xs => xs.filter (· != id)) g).parentsOf x =
      if x ∈ ids then (g.parentsOf x).filter (· != id) else g.parentsOf x := by
  induction ids generalizing g with
  | nil => rfl
  | cons c rest ih =>
    rw [List.foldl_cons,ih,parentsOf_withParents (fun xs => xs.filter (· != id)) (array_filter_ne id) (Or.inr rfl)]
    by_cases here : x = c
    · by_cases later : x ∈ rest
      · simp [here]
      · simp [here]
    · simp [here]

end

theorem roots_forgotten (g : PathGraph) (id : Nat) : (g.forgotten id).roots = g.roots := by
  have parents : ∀ (ids : List Nat) (g : PathGraph),
      (ids.foldl (fun g p => g.withChildren p fun xs => xs.filter (· != id)) g).roots = g.roots := by
    intro ids
    induction ids with
    | nil => exact fun _ => rfl
    | cons p rest ih => exact fun g => ih _
  have children : ∀ (ids : List Nat) (g : PathGraph),
      (ids.foldl (fun g c => g.withParents c fun xs => xs.filter (· != id)) g).roots = g.roots := by
    intro ids
    induction ids with
    | nil => exact fun _ => rfl
    | cons c rest ih => exact fun g => ih _
  unfold forgotten
  rw [children,parents]
  rfl

section
variable {g : PathGraph} {id : Nat}

theorem spot?_forgotten (x : Nat) : (g.forgotten id).spot? x = if x = id then none else g.spot? x := by
  unfold forgotten
  rw [spot?_forgetParent,spot?_forgetChild]
  unfold spot?
  rw [node?_cleared]
  split <;> rfl

theorem childrenOf_forgotten (woven : g.Woven) (x : Nat) :
    (g.forgotten id).childrenOf x = if x = id then [] else (g.childrenOf x).filter (· != id) := by
  unfold forgotten
  rw [childrenOf_forgetParent,childrenOf_forgetChild]
  have cleared : (g.cleared id).childrenOf x = if x = id then [] else g.childrenOf x := by
    unfold childrenOf
    rw [node?_cleared]
    split <;> rfl
  rw [cleared]
  by_cases here : x = id
  · simp [here]
  · rw [if_neg here,if_neg here]
    split
    · rfl
    · next stranger =>
      refine (List.filter_eq_self.mpr fun c member => ?_).symm
      simp only [bne_iff_ne]
      rintro rfl
      exact stranger (mem_filter_ne.mpr ⟨(woven.agree _ _).mp member,here⟩)

theorem parentsOf_forgotten (woven : g.Woven) (x : Nat) :
    (g.forgotten id).parentsOf x = if x = id then [] else (g.parentsOf x).filter (· != id) := by
  unfold forgotten
  rw [parentsOf_forgetParent,parentsOf_forgetChild]
  have cleared : (g.cleared id).parentsOf x = if x = id then [] else g.parentsOf x := by
    unfold parentsOf
    rw [node?_cleared]
    split <;> rfl
  rw [cleared]
  by_cases here : x = id
  · simp [here]
  · rw [if_neg here,if_neg here]
    split
    · rfl
    · next stranger =>
      refine (List.filter_eq_self.mpr fun p member => ?_).symm
      simp only [bne_iff_ne]
      rintro rfl
      exact stranger (mem_filter_ne.mpr ⟨(woven.agree _ _).mpr member,here⟩)

theorem forgotten_woven (woven : g.Woven) : (g.forgotten id).Woven := by
  refine ⟨?_,?_,?_⟩
  · intro a b
    rw [childrenOf_forgotten woven,parentsOf_forgotten woven]
    by_cases first : a = id
    · subst a
      by_cases second : b = id
      · simp [second]
      · simp [second]
    · by_cases second : b = id
      · subst b
        simp [first]
      · rw [if_neg first,if_neg second,mem_filter_ne,mem_filter_ne,woven.agree a b]
        exact ⟨fun h => ⟨h.1,first⟩,fun h => ⟨h.1,second⟩⟩
  · intro x
    rw [childrenOf_forgotten woven]
    split
    · exact .nil
    · exact (woven.children x).filter _
  · intro x
    rw [parentsOf_forgotten woven]
    split
    · exact .nil
    · exact (woven.parents x).filter _

end

theorem spot?_bridged (g : PathGraph) (parents children : List Nat) (x : Nat) :
    (g.bridged parents children).spot? x = g.spot? x := by
  unfold bridged
  have inner : ∀ (g : PathGraph) (p : Nat), (children.foldl (fun g c => g.connect p c) g).spot? x = g.spot? x := by
    intro g p
    induction children generalizing g with
    | nil => rfl
    | cons c rest ih => rw [List.foldl_cons,ih,spot?_connect]
  induction parents generalizing g with
  | nil => rfl
  | cons p rest ih => rw [List.foldl_cons,ih,inner]

theorem roots_bridged (g : PathGraph) (parents children : List Nat) : (g.bridged parents children).roots = g.roots := by
  unfold bridged
  have inner : ∀ (g : PathGraph) (p : Nat), (children.foldl (fun g c => g.connect p c) g).roots = g.roots := by
    intro g p
    induction children generalizing g with
    | nil => rfl
    | cons c rest ih => rw [List.foldl_cons,ih,roots_connect]
  induction parents generalizing g with
  | nil => rfl
  | cons p rest ih => rw [List.foldl_cons,ih,inner]

theorem fan_woven {g : PathGraph} (woven : g.Woven) {p : Nat} (live : g.Live p) {children : List Nat}
    (all : ∀ c ∈ children, g.Live c) :
    (children.foldl (fun g c => g.connect p c) g).Woven ∧
      ∀ a b, b ∈ (children.foldl (fun g c => g.connect p c) g).childrenOf a ↔
        b ∈ g.childrenOf a ∨ (a = p ∧ b ∈ children) := by
  induction children generalizing g with
  | nil => exact ⟨woven,fun a b => by simp⟩
  | cons c rest ih =>
    have child := all c List.mem_cons_self
    obtain ⟨woven',edges⟩ := ih (connect_woven woven live child) (live_connect.mpr live)
      fun d member => live_connect.mpr (all d (List.mem_cons_of_mem _ member))
    refine ⟨woven',fun a b => ?_⟩
    rw [List.foldl_cons,edges,mem_childrenOf_connect live,List.mem_cons,or_assoc,and_or_left]

theorem bridged_woven {g : PathGraph} (woven : g.Woven) {parents children : List Nat} (elders : ∀ p ∈ parents, g.Live p)
    (heirs : ∀ c ∈ children, g.Live c) :
    (g.bridged parents children).Woven ∧
      ∀ a b, b ∈ (g.bridged parents children).childrenOf a ↔ b ∈ g.childrenOf a ∨ (a ∈ parents ∧ b ∈ children) := by
  unfold bridged
  induction parents generalizing g with
  | nil => exact ⟨woven,fun a b => by simp⟩
  | cons p rest ih =>
    have seen : ∀ x, (children.foldl (fun g c => g.connect p c) g).Live x ↔ g.Live x := by
      intro x
      have same := spot?_bridged g [p] children x
      unfold Live
      rw [← same]
      rfl
    obtain ⟨woven',edges⟩ := fan_woven woven (elders p List.mem_cons_self) heirs
    obtain ⟨woven'',edges'⟩ := ih woven' (fun q member => (seen q).mpr (elders q (List.mem_cons_of_mem _ member)))
      fun c member => (seen c).mpr (heirs c member)
    refine ⟨woven'',fun a b => ?_⟩
    rw [List.foldl_cons,edges',edges,List.mem_cons,or_assoc,or_and_right]

theorem mem_adopted {children roots : List Nat} {r : Nat} :
    r ∈ children.foldl (fun rs c => if rs.contains c then rs else rs ++ [c]) roots ↔ r ∈ roots ∨ r ∈ children := by
  induction children generalizing roots with
  | nil => simp
  | cons c rest ih =>
    rw [List.foldl_cons,ih,List.mem_cons]
    by_cases known : roots.contains c = true
    · rw [if_pos known]
      rw [List.contains_iff_mem] at known
      constructor
      · exact fun h => h.imp_right Or.inr
      · rintro (old | rfl | new)
        · exact Or.inl old
        · exact Or.inl known
        · exact Or.inr new
    · rw [if_neg known,List.mem_append,List.mem_singleton,or_assoc]

theorem adopted_nodup {children roots : List Nat} (once : roots.Nodup) :
    (children.foldl (fun rs c => if rs.contains c then rs else rs ++ [c]) roots).Nodup := by
  induction children generalizing roots with
  | nil => exact once
  | cons c rest ih =>
    rw [List.foldl_cons]
    refine ih ?_
    by_cases known : roots.contains c = true
    · rw [if_pos known]
      exact once
    · rw [if_neg known]
      rw [List.contains_iff_mem] at known
      refine List.nodup_append.mpr ⟨once,List.pairwise_singleton _ _,fun x member y new => ?_⟩
      rintro rfl
      exact known (List.mem_singleton.mp new ▸ member)

theorem mem_promote {id : Nat} {children roots : List Nat} (once : roots.Nodup) (other : id ∉ children) {r : Nat} :
    r ∈ promote id children roots ↔ r ≠ id ∧ (r ∈ roots ∨ (id ∈ roots ∧ r ∈ children)) := by
  unfold promote
  by_cases root : id ∈ roots
  · rw [if_pos (List.contains_iff_mem.mpr root),mem_adopted,once.mem_erase_iff]
    constructor
    · rintro (⟨different,old⟩ | new)
      · exact ⟨different,Or.inl old⟩
      · exact ⟨fun same => other (same ▸ new),Or.inr ⟨root,new⟩⟩
    · rintro ⟨different,old | new⟩
      · exact Or.inl ⟨different,old⟩
      · exact Or.inr new.2
  · rw [if_neg fun h => root (List.contains_iff_mem.mp h)]
    constructor
    · exact fun old => ⟨fun same => root (same ▸ old),Or.inl old⟩
    · rintro ⟨_,old | new⟩
      · exact old
      · exact absurd new.1 root

theorem promote_nodup {id : Nat} {children roots : List Nat} (once : roots.Nodup) : (promote id children roots).Nodup := by
  unfold promote
  split
  · exact adopted_nodup (once.erase id)
  · exact once

theorem spot?_spliceOut (g : PathGraph) (id x : Nat) : (g.spliceOut id).spot? x = if x = id then none else g.spot? x := by
  by_cases live : g.Live id
  · rw [spliceOut_eq live]
    exact (spot?_bridged _ _ _ x).trans (spot?_forgotten x)
  · rw [spliceOut_dead live]
    split
    · next here =>
      subst x
      unfold Live at live
      simpa using live
    · rfl

section
variable {g : PathGraph} {id : Nat}

theorem mem_elders (woven : g.Woven) {p : Nat} : p ∈ g.elders id ↔ p ≠ id ∧ id ∈ g.childrenOf p := by
  unfold elders
  rw [mem_filter_ne,← woven.agree,and_comm]

theorem mem_heirs {c : Nat} : c ∈ g.heirs id ↔ c ≠ id ∧ c ∈ g.childrenOf id := by
  unfold heirs
  rw [mem_filter_ne,and_comm]

theorem bridge_woven (woven : g.Woven) :
    ((g.forgotten id).bridged (g.elders id) (g.heirs id)).Woven ∧
      ∀ a b, b ∈ ((g.forgotten id).bridged (g.elders id) (g.heirs id)).childrenOf a ↔
        b ∈ (g.forgotten id).childrenOf a ∨ (a ∈ g.elders id ∧ b ∈ g.heirs id) := by
  have others : ∀ x, x ≠ id → g.Live x → (g.forgotten id).Live x := by
    intro x different alive
    unfold Live
    rw [spot?_forgotten,if_neg different]
    exact alive
  refine bridged_woven (forgotten_woven woven) (fun p member => ?_) fun c member => ?_
  · obtain ⟨different,edge⟩ := (mem_elders woven).mp member
    exact others p different (live_of_child edge)
  · obtain ⟨different,edge⟩ := mem_heirs.mp member
    exact others c different (woven.live_child edge)

theorem mem_childrenOf_spliceOut (woven : g.Woven) (a b : Nat) :
    b ∈ (g.spliceOut id).childrenOf a ↔
      a ≠ id ∧ b ≠ id ∧ (b ∈ g.childrenOf a ∨ (id ∈ g.childrenOf a ∧ b ∈ g.childrenOf id)) := by
  by_cases live : g.Live id
  · rw [spliceOut_eq live]
    change b ∈ ((g.forgotten id).bridged (g.elders id) (g.heirs id)).childrenOf a ↔ _
    rw [(bridge_woven woven).2,childrenOf_forgotten woven,mem_elders woven,mem_heirs]
    by_cases first : a = id
    · simp [first]
    · rw [if_neg first,mem_filter_ne]
      constructor
      · rintro (⟨edge,other⟩ | ⟨⟨_,up⟩,other,down⟩)
        · exact ⟨first,other,Or.inl edge⟩
        · exact ⟨first,other,Or.inr ⟨up,down⟩⟩
      · rintro ⟨_,other,edge | ⟨up,down⟩⟩
        · exact Or.inl ⟨edge,other⟩
        · exact Or.inr ⟨⟨first,up⟩,other,down⟩
  · rw [spliceOut_dead live]
    constructor
    · intro edge
      refine ⟨?_,?_,Or.inl edge⟩
      · rintro rfl
        exact live (live_of_child edge)
      · rintro rfl
        exact live (woven.live_child edge)
    · rintro ⟨_,_,edge | ⟨edge,_⟩⟩
      · exact edge
      · exact absurd (woven.live_child edge) live

theorem mem_roots_spliceOut (linked : g.Linked) (r : Nat) :
    r ∈ (g.spliceOut id).roots ↔ r ≠ id ∧ (r ∈ g.roots ∨ (id ∈ g.roots ∧ r ∈ g.childrenOf id)) := by
  by_cases live : g.Live id
  · have other : id ∉ g.heirs id := fun member => (mem_heirs.mp member).1 rfl
    rw [spliceOut_eq live]
    dsimp only
    rw [roots_bridged,roots_forgotten,mem_promote linked.rootsOnce other,mem_heirs]
    constructor
    · rintro ⟨different,root | ⟨root,_,child⟩⟩
      · exact ⟨different,Or.inl root⟩
      · exact ⟨different,Or.inr ⟨root,child⟩⟩
    · rintro ⟨different,root | ⟨root,child⟩⟩
      · exact ⟨different,Or.inl root⟩
      · exact ⟨different,Or.inr ⟨root,different,child⟩⟩
  · rw [spliceOut_dead live]
    constructor
    · intro root
      refine ⟨?_,Or.inl root⟩
      rintro rfl
      exact live (linked.roots r root)
    · rintro ⟨_,root | ⟨root,_⟩⟩
      · exact root
      · exact absurd (linked.roots id root) live

theorem spliceOut_linked (linked : g.Linked) (id : Nat) : (g.spliceOut id).Linked := by
  by_cases live : g.Live id
  · have roots : ∀ r, r ∈ (g.spliceOut id).roots ↔ r ≠ id ∧ (r ∈ g.roots ∨ (id ∈ g.roots ∧ r ∈ g.childrenOf id)) :=
      mem_roots_spliceOut linked
    have spots := spot?_spliceOut g id
    rw [spliceOut_eq live] at roots spots ⊢
    have woven : ((g.forgotten id).bridged (g.elders id) (g.heirs id)).Woven := (bridge_woven linked.toWoven).1
    refine ⟨⟨woven.agree,woven.children,woven.parents⟩,fun r root => ?_,?_⟩
    · obtain ⟨different,old⟩ := (roots r).mp root
      unfold Live
      rw [spots,if_neg different]
      rcases old with old | ⟨_,child⟩
      · exact linked.roots r old
      · exact linked.live_child child
    · dsimp only
      rw [roots_bridged,roots_forgotten]
      exact promote_nodup linked.rootsOnce
  · rw [spliceOut_dead live]
    exact linked

end

end SmaliPrune.PathGraph
