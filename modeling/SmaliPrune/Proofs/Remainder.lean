import SmaliPrune.Proofs.Candidates
import SmaliPrune.Proofs.Reduction
import SmaliPrune.Proofs.Removal
import SmaliPrune.Prune.Pass

namespace SmaliPrune

namespace Method
variable {m : Method} {gone : List Nat}

theorem cut_first (laid : Laid 0 m.code) (some' : (m.cut gone).code ≠ []) :
    (m.cut gone).code.head?.map Instr.address = m.code.head?.map fun i => m.placed gone i.address := by
  have start : m.placed gone 0 = 0 := placed_width laid (List.nil_append m.code).symm
  have laid' : Laid 0 (m.cut gone).code := cut_laid laid
  cases code : m.code with
  | nil => simp [cut_code,kept,code] at some'
  | cons i rest =>
    cases code' : (m.cut gone).code with
    | nil => exact absurd code' some'
    | cons j rest' =>
      rw [code] at laid
      rw [code'] at laid'
      simp only [List.head?_cons,Option.map_some,laid.1,laid'.1,start]

theorem cut_lands (aligned : m.Aligned) {x : Nat} (boundary : m.Boundary x)
    (lands : ((m.cut gone).at? (m.placed gone x)).isSome = true) : (m.at? x).isSome = true := by
  rcases boundary with member | rfl
  · obtain ⟨i,inside,rfl⟩ := List.mem_map.mp member
    rw [at?_of_mem aligned.laid inside]
    rfl
  · obtain ⟨j,found⟩ := Option.isSome_iff_exists.mp lands
    obtain ⟨inside,address⟩ := mem_of_at? found
    have le := (laid_le (cut_laid aligned.laid) inside).2
    rw [← units_eq (cut_laid aligned.laid),cut_units aligned.laid] at le
    have := j.units_pos
    unfold Instr.next at le
    omega

end Method

namespace Traced

-- What is left of a method and its graph without the instructions at some addresses: it
-- begins where it began, leads where it led, and nodes that went are passed over.
structure Leaves (t : Traced) (h : Hierarchy) (gone : List Nat) (t' : Traced) : Prop where
  entered : t'.method.initialState = t.method.initialState
  first : t'.method.code ≠ [] →
    t'.method.code.head?.map Instr.address = t.method.code.head?.map fun i => t.method.placed gone i.address
  found : ∀ a i, t.method.at? a = some i → a ∉ gone →
    t'.method.at? (t.method.placed gone a) = some (i.relocate (t.method.placed gone))
  lands : ∀ x, t.method.Boundary x → (t'.method.at? (t.method.placed gone x)).isSome = true →
    (t.method.at? x).isSome = true
  leads : ∀ a i b y c, t.method.at? a = some i → a ∉ gone →
    (t'.method.Leads h ⟨t.method.placed gone a,b⟩ ⟨y,c⟩ ↔
      ∃ x, t.method.placed gone x = y ∧ t.method.Leads h ⟨a,b⟩ ⟨x,c⟩)
  piled : t'.graph.Piled
  spot : ∀ id, t'.graph.spot? id =
    if id ∈ t.doomed gone then none else (t.graph.spot? id).map fun s => (t.method.placed gone s.1,s.2)
  children : ∀ a b, b ∈ t'.graph.childrenOf a ↔
    a ∉ t.doomed gone ∧ b ∉ t.doomed gone ∧ t.graph.Through (t.doomed gone) a b
  roots : ∀ r, r ∈ t'.graph.roots ↔ r ∉ t.doomed gone ∧
    (r ∈ t.graph.roots ∨ ∃ d ∈ t.graph.roots, d ∈ t.doomed gone ∧ t.graph.Through (t.doomed gone) d r)

theorem leaves_itself {t : Traced} (sound : t.Sound) (h : Hierarchy) {gone : List Nat}
    (none : t.method.located gone = []) : t.Leaves h gone t := by
  have same := Method.placed_of_none none
  have nobody : t.doomed gone = [] := by
    unfold doomed
    rw [none]
    rfl
  refine ⟨rfl,?_,?_,?_,?_,sound.piled,?_,?_,?_⟩
  · exact fun _ => by rw [same]; rfl
  · intro a i here _
    rw [same,Instr.relocate_id]
    exact here
  · intro x _ lands
    rw [same] at lands
    exact lands
  · intro a i b y c _ _
    rw [same]
    exact ⟨fun step => ⟨y,rfl,step⟩,fun ⟨x,there,step⟩ => there ▸ step⟩
  · intro id
    rw [same,nobody,if_neg List.not_mem_nil]
    exact Option.map_id'.symm
  · intro a b
    rw [nobody]
    constructor
    · exact fun edge => ⟨List.not_mem_nil,List.not_mem_nil,.edge edge⟩
    · rintro ⟨_,_,through⟩
      cases through with
      | edge edge => exact edge
      | hop _ stop _ => cases stop
  · intro r
    rw [nobody]
    simp

theorem remove_leaves {t : Traced} (sound : t.Sound) (h : Hierarchy) (gone : List Nat) :
    t.Leaves h gone (t.remove gone) := by
  rw [remove_eq]
  split
  · next none => exact leaves_itself sound h none
  · have aligned := sound.aligned
    refine ⟨rfl,Method.cut_first aligned.laid,?_,fun x => Method.cut_lands aligned,?_,
      PathGraph.removeAt_piled _ _,?_,?_,?_⟩
    · intro a i here stays
      obtain ⟨member,rfl⟩ := Method.mem_of_at? here
      exact Method.at?_cut aligned.laid member stays
    · exact fun a i b y c here stays => Method.leads_cut aligned here stays
    · exact PathGraph.spot?_removeAt _ _
    · exact PathGraph.mem_childrenOf_removeAt _ _ sound.linked
    · exact PathGraph.mem_roots_removeAt _ _ sound.linked

end Traced

theorem Pruner.perform_eq (p : Pruner) (t : Traced) : (p.perform t).2.2 = t.remove t.condemned := by
  unfold perform
  dsimp only
  split
  · next none =>
    have nothing : t.condemned = [] := List.isEmpty_iff.mp none
    rw [nothing]
    exact (Traced.remove_nothing (Method.located_eq_nil.mpr fun _ _ => List.not_mem_nil)).symm
  · rfl

theorem Pruner.perform_leaves {t : Traced} (p : Pruner) (sound : t.Sound) (h : Hierarchy) :
    t.Leaves h t.condemned (p.perform t).2.2 := by
  rw [p.perform_eq]
  exact Traced.remove_leaves sound h t.condemned

end SmaliPrune
