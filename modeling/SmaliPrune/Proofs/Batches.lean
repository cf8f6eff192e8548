import Mathlib.Data.List.Sort
import SmaliPrune.Proofs.Redirection

namespace SmaliPrune

namespace Instr

theorem relocate_congr {f g : Nat → Nat} {i : Instr} (address : f i.address = g i.address)
    (target : ∀ x, i.action.target? = some x → f x = g x) : i.relocate f = i.relocate g := by
  obtain ⟨a,opcode,action⟩ := i
  unfold relocate
  dsimp only at address ⊢
  rw [address]
  cases action with
  | goto x => rw [Action.retarget,target x rfl,Action.retarget]
  | branch test r s x => rw [Action.retarget,target x rfl,Action.retarget]
  | _ => rfl

end Instr

namespace TryRange

theorem relocate_relocate (f g : Nat → Nat) (r : TryRange) : (r.relocate f).relocate g = r.relocate (g ∘ f) := by
  unfold relocate
  rw [List.map_map]
  rfl

theorem relocate_congr {f g : Nat → Nat} {r : TryRange} (first : f r.first = g r.first) (stop : f r.stop = g r.stop)
    (entries : ∀ c ∈ r.handlers, f c.entry = g c.entry) : r.relocate f = r.relocate g := by
  unfold relocate
  rw [first,stop]
  congr 1
  refine List.map_congr_left fun c member => ?_
  rw [entries c member]

end TryRange

namespace Method
variable {m : Method} {gone more : List Nat}

def moved (m : Method) (gone addresses : List Nat) : List Nat :=
  (addresses.filter fun a => !gone.contains a).map (m.placed gone)

theorem placed_injective (laid : Laid 0 m.code) {i j : Instr} (first : i ∈ m.code) (second : j ∈ m.code)
    (stays : i.address ∉ gone) (stays' : j.address ∉ gone)
    (same : m.placed gone i.address = m.placed gone j.address) : i.address = j.address := by
  have here : m.Boundary i.address := Or.inl (List.mem_map_of_mem first)
  have there : m.Boundary j.address := Or.inl (List.mem_map_of_mem second)
  rcases Nat.lt_trichotomy i.address j.address with less | equal | greater
  · have := placed_lt laid first stays there less
    omega
  · exact equal
  · have := placed_lt laid second stays' here greater
    omega

theorem mem_moved (laid : Laid 0 m.code) (listed : ∀ a ∈ more, a ∈ m.addresses) {i : Instr} (member : i ∈ m.code)
    (stays : i.address ∉ gone) : m.placed gone i.address ∈ m.moved gone more ↔ i.address ∈ more := by
  unfold moved
  rw [List.mem_map]
  constructor
  · rintro ⟨b,chosen,same⟩
    obtain ⟨inside,other⟩ := List.mem_filter.mp chosen
    obtain ⟨j,member',rfl⟩ := List.mem_map.mp (listed b inside)
    have stays' : j.address ∉ gone := by simpa using other
    rw [placed_injective laid member member' stays stays' same.symm]
    exact inside
  · intro inside
    exact ⟨i.address,List.mem_filter.mpr ⟨inside,by simpa using stays⟩,rfl⟩

theorem kept_moved (laid : Laid 0 m.code) (listed : ∀ a ∈ more, a ∈ m.addresses) {part : List Instr}
    (inside : ∀ i ∈ part, i ∈ m.code) :
    kept (m.moved gone more) ((kept gone part).map (Instr.relocate (m.placed gone))) =
      (kept (gone ++ more) part).map (Instr.relocate (m.placed gone)) := by
  unfold kept
  rw [List.filter_map,List.filter_filter]
  congr 1
  refine List.filter_congr fun i member => ?_
  have address : (i.relocate (m.placed gone)).address = m.placed gone i.address := rfl
  dsimp only [Function.comp_apply]
  rw [address]
  by_cases out : i.address ∈ gone
  · simp [out]
  · have again := mem_moved laid listed (inside i member) out
    by_cases later : i.address ∈ more
    · simp [out,later,again]
    · simp [out,later,again]

theorem placed_placed (laid : Laid 0 m.code) (listed : ∀ a ∈ more, a ∈ m.addresses) {a : Nat}
    (boundary : m.Boundary a) :
    (m.cut gone).placed (m.moved gone more) (m.placed gone a) = m.placed (gone ++ more) a := by
  obtain ⟨before,after,code,rfl⟩ := (boundary_iff laid).mp boundary
  have same : ∀ l : List Instr, width (l.map (Instr.relocate (m.placed gone))) = width l :=
    width_map (Instr.relocate _) fun _ => rfl
  have code' : (m.cut gone).code = (kept gone before).map (Instr.relocate (m.placed gone)) ++
      (kept gone after).map (Instr.relocate (m.placed gone)) := by
    rw [cut_code,code,kept_append,List.map_append]
  have inside : ∀ i ∈ before, i ∈ m.code := fun i member => code ▸ List.mem_append_left after member
  rw [placed_width laid code,placed_width laid code,← same (kept gone before),placed_width (cut_laid laid) code',
    kept_moved laid listed inside,same]

theorem cut_cut_code (aligned : m.Aligned) (listed : ∀ a ∈ more, a ∈ m.addresses) :
    ((m.cut gone).cut (m.moved gone more)).code = (m.cut (gone ++ more)).code := by
  rw [cut_code,cut_code,kept_moved aligned.laid listed fun _ member => member,List.map_map,cut_code]
  refine List.map_congr_left fun i member => ?_
  have inside := (mem_kept.mp member).1
  rw [Function.comp_apply,Instr.relocate_relocate]
  exact Instr.relocate_congr (placed_placed aligned.laid listed (Or.inl (List.mem_map_of_mem inside)))
    fun x target => placed_placed aligned.laid listed (aligned.targets i inside x target)

theorem cut_cut_tries (aligned : m.Aligned) (listed : ∀ a ∈ more, a ∈ m.addresses) :
    ((m.cut gone).cut (m.moved gone more)).tries = (m.cut (gone ++ more)).tries := by
  have twice : ∀ r ∈ m.tries, (r.relocate (m.placed gone)).relocate ((m.cut gone).placed (m.moved gone more)) =
      r.relocate (m.placed (gone ++ more)) := by
    intro r member
    obtain ⟨first,stop,entries⟩ := aligned.tries r member
    rw [TryRange.relocate_relocate]
    exact TryRange.relocate_congr (placed_placed aligned.laid listed first) (placed_placed aligned.laid listed stop)
      fun c inside => placed_placed aligned.laid listed (entries c inside)
  have table : ∀ (n : Method) (addresses : List Nat), (n.cut addresses).tries =
      (n.tries.map (TryRange.relocate (n.placed addresses))).filter fun r => decide (r.first < r.stop) := fun _ _ => rfl
  rw [table,table,table,List.filter_map,List.filter_filter,List.filter_map,List.map_map,List.filter_map]
  have chosen : m.tries.filter ((fun r => ((fun r : TryRange => decide (r.first < r.stop)) ∘
        TryRange.relocate ((m.cut gone).placed (m.moved gone more))) r && decide (r.first < r.stop)) ∘
          TryRange.relocate (m.placed gone)) =
      m.tries.filter ((fun r => decide (r.first < r.stop)) ∘ TryRange.relocate (m.placed (gone ++ more))) := by
    refine List.filter_congr fun r member => ?_
    obtain ⟨first,stop,_⟩ := aligned.tries r member
    dsimp only [Function.comp_apply]
    rw [twice r member,Bool.eq_iff_iff,Bool.and_eq_true,decide_eq_true_eq,decide_eq_true_eq]
    refine ⟨And.left,fun some => ⟨some,Nat.lt_of_not_le fun le => ?_⟩⟩
    have le' : (m.cut gone).placed (m.moved gone more) (m.placed gone r.stop) ≤
        (m.cut gone).placed (m.moved gone more) (m.placed gone r.first) :=
      placed_mono (cut_laid aligned.laid) (boundary_cut aligned.laid stop) (boundary_cut aligned.laid first) le
    rw [placed_placed aligned.laid listed stop,placed_placed aligned.laid listed first] at le'
    exact Nat.lt_irrefl _ (Nat.lt_of_lt_of_le some le')
  rw [chosen]
  exact List.map_congr_left fun r member => twice r (List.mem_filter.mp member).1

theorem cut_cut (aligned : m.Aligned) (listed : ∀ a ∈ more, a ∈ m.addresses) :
    (m.cut gone).cut (m.moved gone more) = m.cut (gone ++ more) := by
  have code : ((m.cut gone).cut (m.moved gone more)).code = (m.cut (gone ++ more)).code := cut_cut_code aligned listed
  have tries : ((m.cut gone).cut (m.moved gone more)).tries = (m.cut (gone ++ more)).tries := cut_cut_tries aligned listed
  unfold cut without at code tries ⊢
  dsimp only at code tries ⊢
  rw [code,tries]

end Method

namespace PathGraph

theorem Through.mono {g k : PathGraph} {few many : List Nat} {a b : Nat}
    (edges : ∀ a b, b ∈ g.childrenOf a → b ∈ k.childrenOf a) (stops : ∀ d ∈ few, d ∈ many)
    (through : g.Through few a b) : k.Through many a b := by
  induction through with
  | edge edge => exact .edge (edges _ _ edge)
  | hop edge stop _ ih => exact .hop (edges _ _ edge) (stops _ stop) ih

theorem through_congr {g k : PathGraph} {few many : List Nat}
    (edges : ∀ a b, b ∈ g.childrenOf a ↔ b ∈ k.childrenOf a) (stops : ∀ d, d ∈ few ↔ d ∈ many) (a b : Nat) :
    g.Through few a b ↔ k.Through many a b :=
  ⟨.mono (fun a b => (edges a b).mp) fun d => (stops d).mp,.mono (fun a b => (edges a b).mpr) fun d => (stops d).mpr⟩

theorem spliced_append (g : PathGraph) (first second : List Nat) :
    g.spliced (first ++ second) = (g.spliced first).spliced second := List.foldl_append

-- To pass over some nodes and then over others is to pass over all of them. The middle
-- graph need only have the edges and roots of the one without the first nodes.
section
variable {g k : PathGraph} {first second all : List Nat}

theorem mem_childrenOf_twice (linked : g.Linked) (every : ∀ id, id ∈ first ++ second ↔ id ∈ all)
    (edges : ∀ a b, b ∈ k.childrenOf a ↔ b ∈ (g.spliced first).childrenOf a) (a b : Nat) :
    (a ∉ second ∧ b ∉ second ∧ k.Through second a b) ↔ (a ∉ all ∧ b ∉ all ∧ g.Through all a b) := by
  rw [through_congr edges (fun _ => Iff.rfl),← mem_childrenOf_spliced (spliced_linked linked first),← spliced_append,
    mem_childrenOf_spliced linked,through_congr (fun _ _ => Iff.rfl) every,every,every]

theorem mem_roots_twice (linked : g.Linked) (every : ∀ id, id ∈ first ++ second ↔ id ∈ all)
    (edges : ∀ a b, b ∈ k.childrenOf a ↔ b ∈ (g.spliced first).childrenOf a)
    (roots : ∀ r, r ∈ k.roots ↔ r ∈ (g.spliced first).roots) (r : Nat) :
    (r ∉ second ∧ (r ∈ k.roots ∨ ∃ d ∈ k.roots, d ∈ second ∧ k.Through second d r)) ↔
      (r ∉ all ∧ (r ∈ g.roots ∨ ∃ d ∈ g.roots, d ∈ all ∧ g.Through all d r)) := by
  simp only [roots,through_congr edges (fun _ => Iff.rfl)]
  rw [← mem_roots_spliced (spliced_linked linked first),← spliced_append,mem_roots_spliced linked]
  simp only [through_congr (fun _ _ => Iff.rfl) every,every]

end

structure Same (g k : PathGraph) : Prop where
  spots : ∀ id, g.spot? id = k.spot? id
  children : ∀ a b, b ∈ g.childrenOf a ↔ b ∈ k.childrenOf a
  parents : ∀ a b, a ∈ g.parentsOf b ↔ a ∈ k.parentsOf b
  roots : ∀ r, r ∈ g.roots ↔ r ∈ k.roots
  piles : ∀ a, g.pile a = k.pile a

theorem same_of {g k : PathGraph} (woven : g.Woven) (woven' : k.Woven) (piled : g.Piled) (piled' : k.Piled)
    (spots : ∀ id, g.spot? id = k.spot? id) (children : ∀ a b, b ∈ g.childrenOf a ↔ b ∈ k.childrenOf a)
    (roots : ∀ r, r ∈ g.roots ↔ r ∈ k.roots) : g.Same k := by
  refine ⟨spots,children,fun a b => ?_,roots,fun a => ?_⟩
  · rw [← woven.agree,← woven'.agree]
    exact children a b
  · apply Array.toList_inj.mp
    refine List.Pairwise.eq_of_mem_iff (piled.order a) (piled'.order a) fun id => ?_
    rw [Array.mem_toList_iff,Array.mem_toList_iff,piled.members,piled'.members,spots]

namespace Same
variable {g k l : PathGraph}

theorem refl (g : PathGraph) : g.Same g := ⟨fun _ => rfl,fun _ _ => Iff.rfl,fun _ _ => Iff.rfl,fun _ => Iff.rfl,fun _ => rfl⟩

theorem trans (first : g.Same k) (second : k.Same l) : g.Same l :=
  ⟨fun id => (first.spots id).trans (second.spots id),fun a b => (first.children a b).trans (second.children a b),
    fun a b => (first.parents a b).trans (second.parents a b),fun r => (first.roots r).trans (second.roots r),
    fun a => (first.piles a).trans (second.piles a)⟩

end Same
end PathGraph

namespace Traced

def Same (t u : Traced) : Prop := t.method = u.method ∧ t.graph.Same u.graph

variable {t : Traced} {gone more : List Nat}

theorem spot?_remove (sound : t.Sound) {id a : Nat} {s : Option PathState} :
    (t.remove gone).graph.spot? id = some (a,s) ↔ ∃ i ∈ t.method.code, i.address ∉ gone ∧
      t.method.placed gone i.address = a ∧ t.graph.spot? id = some (i.address,s) := by
  rw [(remove_leaves sound (.fresh []) gone).spot]
  constructor
  · intro there
    split at there
    · cases there
    · next out =>
      obtain ⟨⟨b,s'⟩,before,same⟩ := Option.map_eq_some_iff.mp there
      cases same
      obtain ⟨i,member,s'',stands⟩ := sound.stands id (by rw [PathGraph.Live,before]; rfl)
      obtain ⟨rfl,rfl⟩ := Prod.mk.inj (Option.some.inj (before.symm.trans stands))
      exact ⟨i,member,fun first => out ((mem_doomed sound).mpr ⟨i,member,first,s',stands⟩),rfl,before⟩
  · rintro ⟨i,member,stays,rfl,here⟩
    have out : id ∉ t.doomed gone := by
      intro doomed
      obtain ⟨j,_,listed,s',there⟩ := (mem_doomed sound).mp doomed
      obtain ⟨address,_⟩ := Prod.mk.inj (Option.some.inj (here.symm.trans there))
      exact stays (address ▸ listed)
    rw [if_neg out,here]
    rfl

theorem mem_doomed_append (sound : t.Sound) (listed : ∀ a ∈ more, a ∈ t.method.addresses) (id : Nat) :
    id ∈ t.doomed (gone ++ more) ↔ id ∈ t.doomed gone ∨ id ∈ (t.remove gone).doomed (t.method.moved gone more) := by
  have laid := sound.aligned.laid
  rw [mem_doomed sound,mem_doomed sound,mem_doomed (remove_sound sound gone)]
  constructor
  · rintro ⟨i,member,inside,s,here⟩
    by_cases first : i.address ∈ gone
    · exact Or.inl ⟨i,member,first,s,here⟩
    · have later : i.address ∈ more := (List.mem_append.mp inside).resolve_left first
      exact Or.inr ⟨i.relocate (t.method.placed gone),mem_remove.mpr ⟨i,member,first,rfl⟩,
        (Method.mem_moved laid listed member first).mpr later,s,(spot?_remove sound).mpr ⟨i,member,first,rfl,here⟩⟩
  · rintro (⟨i,member,first,s,here⟩ | ⟨j,_,inside,s,there⟩)
    · exact ⟨i,member,List.mem_append_left more first,s,here⟩
    · obtain ⟨i,member,stays,same,here⟩ := (spot?_remove sound).mp there
      rw [← same] at inside
      have later : i.address ∈ more := (Method.mem_moved laid listed member stays).mp inside
      exact ⟨i,member,List.mem_append_right gone later,s,here⟩

-- The two ways also agree on whether anything goes at all; if not, empty ranges stay.
theorem remove_remove_method (sound : t.Sound) (listed : ∀ a ∈ more, a ∈ t.method.addresses) :
    ((t.remove gone).remove (t.method.moved gone more)).method = (t.remove (gone ++ more)).method := by
  have again : ∀ a ∈ t.method.addresses, a ∉ gone → (t.method.placed gone a ∈ t.method.moved gone more ↔ a ∈ more) := by
    intro a member stays
    obtain ⟨i,inside,rfl⟩ := List.mem_map.mp member
    exact Method.mem_moved sound.aligned.laid listed inside stays
  by_cases none : t.method.located gone = []
  · have stays := Method.located_eq_nil.mp none
    have same : ∀ a ∈ t.method.addresses, a ∈ t.method.moved gone more ↔ a ∈ gone ++ more := by
      intro a member
      have iff := again a member (stays a member)
      rw [Method.placed_of_none none] at iff
      rw [List.mem_append,or_iff_right (stays a member)]
      exact iff
    rw [remove_nothing none,remove_congr same]
  · by_cases none' : (t.remove gone).method.located (t.method.moved gone more) = []
    · have same : ∀ a ∈ t.method.addresses, a ∈ gone ++ more ↔ a ∈ gone := by
        intro a member
        rw [List.mem_append,or_iff_left_iff_imp]
        intro later
        apply Classical.byContradiction
        intro stays
        obtain ⟨i,inside,rfl⟩ := List.mem_map.mp member
        refine Method.located_eq_nil.mp none' _ ?_ ((again _ member stays).mpr later)
        exact List.mem_map.mpr ⟨i.relocate (t.method.placed gone),mem_remove.mpr ⟨i,inside,stays,rfl⟩,rfl⟩
      rw [remove_nothing none',remove_congr same]
    · have both : t.method.located (gone ++ more) ≠ [] := by
        intro nothing
        refine none (Method.located_eq_nil.mpr fun a member out => ?_)
        exact Method.located_eq_nil.mp nothing a member (List.mem_append_left more out)
      rw [remove_eq (t.remove gone),if_neg none',remove_eq t,if_neg none,remove_eq,if_neg both]
      exact Method.cut_cut sound.aligned listed

theorem placed_remove (laid : Laid 0 t.method.code) (listed : ∀ a ∈ more, a ∈ t.method.addresses) {a : Nat}
    (boundary : t.method.Boundary a) : (t.remove gone).method.placed (t.method.moved gone more) (t.method.placed gone a) =
      t.method.placed (gone ++ more) a := by
  rw [← Method.placed_placed laid listed boundary]
  unfold Method.placed Method.located
  rw [remove_code]

theorem remove_remove_graph (sound : t.Sound) (listed : ∀ a ∈ more, a ∈ t.method.addresses) :
    ((t.remove gone).remove (t.method.moved gone more)).graph.Same (t.remove (gone ++ more)).graph := by
  have sound' := remove_sound sound gone
  have sound'' := remove_sound sound' (t.method.moved gone more)
  have whole := remove_sound sound (gone ++ more)
  have first := remove_leaves sound (.fresh []) gone
  have second := remove_leaves sound' (.fresh []) (t.method.moved gone more)
  have all := remove_leaves sound (.fresh []) (gone ++ more)
  have every : ∀ id, id ∈ t.doomed gone ++ (t.remove gone).doomed (t.method.moved gone more) ↔
      id ∈ t.doomed (gone ++ more) := by
    intro id
    rw [List.mem_append]
    exact (mem_doomed_append sound listed id).symm
  have edges : ∀ a b, b ∈ (t.remove gone).graph.childrenOf a ↔ b ∈ (t.graph.spliced (t.doomed gone)).childrenOf a :=
    fun a b => (first.children a b).trans (PathGraph.mem_childrenOf_spliced sound.linked _ a b).symm
  have roots : ∀ r, r ∈ (t.remove gone).graph.roots ↔ r ∈ (t.graph.spliced (t.doomed gone)).roots :=
    fun r => (first.roots r).trans (PathGraph.mem_roots_spliced sound.linked _ r).symm
  refine PathGraph.same_of sound''.linked.toWoven whole.linked.toWoven sound''.piled whole.piled ?_ ?_ ?_
  · intro id
    have one := every id
    rw [List.mem_append] at one
    rw [second.spot,first.spot,all.spot]
    by_cases out : id ∈ t.doomed (gone ++ more)
    · rw [if_pos out]
      rcases one.mpr out with early | late
      · rw [if_pos early]
        exact ite_self _
      · rw [if_pos late]
    · obtain ⟨early,late⟩ := not_or.mp (mt one.mp out)
      rw [if_neg out,if_neg late,if_neg early,Option.map_map]
      cases spot : t.graph.spot? id with
      | none => rfl
      | some s =>
        obtain ⟨i,member,s',here⟩ := sound.stands id (by rw [PathGraph.Live,spot]; rfl)
        rw [spot] at here
        cases here
        have boundary : t.method.Boundary i.address := Or.inl (List.mem_map_of_mem member)
        exact congrArg some (Prod.ext (placed_remove sound.aligned.laid listed boundary) rfl)
  · intro a b
    rw [second.children,all.children]
    exact PathGraph.mem_childrenOf_twice sound.linked every edges a b
  · intro r
    rw [second.roots,all.roots]
    exact PathGraph.mem_roots_twice sound.linked every edges roots r

theorem remove_remove (sound : t.Sound) (listed : ∀ a ∈ more, a ∈ t.method.addresses) :
    ((t.remove gone).remove (t.method.moved gone more)).Same (t.remove (gone ++ more)) :=
  ⟨remove_remove_method sound listed,remove_remove_graph sound listed⟩

-- One instruction after the other. Those still to go are looked for where they are by then.
def removeEach (t : Traced) : List Nat → Traced
  | [] => t
  | a :: rest => (t.remove [a]).removeEach (t.method.moved [a] rest)
termination_by addresses => addresses.length
decreasing_by
  unfold Method.moved
  rw [List.length_map,List.length_cons]
  exact Nat.lt_succ_of_le (List.length_filter_le _ _)

theorem Same.trans {t u v : Traced} (first : t.Same u) (second : u.Same v) : t.Same v :=
  ⟨first.1.trans second.1,first.2.trans second.2⟩

theorem moved_listed (listed : ∀ a ∈ more, a ∈ t.method.addresses) :
    ∀ a ∈ t.method.moved gone more, a ∈ (t.remove gone).method.addresses := by
  intro a member
  obtain ⟨b,chosen,rfl⟩ := List.mem_map.mp member
  obtain ⟨inside,other⟩ := List.mem_filter.mp chosen
  obtain ⟨i,found,rfl⟩ := List.mem_map.mp (listed b inside)
  have stays : i.address ∉ gone := by simpa using other
  exact List.mem_map.mpr ⟨i.relocate (t.method.placed gone),mem_remove.mpr ⟨i,found,stays,rfl⟩,rfl⟩

theorem removeEach_same {t : Traced} (sound : t.Sound) {order : List Nat} (listed : ∀ a ∈ order, a ∈ t.method.addresses) :
    (t.removeEach order).Same (t.remove order) := by
  fun_induction removeEach t order with
  | case1 t =>
    rw [remove_nothing (Method.located_eq_nil.mpr fun _ _ => List.not_mem_nil)]
    exact ⟨rfl,.refl t.graph⟩
  | case2 t a rest ih =>
    have listed' : ∀ b ∈ rest, b ∈ t.method.addresses := fun b member => listed b (List.mem_cons_of_mem a member)
    exact (ih (remove_sound sound [a]) (moved_listed listed')).trans (remove_remove sound listed')

-- To take out instructions of a method that was read and executed at once, in two steps or
-- one by one in any order comes to the same method and the same graph.
theorem remove_batched {owner : String} {text : List Char} {m : Method} {limits : Limits} {h : Hierarchy} {g : PathGraph}
    (loaded : Source.method owner text = .ok m) (executed : (m.execute limits h).1 = .ok g) {gone more : List Nat}
    (listed : ∀ a ∈ gone ++ more, a ∈ m.addresses) :
    ((remove ⟨m,g⟩ gone).remove (m.moved gone more)).Same (remove ⟨m,g⟩ (gone ++ more)) ∧
      ∀ order, (∀ a, a ∈ order ↔ a ∈ gone ++ more) → (removeEach ⟨m,g⟩ order).Same (remove ⟨m,g⟩ (gone ++ more)) := by
  obtain ⟨_,aligned⟩ := Source.method_ok loaded
  obtain ⟨s,_,explored⟩ := Method.execute_ok executed
  obtain ⟨entries,certified⟩ := Method.explore_certified explored
  have sound : (⟨m,g⟩ : Traced).Sound := certified.sound aligned
  refine ⟨remove_remove sound fun a member => listed a (List.mem_append_right gone member),fun order same => ?_⟩
  have one := removeEach_same sound fun a member => listed a ((same a).mp member)
  rw [remove_congr fun a _ => same a] at one
  exact one

-- A loop whose first instructions go, the root of the graph among them.
def rotating : List Char :=
  (".method static run()V\n.registers 2\n:a\nconst/4 v0, 0x1\nif-eqz v0, :b\nconst/4 v1, 0x2\n:b\ngoto :a\n" ++
    "return-void\n.catchall \x7b:a .. :b\x7d :b\n.end method").toList

theorem rotating_batched : ∃ m g, Source.method "La;" rotating = .ok m ∧ (m.execute {} (.fresh [])).1 = .ok g ∧
    (∀ a ∈ [3,0] ++ [0,1], a ∈ m.addresses) ∧ m.moved [3,0] [0,1] = [0] ∧
    ((remove ⟨m,g⟩ [3,0]).remove [0]).Same (remove ⟨m,g⟩ [3,0,0,1]) ∧
    (removeEach ⟨m,g⟩ [1,3,0]).Same (remove ⟨m,g⟩ [3,0,0,1]) := by
  obtain ⟨_,ok⟩ := exists_of_isOk (x := do
    let m ← Source.method "La;" rotating
    let g ← (m.execute {} (.fresh [])).1
    if m.addresses = [0,1,3,4,5] ∧ m.moved [3,0] [0,1] = [0] ∧ g.roots = [0] then pure ()
      else throw ⟨.emptyMethod,[]⟩) (by
        -- Its characters one by one: the kernel is slow to take a long literal apart.
        generalize chars : rotating = text
        unfold rotating at chars
        simp only [String.toList_append,String.reduceToList] at chars
        subst chars
        decide +kernel)
  obtain ⟨m,loaded,ok⟩ := bind_ok.mp ok
  obtain ⟨g,executed,ok⟩ := bind_ok.mp ok
  split at ok
  · next facts =>
    obtain ⟨addresses,moved,_⟩ := facts
    have listed : ∀ a ∈ [3,0] ++ [0,1], a ∈ m.addresses := by rw [addresses]; decide
    have same : ∀ a, a ∈ [1,3,0] ↔ a ∈ [3,0] ++ [0,1] := by
      intro a
      simp only [List.mem_append,List.mem_cons,List.not_mem_nil,or_false]
      omega
    obtain ⟨twice,each⟩ := remove_batched loaded executed listed
    rw [moved] at twice
    exact ⟨m,g,loaded,executed,listed,moved,twice,each [1,3,0] same⟩
  · cases ok

end Traced
end SmaliPrune
