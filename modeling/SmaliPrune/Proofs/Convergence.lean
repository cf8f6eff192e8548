import Mathlib.Algebra.Order.BigOperators.Group.Finset
import Mathlib.Data.Fintype.BigOperators
import SmaliPrune.Proofs.Exploration
import SmaliPrune.Proofs.Widening

namespace SmaliPrune

namespace Method

def bindable (m : Method) (entry : Bindings) : Finset Register :=
  (entry.entries.map Prod.fst ++ m.code.flatMap Instr.writes).toFinset

-- At each address there are the nodes made before entries are widened, and behind them at
-- most one for each way to grade the registers.
def nodeBound (m : Method) (visits : Nat) (entry : Bindings) : Nat :=
  m.code.length * (visits + 4 ^ (m.bindable entry).card)

end Method

def Bindings.Within (rs : Finset Register) (b : Bindings) : Prop := ∀ r v, b.lookup r = some v → r ∈ rs

namespace Method
variable {m : Method} {h : Hierarchy} {entry : Bindings}

theorem within_entry (m : Method) (entry : Bindings) : entry.Within (m.bindable entry) := by
  intro r v found
  refine List.mem_toFinset.mpr (List.mem_append_left _ ?_)
  exact List.mem_map.mpr ⟨(r,v),Bindings.mem_of_find? found,rfl⟩

theorem Leads.within {c d : Config} (within : c.bindings.Within (m.bindable entry)) (leads : m.Leads h c d) :
    d.bindings.Within (m.bindable entry) := by
  rcases leads with onward | caught
  · have ⟨i,here⟩ : ∃ i, m.at? c.address = some i := by
      cases onward with
      | mk here => exact ⟨_,here⟩
    intro r v bound
    by_cases written : r ∈ i.writes
    · refine List.mem_toFinset.mpr (List.mem_append_right _ ?_)
      exact List.mem_flatMap.mpr ⟨i,(mem_of_at? here).1,written⟩
    · rw [onward.untouched here written] at bound
      exact within r v bound
  · cases caught <;> exact within

end Method

theorem Bindings.Blurs.within {rs : Finset Register} {e f : Bindings} (blurs : e.Blurs f) (within : f.Within rs) :
    e.Within rs := by
  intro r v found
  rcases blurs r with ⟨free,_⟩ | ⟨_,w,_,there,_⟩
  · rw [found] at free
    cases free
  · exact within r w there

namespace Explored
variable {m : Method} {h : Hierarchy} {entry : Bindings} {visits : Nat} {pending : List Visit} {x : Explored}

theorem Valid.within (valid : x.Valid m h entry pending) {id : Nat} (inside : id < x.graph.nodes.size) {c : Config}
    (stands : x.graph.Stands m h x.entries id c) : c.bindings.Within (m.bindable entry) := by
  obtain ⟨root,rooted,path⟩ := valid.reached id inside
  exact PathGraph.inherits (m.within_entry entry) (fun _ _ within leads => leads.within within)
    (fun _ _ blurs within => blurs.within within) valid.honest rooted path stands

theorem entriesAt_join (x : Explored) (parent : Option Nat) (id a : Nat) :
    (x.join parent id).entriesAt a = x.entriesAt a := by
  cases parent with
  | none => rfl
  | some p =>
    unfold entriesAt join
    rw [PathGraph.pile_connect]

theorem pile_enter (x : Explored) (i : Instr) (v : Visit) (a : Nat) :
    (x.enter m i v).graph.pile a =
      if a = v.address then (x.graph.pile a).push x.graph.nodes.size else x.graph.pile a := by
  unfold enter
  cases v.parent with
  | none => exact PathGraph.pile_addRoot _ _ _ a
  | some p => exact PathGraph.pile_addChild _ _ _ _ a

theorem count_enter (x : Explored) (i : Instr) (v : Visit) : (x.enter m i v).graph.count = x.graph.count + 1 := by
  unfold enter
  cases v.parent with
  | none => exact PathGraph.count_addRoot _ _ _
  | some p => exact PathGraph.count_addChild _ _ _ _

theorem Valid.entriesAt_length (valid : x.Valid m h entry pending) (a : Nat) :
    (x.entriesAt a).length = (x.graph.pile a).size := by
  have all : ∀ ids : List Nat, (∀ id ∈ ids, id ∈ x.graph.pile a) →
      (ids.filterMap fun id => x.entries[id]?).length = ids.length := by
    intro ids
    induction ids with
    | nil => exact fun _ => rfl
    | cons id rest ih =>
      intro members
      obtain ⟨e,entered,_⟩ := valid.entered_pile (members id List.mem_cons_self)
      rw [List.filterMap_cons_some entered,List.length_cons,List.length_cons,
        ih fun other listed => members other (List.mem_cons_of_mem _ listed)]
  exact all _ fun id listed => Array.mem_toList_iff.mp listed

theorem Valid.entriesAt_within (valid : x.Valid m h entry pending) {a : Nat} {e : Bindings}
    (member : e ∈ x.entriesAt a) : e.Within (m.bindable entry) := by
  obtain ⟨id,listed,entered⟩ := List.mem_filterMap.mp member
  obtain ⟨f,entered',stands⟩ := valid.entered_pile (Array.mem_toList_iff.mp listed)
  obtain rfl : e = f := Option.some.inj (entered.symm.trans entered')
  exact valid.within (PathGraph.lt_of_live stands.live) stands

theorem Valid.entriesAt_enter (valid : x.Valid m h entry pending) (i : Instr) (v : Visit) (a : Nat) :
    (x.enter m i v).entriesAt a = if a = v.address then x.entriesAt a ++ [v.entry] else x.entriesAt a := by
  have old : (x.graph.pile a).toList.filterMap (fun id => (x.entries.push v.entry)[id]?) = x.entriesAt a := by
    refine List.filterMap_congr fun id listed => ?_
    obtain ⟨_,_,stands⟩ := valid.entered_pile (Array.mem_toList_iff.mp listed)
    have inside := PathGraph.lt_of_live stands.live
    rw [← valid.sizes] at inside
    rw [Array.getElem?_push,if_neg (Nat.ne_of_lt inside)]
  unfold entriesAt at old ⊢
  have entries : (x.enter m i v).entries = x.entries.push v.entry := rfl
  rw [pile_enter,entries]
  split
  · rw [Array.toList_push,List.filterMap_append,old,← valid.sizes]
    simp
  · exact old

-- Of any two nodes that were made at an address after entries began to be widened there,
-- the grades of some register differ.
structure Spread (visits : Nat) (x : Explored) : Prop where
  apart : ∀ a, ((x.entriesAt a).drop visits).Pairwise fun e f => ∃ r, e.grade r ≠ f.grade r
  counted : x.graph.count = x.graph.nodes.size

theorem Spread.join (spread : x.Spread visits) (parent : Option Nat) (id : Nat) : (x.join parent id).Spread visits := by
  refine ⟨fun a => ?_,?_⟩
  · rw [entriesAt_join]
    exact spread.apart a
  · rw [size_join,← spread.counted]
    cases parent with
    | none => rfl
    | some p => exact PathGraph.count_connect x.graph p id

theorem Spread.enter {v : Visit} {rest : List Visit} {e : Bindings} (spread : x.Spread visits)
    (valid : x.Valid m h entry (v :: rest)) (opens : x.arrival visits v = .opens e) (i : Instr) :
    (x.enter m i { v with entry := e }).Spread visits := by
  refine ⟨fun a => ?_,by rw [count_enter,(graph_enter x i _).2,spread.counted]⟩
  rw [valid.entriesAt_enter]
  by_cases here : a = v.address
  · rw [if_pos here]
    subst a
    obtain ⟨missed,⟨few,_⟩ | ⟨many,wide⟩⟩ := arrival_fresh opens
    · rw [List.drop_eq_nil_of_le]
      · exact .nil
      · rw [List.length_append,valid.entriesAt_length]
        exact few
    · rw [List.drop_append_of_le_length (by rw [valid.entriesAt_length]; exact many),List.pairwise_append]
      refine ⟨spread.apart _,List.pairwise_singleton _ _,fun f member g last => ?_⟩
      rw [List.mem_singleton.mp last]
      apply Classical.byContradiction
      intro alike
      have graded : ∀ r, f.grade r = e.grade r := fun r => Classical.byContradiction fun differs => alike ⟨r,differs⟩
      have listed := List.mem_of_mem_drop member
      have differs := match?_none missed f listed
      rw [wide] at graded differs
      rw [Bindings.same_of_grades listed graded] at differs
      cases differs
  · rw [if_neg here]
    exact spread.apart a

theorem converging_kept (m : Method) (h : Hierarchy) (entry : Bindings) (visits : Nat) :
    Kept m visits fun pending x => x.Valid m h entry pending ∧ x.Spread visits where
  drop v rest x nowhere both := ⟨(valid_kept visits).drop v rest x nowhere both.1,both.2⟩
  join v rest x i id here joins both :=
    ⟨(valid_kept visits).join v rest x i id here joins both.1,both.2.join v.parent id⟩
  enter v rest x i e here opens both :=
    ⟨(valid_kept visits).enter v rest x i e here opens both.1,both.2.enter both.1 opens i⟩

theorem length_le_of_apart {rs : Finset Register} {es : List Bindings} (within : ∀ e ∈ es, e.Within rs)
    (apart : es.Pairwise fun e f => ∃ r, e.grade r ≠ f.grade r) : es.length ≤ 4 ^ rs.card := by
  have free : ∀ e ∈ es, ∀ r, r ∉ rs → e.grade r = .unbound := by
    intro e member r outside
    refine Bindings.grade_none ?_
    cases found : e.lookup r with
    | none => rfl
    | some v => exact absurd (within e member r v found) outside
  have differ : (es.map fun e (r : rs) => e.grade r.1).Nodup := by
    refine List.pairwise_map.mpr (apart.imp_of_mem fun {e f} first second differs same => ?_)
    obtain ⟨r,differs⟩ := differs
    by_cases inside : r ∈ rs
    · exact differs (congrFun same ⟨r,inside⟩)
    · exact differs ((free e first r inside).trans (free f second r inside).symm)
  have few := differ.length_le_card
  rwa [List.length_map,Fintype.card_fun,Fintype.card_coe] at few

theorem pile_le (valid : x.Valid m h entry pending) (spread : x.Spread visits) (a : Nat) :
    (x.graph.pile a).size ≤ visits + 4 ^ (m.bindable entry).card := by
  have within : ∀ e ∈ (x.entriesAt a).drop visits, e.Within (m.bindable entry) :=
    fun e member => valid.entriesAt_within (List.mem_of_mem_drop member)
  have late := length_le_of_apart within (spread.apart a)
  rw [List.length_drop,valid.entriesAt_length] at late
  omega

theorem size_le_nodeBound (valid : x.Valid m h entry pending) (spread : x.Spread visits) :
    x.graph.nodes.size ≤ m.nodeBound visits entry := by
  have covered : Finset.range x.graph.nodes.size ⊆
      m.addresses.toFinset.biUnion fun a => (x.graph.pile a).toList.toFinset := by
    intro id inside
    obtain ⟨c,stands⟩ := valid.stands id (Finset.mem_range.mp inside)
    obtain ⟨s,spot⟩ := stands.spot
    obtain ⟨i,here,_⟩ := stands.2
    obtain ⟨code,address⟩ := Method.mem_of_at? here
    refine Finset.mem_biUnion.mpr ⟨c.address,List.mem_toFinset.mpr (List.mem_map.mpr ⟨i,code,address⟩),?_⟩
    exact List.mem_toFinset.mpr (Array.mem_toList_iff.mpr ((valid.piled.members _ _).mpr ⟨s,spot⟩))
  have each : ∀ a ∈ m.addresses.toFinset,
      ((x.graph.pile a).toList.toFinset).card ≤ visits + 4 ^ (m.bindable entry).card := by
    intro a _
    exact Nat.le_trans (List.toFinset_card_le _) (pile_le valid spread a)
  calc x.graph.nodes.size = (Finset.range x.graph.nodes.size).card := (Finset.card_range _).symm
    _ ≤ _ := Finset.card_le_card covered
    _ ≤ m.addresses.toFinset.card * (visits + 4 ^ (m.bindable entry).card) := Finset.card_biUnion_le_card_mul _ _ _ each
    _ ≤ m.nodeBound visits entry := by
      refine Nat.mul_le_mul_right _ (Nat.le_trans (List.toFinset_card_le _) ?_)
      rw [Method.addresses,List.length_map]

-- An exploration that ends where another has so many more nodes than it had, with any
-- budget that allows for these, and with no other.
structure Costs (m : Method) (visits : Nat) (pending : List Visit) (x y : Explored) (used : Nat) : Prop where
  size : y.graph.nodes.size = x.graph.nodes.size + used
  enough : ∀ budget, used ≤ budget → run m visits budget pending x = (y,true)
  short : ∀ budget, budget < used → (run m visits budget pending x).2 = false

theorem costs_settled {y : Explored} (settled : settle m visits pending x = (y,none)) :
    Costs m visits pending x y 0 := by
  refine ⟨?_,fun budget _ => ?_,fun budget below => absurd below (Nat.not_lt_zero budget)⟩
  · rw [← settle_size m visits pending x,settled]
    rfl
  · cases budget <;> simp only [run,settled]

theorem costs_enter {y z : Explored} {i : Instr} {v : Visit} {rest : List Visit} {used : Nat}
    (settled : settle m visits pending x = (z,some (i,v,rest)))
    (onward : Costs m visits (rest ++ z.onward m i v) (z.enter m i v) y used) :
    Costs m visits pending x y (used + 1) := by
  refine ⟨?_,fun budget above => ?_,fun budget below => ?_⟩
  · have same : z.graph.nodes.size = x.graph.nodes.size := by rw [← settle_size m visits pending x,settled]
    rw [onward.size,(graph_enter z i v).2,same]
    omega
  · cases budget with
    | zero => omega
    | succ budget =>
      simp only [run,settled]
      exact onward.enough budget (by omega)
  · cases budget with
    | zero => simp only [run,settled]
    | succ budget =>
      simp only [run,settled]
      exact onward.short budget (by omega)

theorem run_costs {budget : Nat} {y : Explored} (ends : run m visits budget pending x = (y,true)) :
    ∃ used, Costs m visits pending x y used := by
  induction budget generalizing pending x with
  | zero =>
    unfold run at ends
    split at ends
    · next z settled =>
      cases ends
      exact ⟨0,costs_settled settled⟩
    · cases ends
  | succ budget ih =>
    unfold run at ends
    split at ends
    · next z settled =>
      cases ends
      exact ⟨0,costs_settled settled⟩
    · next z i v rest settled =>
      obtain ⟨used,onward⟩ := ih ends
      exact ⟨used + 1,costs_enter settled onward⟩

theorem initial_spread (h : Hierarchy) (visits : Nat) : (⟨.empty,#[],h⟩ : Explored).Spread visits := by
  have nothing : ∀ a, (⟨.empty,#[],h⟩ : Explored).entriesAt a = [] := by
    intro a
    rfl
  refine ⟨fun a => ?_,rfl⟩
  rw [nothing,List.drop_nil]
  exact .nil

end Explored

-- Widening alone makes every exploration end: the graph is the same with any limit that is
-- not below the number of its nodes, and with a lower one the exploration fails.
theorem Method.explore_converges (m : Method) (h : Hierarchy) (entry : Bindings) (visits : Nat) :
    ∃ (n : Nat) (g : PathGraph), n ≤ m.nodeBound visits entry ∧ g.count = n ∧
      (∀ nodes, n ≤ nodes → (m.explore ⟨visits,nodes⟩ h entry).1 = .ok g) ∧
      ∀ nodes, nodes < n →
        (m.explore ⟨visits,nodes⟩ h entry).1 = .error ⟨.nodeLimit nodes,[.method m.descriptor]⟩ := by
  unfold explore
  cases code : m.code with
  | nil => exact ⟨0,.empty,Nat.zero_le _,rfl,fun _ _ => rfl,fun nodes below => absurd below (Nat.not_lt_zero nodes)⟩
  | cons first rest =>
    dsimp only
    have kept := Explored.converging_kept m h entry visits
    have holds : (⟨.empty,#[],h⟩ : Explored).Valid m h entry [⟨none,first.address,entry⟩] ∧
        (⟨.empty,#[],h⟩ : Explored).Spread visits :=
      ⟨Explored.initial_valid code,Explored.initial_spread h visits⟩
    obtain ⟨y,result,valid,spread⟩ :=
      kept.finishes (fun _ _ both => Explored.size_le_nodeBound both.1 both.2) holds (Nat.le_add_left _ _)
    obtain ⟨used,costs⟩ := Explored.run_costs result
    have size : y.graph.nodes.size = used := costs.size.trans (Nat.zero_add used)
    refine ⟨used,y.graph,?_,by rw [spread.counted,size],fun nodes above => ?_,fun nodes below => ?_⟩
    · rw [← size]
      exact Explored.size_le_nodeBound valid spread
    · rw [costs.enough nodes above]
    · have fails := costs.short nodes below
      split
      · next result' => rw [result'] at fails; cases fails
      · rfl

end SmaliPrune
