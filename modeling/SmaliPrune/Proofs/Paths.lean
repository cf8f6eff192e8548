import Mathlib.Data.List.Chain
import Mathlib.Data.List.Forall2
import SmaliPrune.Graph.Basic
import SmaliPrune.Proofs.Effect
import SmaliPrune.Proofs.Hierarchy

namespace SmaliPrune

structure Config where
  address : Nat
  bindings : Bindings

namespace Method

inductive Continues (m : Method) (h : Hierarchy) : Config → Config → Prop where
  | mk {a x : Nat} {i : Instr} {b : Bindings} {addresses : List Nat} (here : m.at? a = some i)
      (flows : (i.effect (answer? h i b) b).flow = .next addresses) (chosen : x ∈ addresses) :
      Continues m h ⟨a,b⟩ ⟨x,(i.run (answer? h i b) b m.registers).bindings⟩

-- An instruction is left by an exception and a handler finds the registers as they were.
-- What is thrown may be anything, or it is what the instruction certainly throws.
inductive Escapes (m : Method) (h : Hierarchy) : Config → Config → Prop where
  | guarded {a x : Nat} {i : Instr} {b : Bindings} {addresses : List Nat} (here : m.at? a = some i)
      (flows : (i.effect (answer? h i b) b).flow = .next addresses) (can : i.canThrow = true)
      (protected' : m.handlersFor a ≠ []) (chosen : x ∈ m.exceptionTargets h a none) : Escapes m h ⟨a,b⟩ ⟨x,b⟩
  | thrown {a x : Nat} {i : Instr} {b : Bindings} {type : Option String} (here : m.at? a = some i)
      (flows : (i.effect (answer? h i b) b).flow = .raise type) (chosen : x ∈ m.exceptionTargets h a type) :
      Escapes m h ⟨a,b⟩ ⟨x,b⟩

def Leads (m : Method) (h : Hierarchy) (c d : Config) : Prop := m.Continues h c d ∨ m.Escapes h c d

-- To lead where there is no instruction is no step.
def Step (m : Method) (h : Hierarchy) (c d : Config) : Prop := m.Leads h c d ∧ (m.at? d.address).isSome = true

-- A run of the method along one path, without any joining or widening.
structure Path (m : Method) (h : Hierarchy) (entry : Bindings) (cs : List Config) : Prop where
  starts : ∀ c ∈ cs.head?, m.code.head?.map (fun i => (⟨i.address,entry⟩ : Config)) = some c
  steps : cs.IsChain (m.Step h)

end Method

structure PathGraph.Walk (g : PathGraph) (ids : List Nat) : Prop where
  starts : ∀ id ∈ ids.head?, id ∈ g.roots
  steps : ids.IsChain g.Edge

theorem isChain_simulation {α β : Type} {R : α → α → Prop} {S : β → β → Prop} {M : α → β → Prop}
    (step : ∀ a b a', M a b → R a a' → ∃ b', S b b' ∧ M a' b') (as : List α) {a : α} {b : β} (matched : M a b)
    (chain : (a :: as).IsChain R) : ∃ bs, (b :: bs).IsChain S ∧ List.Forall₂ M (a :: as) (b :: bs) := by
  induction as generalizing a b with
  | nil => exact ⟨[],.singleton b,.cons matched .nil⟩
  | cons a' rest ih =>
    obtain ⟨first,chain⟩ := List.isChain_cons_cons.mp chain
    obtain ⟨b',along,matched'⟩ := step a b a' matched first
    obtain ⟨bs,chain',all⟩ := ih matched' chain
    exact ⟨b' :: bs,List.isChain_cons_cons.mpr ⟨along,chain'⟩,.cons matched all⟩

-- What stays with the match over some steps, and goes along with the others, leaves a
-- chain of the others.
theorem isChain_erasure {α β : Type} {R : α → α → Prop} {S : β → β → Prop} {M : α → β → Prop} {erased : α → Bool}
    (stays : ∀ a b a', M a b → R a a' → erased a = true → M a' b)
    (step : ∀ a b a', M a b → R a a' → erased a = false → ∃ b', S b b' ∧ M a' b') (as : List α) {a : α} {b : β}
    (matched : M a b) (chain : (a :: as).IsChain R) :
    ∃ bs, bs.IsChain S ∧ (∀ b' ∈ bs.head?, b' = b) ∧
      List.Forall₂ (fun a b => erased a = false ∧ M a b) ((a :: as).filter fun a => !erased a) bs := by
  induction as generalizing a b with
  | nil =>
    cases gone : erased a with
    | true => exact ⟨[],.nil,nofun,by simp [gone]⟩
    | false => exact ⟨[b],.singleton b,fun _ head => (Option.some.inj head).symm,by simpa [gone] using matched⟩
  | cons a' rest ih =>
    obtain ⟨first,chain⟩ := List.isChain_cons_cons.mp chain
    cases gone : erased a with
    | true =>
      obtain ⟨bs,along,head,all⟩ := ih (stays a b a' matched first gone) chain
      refine ⟨bs,along,head,?_⟩
      rw [List.filter_cons_of_neg (by simp [gone])]
      exact all
    | false =>
      obtain ⟨b',forward,matched'⟩ := step a b a' matched first gone
      obtain ⟨bs,along,head,all⟩ := ih matched' chain
      refine ⟨b :: bs,?_,fun _ head => (Option.some.inj head).symm,?_⟩
      · cases bs with
        | nil => exact .singleton b
        | cons x bs => exact List.isChain_cons_cons.mpr ⟨head x rfl ▸ forward,along⟩
      · rw [List.filter_cons_of_pos (by simp [gone])]
        exact .cons ⟨gone,matched⟩ all

theorem isChain_and {α : Type} {R S : α → α → Prop} {as : List α} (first : as.IsChain R) (second : as.IsChain S) :
    as.IsChain fun a b => R a b ∧ S a b := by
  induction as with
  | nil => exact .nil
  | cons a rest ih =>
    cases rest with
    | nil => exact .singleton a
    | cons b rest =>
      obtain ⟨one,first⟩ := List.isChain_cons_cons.mp first
      obtain ⟨other,second⟩ := List.isChain_cons_cons.mp second
      exact List.isChain_cons_cons.mpr ⟨⟨one,other⟩,ih first second⟩

namespace Method

theorem mem_of_at? {m : Method} {a : Nat} {i : Instr} (here : m.at? a = some i) : i ∈ m.code ∧ i.address = a := by
  refine ⟨List.mem_of_find?_eq_some here,?_⟩
  have found := List.find?_some here
  simpa using found

theorem catchers_subset (h : Hierarchy) (thrown : Option String) (handlers : List Handler) :
    ∀ c ∈ catchers h thrown handlers, c ∈ handlers := by
  induction handlers with
  | nil => exact fun _ member => member
  | cons handler rest ih =>
    intro c member
    simp only [catchers] at member
    split at member
    · rw [List.mem_singleton.mp member]
      exact List.mem_cons_self
    · exact List.mem_cons_of_mem _ (ih c member)
    · rcases List.mem_cons.mp member with rfl | member
      · exact List.mem_cons_self
      · exact List.mem_cons_of_mem _ (ih c member)

-- An exception of unknown type may reach whatever one of a known type does.
theorem catchers_none (h : Hierarchy) (thrown : Option String) (handlers : List Handler) :
    ∀ c ∈ catchers h thrown handlers, c ∈ catchers h none handlers := by
  induction handlers with
  | nil => exact fun _ member => member
  | cons handler rest ih =>
    intro c member
    cases type : handler.type with
    | none => simpa only [catchers,Handler.catches?,type] using member
    | some type' =>
      have kept : catchers h none (handler :: rest) = handler :: catchers h none rest := by
        simp only [catchers,Handler.catches?,type]
      rw [kept]
      simp only [catchers] at member
      split at member
      · rw [List.mem_singleton.mp member]
        exact List.mem_cons_self
      · exact List.mem_cons_of_mem _ (ih c member)
      · rcases List.mem_cons.mp member with rfl | member
        · exact List.mem_cons_self
        · exact List.mem_cons_of_mem _ (ih c member)

theorem mem_exceptionTargets {m : Method} {h : Hierarchy} {a x : Nat} {thrown : Option String} :
    x ∈ m.exceptionTargets h a thrown ↔ ∃ c ∈ catchers h thrown (m.handlersFor a), c.entry = x := by
  unfold exceptionTargets
  rw [List.mem_eraseDups,List.mem_map]

theorem exceptionTargets_handlers {m : Method} {h : Hierarchy} {a x : Nat} {thrown : Option String}
    (chosen : x ∈ m.exceptionTargets h a thrown) : ∃ c ∈ m.handlersFor a, c.entry = x := by
  obtain ⟨c,member,entry⟩ := mem_exceptionTargets.mp chosen
  exact ⟨c,catchers_subset h thrown _ c member,entry⟩

theorem exceptionTargets_none {m : Method} {h : Hierarchy} {a x : Nat} {thrown : Option String}
    (chosen : x ∈ m.exceptionTargets h a thrown) : x ∈ m.exceptionTargets h a none := by
  obtain ⟨c,member,entry⟩ := mem_exceptionTargets.mp chosen
  exact mem_exceptionTargets.mpr ⟨c,catchers_none h thrown _ c member,entry⟩

theorem Escapes.handled {m : Method} {h : Hierarchy} {c d : Config} (step : m.Escapes h c d) :
    ∃ e ∈ m.handlersFor c.address, e.entry = d.address := by
  cases step with
  | guarded _ _ _ _ chosen => exact exceptionTargets_handlers chosen
  | thrown _ _ chosen => exact exceptionTargets_handlers chosen

theorem mem_exits {m : Method} {h : Hierarchy} {a : Nat} {i : Instr} {b : Bindings} {d : Config}
    (here : m.at? a = some i) : (d.address,d.bindings) ∈ m.exits h i b ↔ m.Leads h ⟨a,b⟩ d := by
  have address : i.address = a := (mem_of_at? here).2
  obtain ⟨x,c⟩ := d
  unfold exits
  dsimp only
  rw [List.mem_append,address]
  constructor
  · rintro (onward | caught)
    · cases flows : (i.effect (answer? h i b) b).flow with
      | raise type => simp [flows] at onward
      | next addresses =>
        simp only [flows,List.mem_map,Prod.mk.injEq] at onward
        obtain ⟨_,chosen,rfl,rfl⟩ := onward
        exact Or.inl (.mk here flows chosen)
    · cases flows : (i.effect (answer? h i b) b).flow with
      | raise type =>
        simp only [flows,raised?,List.mem_map,Prod.mk.injEq] at caught
        obtain ⟨_,chosen,rfl,rfl⟩ := caught
        exact Or.inr (.thrown here flows chosen)
      | next addresses =>
        simp only [flows,raised?,address] at caught
        by_cases open' : (i.canThrow && !(m.handlersFor a).isEmpty) = true
        · simp only [open',if_true,List.mem_map,Prod.mk.injEq] at caught
          obtain ⟨_,chosen,rfl,rfl⟩ := caught
          simp only [Bool.and_eq_true,Bool.not_eq_true',List.isEmpty_eq_false_iff] at open'
          exact Or.inr (.guarded here flows open'.1 open'.2 chosen)
        · simp [open'] at caught
  · rintro (onward | caught)
    · cases onward with
      | mk here' flows chosen =>
        rw [here] at here'
        cases here'
        refine Or.inl ?_
        simp only [flows]
        exact List.mem_map_of_mem chosen
    · refine Or.inr ?_
      cases caught with
      | guarded here' flows can protected' chosen =>
        rw [here] at here'
        cases here'
        have open' : (i.canThrow && !(m.handlersFor a).isEmpty) = true := by
          simp only [can,Bool.true_and,Bool.not_eq_true',List.isEmpty_eq_false_iff]
          exact protected'
        simp only [flows,raised?,address,open',if_true]
        exact List.mem_map_of_mem chosen
      | thrown here' flows chosen =>
        rw [here] at here'
        cases here'
        simp only [flows,raised?]
        exact List.mem_map_of_mem chosen

theorem answer?_congr {h : Hierarchy} {i : Instr} {a b : Bindings} (same : ∀ r ∈ i.reads, a.read r = b.read r) :
    answer? h i a = answer? h i b := by
  unfold answer?
  rw [Instr.question?_congr same]

theorem Leads.plain {m : Method} {h : Hierarchy} {c d : Config} (regular : m.Regular) (plain : c.bindings.Plain)
    (leads : m.Leads h c d) : d.bindings.Plain := by
  rcases leads with onward | caught
  · cases onward with
    | mk here flows chosen =>
      dsimp only at plain ⊢
      rw [Instr.run_bindings]
      exact Bindings.plain_setAll plain (Instr.effect_exact (regular _ (mem_of_at? here).1) plain _)
  · cases caught <;> exact plain

theorem Continues.untouched {m : Method} {h : Hierarchy} {c d : Config} {i : Instr} {r : Register}
    (step : m.Continues h c d) (here : m.at? c.address = some i) (other : r ∉ i.writes) :
    d.bindings.lookup r = c.bindings.lookup r := by
  cases step with
  | mk found flows _ =>
    rw [here] at found
    cases found
    dsimp only
    rw [Instr.run_bindings]
    exact Bindings.lookup_setAll_other (Instr.effect_next flows ▸ other)

-- An instruction in bindings of which less is known, as far as it looks: it goes on
-- wherever it did, and it is left by an exception wherever it was.
section
variable {m : Method} {h : Hierarchy} {a x : Nat} {i : Instr} {e b c : Bindings}

theorem Continues.fainter (regular : m.Regular) (here : m.at? a = some i)
    (covers : ∀ r ∈ i.reads, e.CoversAt r b) (step : m.Continues h ⟨a,b⟩ ⟨x,c⟩) :
    ∃ f, m.Continues h ⟨a,e⟩ ⟨x,f⟩ ∧ ∀ r, r ∈ i.writes ∨ e.CoversAt r b → f.CoversAt r c := by
  cases step with
  | @mk _ _ _ _ addresses here' flows chosen =>
    rw [here] at here'
    cases here'
    have effects := Instr.effect_covers (regular i (mem_of_at? here).1) (fun r member => (covers r member).read)
      (answer?_congr (h := h))
    cases abstract : i.effect (answer? h i e) e with
    | mk ws flow =>
      cases concrete : i.effect (answer? h i b) b with
      | mk vs flow' =>
        rw [abstract,concrete] at effects
        rw [concrete] at flows
        cases effects with
        | raise => cases flows
        | escape => cases flows
        | @next _ _ many few fewer fainter =>
          cases flows
          have onward : (i.effect (answer? h i e) e).flow = .next many := by rw [abstract]
          refine ⟨_,.mk here onward (fewer x chosen),fun r before => ?_⟩
          rw [Instr.run_bindings,Instr.run_bindings,abstract,concrete]
          have written := Instr.effect_next onward
          rw [abstract] at written
          exact Bindings.coversAt_setAll fainter (before.imp_left fun member => written ▸ member)

theorem Escapes.fainter (regular : m.Regular) (here : m.at? a = some i)
    (covers : ∀ r ∈ i.reads, e.CoversAt r b) (step : m.Escapes h ⟨a,b⟩ ⟨x,c⟩) :
    c = b ∧ m.Escapes h ⟨a,e⟩ ⟨x,e⟩ := by
  have effects := Instr.effect_covers (regular i (mem_of_at? here).1) (fun r member => (covers r member).read)
    (answer?_congr (h := h))
  cases abstract : i.effect (answer? h i e) e with
  | mk ws flow =>
    cases concrete : i.effect (answer? h i b) b with
    | mk vs flow' =>
      rw [abstract,concrete] at effects
      cases step with
      | guarded here' flows can protected' chosen =>
        rw [here] at here'
        cases here'
        rw [concrete] at flows
        cases effects with
        | raise => cases flows
        | escape => cases flows
        | @next _ _ many =>
          have onward : (i.effect (answer? h i e) e).flow = .next many := by rw [abstract]
          exact ⟨rfl,.guarded here onward can protected' chosen⟩
      | thrown here' flows chosen =>
        rw [here] at here'
        cases here'
        rw [concrete] at flows
        cases effects with
        | next => cases flows
        | @escape _ many _ can _ =>
          have onward : (i.effect (answer? h i e) e).flow = .next many := by rw [abstract]
          obtain ⟨handler,member,_⟩ := exceptionTargets_handlers chosen
          exact ⟨rfl,.guarded here onward can (List.ne_nil_of_mem member) (exceptionTargets_none chosen)⟩
        | @raise s t vaguer =>
          cases flows
          have raises : (i.effect (answer? h i e) e).flow = .raise s := by rw [abstract]
          refine ⟨rfl,.thrown here raises ?_⟩
          rcases vaguer with rfl | rfl
          · exact exceptionTargets_none chosen
          · exact chosen

theorem Continues.congr (here : m.at? a = some i) (same : ∀ r ∈ i.reads, b.lookup r = e.lookup r)
    (step : m.Continues h ⟨a,b⟩ ⟨x,c⟩) :
    ∃ f, m.Continues h ⟨a,e⟩ ⟨x,f⟩ ∧ ∀ r, r ∈ i.writes ∨ b.lookup r = e.lookup r → c.lookup r = f.lookup r := by
  have reads : ∀ r ∈ i.reads, b.read r = e.read r := fun r member => by rw [Bindings.read,Bindings.read,same r member]
  cases step with
  | mk found flows chosen =>
    rw [here] at found
    cases found
    have written := Instr.effect_next flows
    have effects : i.effect (answer? h i b) b = i.effect (answer? h i e) e := by
      rw [answer?_congr reads,Instr.effect_congr _ reads]
    rw [effects] at flows written
    refine ⟨_,.mk here flows chosen,fun r before => ?_⟩
    rw [Instr.run_bindings,Instr.run_bindings,effects]
    exact Bindings.lookup_setAll_congr _ (before.imp_left fun member => written ▸ member)

theorem Escapes.congr (here : m.at? a = some i) (same : ∀ r ∈ i.reads, b.lookup r = e.lookup r)
    (step : m.Escapes h ⟨a,b⟩ ⟨x,c⟩) : c = b ∧ m.Escapes h ⟨a,e⟩ ⟨x,e⟩ := by
  have reads : ∀ r ∈ i.reads, b.read r = e.read r := fun r member => by rw [Bindings.read,Bindings.read,same r member]
  have effects : i.effect (answer? h i b) b = i.effect (answer? h i e) e := by
    rw [answer?_congr reads,Instr.effect_congr _ reads]
  cases step with
  | guarded found flows can protected' chosen =>
    rw [here] at found
    cases found
    rw [effects] at flows
    exact ⟨rfl,.guarded here flows can protected' chosen⟩
  | thrown found flows chosen =>
    rw [here] at found
    cases found
    rw [effects] at flows
    exact ⟨rfl,.thrown here flows chosen⟩

theorem run_covers (regular : m.Regular) (here : m.at? a = some i) (covers : e.Covers b) :
    (i.run (answer? h i e) e m.registers).bindings.Covers (i.run (answer? h i b) b m.registers).bindings := by
  have effects := Instr.effect_covers (regular i (mem_of_at? here).1) (fun r _ => (covers r).read)
    (answer?_congr (h := h))
  intro r
  rw [Instr.run_bindings,Instr.run_bindings]
  cases abstract : i.effect (answer? h i e) e with
  | mk ws flow =>
    cases concrete : i.effect (answer? h i b) b with
    | mk vs flow' =>
      rw [abstract,concrete] at effects
      cases effects with
      | next _ fainter => exact Bindings.coversAt_setAll fainter (Or.inr (covers r))
      | raise => exact covers r
      | escape _ blank => exact Bindings.coversAt_setAll_blank blank (covers r)

end

def along? (m : Method) (h : Hierarchy) : Config → List Nat → Option (List Config)
  | c,[] => if (m.at? c.address).isSome then some [c] else none
  | c,x :: rest =>
    match m.at? c.address with
    | none => none
    | some i =>
      match (i.effect (answer? h i c.bindings) c.bindings).flow with
      | .raise _ => none
      | .next addresses =>
        if x ∈ addresses then
          (along? m h ⟨x,(i.run (answer? h i c.bindings) c.bindings m.registers).bindings⟩ rest).map fun cs => c :: cs
        else none

theorem along?_some {m : Method} {h : Hierarchy} {c : Config} {addresses : List Nat} {cs : List Config}
    (followed : m.along? h c addresses = some cs) :
    cs.head? = some c ∧ (m.at? c.address).isSome = true ∧ cs.IsChain (m.Step h) ∧ cs.IsChain (m.Continues h) ∧
      cs.map Config.address = c.address :: addresses := by
  induction addresses generalizing c cs with
  | nil =>
    unfold along? at followed
    split at followed
    · next some' =>
      cases followed
      exact ⟨rfl,some',.singleton c,.singleton c,rfl⟩
    · cases followed
  | cons x rest ih =>
    unfold along? at followed
    split at followed
    · cases followed
    · next i here =>
      split at followed
      · cases followed
      · next addresses flows =>
        split at followed
        · next chosen =>
          obtain ⟨ds,followed',rfl⟩ := Option.map_eq_some_iff.mp followed
          obtain ⟨head,lands,steps,onward,listed⟩ := ih followed'
          obtain ⟨tail,rfl⟩ := List.head?_eq_some_iff.mp head
          have step : m.Continues h c _ := .mk here flows chosen
          refine ⟨rfl,by rw [here]; rfl,.cons_cons ⟨Or.inl step,lands⟩ steps,.cons_cons step onward,?_⟩
          rw [List.map_cons,listed]
        · cases followed

theorem along?_path {m : Method} {h : Hierarchy} {entry : Bindings} {a : Nat} {addresses : List Nat} {cs : List Config}
    (first : m.code.head?.map Instr.address = some a) (followed : m.along? h ⟨a,entry⟩ addresses = some cs) :
    m.Path h entry cs := by
  obtain ⟨head,_,steps,_⟩ := along?_some followed
  refine ⟨fun c begins => ?_,steps⟩
  obtain ⟨i,code,address⟩ := Option.map_eq_some_iff.mp first
  rw [head] at begins
  rw [code,← Option.some.inj begins,← address]
  rfl

end Method
end SmaliPrune
