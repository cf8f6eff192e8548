import SmaliPrune.Proofs.Paths
import SmaliPrune.Proofs.Relocation

namespace SmaliPrune

def Flow.Moved (f : Nat → Nat) : Flow → Flow → Prop
  | .next few,.next many => ∀ y, y ∈ many ↔ ∃ x ∈ few, f x = y
  | .raise s,.raise t => s = t
  | _,_ => False

section
variable {f : Nat → Nat} {flow : Flow} {few many : List Nat}

theorem Flow.Moved.forward (moved : Flow.Moved f (.next few) flow) :
    ∃ many, flow = .next many ∧ ∀ y, y ∈ many ↔ ∃ x ∈ few, f x = y := by
  cases flow with
  | next many => exact ⟨many,rfl,moved⟩
  | raise type => exact moved.elim

theorem Flow.Moved.back (moved : Flow.Moved f flow (.next many)) :
    ∃ few, flow = .next few ∧ ∀ y, y ∈ many ↔ ∃ x ∈ few, f x = y := by
  cases flow with
  | next few => exact ⟨few,rfl,moved⟩
  | raise type => exact moved.elim

theorem Flow.Moved.raises {flow' : Flow} (moved : Flow.Moved f flow flow') (type : Option String) :
    flow' = .raise type ↔ flow = .raise type := by
  cases flow with
  | next few =>
    obtain ⟨many,rfl,_⟩ := moved.forward
    simp
  | raise s =>
    cases flow' with
    | next many => exact moved.elim
    | raise t => rw [show s = t from moved]

end

namespace Instr

theorem moved_one (f : Nat → Nat) (a : Nat) : Flow.Moved f (.next [a]) (.next [f a]) := by
  intro y
  simp [eq_comm]

theorem moved_none (f : Nat → Nat) : Flow.Moved f (.next []) (.next []) := by
  intro y
  simp

theorem moved_onward {f : Nat → Nat} {i : Instr} (next : (i.relocate f).next = f i.next) :
    Flow.Moved f i.onward (i.relocate f).onward := by
  have same : (i.relocate f).canContinue = i.canContinue := rfl
  unfold onward
  rw [same,next]
  split
  · exact moved_one f i.next
  · exact moved_none f

theorem mem_forks {target next x : Nat} :
    x ∈ (if target == next then [next] else [next,target]) ↔ x = next ∨ x = target := by
  by_cases same : target = next
  · simp [same]
  · simp [same]

theorem effect_relocate {f : Nat → Nat} {i : Instr} (next : (i.relocate f).next = f i.next) (answer : Option Bool)
    (b : Bindings) : ((i.relocate f).effect answer b).assigns = (i.effect answer b).assigns ∧
      Flow.Moved f (i.effect answer b).flow ((i.relocate f).effect answer b).flow := by
  have onward := moved_onward next
  have moved : (i.relocate f).action = i.action.retarget f := rfl
  cases action : i.action with
  | goto target =>
    simp only [effect,moved,action,Action.retarget]
    exact ⟨trivial,moved_one f target⟩
  | branch test x y target =>
    simp only [effect,moved,action,Action.retarget,next]
    refine ⟨trivial,?_⟩
    cases decided? test (b.read (.numbered x)) (y.map fun r => b.read (.numbered r)) with
    | some holds =>
      cases holds with
      | true => exact moved_one f target
      | false => exact moved_one f i.next
    | none =>
      intro y
      rw [mem_forks]
      constructor
      · rintro (rfl | rfl)
        · exact ⟨i.next,mem_forks.mpr (Or.inl rfl),rfl⟩
        · exact ⟨target,mem_forks.mpr (Or.inr rfl),rfl⟩
      · rintro ⟨x,chosen,rfl⟩
        exact (mem_forks.mp chosen).imp (congrArg f) (congrArg f)
  | leave src =>
    cases src with
    | none =>
      simp only [effect,moved,action,Action.retarget]
      exact ⟨trivial,moved_none f⟩
    | some src =>
      simp only [effect,moved,action,Action.retarget]
      exact ⟨trivial,moved_none f⟩
  | checkCast reg type =>
    simp only [effect,moved,action,Action.retarget]
    split
    · exact ⟨rfl,onward⟩
    · exact ⟨rfl,onward⟩
    · split
      · exact ⟨rfl,rfl⟩
      · exact ⟨rfl,onward⟩
  | throw reg =>
    simp only [effect,moved,action,Action.retarget]
    split <;> exact ⟨trivial,rfl⟩
  | generic registers =>
    simp only [effect,moved,action,Action.retarget]
    exact ⟨rfl,onward⟩
  | _ =>
    simp only [effect,moved,action,Action.retarget]
    exact ⟨trivial,onward⟩

theorem reads_relocate (f : Nat → Nat) (i : Instr) : (i.relocate f).reads = i.reads := by
  cases i with
  | mk address opcode action =>
    cases action with
    | branch test a b target => cases b <;> rfl
    | _ => rfl

theorem question?_relocate (f : Nat → Nat) (i : Instr) (b : Bindings) :
    (i.relocate f).action.question? b = i.action.question? b := by
  cases i with
  | mk address opcode action => cases action <;> rfl

end Instr

theorem catchers_relocate (h : Hierarchy) (thrown : Option String) (f : Nat → Nat) (handlers : List Handler) :
    catchers h thrown (handlers.map fun c => { c with entry := f c.entry }) =
      (catchers h thrown handlers).map fun c => { c with entry := f c.entry } := by
  induction handlers with
  | nil => rfl
  | cons c rest ih =>
    have same : ({ c with entry := f c.entry } : Handler).catches? h thrown = c.catches? h thrown := rfl
    rw [List.map_cons]
    unfold catchers
    rw [same,ih]
    split <;> rfl

namespace Method
variable {m : Method} {h : Hierarchy} {addresses : List Nat} {a x : Nat} {i : Instr} {b c : Bindings}

theorem answer?_relocate (h : Hierarchy) (f : Nat → Nat) (i : Instr) (b : Bindings) :
    answer? h (i.relocate f) b = answer? h i b := by
  unfold answer?
  rw [Instr.question?_relocate]

theorem mem_exceptionTargets_cut (aligned : m.Aligned) (member : i ∈ m.code) (stays : i.address ∉ addresses)
    {thrown : Option String} {y : Nat} :
    y ∈ (m.cut addresses).exceptionTargets h (m.placed addresses i.address) thrown ↔
      ∃ x ∈ m.exceptionTargets h i.address thrown, m.placed addresses x = y := by
  rw [mem_exceptionTargets,handlersFor_cut aligned member stays,catchers_relocate]
  constructor
  · rintro ⟨c,moved,rfl⟩
    obtain ⟨d,catches,rfl⟩ := List.mem_map.mp moved
    exact ⟨d.entry,mem_exceptionTargets.mpr ⟨d,catches,rfl⟩,rfl⟩
  · rintro ⟨x,chosen,rfl⟩
    obtain ⟨d,catches,rfl⟩ := mem_exceptionTargets.mp chosen
    exact ⟨_,List.mem_map_of_mem catches,rfl⟩

theorem next_relocate (aligned : m.Aligned) (member : i ∈ m.code) (stays : i.address ∉ addresses) :
    (i.relocate (m.placed addresses)).next = m.placed addresses i.next := by
  rw [placed_next aligned.laid member,if_neg stays]
  rfl

theorem flow_cut (aligned : m.Aligned) (member : i ∈ m.code) (stays : i.address ∉ addresses) :
    Flow.Moved (m.placed addresses) (i.effect (answer? h i b) b).flow
      ((i.relocate (m.placed addresses)).effect (answer? h (i.relocate (m.placed addresses)) b) b).flow := by
  rw [answer?_relocate]
  exact (Instr.effect_relocate (next_relocate aligned member stays) _ b).2

theorem bindings_cut (aligned : m.Aligned) (member : i ∈ m.code) (stays : i.address ∉ addresses) (n k : Nat) :
    ((i.relocate (m.placed addresses)).run (answer? h (i.relocate (m.placed addresses)) b) b n).bindings =
      (i.run (answer? h i b) b k).bindings := by
  rw [answer?_relocate,Instr.run_bindings,Instr.run_bindings,
    (Instr.effect_relocate (next_relocate aligned member stays) _ b).1]

theorem continues_cut (aligned : m.Aligned) (here : m.at? a = some i) (stays : a ∉ addresses) {y : Nat} :
    (m.cut addresses).Continues h ⟨m.placed addresses a,b⟩ ⟨y,c⟩ ↔
      ∃ x, m.placed addresses x = y ∧ m.Continues h ⟨a,b⟩ ⟨x,c⟩ := by
  obtain ⟨member,rfl⟩ := mem_of_at? here
  have here' : (m.cut addresses).at? (m.placed addresses i.address) = some (i.relocate (m.placed addresses)) :=
    at?_cut aligned.laid member stays
  have flow := flow_cut (h := h) (b := b) aligned member stays
  have after := bindings_cut (h := h) (b := b) aligned member stays
  constructor
  · intro step
    cases step with
    | mk found flows chosen =>
      rw [here'] at found
      cases found
      rw [flows] at flow
      obtain ⟨few,before,moved⟩ := flow.back
      obtain ⟨x,chosen',rfl⟩ := (moved y).mp chosen
      rw [after _ m.registers]
      exact ⟨x,rfl,.mk here before chosen'⟩
  · rintro ⟨x,rfl,step⟩
    cases step with
    | mk found flows chosen =>
      rw [here] at found
      cases found
      rw [flows] at flow
      obtain ⟨many,behind,moved⟩ := flow.forward
      rw [← after (m.cut addresses).registers]
      exact .mk here' behind ((moved _).mpr ⟨x,chosen,rfl⟩)

theorem escapes_cut (aligned : m.Aligned) (here : m.at? a = some i) (stays : a ∉ addresses) {y : Nat} :
    (m.cut addresses).Escapes h ⟨m.placed addresses a,b⟩ ⟨y,c⟩ ↔
      ∃ x, m.placed addresses x = y ∧ m.Escapes h ⟨a,b⟩ ⟨x,c⟩ := by
  obtain ⟨member,rfl⟩ := mem_of_at? here
  have here' : (m.cut addresses).at? (m.placed addresses i.address) = some (i.relocate (m.placed addresses)) :=
    at?_cut aligned.laid member stays
  have flow := flow_cut (h := h) (b := b) aligned member stays
  have targets : ∀ thrown y, y ∈ (m.cut addresses).exceptionTargets h (m.placed addresses i.address) thrown ↔
      ∃ x ∈ m.exceptionTargets h i.address thrown, m.placed addresses x = y :=
    fun _ _ => mem_exceptionTargets_cut aligned member stays
  have shielded : (m.cut addresses).handlersFor (m.placed addresses i.address) ≠ [] ↔ m.handlersFor i.address ≠ [] := by
    rw [handlersFor_cut aligned member stays]
    simp
  constructor
  · intro step
    cases step with
    | guarded found flows can protected' chosen =>
      rw [here'] at found
      cases found
      obtain ⟨x,chosen',rfl⟩ := (targets none y).mp chosen
      rw [flows] at flow
      obtain ⟨few,before,_⟩ := flow.back
      exact ⟨x,rfl,.guarded here before can (shielded.mp protected') chosen'⟩
    | @thrown _ _ _ _ type found flows chosen =>
      rw [here'] at found
      cases found
      obtain ⟨x,chosen',rfl⟩ := (targets type y).mp chosen
      exact ⟨x,rfl,.thrown here ((flow.raises type).mp flows) chosen'⟩
  · rintro ⟨x,rfl,step⟩
    cases step with
    | guarded found flows can protected' chosen =>
      rw [here] at found
      cases found
      rw [flows] at flow
      obtain ⟨many,behind,_⟩ := flow.forward
      exact .guarded here' behind can (shielded.mpr protected') ((targets none _).mpr ⟨x,chosen,rfl⟩)
    | @thrown _ _ _ _ type found flows chosen =>
      rw [here] at found
      cases found
      exact .thrown here' ((flow.raises type).mpr flows) ((targets type _).mpr ⟨x,chosen,rfl⟩)

theorem leads_cut (aligned : m.Aligned) (here : m.at? a = some i) (stays : a ∉ addresses) {y : Nat} :
    (m.cut addresses).Leads h ⟨m.placed addresses a,b⟩ ⟨y,c⟩ ↔
      ∃ x, m.placed addresses x = y ∧ m.Leads h ⟨a,b⟩ ⟨x,c⟩ := by
  unfold Leads
  rw [continues_cut aligned here stays,escapes_cut aligned here stays]
  constructor
  · rintro (⟨x,there,step⟩ | ⟨x,there,step⟩)
    · exact ⟨x,there,Or.inl step⟩
    · exact ⟨x,there,Or.inr step⟩
  · rintro ⟨x,there,step | step⟩
    · exact Or.inl ⟨x,there,step⟩
    · exact Or.inr ⟨x,there,step⟩

end Method
end SmaliPrune
