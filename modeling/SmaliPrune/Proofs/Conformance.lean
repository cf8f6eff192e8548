import SmaliPrune.Graph.Exits
import SmaliPrune.Proofs.Ancestry
import SmaliPrune.Proofs.Effect
import SmaliPrune.Proofs.Descriptors

namespace SmaliPrune

namespace Descriptor

def dims : Descriptor → Nat
  | .array of => of.dims + 1
  | _ => 0

def isReference : Descriptor → Bool
  | .array _ | .object _ => true
  | _ => false

def root : Descriptor := .object "java/lang/Object"

def arrayInterfaces : List Descriptor := [.object "java/lang/Cloneable",.object "java/io/Serializable"]

theorem base_object {t : Descriptor} (reference : t.base.isReference = true) : ∃ name, t.base = .object name := by
  induction t with
  | array of ih => exact ih reference
  | object name => exact ⟨name,rfl⟩
  | _ => cases reference

theorem isReference_of_base {t : Descriptor} (reference : t.base.isReference = true) : t.isReference = true := by
  cases t with
  | array of => rfl
  | _ => exact reference

theorem base_writable {t : Descriptor} (writable : t.Writable) : t.base.Writable := by
  induction t with
  | array of ih => exact ih writable
  | _ => exact writable

theorem boxed_of_reference {t : Descriptor} (reference : t.base.isReference = true) : t.base.boxed = t.base.text := by
  obtain ⟨name,named⟩ := base_object reference
  rw [named]
  rfl

theorem text_injective {s t : Descriptor} (writable : s.Writable) (writable' : t.Writable) (same : s.text = t.text) :
    s = t := by
  have read := ofText?_text writable
  rw [same,ofText?_text writable'] at read
  exact (Option.some.inj read).symm

end Descriptor

namespace Hierarchy
open Descriptor

-- The subtypes of the language, with what the direct parents say of its classes.
inductive Conforms (h : Hierarchy) : Descriptor → Descriptor → Prop where
  | same (t : Descriptor) : Conforms h t t
  | root {s : Descriptor} (reference : s.isReference = true) : Conforms h s .root
  | above {a b : String}
      (path : Relation.TransGen (Above h.parents?) (Descriptor.object a).text (Descriptor.object b).text) :
      Conforms h (.object a) (.object b)
  | array (of : Descriptor) {t : Descriptor} (member : t ∈ arrayInterfaces) : Conforms h (.array of) t
  | elements {s t : Descriptor} (reference : s.isReference = true) (conforms : Conforms h s t) :
      Conforms h (.array s) (.array t)

-- An instance test that comes to a number, or a cast that fails, for an instance of `s` and
-- the type `c`, with what it says to whether the one is of the other.
inductive Commits (h : Hierarchy) (s c : String) : Bool → Prop where
  | tests {i : Instr} {b : Bindings} {dest src n : Nat} {k : Int32} (action : i.action = .instanceOf dest src c)
      (holds : b.lookup (.numbered src) = some (.fresh s))
      (known : (i.run (Method.answer? h i b) b n).bindings.lookup (.numbered dest) = some (.int k)) :
      Commits h s c (k == 1)
  | fails {i : Instr} {b : Bindings} {reg : Nat} {t : Option String} (action : i.action = .checkCast reg c)
      (holds : b.lookup (.numbered reg) = some (.fresh s))
      (raises : (i.effect (Method.answer? h i b) b).flow = .raise t) : Commits h s c false

variable {h : Hierarchy}

theorem reduce_text {t : Descriptor} (writable : t.Writable) : reduce t.text = t.base.boxed := by
  unfold reduce
  rw [ofText?_text writable]

theorem Commits.answered {s c : String} {yes : Bool} (commits : Commits h s c yes) : h.isInstance s c = .ok yes := by
  cases commits with
  | @tests i b dest src n k action holds known =>
    have value := Bindings.read_of_lookup holds
    have asks : i.action.question? b = some (s,c) := by simp [Action.question?,action,value,Value.typeName]
    rw [Instr.run_bindings,Method.answer?_of_question asks] at known
    simp only [Instr.effect,action,value,Bindings.setAll,List.foldl_cons,List.foldl_nil,Bindings.lookup_set,
      if_true,Option.some.injEq] at known
    cases answer : h.isInstance s c with
    | error missing =>
      rw [answer] at known
      cases known
    | ok yes =>
      rw [answer] at known
      cases yes <;> cases known <;> rfl
  | @fails i b reg t action holds raises =>
    have value := Bindings.read_of_lookup holds
    have asks : i.action.question? b = some (s,c) := by simp [Action.question?,action,value,Value.typeName]
    rw [Method.answer?_of_question asks] at raises
    simp only [Instr.effect,action,value] at raises
    cases answer : h.isInstance s c with
    | error missing =>
      rw [answer] at raises
      cases raises
    | ok yes =>
      rw [answer] at raises
      cases yes with
      | true => cases raises
      | false => rfl

theorem Conforms.of_base {s c : Descriptor} (level : s.dims = c.dims) (reference : s.base.isReference = true)
    (conforms : Conforms h s.base c.base) : Conforms h s c := by
  induction s generalizing c with
  | array of ih =>
    cases c with
    | array of' => exact .elements (isReference_of_base reference) (ih (Nat.succ.inj level) reference conforms)
    | _ => cases level
  | _ =>
    cases c with
    | array of' => cases level
    | _ => exact conforms

theorem Conforms.of_deeper {s c : Descriptor} (deeper : c.dims < s.dims)
    (member : c.base ∈ Descriptor.root :: arrayInterfaces) : Conforms h s c := by
  induction c generalizing s with
  | array of ih =>
    cases s with
    | array of' =>
      have inner : of.dims < of'.dims := Nat.lt_of_succ_lt_succ deeper
      have reference : of'.isReference = true := by
        cases of' with
        | array _ => rfl
        | _ => cases inner
      exact .elements reference (ih inner member)
    | _ => cases deeper
  | _ =>
    cases s with
    | array of' =>
      rcases List.mem_cons.mp member with root | member
      · simp only [base] at root
        exact root ▸ .root rfl
      · exact .array of' member
    | _ => cases deeper

theorem Conforms.of_classes {a b : String} (writable : (Descriptor.object a).Writable)
    (writable' : (Descriptor.object b).Writable)
    (descends : Descends h.parents? (Descriptor.object a).text (Descriptor.object b).text) :
    Conforms h (.object a) (.object b) := by
  rcases descends with same | root | path
  · exact text_injective writable writable' same ▸ .same _
  · have root : Descriptor.object b = .root := text_injective writable' ⟨by decide,by decide⟩ root
    exact root ▸ .root rfl
  · exact .above path

theorem Conforms.cases {s c : Descriptor} (conforms : Conforms h s c) :
    s = c ∨
    (s.dims = c.dims ∧ s.base.isReference = true ∧ c.base.isReference = true ∧
      Descends h.parents? s.base.text c.base.text) ∨
    (c.dims < s.dims ∧ c.base ∈ Descriptor.root :: arrayInterfaces) := by
  induction conforms with
  | same t => exact Or.inl rfl
  | @root s reference =>
    cases s with
    | array of => exact Or.inr (Or.inr ⟨Nat.zero_lt_succ _,List.mem_cons_self⟩)
    | object name => exact Or.inr (Or.inl ⟨rfl,rfl,rfl,Or.inr (Or.inl rfl)⟩)
    | _ => cases reference
  | above path => exact Or.inr (Or.inl ⟨rfl,rfl,rfl,Or.inr (Or.inr path)⟩)
  | @array of t member =>
    refine Or.inr (Or.inr ?_)
    simp only [arrayInterfaces,List.mem_cons,List.not_mem_nil,or_false] at member
    rcases member with rfl | rfl
    · exact ⟨Nat.zero_lt_succ _,by decide⟩
    · exact ⟨Nat.zero_lt_succ _,by decide⟩
  | elements reference inner ih =>
    rcases ih with rfl | ⟨level,classes⟩ | ⟨deeper,member⟩
    · exact Or.inl rfl
    · exact Or.inr (Or.inl ⟨congrArg Nat.succ level,classes⟩)
    · exact Or.inr (Or.inr ⟨Nat.succ_lt_succ deeper,member⟩)

theorem conforms_iff_of_fails {s c : Descriptor} (fails : ¬ Descends h.parents? s.base.boxed c.base.boxed) :
    Conforms h s c ↔ c.dims < s.dims ∧ c.base ∈ arrayInterfaces := by
  constructor
  · intro conforms
    rcases conforms.cases with rfl | ⟨_,first,second,descends⟩ | ⟨deeper,member⟩
    · exact absurd (Or.inl rfl) fails
    · rw [boxed_of_reference first,boxed_of_reference second] at fails
      exact absurd descends fails
    · refine ⟨deeper,(List.mem_cons.mp member).resolve_left fun root => fails ?_⟩
      rw [root]
      exact Or.inr (Or.inl rfl)
  · exact fun deeper => .of_deeper deeper.1 (List.mem_cons_of_mem _ deeper.2)

theorem conforms_iff_of_descends {s c : Descriptor} (made : s.Writable) (asked : c.Writable)
    (descends : Descends h.parents? s.base.boxed c.base.boxed) :
    Conforms h s c ↔ s = c ∨ (s.dims = c.dims ∧ s.base.isReference = true ∧ c.base.isReference = true) ∨
      (c.dims < s.dims ∧ c.base ∈ Descriptor.root :: arrayInterfaces) := by
  constructor
  · intro conforms
    rcases conforms.cases with same | ⟨level,first,second,_⟩ | deeper
    · exact Or.inl same
    · exact Or.inr (Or.inl ⟨level,first,second⟩)
    · exact Or.inr (Or.inr deeper)
  · rintro (rfl | ⟨level,first,second⟩ | ⟨deeper,member⟩)
    · exact .same _
    · apply Conforms.of_base level first
      rw [boxed_of_reference first,boxed_of_reference second] at descends
      have made' := base_writable made
      have asked' := base_writable asked
      obtain ⟨a,named⟩ := base_object first
      obtain ⟨b,named'⟩ := base_object second
      rw [named] at made' descends ⊢
      rw [named'] at asked' descends ⊢
      exact .of_classes made' asked' descends
    · exact .of_deeper deeper member

-- A test and a cast go by the elements of arrays and by the classes that hold primitives. So
-- a "no" is wrong only where every array is of the class, and a "yes" is right for a type
-- itself, for classes and arrays of them of one depth, and for what every array is.
theorem commits_by_elements {s c : Descriptor} (made : s.Writable) (asked : c.Writable) {yes : Bool}
    (commits : Commits h s.text c.text yes) :
    (yes = true ↔ Descends h.parents? s.base.boxed c.base.boxed) ∧
    (yes = false → (Conforms h s c ↔ c.dims < s.dims ∧ c.base ∈ arrayInterfaces)) ∧
    (yes = true → (Conforms h s c ↔ s = c ∨
      (s.dims = c.dims ∧ s.base.isReference = true ∧ c.base.isReference = true) ∨
      (c.dims < s.dims ∧ c.base ∈ Descriptor.root :: arrayInterfaces))) := by
  have spec := h.isInstance_spec s.text c.text
  rw [commits.answered,reduce_text made,reduce_text asked] at spec
  cases yes with
  | false => exact ⟨⟨nofun,fun holds => absurd holds spec.1⟩,fun _ => conforms_iff_of_fails spec.1,nofun⟩
  | true => exact ⟨⟨fun _ => spec,fun _ => rfl⟩,nofun,fun _ => conforms_iff_of_descends made asked spec⟩

def holding (type : String) : Bindings := .set .empty (.numbered 0) (.fresh type)
def testing (type : String) : Instr := ⟨0,⟨0x20,"instance-of",.f22c,.risksSets,.instanceOf⟩,.instanceOf 1 0 type⟩
def casting (type : String) : Instr := ⟨0,⟨0x1f,"check-cast",.f21c,.risksSets,.checkCast⟩,.checkCast 0 type⟩

def library : Hierarchy := .fresh Platform.standard

theorem testing_commits {s c : String} (answered : library.isInstance s c = .ok true) : Commits library s c true := by
  have holds : (holding s).lookup (.numbered 0) = some (.fresh s) := rfl
  have asks : (testing c).action.question? (holding s) = some (s,c) := rfl
  refine .tests (i := testing c) (n := 2) (k := 1) rfl holds ?_
  rw [Instr.run_bindings,Method.answer?_of_question asks,answered]
  rfl

theorem casting_commits {s c : String} (answered : library.isInstance s c = .ok false) : Commits library s c false := by
  have holds : (holding s).lookup (.numbered 0) = some (.fresh s) := rfl
  have asks : (casting c).action.question? (holding s) = some (s,c) := rfl
  refine .fails (i := casting c) (t := some "Ljava/lang/ClassCastException;") rfl holds ?_
  rw [Method.answer?_of_question asks,answered]
  rfl

def strings : Descriptor := .array (.object "java/lang/String")

theorem strings_commit : Commits library strings.text "[Ljava/lang/CharSequence;" true ∧
    Conforms library strings (.array (.object "java/lang/CharSequence")) := by
  have commits : Commits library strings.text (Descriptor.array (.object "java/lang/CharSequence")).text true :=
    testing_commits (by decide +kernel)
  have made : strings.Writable := ⟨by decide,by decide⟩
  have asked : (Descriptor.array (.object "java/lang/CharSequence")).Writable := ⟨by decide,by decide⟩
  have spec := commits_by_elements made asked commits
  exact ⟨commits,(spec.2.2 rfl).mpr (Or.inr (Or.inl ⟨rfl,rfl,rfl⟩))⟩

-- An array of strings passes for a string and not for what every array is, though every type
-- on the way is known.
theorem strings_misjudged :
    (Commits library strings.text "Ljava/lang/String;" true ∧ ¬ Conforms library strings (.object "java/lang/String")) ∧
    (Commits library strings.text "Ljava/lang/Cloneable;" false ∧
      Conforms library strings (.object "java/lang/Cloneable")) ∧
    ∀ x, Upward library.parents? "Ljava/lang/String;" x → library.parents? x ≠ none := by
  have refused : library.isInstance strings.text "Ljava/lang/Cloneable;" = .ok false := by decide +kernel
  refine ⟨⟨testing_commits (by decide +kernel),fun conforms => ?_⟩,
    ⟨casting_commits refused,.array _ (by decide)⟩,((library.isInstance_exact _ _).2.2.mp refused).2⟩
  rcases conforms.cases with same | ⟨level,_⟩ | ⟨_,member⟩
  · cases same
  · cases level
  · revert member
    decide

end Hierarchy
end SmaliPrune
