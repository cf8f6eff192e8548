import Mathlib.Data.List.Dedup
import SmaliPrune.Graph.Exits
import SmaliPrune.Proofs.Search

namespace SmaliPrune.PlatformMemo

theorem remember_parents? (m : PlatformMemo) (name other : String) :
    (m.remember name).parents? other = m.parents? other := by
  unfold remember
  cases known : m.answers.lookup name with
  | some answer => rfl
  | none =>
    simp only [Option.isSome_none,Bool.false_eq_true,if_false]
    unfold parents?
    by_cases equal : other = name
    · subst other
      simp [known]
    · have differs : (other == name) = false := by simpa using equal
      simp [List.lookup_cons,differs]

theorem parents?_faithful (m : PlatformMemo) (faithful : m.Faithful) (name : String) :
    m.parents? name = m.platform.parents? name := by
  unfold parents?
  cases known : m.answers.lookup name with
  | none => rfl
  | some answer => exact faithful name answer known

theorem remember_platform (m : PlatformMemo) (name : String) : (m.remember name).platform = m.platform := by
  unfold remember
  split <;> rfl

theorem remember_faithful (m : PlatformMemo) (faithful : m.Faithful) (name : String) : (m.remember name).Faithful := by
  unfold remember
  split
  · exact faithful
  · intro other answer known
    dsimp only at known ⊢
    rw [List.lookup_cons] at known
    split at known
    · next same => rw [← Option.some.inj known,beq_iff_eq.mp same]
    · exact faithful other answer known

end SmaliPrune.PlatformMemo

namespace SmaliPrune.Hierarchy
open Search

-- The direct parents are all that the two tell apart; what was looked up before is not.
def Agrees (h k : Hierarchy) : Prop := ∀ name, h.parents? name = k.parents? name

theorem Agrees.refl (h : Hierarchy) : Agrees h h := fun _ => rfl

theorem Agrees.trans {h k l : Hierarchy} (first : Agrees h k) (second : Agrees k l) : Agrees h l :=
  fun name => (first name).trans (second name)

theorem remember_agrees (h : Hierarchy) (s : Search String) : Agrees (h.remember s) h := by
  have folded : ∀ (names : List String) (m : PlatformMemo) (name : String),
      (names.foldl (fun m x => if h.isLocal x then m else m.remember x) m).parents? name = m.parents? name := by
    intro names
    induction names with
    | nil => intro m name; rfl
    | cons x rest ih =>
      intro m name
      rw [List.foldl_cons,ih]
      split
      · rfl
      · exact m.remember_parents? x name
  intro name
  unfold parents? remember find?
  simp only [folded]

theorem askInstance_agrees (h : Hierarchy) (child target : String) : Agrees (h.askInstance child target).2 h := by
  unfold askInstance
  dsimp only
  split
  · exact .refl h
  · exact remember_agrees h _

theorem askAncestors_agrees (h : Hierarchy) (name : String) : Agrees (h.askAncestors name).2 h :=
  remember_agrees h _

def reach (table : String → List String) (keys : List String) : Nat := total (fun k => (table k).length) keys

theorem reach_le_add {f g : String → List String} {n : String} {most : Nat} {keys : List String}
    (unique : keys.Nodup) (here : (f n).length ≤ most) (elsewhere : ∀ k, k ≠ n → (f k).length ≤ (g k).length) :
    reach f keys ≤ most + reach g keys := by
  have outside : ∀ ks : List String, n ∉ ks → reach f ks ≤ reach g ks := by
    intro ks
    induction ks with
    | nil => intro _; exact Nat.le_refl _
    | cons k rest ih =>
      intro notIn
      have different : k ≠ n := fun equal => notIn (equal ▸ List.mem_cons_self)
      have := ih fun member => notIn (List.mem_cons_of_mem _ member)
      have := elsewhere k different
      simp only [reach,total] at *
      omega
  induction keys with
  | nil => simp [reach,total]
  | cons k rest ih =>
    obtain ⟨notIn,tail⟩ := List.nodup_cons.mp unique
    by_cases equal : k = n
    · subst k
      have := outside rest notIn
      simp only [reach,total] at *
      omega
    · have := ih tail
      have := elsewhere k equal
      simp only [reach,total] at *
      omega

theorem reach_classes (classes : List ClassHead) {keys : List String} (unique : keys.Nodup) :
    reach (fun k => ((classes.find? fun c => c.name == k).map ClassHead.parents).getD []) keys ≤
      total (fun c => c.parents.length) classes := by
  induction classes with
  | nil => simp [reach,total]
  | cons c rest ih =>
    refine Nat.le_trans (reach_le_add (n := c.name) unique ?_ ?_) (Nat.add_le_add_left ih _)
    · simp
    · intro k different
      have differs : (c.name == k) = false := by simpa using Ne.symm different
      simp [differs]

theorem reach_platform (platform : Platform) {keys : List String} (unique : keys.Nodup) :
    reach (fun k => (platform.lookup k).getD []) keys ≤ total (fun row => row.2.length) platform := by
  induction platform with
  | nil => simp [reach,total]
  | cons row rest ih =>
    obtain ⟨name,row⟩ := row
    refine Nat.le_trans (reach_le_add (n := name) unique ?_ ?_) (Nat.add_le_add_left ih _)
    · simp
    · intro k different
      have differs : (k == name) = false := by simpa using different
      simp [List.lookup_cons,differs]

theorem reach_answers (answers : List (String × Option (List String))) {keys : List String} (unique : keys.Nodup) :
    reach (fun k => ((answers.lookup k).getD none).getD []) keys ≤
      total (fun row => (row.2.getD []).length) answers := by
  induction answers with
  | nil => simp [reach,total]
  | cons row rest ih =>
    obtain ⟨name,row⟩ := row
    refine Nat.le_trans (reach_le_add (n := name) unique ?_ ?_) (Nat.add_le_add_left ih _)
    · simp
    · intro k different
      have differs : (k == name) = false := by simpa using different
      simp [List.lookup_cons,differs]

def listed (h : Hierarchy) : List String :=
  (h.classes.map ClassHead.name ++ h.platform.platform.map Prod.fst ++ h.platform.answers.map Prod.fst).dedup

theorem lookup_eq_none {β : Type} {rows : List (String × β)} {name : String} (absent : name ∉ rows.map Prod.fst) :
    rows.lookup name = none := by
  rw [List.lookup_eq_none_iff]
  intro row member
  have different : name ≠ row.1 := fun equal => absent (equal ▸ List.mem_map_of_mem member)
  simpa using different

theorem parents_eq_nil {h : Hierarchy} {name : String} (absent : name ∉ h.listed) : h.parents name = [] := by
  simp only [listed,List.mem_dedup,List.mem_append,not_or] at absent
  obtain ⟨⟨noClass,noRow⟩,noAnswer⟩ := absent
  have notFound : h.classes.find? (fun c => c.name == name) = none := by
    rw [List.find?_eq_none]
    intro c member same
    exact noClass (List.mem_map.mpr ⟨c,member,by simpa using same⟩)
  unfold parents parents? find? PlatformMemo.parents? Platform.parents?
  simp [notFound,lookup_eq_none noRow,lookup_eq_none noAnswer]

theorem parents_length_le (h : Hierarchy) (k : String) :
    (h.parents k).length ≤ ((h.find? k).map ClassHead.parents |>.getD []).length +
      ((h.platform.platform.lookup k).getD []).length + (((h.platform.answers.lookup k).getD none).getD []).length := by
  unfold parents parents? PlatformMemo.parents? Platform.parents?
  cases h.find? k with
  | some c => simp only [Option.getD_some,Option.map_some]; omega
  | none =>
    cases h.platform.answers.lookup k with
    | some answer => simp only [Option.getD_some]; omega
    | none => simp only [Option.getD_none]; omega

theorem reach_parents (h : Hierarchy) : reach h.parents h.listed + 2 ≤ h.budget := by
  have unique : h.listed.Nodup := List.nodup_dedup _
  have split : ∀ keys : List String, reach h.parents keys ≤
      reach (fun k => ((h.find? k).map ClassHead.parents).getD []) keys +
      reach (fun k => (h.platform.platform.lookup k).getD []) keys +
      reach (fun k => ((h.platform.answers.lookup k).getD none).getD []) keys := by
    intro keys
    induction keys with
    | nil => simp [reach,total]
    | cons k rest ih =>
      have := parents_length_le h k
      simp only [reach,total] at *
      omega
  have := split h.listed
  have := reach_classes h.classes unique
  have := reach_platform h.platform.platform unique
  have := reach_answers h.platform.answers unique
  simp only [budget,find?] at *
  omega

theorem owed_empty (next : String → List String) (keys : List String) : owed next keys ∅ = reach next keys := rfl

theorem enough_budget (h : Hierarchy) (name : String) : Enough h.parents h.budget [name] ∅ := by
  refine ⟨h.listed,List.nodup_dedup _,fun x absent => parents_eq_nil absent,?_⟩
  have := h.reach_parents
  rw [owed_empty]
  simp only [List.length_singleton]
  omega

theorem climb_agrees {h k : Hierarchy} (agrees : Agrees h k) (target : Option String) (name : String) :
    h.climb target name = k.climb target name := by
  have same : h.parents = k.parents := by
    funext x
    unfold parents
    rw [agrees x]
  have enough := h.enough_budget name
  unfold climb start
  rw [same] at enough ⊢
  exact run_enough enough (k.enough_budget name)

theorem isInstance_agrees {h k : Hierarchy} (agrees : Agrees h k) (child target : String) :
    h.isInstance child target = k.isInstance child target := by
  unfold isInstance unresolved?
  have same : h.parents? = k.parents? := funext agrees
  rw [climb_agrees agrees,same]

theorem ancestors_agrees {h k : Hierarchy} (agrees : Agrees h k) (name : String) :
    h.ancestors name = k.ancestors name := by
  unfold ancestors unresolved?
  have same : h.parents? = k.parents? := funext agrees
  rw [climb_agrees agrees,same]

end SmaliPrune.Hierarchy

namespace SmaliPrune
open Hierarchy

theorem catches?_agrees {h k : Hierarchy} (agrees : Agrees h k) (handler : Handler) (thrown : Option String) :
    handler.catches? h thrown = handler.catches? k thrown := by
  unfold Handler.catches?
  simp only [isInstance_agrees agrees]

theorem catchers_agrees {h k : Hierarchy} (agrees : Agrees h k) (thrown : Option String) (handlers : List Handler) :
    catchers h thrown handlers = catchers k thrown handlers := by
  induction handlers with
  | nil => rfl
  | cons handler rest ih => simp only [catchers,catches?_agrees agrees,ih]

theorem askHandler_agrees (h : Hierarchy) (type thrown : Option String) :
    Agrees (match type,thrown with
      | some type,some thrown => (h.askInstance thrown type).2
      | _,_ => h) h := by
  split
  · exact askInstance_agrees h _ _
  · exact .refl h

theorem rememberCatchers_agrees (thrown : Option String) (handlers : List Handler) (h : Hierarchy) :
    Agrees (rememberCatchers thrown handlers h) h := by
  induction handlers generalizing h with
  | nil => exact .refl h
  | cons handler rest ih =>
    simp only [rememberCatchers]
    split
    · exact askHandler_agrees h handler.type thrown
    · exact (ih _).trans (askHandler_agrees h handler.type thrown)

namespace Method

theorem exceptionTargets_agrees {h k : Hierarchy} (agrees : Agrees h k) (m : Method) (address : Nat)
    (thrown : Option String) : m.exceptionTargets h address thrown = m.exceptionTargets k address thrown := by
  unfold exceptionTargets
  rw [catchers_agrees agrees]

theorem answer?_of_question {h : Hierarchy} {i : Instr} {b : Bindings} {child target : String}
    (asks : i.action.question? b = some (child,target)) : answer? h i b = (h.isInstance child target).toOption := by
  unfold answer?
  rw [asks]
  rfl

theorem answer?_agrees {h k : Hierarchy} (agrees : Agrees h k) (i : Instr) (b : Bindings) :
    answer? h i b = answer? k i b := by
  unfold answer?
  simp only [isInstance_agrees agrees]

theorem exits_agrees {h k : Hierarchy} (agrees : Agrees h k) (m : Method) (i : Instr) (b : Bindings) :
    m.exits h i b = m.exits k i b := by
  unfold exits
  simp only [answer?_agrees agrees,exceptionTargets_agrees agrees]

theorem rememberExits_agrees (m : Method) (h : Hierarchy) (i : Instr) (b : Bindings) :
    Agrees (m.rememberExits h i b) h := by
  unfold rememberExits
  cases question : i.action.question? b with
  | none =>
    dsimp only
    split
    · exact rememberCatchers_agrees _ _ _
    · exact .refl h
  | some q =>
    have asked := askInstance_agrees h q.1 q.2
    dsimp only
    split
    · exact (rememberCatchers_agrees _ _ _).trans asked
    · exact asked

end Method
end SmaliPrune
