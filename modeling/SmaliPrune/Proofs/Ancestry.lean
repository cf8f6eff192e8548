import SmaliPrune.Proofs.Hierarchy

namespace SmaliPrune.Hierarchy

inductive Call where
  | isInstance (child target : String)
  | ancestors (name : String)
  | add (c : ClassHead)

def serve (h : Hierarchy) : Call → Hierarchy
  | .isInstance child target => (h.askInstance child target).2
  | .ancestors name => (h.askAncestors name).2
  | .add c => h.add c

def after (h : Hierarchy) (calls : List Call) : Hierarchy := calls.foldl serve h

def grown (platform : Platform) (calls : List Call) : Hierarchy := (fresh platform).after calls

def added : List Call → List ClassHead
  | [] => []
  | .add c :: rest => added rest ++ [c]
  | _ :: rest => added rest

-- The direct parents of a type: those of the class of that name that was taken in last, and
-- of a type that is not local those that the platform gives.
def declared? (platform : Platform) (calls : List Call) (name : String) : Option (List String) :=
  match (added calls).find? fun c => c.name == name with
  | some c => some c.parents
  | none => platform.parents? name

def Above (parents? : String → Option (List String)) (a b : String) : Prop := ∃ ps, parents? a = some ps ∧ b ∈ ps

-- The subtype order: a type is one of itself and of the root of all, and of what is above.
def Descends (parents? : String → Option (List String)) (child target : String) : Prop :=
  child = target ∨ target = objectType ∨ Relation.TransGen (Above parents?) child target

theorem Descends.imp {parents? others? : String → Option (List String)} {child target : String}
    (paths : Relation.TransGen (Above parents?) child target → Relation.TransGen (Above others?) child target)
    (holds : Descends parents? child target) : Descends others? child target :=
  holds.imp_right (Or.imp_right paths)

abbrev Upward (parents? : String → Option (List String)) : String → String → Prop :=
  Relation.ReflTransGen (Above parents?)

section
variable (h : Hierarchy)

theorem mem_parents {a b : String} : b ∈ h.parents a ↔ Above h.parents? a b := by
  unfold parents Above
  cases h.parents? a with
  | none => simp
  | some ps => simp

theorem reaches_eq : Search.Reaches h.parents = Upward h.parents? := by
  have same : (fun a b => b ∈ h.parents a) = Above h.parents? := funext fun _ => funext fun _ => propext h.mem_parents
  unfold Search.Reaches
  rw [same]

theorem climb_halted_iff (target name : String) :
    (h.climb (some target) name).halted = true ↔ Relation.TransGen (Above h.parents?) name target := by
  apply (Search.start_halted_iff (h.enough_budget name)).trans
  rw [reaches_eq,Relation.TransGen.tail'_iff]
  constructor
  · rintro ⟨x,root,y,path,stops⟩
    rw [List.mem_singleton.mp root] at path
    exact ⟨y,path,h.mem_parents.mp (List.contains_iff_mem.mp stops)⟩
  · rintro ⟨y,path,step⟩
    exact ⟨name,List.mem_singleton_self name,y,path,List.contains_iff_mem.mpr (h.mem_parents.mpr step)⟩

theorem climb_none_halted (name : String) : (h.climb none name).halted = false := by
  apply Bool.eq_false_iff.mpr
  intro halted
  obtain ⟨_,_,_,_,stops⟩ := (Search.start_halted_iff (h.enough_budget name)).mp halted
  cases stops

theorem climb_expanded_iff {target : Option String} {name : String} (ends : (h.climb target name).halted = false)
    (x : String) : x ∈ (h.climb target name).expanded ↔ Upward h.parents? name x := by
  apply (Search.start_expanded_iff (h.enough_budget name) ends x).trans
  rw [reaches_eq]
  simp

theorem unresolved?_some {target : Option String} {name missing : String} (ends : (h.climb target name).halted = false)
    (found : h.unresolved? (h.climb target name) = some missing) :
    Upward h.parents? name missing ∧ h.parents? missing = none := by
  have member := List.mem_reverse.mp (List.mem_of_find?_eq_some found)
  have unknown : (h.parents? missing).isNone = true := List.find?_some (p := fun x => (h.parents? x).isNone) found
  exact ⟨(h.climb_expanded_iff ends missing).mp member,Option.isNone_iff_eq_none.mp unknown⟩

theorem unresolved?_none {target : Option String} {name : String} (ends : (h.climb target name).halted = false)
    (found : h.unresolved? (h.climb target name) = none) {x : String} (path : Upward h.parents? name x) :
    h.parents? x ≠ none := by
  have member := List.mem_reverse.mpr ((h.climb_expanded_iff ends x).mpr path)
  exact fun unknown => List.find?_eq_none.mp found x member (Option.isNone_iff_eq_none.mpr unknown)

theorem settled_iff (child target : String) :
    settled child target = true ↔ reduce child = reduce target ∨ reduce target = objectType := by
  simp [settled]

theorem isInstance_spec (child target : String) :
    match h.isInstance child target with
    | .ok true => Descends h.parents? (reduce child) (reduce target)
    | .ok false => ¬ Descends h.parents? (reduce child) (reduce target) ∧
        ∀ x, Upward h.parents? (reduce child) x → h.parents? x ≠ none
    | .error missing => ¬ Descends h.parents? (reduce child) (reduce target) ∧
        Upward h.parents? (reduce child) missing ∧ h.parents? missing = none := by
  have climbed := h.climb_halted_iff (reduce target) (reduce child)
  unfold isInstance
  cases trivial' : settled child target with
  | true =>
    rcases (settled_iff child target).mp trivial' with same | root
    · exact Or.inl same
    · exact Or.inr (Or.inl root)
  | false =>
    simp only [Bool.false_eq_true,if_false]
    cases halted : (h.climb (some (reduce target)) (reduce child)).halted with
    | true => exact Or.inr (Or.inr (climbed.mp halted))
    | false =>
      have fails : ¬ Descends h.parents? (reduce child) (reduce target) := by
        rintro (same | root | path)
        · exact Bool.eq_false_iff.mp trivial' ((settled_iff child target).mpr (Or.inl same))
        · exact Bool.eq_false_iff.mp trivial' ((settled_iff child target).mpr (Or.inr root))
        · exact Bool.eq_false_iff.mp halted (climbed.mpr path)
      cases found : h.unresolved? (h.climb (some (reduce target)) (reduce child)) with
      | some missing => exact ⟨fails,h.unresolved?_some halted found⟩
      | none => exact ⟨fails,fun x => h.unresolved?_none halted found⟩

theorem ancestors_spec (name : String) :
    match h.ancestors name with
    | .ok found => (∀ x, x ∈ found ↔ x ≠ name ∧ Upward h.parents? name x) ∧
        ((∃ x, x ≠ name ∧ Upward h.parents? name x) ∨ h.parents? name ≠ none)
    | .error missing => missing = name ∧ h.parents? name = none ∧ ∀ x, Upward h.parents? name x → x = name := by
  have ends := h.climb_none_halted name
  have above : ∀ x, x ∈ (h.climb none name).expanded.filter (fun x => x != name) ↔
      x ≠ name ∧ Upward h.parents? name x := by
    intro x
    rw [List.mem_filter,h.climb_expanded_iff ends,bne_iff_ne,and_comm]
  have listed : ∀ (found : List String) x, x ∈ (Std.TreeSet.ofList found).toList ↔ x ∈ found := by
    intro found x
    rw [Std.TreeSet.mem_toList,Std.TreeSet.mem_ofList,List.contains_iff_mem]
  unfold ancestors
  dsimp only
  cases beyond : (h.climb none name).expanded.filter (fun x => x != name) with
  | nil =>
    rw [beyond] at above
    have alone : ∀ x, Upward h.parents? name x → x = name := fun x path =>
      Classical.byContradiction fun other => List.not_mem_nil ((above x).mpr ⟨other,path⟩)
    cases found : h.unresolved? (h.climb none name) with
    | some missing =>
      obtain ⟨path,unknown⟩ := h.unresolved?_some ends found
      have same := alone missing path
      exact ⟨same,same ▸ unknown,alone⟩
    | none => exact ⟨fun x => (listed [] x).trans (above x),Or.inr (h.unresolved?_none ends found .refl)⟩
  | cons first rest =>
    rw [beyond] at above
    exact ⟨fun x => (listed _ x).trans (above x),Or.inl ⟨first,(above first).mp List.mem_cons_self⟩⟩

theorem isInstance_exact (child target : String) :
    (h.isInstance child target = .ok true ↔ Descends h.parents? (reduce child) (reduce target)) ∧
    ((∃ missing, h.isInstance child target = .error missing) ↔
      ¬ Descends h.parents? (reduce child) (reduce target) ∧
        ∃ x, Upward h.parents? (reduce child) x ∧ h.parents? x = none) ∧
    (h.isInstance child target = .ok false ↔
      ¬ Descends h.parents? (reduce child) (reduce target) ∧
        ∀ x, Upward h.parents? (reduce child) x → h.parents? x ≠ none) := by
  have spec := h.isInstance_spec child target
  cases answer : h.isInstance child target with
  | error missing =>
    rw [answer] at spec
    obtain ⟨fails,path,unknown⟩ := spec
    refine ⟨⟨nofun,fun holds => absurd holds fails⟩,⟨fun _ => ?_,fun _ => ⟨missing,rfl⟩⟩,⟨nofun,fun both => ?_⟩⟩
    · exact ⟨fails,missing,path,unknown⟩
    · exact absurd unknown (both.2 missing path)
  | ok answered =>
    cases answered with
    | true =>
      rw [answer] at spec
      exact ⟨⟨fun _ => spec,fun _ => rfl⟩,⟨nofun,fun both => absurd spec both.1⟩,⟨nofun,fun both => absurd spec both.1⟩⟩
    | false =>
      rw [answer] at spec
      obtain ⟨fails,resolved⟩ := spec
      refine ⟨⟨nofun,fun holds => absurd holds fails⟩,⟨nofun,?_⟩,⟨fun _ => ⟨fails,resolved⟩,fun _ => rfl⟩⟩
      rintro ⟨_,x,path,unknown⟩
      exact absurd unknown (resolved x path)

theorem ancestors_exact (name : String) :
    ((∃ missing, h.ancestors name = .error missing) ↔
      (∀ x, Upward h.parents? name x → x = name) ∧ h.parents? name = none) ∧
    ∀ found, h.ancestors name = .ok found → ∀ x, x ∈ found ↔ x ≠ name ∧ Upward h.parents? name x := by
  have spec := h.ancestors_spec name
  cases answer : h.ancestors name with
  | error missing =>
    rw [answer] at spec
    exact ⟨⟨fun _ => ⟨spec.2.2,spec.2.1⟩,fun _ => ⟨missing,rfl⟩⟩,nofun⟩
  | ok found =>
    rw [answer] at spec
    obtain ⟨members,some'⟩ := spec
    refine ⟨⟨nofun,?_⟩,fun _ same => Except.ok.inj same ▸ members⟩
    rintro ⟨alone,unknown⟩
    rcases some' with ⟨x,other,path⟩ | resolved
    · exact absurd (alone x path) other
    · exact absurd unknown resolved

end

theorem find?_add (h : Hierarchy) (c : ClassHead) (name : String) :
    (h.add c).find? name = if c.name == name then some c else h.find? name := by
  unfold find? add
  rw [List.find?_cons]
  cases same : c.name == name with
  | true => rfl
  | false =>
    have kept : (fun d : ClassHead => decide ((d.name != c.name) = true ∧ (d.name == name) = true)) =
        fun d => d.name == name := by
      funext d
      by_cases here : d.name = name
      · have different : name ≠ c.name := fun equal => Bool.eq_false_iff.mp same (beq_iff_eq.mpr equal.symm)
        simp [here,different]
      · simp [here]
    rw [List.find?_filter,kept]
    rfl

theorem add_parents? (h : Hierarchy) (c : ClassHead) (name : String) :
    (h.add c).parents? name = if c.name == name then some c.parents else h.parents? name := by
  unfold parents?
  rw [find?_add]
  cases c.name == name <;> rfl

theorem after_parents? (h : Hierarchy) (calls : List Call) (name : String) :
    (h.after calls).parents? name =
      match (added calls).find? fun c => c.name == name with
      | some c => some c.parents
      | none => h.parents? name := by
  induction calls generalizing h with
  | nil => rfl
  | cons call rest ih =>
    cases call with
    | isInstance child target => exact (ih _).trans (by rw [serve,askInstance_agrees h child target name]; rfl)
    | ancestors other => exact (ih _).trans (by rw [serve,askAncestors_agrees h other name]; rfl)
    | add c =>
      apply (ih (h.add c)).trans
      rw [added,List.find?_append]
      cases (added rest).find? fun c => c.name == name with
      | some d => rfl
      | none =>
        rw [add_parents?,Option.none_or,List.find?_singleton]
        cases c.name == name <;> rfl

theorem after_declared (platform : Platform) (calls : List Call) :
    (grown platform calls).parents? = declared? platform calls := by
  funext name
  exact after_parents? (fresh platform) calls name

theorem remember_keeps (h : Hierarchy) (s : Search String) (faithful : h.platform.Faithful) :
    (h.remember s).platform.platform = h.platform.platform ∧ (h.remember s).platform.Faithful := by
  have folded : ∀ (names : List String) (m : PlatformMemo), m.Faithful →
      (names.foldl (fun m x => if h.isLocal x then m else m.remember x) m).platform = m.platform ∧
        (names.foldl (fun m x => if h.isLocal x then m else m.remember x) m).Faithful := by
    intro names
    induction names with
    | nil => exact fun m right => ⟨rfl,right⟩
    | cons x rest ih =>
      intro m right
      rw [List.foldl_cons]
      split
      · exact ih m right
      · obtain ⟨same,right'⟩ := ih (m.remember x) (m.remember_faithful right x)
        exact ⟨same.trans (m.remember_platform x),right'⟩
  exact folded _ _ faithful

theorem serve_keeps (h : Hierarchy) (call : Call) (faithful : h.platform.Faithful) :
    (h.serve call).platform.platform = h.platform.platform ∧ (h.serve call).platform.Faithful := by
  cases call with
  | isInstance child target =>
    unfold serve askInstance
    dsimp only
    split
    · exact ⟨rfl,faithful⟩
    · exact h.remember_keeps _ faithful
  | ancestors name => exact h.remember_keeps _ faithful
  | add c => exact ⟨rfl,faithful⟩

theorem after_keeps (h : Hierarchy) (calls : List Call) (faithful : h.platform.Faithful) :
    (h.after calls).platform.platform = h.platform.platform ∧ (h.after calls).platform.Faithful := by
  induction calls generalizing h with
  | nil => exact ⟨rfl,faithful⟩
  | cons call rest ih =>
    obtain ⟨same,right⟩ := h.serve_keeps call faithful
    obtain ⟨same',right'⟩ := ih (h.serve call) right
    exact ⟨same'.trans same,right'⟩

theorem grown_keeps (platform : Platform) (calls : List Call) :
    (grown platform calls).platform.platform = platform ∧ (grown platform calls).platform.Faithful :=
  after_keeps (fresh platform) calls nofun

theorem memo_agrees (h : Hierarchy) (faithful : h.platform.Faithful) {memo : PlatformMemo}
    (same : memo.platform = h.platform.platform) (right : memo.Faithful) : Agrees { h with platform := memo } h := by
  intro name
  have answers : memo.parents? name = h.platform.parents? name := by
    rw [memo.parents?_faithful right,h.platform.parents?_faithful faithful,same]
  unfold parents?
  rw [answers]
  rfl

-- Whatever classes there are and whatever was asked before, the answers are those of the
-- subtype order that the declared parents make. Calls after which the same is declared are
-- followed by the same answers; and what is remembered of the platform, which is always
-- right, may as well be anything else that is.
theorem answers_exact (platform : Platform) (calls : List Call) :
    (∀ child target,
      ((grown platform calls).isInstance child target = .ok true ↔
        Descends (declared? platform calls) (reduce child) (reduce target)) ∧
      ((∃ missing, (grown platform calls).isInstance child target = .error missing) ↔
        ¬ Descends (declared? platform calls) (reduce child) (reduce target) ∧
          ∃ x, Upward (declared? platform calls) (reduce child) x ∧ declared? platform calls x = none) ∧
      ((grown platform calls).isInstance child target = .ok false ↔
        ¬ Descends (declared? platform calls) (reduce child) (reduce target) ∧
          ∀ x, Upward (declared? platform calls) (reduce child) x → declared? platform calls x ≠ none)) ∧
    (∀ name,
      ((∃ missing, (grown platform calls).ancestors name = .error missing) ↔
        (∀ x, Upward (declared? platform calls) name x → x = name) ∧ declared? platform calls name = none) ∧
      ∀ found, (grown platform calls).ancestors name = .ok found →
        ∀ x, x ∈ found ↔ x ≠ name ∧ Upward (declared? platform calls) name x) ∧
    (∀ others, declared? platform others = declared? platform calls →
      (grown platform others).isInstance = (grown platform calls).isInstance ∧
        (grown platform others).ancestors = (grown platform calls).ancestors) ∧
    (grown platform calls).platform.Faithful ∧
    ∀ memo : PlatformMemo, memo.platform = platform → memo.Faithful →
      ({ grown platform calls with platform := memo } : Hierarchy).isInstance = (grown platform calls).isInstance ∧
        ({ grown platform calls with platform := memo } : Hierarchy).ancestors = (grown platform calls).ancestors := by
  obtain ⟨kept,faithful⟩ := grown_keeps platform calls
  have answers : ∀ {h k : Hierarchy}, Agrees h k → h.isInstance = k.isInstance ∧ h.ancestors = k.ancestors :=
    fun agrees => ⟨funext fun _ => funext fun _ => isInstance_agrees agrees _ _,funext fun _ => ancestors_agrees agrees _⟩
  refine ⟨fun child target => ?_,fun name => ?_,fun others same => answers fun name => ?_,faithful,
    fun memo same right => answers (memo_agrees _ faithful (same.trans kept.symm) right)⟩
  · rw [← after_declared]
    exact isInstance_exact _ child target
  · rw [← after_declared]
    exact ancestors_exact _ name
  · rw [after_declared,after_declared,same]

end SmaliPrune.Hierarchy
