import SmaliPrune.Proofs.Ancestry
import SmaliPrune.Proofs.Paths

namespace SmaliPrune

namespace Hierarchy
variable {h k : Hierarchy}

def Extends (h k : Hierarchy) : Prop := ∀ name ps, h.parents? name = some ps → k.parents? name = some ps

theorem Extends.above (more : Extends h k) {a b : String} (step : Above h.parents? a b) : Above k.parents? a b := by
  obtain ⟨ps,known,member⟩ := step
  exact ⟨ps,more a ps known,member⟩

theorem Extends.below (more : Extends h k) {a b : String} (resolved : h.parents? a ≠ none)
    (step : Above k.parents? a b) : Above h.parents? a b := by
  obtain ⟨ps,known,member⟩ := step
  obtain ⟨qs,known'⟩ := Option.ne_none_iff_exists'.mp resolved
  obtain rfl := Option.some.inj (known.symm.trans (more a qs known'))
  exact ⟨ps,known',member⟩

theorem Extends.upward (more : Extends h k) {child x : String}
    (resolved : ∀ y, Upward h.parents? child y → h.parents? y ≠ none) (path : Upward k.parents? child x) :
    Upward h.parents? child x := by
  induction path with
  | refl => exact .refl
  | tail _ step ih => exact ih.tail (more.below (resolved _ ih) step)

theorem Extends.isInstance (more : Extends h k) {child target : String} {answer : Bool}
    (certain : h.isInstance child target = .ok answer) : k.isInstance child target = .ok answer := by
  cases answer with
  | true =>
    apply (k.isInstance_exact child target).1.mpr
    apply Descends.imp (Relation.TransGen.mono (fun _ _ => more.above) _ _)
    exact (h.isInstance_exact child target).1.mp certain
  | false =>
    obtain ⟨fails,resolved⟩ := (h.isInstance_exact child target).2.2.mp certain
    apply (k.isInstance_exact child target).2.2.mpr
    refine ⟨fun holds => fails (holds.imp fun path => ?_),fun x path => ?_⟩
    · obtain ⟨y,path,step⟩ := Relation.TransGen.tail'_iff.mp path
      have path' := more.upward resolved path
      exact .tail' path' (more.below (resolved y path') step)
    · obtain ⟨ps,known⟩ := Option.ne_none_iff_exists'.mp (resolved x (more.upward resolved path))
      rw [more x ps known]
      exact Option.some_ne_none ps

theorem grown_extends {platform : Platform} {calls later : List Call}
    (undeclared : ∀ c ∈ added later, declared? platform calls c.name = none) :
    Extends (grown platform calls) (grown platform (calls ++ later)) := by
  intro name ps known
  have grows : grown platform (calls ++ later) = (grown platform calls).after later := List.foldl_append
  rw [grows,after_parents?]
  cases found : (added later).find? fun c => c.name == name with
  | none => exact known
  | some c =>
    have named : c.name = name := beq_iff_eq.mp (List.find?_some (p := fun c : ClassHead => c.name == name) found)
    rw [after_declared,← named,undeclared c (List.mem_of_find?_eq_some found)] at known
    cases known

end Hierarchy

theorem Handler.catches?_extends {h k : Hierarchy} (more : h.Extends k) {c : Handler} {thrown : Option String}
    {answer : Bool} (certain : c.catches? h thrown = some answer) : c.catches? k thrown = some answer := by
  unfold catches? at certain ⊢
  cases type : c.type with
  | none => simpa only [type] using certain
  | some type' =>
    cases thrown with
    | none => simp only [type] at certain; cases certain
    | some thrown =>
      simp only [type] at certain ⊢
      cases asked : h.isInstance thrown type' with
      | error missing => rw [asked] at certain; cases certain
      | ok found =>
        rw [asked] at certain
        rw [more.isInstance asked]
        exact certain

theorem Handler.may_catch_unknown (c : Handler) (h : Hierarchy) : c.catches? h none ≠ some false := by
  unfold catches?
  cases c.type with
  | none => exact nofun
  | some type => exact nofun

theorem mem_catchers {h : Hierarchy} {thrown : Option String} {handlers : List Handler} {c : Handler} :
    c ∈ catchers h thrown handlers ↔ ∃ before rest, handlers = before ++ c :: rest ∧
      c.catches? h thrown ≠ some false ∧ ∀ b ∈ before, b.catches? h thrown ≠ some true := by
  induction handlers with
  | nil => simp [catchers]
  | cons handler rest ih =>
    have split : (∃ before behind, handler :: rest = before ++ c :: behind ∧ c.catches? h thrown ≠ some false ∧
        ∀ b ∈ before, b.catches? h thrown ≠ some true) ↔
        (c = handler ∧ handler.catches? h thrown ≠ some false) ∨
          (handler.catches? h thrown ≠ some true ∧ c ∈ catchers h thrown rest) := by
      rw [ih]
      constructor
      · rintro ⟨before,behind,same,may,none'⟩
        cases before with
        | nil =>
          obtain ⟨rfl,_⟩ := List.cons.inj same
          exact Or.inl ⟨rfl,may⟩
        | cons b before =>
          obtain ⟨rfl,same'⟩ := List.cons.inj same
          refine Or.inr ⟨none' handler List.mem_cons_self,before,behind,same',may,fun b member => ?_⟩
          exact none' b (List.mem_cons_of_mem _ member)
      · rintro (⟨rfl,may⟩ | ⟨first,before,behind,rfl,may,none'⟩)
        · exact ⟨[],rest,rfl,may,fun b member => absurd member List.not_mem_nil⟩
        · exact ⟨handler :: before,behind,rfl,may,List.forall_mem_cons.mpr ⟨first,none'⟩⟩
    rw [split,catchers]
    cases handler.catches? h thrown with
    | none => simp
    | some certain => cases certain <;> simp

theorem catchers_until {h : Hierarchy} {thrown : Option String} {before behind : List Handler} {c : Handler}
    (certain : c.catches? h thrown = some true) :
    ∀ d ∈ catchers h thrown (before ++ c :: behind), d ∈ before ++ [c] := by
  induction before with
  | nil =>
    simp only [List.nil_append,catchers,certain]
    exact fun d member => member
  | cons b rest ih =>
    intro d member
    simp only [List.cons_append,catchers] at member ⊢
    split at member
    · exact List.mem_cons.mpr (Or.inl (List.mem_singleton.mp member))
    · exact List.mem_cons_of_mem _ (ih d member)
    · exact List.mem_cons.mpr ((List.mem_cons.mp member).imp_right (ih d))

theorem catchers_first {h : Hierarchy} {thrown : Option String} {before behind : List Handler} {c : Handler}
    (rejects : ∀ b ∈ before, b.catches? h thrown = some false) (certain : c.catches? h thrown = some true) :
    catchers h thrown (before ++ c :: behind) = [c] := by
  induction before with
  | nil => simp only [List.nil_append,catchers,certain]
  | cons b rest ih =>
    obtain ⟨first,others⟩ := List.forall_mem_cons.mp rejects
    simp only [List.cons_append,catchers,first]
    exact ih others

def rank (h : Hierarchy) (thrown : Option String) (handlers : List Handler) (x : Nat) : Nat :=
  handlers.findIdx fun c => c.entry == x && c.catches? h thrown != some false

theorem rank_cons {h : Hierarchy} {thrown : Option String} {c : Handler} {rest : List Handler} {x : Nat}
    (other : c.entry ≠ x ∨ c.catches? h thrown = some false) :
    rank h thrown (c :: rest) x = rank h thrown rest x + 1 := by
  have passes : (c.entry == x && c.catches? h thrown != some false) = false := by
    rcases other with elsewhere | rejects
    · simp [elsewhere]
    · simp [rejects]
  rw [rank,List.findIdx_cons,passes]
  rfl

-- Each address once and in that order. `keep` stands for those not listed yet.
theorem catchers_ranked (h : Hierarchy) (thrown : Option String) (handlers : List Handler) (keep : Nat → Bool) :
    (((catchers h thrown handlers).map Handler.entry).filter keep).eraseDups.Pairwise fun x y =>
      rank h thrown handlers x < rank h thrown handlers y := by
  induction handlers generalizing keep with
  | nil => exact .nil
  | cons c rest ih =>
    rw [catchers]
    cases answer : c.catches? h thrown with
    | some certain =>
      cases certain with
      | true =>
        dsimp only [List.map_cons,List.map_nil]
        cases kept : keep c.entry with
        | true => simp [kept,List.eraseDups_cons]
        | false => simp [kept]
      | false =>
        apply (ih keep).imp
        intro x y less
        rw [rank_cons (Or.inr answer),rank_cons (Or.inr answer)]
        omega
    | none =>
      have first : rank h thrown (c :: rest) c.entry = 0 := by
        rw [rank,List.findIdx_cons,beq_self_eq_true,answer]
        rfl
      have behind : ∀ keep : Nat → Bool, keep c.entry = false →
          ∀ x ∈ (((catchers h thrown rest).map Handler.entry).filter keep).eraseDups,
            rank h thrown (c :: rest) x = rank h thrown rest x + 1 := by
        intro keep listed x member
        obtain ⟨_,kept⟩ := List.mem_filter.mp (List.mem_eraseDups.mp member)
        refine rank_cons (Or.inl fun same => ?_)
        rw [same,kept] at listed
        cases listed
      have ranked : ∀ keep : Nat → Bool, keep c.entry = false →
          (((catchers h thrown rest).map Handler.entry).filter keep).eraseDups.Pairwise fun x y =>
            rank h thrown (c :: rest) x < rank h thrown (c :: rest) y := by
        intro keep listed
        apply (ih keep).imp_of_mem
        intro x y one other less
        rw [behind keep listed x one,behind keep listed y other]
        omega
      cases kept : keep c.entry with
      | false =>
        rw [List.map_cons,List.filter_cons_of_neg (by simp [kept])]
        exact ranked keep kept
      | true =>
        rw [List.map_cons,List.filter_cons_of_pos kept,List.eraseDups_cons,List.filter_filter,List.pairwise_cons]
        refine ⟨fun x member => ?_,ranked _ (by simp)⟩
        rw [first,behind _ (by simp) x member]
        exact Nat.succ_pos _

namespace Method
open Hierarchy

-- Whoever is found to catch an exception once more classes are known was among those that
-- might: the first handler then certain to, and of an exception of unknown type any up to
-- the first that catches everything. No place is listed twice, they come in the order of
-- the handlers that may catch, and none is listed for handlers behind one certain to.
theorem exceptionTargets_sound (m : Method) (a : Nat) (thrown : Option String) (platform : Platform)
    (calls later : List Call) (undeclared : ∀ c ∈ added later, declared? platform calls c.name = none) :
    (∀ before c behind, m.handlersFor a = before ++ c :: behind →
      (∀ b ∈ before, b.catches? (grown platform (calls ++ later)) thrown ≠ some true) →
      (c.catches? (grown platform (calls ++ later)) thrown = some true ∨ thrown = none) →
      c.entry ∈ m.exceptionTargets (grown platform calls) a thrown) ∧
    (m.exceptionTargets (grown platform calls) a thrown).Nodup ∧
    ((m.exceptionTargets (grown platform calls) a thrown).Pairwise fun x y =>
      rank (grown platform calls) thrown (m.handlersFor a) x <
        rank (grown platform calls) thrown (m.handlersFor a) y) ∧
    ∀ before c behind, m.handlersFor a = before ++ c :: behind →
      c.catches? (grown platform calls) thrown = some true →
      ∀ x ∈ m.exceptionTargets (grown platform calls) a thrown, ∃ d ∈ before ++ [c], d.entry = x := by
  have more := grown_extends undeclared
  have ranked := catchers_ranked (grown platform calls) thrown (m.handlersFor a) fun _ => true
  rw [List.filter_true] at ranked
  refine ⟨fun before c behind listed none' catches => ?_,?_,ranked,fun before c behind listed certain x member => ?_⟩
  · apply mem_exceptionTargets.mpr
    refine ⟨c,mem_catchers.mpr ⟨before,behind,listed,fun rejects => ?_,fun b member certain => ?_⟩,rfl⟩
    · rcases catches with certain | rfl
      · rw [Handler.catches?_extends more rejects] at certain
        cases certain
      · exact c.may_catch_unknown _ rejects
    · exact none' b member (Handler.catches?_extends more certain)
  · apply ranked.imp
    intro x y less same
    rw [same] at less
    exact Nat.lt_irrefl _ less
  · obtain ⟨d,may,entry⟩ := mem_exceptionTargets.mp member
    rw [listed] at may
    exact ⟨d,catchers_until certain d may,entry⟩

def guarding : Method := {
  owner := "Lguard;", name := "run", proto := ⟨[],.void⟩, isStatic := true, registers := 1
  tries := [⟨0,1,[⟨some "Lbase;",1⟩,⟨none,2⟩]⟩]
  code := [⟨0,⟨0x27,"throw",.f11x,.raises,.throw⟩,.throw 0⟩,
    ⟨1,⟨0x0e,"return-void",.f10x,.leaves,.returnVoid⟩,.leave none⟩,
    ⟨2,⟨0x0e,"return-void",.f10x,.leaves,.returnVoid⟩,.leave none⟩] }

theorem guarding_sound :
    (∀ c ∈ added [.add ⟨"Lmiddle;",some "Lbase;",[]⟩],
      declared? [] [.add ⟨"Lleaf;",some "Lmiddle;",[]⟩] c.name = none) ∧
    (⟨some "Lbase;",1⟩ : Handler).catches? (grown [] [.add ⟨"Lleaf;",some "Lmiddle;",[]⟩]) (some "Lleaf;") = none ∧
    (⟨some "Lbase;",1⟩ : Handler).catches?
      (grown [] [.add ⟨"Lleaf;",some "Lmiddle;",[]⟩,.add ⟨"Lmiddle;",some "Lbase;",[]⟩]) (some "Lleaf;") = some true ∧
    1 ∈ guarding.exceptionTargets (grown [] [.add ⟨"Lleaf;",some "Lmiddle;",[]⟩]) 0 (some "Lleaf;") := by
  have undeclared : ∀ c ∈ added [.add ⟨"Lmiddle;",some "Lbase;",[]⟩],
      declared? [] [.add ⟨"Lleaf;",some "Lmiddle;",[]⟩] c.name = none := by decide +kernel
  have catches : (⟨some "Lbase;",1⟩ : Handler).catches?
      (grown [] [.add ⟨"Lleaf;",some "Lmiddle;",[]⟩,.add ⟨"Lmiddle;",some "Lbase;",[]⟩])
      (some "Lleaf;") = some true := by decide +kernel
  have sound := (guarding.exceptionTargets_sound 0 (some "Lleaf;") [] _ _ undeclared).1
  exact ⟨undeclared,by decide +kernel,catches,sound [] _ _ rfl nofun (Or.inl catches)⟩

end Method

end SmaliPrune
