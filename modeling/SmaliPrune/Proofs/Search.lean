import Mathlib.Logic.Relation
import SmaliPrune.Search
import SmaliPrune.Total

namespace SmaliPrune.Search
variable {α : Type} [Ord α] {next : α → List α} {halt : α → Bool}

def Reaches (next : α → List α) : α → α → Prop := Relation.ReflTransGen fun a b => b ∈ next a

-- The items that the unexpanded ones among `keys` still lead to, counted once for each way.
def owed (next : α → List α) (keys : List α) (seen : Std.TreeSet α) : Nat :=
  total (fun k => if seen.contains k then 0 else (next k).length) keys

def Enough (next : α → List α) (budget : Nat) (stack : List α) (seen : Std.TreeSet α) : Prop :=
  ∃ keys : List α, keys.Nodup ∧ (∀ x, x ∉ keys → next x = []) ∧ stack.length + owed next keys seen < budget

theorem enough_pop {x : α} {stack : List α} {seen : Std.TreeSet α} {budget : Nat}
    (enough : Enough next (budget + 1) (x :: stack) seen) : Enough next budget stack seen := by
  obtain ⟨keys,unique,leaves,bound⟩ := enough
  refine ⟨keys,unique,leaves,?_⟩
  simp only [List.length_cons] at bound
  omega

-- What was expanded does not halt, and what it leads to was expanded or waits.
def Closed (next : α → List α) (halt : α → Bool) (stack : List α) (seen : Std.TreeSet α) : Prop :=
  ∀ x, seen.contains x = true → halt x = false ∧ ∀ y ∈ next x, seen.contains y = true ∨ y ∈ stack

theorem waits_of_reaches {stack : List α} {seen : Std.TreeSet α} {x y : α} (closed : Closed next halt stack seen)
    (path : Reaches next x y) (inside : seen.contains x = true) (outside : seen.contains y = false) :
    ∃ z ∈ stack, seen.contains z = false ∧ Reaches next z y := by
  induction path using Relation.ReflTransGen.head_induction_on with
  | refl => exact absurd inside (by rw [outside]; exact Bool.false_ne_true)
  | @head x z step rest ih =>
    cases known : seen.contains z with
    | true => exact ih known
    | false =>
      rcases (closed x inside).2 z step with old | waits
      · exact absurd old (by rw [known]; exact Bool.false_ne_true)
      · exact ⟨z,waits,known,rest⟩

theorem closed_pop {x : α} {stack : List α} {seen : Std.TreeSet α} (closed : Closed next halt (x :: stack) seen)
    (known : seen.contains x = true) : Closed next halt stack seen := by
  intro y inside
  refine ⟨(closed y inside).1,fun z step => ?_⟩
  rcases (closed y inside).2 z step with old | waits
  · exact Or.inl old
  · rcases List.mem_cons.mp waits with rfl | waits
    · exact Or.inl known
    · exact Or.inr waits

theorem reaches_pop {x y : α} {stack : List α} {seen : Std.TreeSet α} (closed : Closed next halt (x :: stack) seen)
    (known : seen.contains x = true) (outside : seen.contains y = false) :
    (∃ z ∈ x :: stack, Reaches next z y) ↔ ∃ z ∈ stack, Reaches next z y := by
  constructor
  · rintro ⟨z,member,path⟩
    rcases List.mem_cons.mp member with rfl | member
    · obtain ⟨w,waits,fresh,path⟩ := waits_of_reaches closed path known outside
      rcases List.mem_cons.mp waits with rfl | waits
      · exact absurd known (by rw [fresh]; exact Bool.false_ne_true)
      · exact ⟨w,waits,path⟩
    · exact ⟨z,member,path⟩
  · rintro ⟨z,member,path⟩
    exact ⟨z,List.mem_cons_of_mem _ member,path⟩

omit [Ord α] in
theorem reaches_expand {x y : α} {stack : List α} :
    (∃ z ∈ x :: stack, Reaches next z y) ↔ y = x ∨ ∃ z ∈ (next x).reverse ++ stack, Reaches next z y := by
  constructor
  · rintro ⟨z,member,path⟩
    rcases List.mem_cons.mp member with rfl | member
    · rcases Relation.ReflTransGen.cases_head path with rfl | ⟨w,step,path⟩
      · exact Or.inl rfl
      · exact Or.inr ⟨w,List.mem_append_left _ (List.mem_reverse.mpr step),path⟩
    · exact Or.inr ⟨z,List.mem_append_right _ member,path⟩
  · rintro (rfl | ⟨z,member,path⟩)
    · exact ⟨y,List.mem_cons_self,.refl⟩
    · rcases List.mem_append.mp member with step | member
      · exact ⟨x,List.mem_cons_self,.head (List.mem_reverse.mp step) path⟩
      · exact ⟨z,List.mem_cons_of_mem _ member,path⟩

theorem closed_empty (stack : List α) : Closed next halt stack ∅ := by
  intro x inside
  rw [Std.TreeSet.contains_emptyc] at inside
  cases inside

section
variable [Std.TransOrd α] [Std.LawfulEqOrd α]

theorem contains_insert (seen : Std.TreeSet α) (x y : α) :
    (seen.insert x).contains y = true ↔ x = y ∨ seen.contains y = true := by
  rw [Std.TreeSet.contains_insert,Bool.or_eq_true,beq_iff_eq,Std.LawfulEqOrd.compare_eq_iff_eq]

theorem owed_other {x : α} (keys : List α) (seen : Std.TreeSet α) (other : x ∉ keys) :
    owed next keys (seen.insert x) = owed next keys seen := by
  unfold owed
  refine total_congr fun k member => ?_
  have different : x ≠ k := fun equal => other (equal ▸ member)
  have same : (seen.insert x).contains k = seen.contains k := by
    rw [Bool.eq_iff_iff,contains_insert]
    exact ⟨fun h => h.resolve_left different,Or.inr⟩
  rw [same]

theorem owed_insert {x : α} (keys : List α) (seen : Std.TreeSet α) (unique : keys.Nodup) (member : x ∈ keys)
    (fresh : seen.contains x = false) :
    owed next keys (seen.insert x) + (next x).length = owed next keys seen := by
  induction keys with
  | nil => cases member
  | cons k rest ih =>
    obtain ⟨notIn,tail⟩ := List.nodup_cons.mp unique
    have split : ∀ s : Std.TreeSet α,
        owed next (k :: rest) s = (if s.contains k then 0 else (next k).length) + owed next rest s := fun _ => rfl
    rw [split,split]
    by_cases equal : x = k
    · subst k
      have now : (seen.insert x).contains x = true := (contains_insert _ _ _).mpr (Or.inl rfl)
      rw [owed_other rest seen notIn,now,fresh]
      simp only [if_true,Bool.false_eq_true,if_false]
      omega
    · have inRest : x ∈ rest := (List.mem_cons.mp member).resolve_left equal
      have same : (seen.insert x).contains k = seen.contains k := by
        rw [Bool.eq_iff_iff,contains_insert]
        exact ⟨fun h => h.resolve_left equal,Or.inr⟩
      have := ih tail inRest
      rw [same]
      omega

theorem enough_expand {x : α} {stack : List α} {seen : Std.TreeSet α} {budget : Nat}
    (enough : Enough next (budget + 1) (x :: stack) seen) (fresh : seen.contains x = false) :
    Enough next budget ((next x).reverse ++ stack) (seen.insert x) := by
  obtain ⟨keys,unique,leaves,bound⟩ := enough
  refine ⟨keys,unique,leaves,?_⟩
  simp only [List.length_cons] at bound
  rw [List.length_append,List.length_reverse]
  by_cases member : x ∈ keys
  · have paid : owed next keys (seen.insert x) + (next x).length = owed next keys seen :=
      owed_insert keys seen unique member fresh
    omega
  · rw [owed_other keys seen member,leaves x member]
    simp only [List.length_nil]
    omega

theorem run_enough {budget more : Nat} {stack : List α} {seen : Std.TreeSet α} {expanded : List α}
    (enough : Enough next budget stack seen) (also : Enough next more stack seen) :
    run next halt budget stack seen expanded = run next halt more stack seen expanded := by
  induction budget generalizing more stack seen expanded with
  | zero =>
    obtain ⟨_,_,_,bound⟩ := enough
    exact absurd bound (Nat.not_lt_zero _)
  | succ budget ih =>
    cases more with
    | zero =>
      obtain ⟨_,_,_,bound⟩ := also
      exact absurd bound (Nat.not_lt_zero _)
    | succ more =>
      cases stack with
      | nil => rfl
      | cons x stack =>
        simp only [run]
        cases known : seen.contains x with
        | true => exact ih (enough_pop enough) (enough_pop also)
        | false =>
          cases halts : halt x with
          | true => rfl
          | false => exact ih (enough_expand enough known) (enough_expand also known)

theorem closed_expand {x : α} {stack : List α} {seen : Std.TreeSet α} (closed : Closed next halt (x :: stack) seen)
    (passes : halt x = false) : Closed next halt ((next x).reverse ++ stack) (seen.insert x) := by
  intro y inside
  rcases (contains_insert seen x y).mp inside with rfl | inside
  · refine ⟨passes,fun z step => Or.inr ?_⟩
    exact List.mem_append_left _ (List.mem_reverse.mpr step)
  · refine ⟨(closed y inside).1,fun z step => ?_⟩
    rcases (closed y inside).2 z step with old | waits
    · exact Or.inl ((contains_insert seen x z).mpr (Or.inr old))
    · rcases List.mem_cons.mp waits with rfl | waits
      · exact Or.inl ((contains_insert seen z z).mpr (Or.inl rfl))
      · exact Or.inr (List.mem_append_right _ waits)

theorem run_halted_iff {budget : Nat} {stack : List α} {seen : Std.TreeSet α} {expanded : List α}
    (enough : Enough next budget stack seen) (closed : Closed next halt stack seen) :
    (run next halt budget stack seen expanded).halted = true ↔
      ∃ y, (∃ x ∈ stack, Reaches next x y) ∧ halt y = true := by
  induction budget generalizing stack seen expanded with
  | zero =>
    obtain ⟨_,_,_,bound⟩ := enough
    exact absurd bound (Nat.not_lt_zero _)
  | succ budget ih =>
    cases stack with
    | nil => simp [run]
    | cons x stack =>
      simp only [run]
      cases known : seen.contains x with
      | true =>
        simp only [if_true]
        apply (ih (enough_pop enough) (closed_pop closed known)).trans
        apply exists_congr
        intro y
        apply and_congr_left
        intro halts
        have outside : seen.contains y = false := by
          cases inside : seen.contains y with
          | false => rfl
          | true => exact absurd halts (by rw [(closed y inside).1]; exact Bool.false_ne_true)
        exact (reaches_pop closed known outside).symm
      | false =>
        simp only [Bool.false_eq_true,if_false]
        cases halts : halt x with
        | true =>
          simp only [if_true,true_iff]
          exact ⟨x,⟨x,List.mem_cons_self,.refl⟩,halts⟩
        | false =>
          simp only [Bool.false_eq_true,if_false]
          apply (ih (enough_expand enough known) (closed_expand closed halts)).trans
          apply exists_congr
          intro y
          apply and_congr_left
          intro stop
          have other : y ≠ x := fun same => by rw [same,halts] at stop; cases stop
          exact ⟨fun path => reaches_expand.mpr (Or.inr path),fun path => (reaches_expand.mp path).resolve_left other⟩

theorem start_halted_iff {budget : Nat} {stack : List α} (enough : Enough next budget stack ∅) :
    (start next halt budget stack).halted = true ↔ ∃ x ∈ stack, ∃ y, Reaches next x y ∧ halt y = true := by
  apply (run_halted_iff enough (closed_empty stack)).trans
  constructor
  · rintro ⟨y,⟨x,member,path⟩,halts⟩
    exact ⟨x,member,y,path,halts⟩
  · rintro ⟨x,member,y,path,halts⟩
    exact ⟨y,⟨x,member,path⟩,halts⟩

theorem run_expanded_iff {budget : Nat} {stack : List α} {seen : Std.TreeSet α} {expanded : List α}
    (enough : Enough next budget stack seen) (closed : Closed next halt stack seen)
    (same : ∀ y, seen.contains y = true ↔ y ∈ expanded)
    (ends : (run next halt budget stack seen expanded).halted = false) (y : α) :
    y ∈ (run next halt budget stack seen expanded).expanded ↔ y ∈ expanded ∨ ∃ x ∈ stack, Reaches next x y := by
  induction budget generalizing stack seen expanded with
  | zero =>
    obtain ⟨_,_,_,bound⟩ := enough
    exact absurd bound (Nat.not_lt_zero _)
  | succ budget ih =>
    cases stack with
    | nil => simp [run]
    | cons x stack =>
      simp only [run] at ends ⊢
      cases known : seen.contains x with
      | true =>
        simp only [known,if_true] at ends ⊢
        apply (ih (enough_pop enough) (closed_pop closed known) same ends).trans
        cases inside : seen.contains y with
        | true => simp only [(same y).mp inside,true_or]
        | false => exact or_congr_right (reaches_pop closed known inside).symm
      | false =>
        simp only [known,Bool.false_eq_true,if_false] at ends ⊢
        cases halts : halt x with
        | true =>
          simp only [halts,if_true] at ends
          cases ends
        | false =>
          simp only [halts,Bool.false_eq_true,if_false] at ends ⊢
          have same' : ∀ y, (seen.insert x).contains y = true ↔ y ∈ x :: expanded := by
            intro y
            rw [contains_insert,same y,List.mem_cons,eq_comm]
          apply (ih (enough_expand enough known) (closed_expand closed halts) same' ends).trans
          rw [reaches_expand,List.mem_cons]
          exact or_assoc.trans or_left_comm

theorem start_expanded_iff {budget : Nat} {stack : List α} (enough : Enough next budget stack ∅)
    (ends : (start next halt budget stack).halted = false) (y : α) :
    y ∈ (start next halt budget stack).expanded ↔ ∃ x ∈ stack, Reaches next x y := by
  refine (run_expanded_iff enough (closed_empty stack) (fun y => ?_) ends y).trans ?_
  · simp
  · simp

end
end SmaliPrune.Search
