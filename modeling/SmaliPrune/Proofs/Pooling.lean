import Mathlib
import SmaliPrune.Proofs.Widening

namespace SmaliPrune

def Value.isNaN : Value → Bool
  | .float x => x.isNaN
  | .double x => x.isNaN
  | _ => false

theorem Value.same_itself (v : Value) : v.same v = !v.isNaN := by
  cases v with
  | float x =>
    rw [same,isNaN,Bool.eq_iff_iff,Float32.beq_self_iff,Float32.isNaN_eq_decide_eq_nan]
    simp
  | double x =>
    rw [same,isNaN,Bool.eq_iff_iff,Float.beq_self_iff,Float.isNaN_eq_decide_eq_nan]
    simp
  | _ => simp [same,isNaN]

theorem Value.number_of_same {v w : Value} (same : w.same v = true) : v.isNaN = false := by
  cases v with
  | float x =>
    cases w with
    | float y => exact Float32.isNaN_eq_decide_eq_nan.trans (decide_eq_false (Float32.beq_iff_ne_nan_and_eq.mp same).2.1)
    | _ => cases same
  | double x =>
    cases w with
    | double y => exact Float.isNaN_eq_decide_eq_nan.trans (decide_eq_false (Float.beq_iff_ne_nan_and_eq.mp same).2.1)
    | _ => cases same
  | _ => rfl

namespace Value

-- What is left of a value next to all that other paths have in its register: not even its
-- type if one has another type there, itself if all have the same, and else its type.
def pooled (v : Value) (seen : List (Option Value)) : Value :=
  if seen.any fun o => o.any fun w => w.typeName != v.typeName then .unknown "?"
  else if seen.all fun o => o.any fun w => w.same v then v
  else .unknown v.typeName

theorem pooled_differing {v w : Value} {seen : List (Option Value)} (found : some w ∈ seen)
    (types : w.typeName ≠ v.typeName) : v.pooled seen = .unknown "?" := by
  have differing : (seen.any fun o => o.any fun w => w.typeName != v.typeName) = true :=
    List.any_eq_true.mpr ⟨some w,found,by simpa using types⟩
  unfold pooled
  rw [if_pos differing]

theorem pooled_agreeing {v : Value} {seen : List (Option Value)} (agree : ∀ o ∈ seen, ∃ w, o = some w ∧ w.same v = true) :
    v.pooled seen = v := by
  have alike : ¬ (seen.any fun o => o.any fun w => w.typeName != v.typeName) = true := by
    intro differing
    obtain ⟨o,found,other⟩ := List.any_eq_true.mp differing
    obtain ⟨w,rfl,same⟩ := agree o found
    simp [typeName_of_same same] at other
  have all : (seen.all fun o => o.any fun w => w.same v) = true := by
    refine List.all_eq_true.mpr fun o found => ?_
    obtain ⟨w,rfl,same⟩ := agree o found
    exact same
  unfold pooled
  rw [if_neg alike,if_pos all]

theorem pooled_typed {v : Value} {seen : List (Option Value)} (types : ∀ w, some w ∈ seen → w.typeName = v.typeName)
    {o : Option Value} (found : o ∈ seen) (unequal : ∀ w, o = some w → w.same v = false) :
    v.pooled seen = .unknown v.typeName := by
  have alike : ¬ (seen.any fun o => o.any fun w => w.typeName != v.typeName) = true := by
    intro differing
    obtain ⟨o,found,other⟩ := List.any_eq_true.mp differing
    cases o with
    | none => cases other
    | some w => simp [types w found] at other
  have notAll : ¬ (seen.all fun o => o.any fun w => w.same v) = true := by
    intro all
    have same := List.all_eq_true.mp all o found
    cases o with
    | none => cases same
    | some w =>
      rw [Option.any_some,unequal w rfl] at same
      cases same
  unfold pooled
  rw [if_neg alike,if_neg notAll]

theorem pooled_cases (v : Value) (seen : List (Option Value)) :
    (∃ w, some w ∈ seen ∧ w.typeName ≠ v.typeName) ∨ (∀ o ∈ seen, ∃ w, o = some w ∧ w.same v = true) ∨
      ((∀ w, some w ∈ seen → w.typeName = v.typeName) ∧ ∃ o ∈ seen, ∀ w, o = some w → w.same v = false) := by
  by_cases types : ∃ w, some w ∈ seen ∧ w.typeName ≠ v.typeName
  · exact Or.inl types
  · by_cases agree : ∀ o ∈ seen, ∃ w, o = some w ∧ w.same v = true
    · exact Or.inr (Or.inl agree)
    · push Not at types agree
      obtain ⟨o,found,unequal⟩ := agree
      exact Or.inr (Or.inr ⟨types,o,found,fun w here => by simpa using unequal w here⟩)

theorem pooled_kept (v : Value) (seen : List (Option Value)) : v.pooled seen = v ∨ (v.pooled seen).isUnknown = true := by
  rcases pooled_cases v seen with ⟨w,found,types⟩ | agree | ⟨types,o,found,unequal⟩
  · exact Or.inr (by rw [pooled_differing found types]; rfl)
  · exact Or.inl (pooled_agreeing agree)
  · exact Or.inr (by rw [pooled_typed types found unequal]; rfl)

theorem pooled_congr {v : Value} {seen again : List (Option Value)} (members : ∀ o, o ∈ again ↔ o ∈ seen) :
    v.pooled again = v.pooled seen := by
  rcases pooled_cases v seen with ⟨w,found,types⟩ | agree | ⟨types,o,found,unequal⟩
  · rw [pooled_differing found types,pooled_differing ((members _).mpr found) types]
  · rw [pooled_agreeing agree,pooled_agreeing fun o found => agree o ((members o).mp found)]
  · rw [pooled_typed types found unequal,
      pooled_typed (fun w found => types w ((members _).mp found)) ((members o).mpr found) unequal]

theorem pooled_untyped (seen : List (Option Value)) : (unknown "?").pooled seen = .unknown "?" := by
  rcases pooled_cases (.unknown "?") seen with ⟨w,found,types⟩ | agree | ⟨types,o,found,unequal⟩
  · exact pooled_differing found types
  · exact pooled_agreeing agree
  · exact pooled_typed types found unequal

theorem pooled_append (v : Value) (seen more : List (Option Value)) :
    v.pooled (seen ++ more) = (v.pooled seen).pooled more := by
  rcases pooled_cases v seen with ⟨w,found,types⟩ | agree | ⟨types,o,found,unequal⟩
  · rw [pooled_differing found types,pooled_untyped,pooled_differing (List.mem_append_left more found) types]
  · have alike : ∀ w, some w ∈ seen → w.typeName = v.typeName := by
      intro w found
      obtain ⟨u,here,same⟩ := agree _ found
      rw [Option.some.inj here]
      exact typeName_of_same same
    rw [pooled_agreeing agree]
    rcases pooled_cases v more with ⟨w,found,types⟩ | agree' | ⟨types,o,found,unequal⟩
    · rw [pooled_differing found types,pooled_differing (List.mem_append_right seen found) types]
    · rw [pooled_agreeing agree',pooled_agreeing fun o found => (List.mem_append.mp found).elim (agree o) (agree' o)]
    · rw [pooled_typed types found unequal]
      exact pooled_typed (fun w found => (List.mem_append.mp found).elim (alike w) (types w))
        (List.mem_append_right seen found) unequal
  · rw [pooled_typed types found unequal]
    -- Only another type can still change anything, as the value itself is forgotten.
    by_cases alike : ∀ w, some w ∈ more → w.typeName = v.typeName
    · have kept : (unknown v.typeName).pooled more = .unknown v.typeName := by
        rcases pooled_cases (.unknown v.typeName) more with ⟨w,found,types⟩ | agree | ⟨types,o,found,unequal⟩
        · exact absurd (alike w found) types
        · exact pooled_agreeing agree
        · exact pooled_typed types found unequal
      rw [kept]
      exact pooled_typed (fun w found => (List.mem_append.mp found).elim (types w) (alike w))
        (List.mem_append_left more found) unequal
    · push Not at alike
      obtain ⟨w,found,types⟩ := alike
      rw [pooled_differing (List.mem_append_right seen found) types,pooled_differing (v := .unknown v.typeName) found types]

theorem relax_pooled (o : Option Value) (v : Value) : Bindings.relax o v = v.pooled [o] := by
  unfold Bindings.relax
  split
  · exact (pooled_typed (by simp) (List.mem_singleton_self none) nofun).symm
  · next w =>
    split
    · next same => exact (pooled_agreeing fun o found => ⟨w,List.mem_singleton.mp found,same⟩).symm
    · next unequal =>
      split
      · next types =>
        refine (pooled_typed (fun u found => ?_) (List.mem_singleton_self (some w)) fun u here => ?_).symm
        · rw [Option.some.inj (List.mem_singleton.mp found)]
          exact beq_iff_eq.mp types
        · rw [← Option.some.inj here]
          exact Bool.eq_false_iff.mpr unequal
      · next types => exact (pooled_differing (List.mem_singleton_self (some w)) (by simpa using types)).symm

theorem pooled_number {v : Value} {seen : List (Option Value)} (compared : seen ≠ [] ∨ v.isNaN = false) :
    (v.pooled seen).isNaN = false := by
  rcases pooled_cases v seen with ⟨w,found,types⟩ | agree | ⟨types,o,found,unequal⟩
  · rw [pooled_differing found types]
    rfl
  · rw [pooled_agreeing agree]
    rcases compared with some | number
    · obtain ⟨o,found⟩ := List.exists_mem_of_ne_nil seen some
      obtain ⟨w,_,same⟩ := agree o found
      exact number_of_same same
    · exact number
  · rw [pooled_typed types found unequal]
    rfl

theorem pooled_again {v : Value} {seen again : List (Option Value)} (compared : seen ≠ [] ∨ v.isNaN = false)
    (members : ∀ o, o ∈ again ↔ o ∈ seen ∨ o = some (v.pooled seen)) : (v.pooled seen).pooled again = v.pooled seen := by
  have twice : (v.pooled seen).pooled seen = v.pooled seen := by
    rw [← pooled_append]
    exact pooled_congr fun o => by simp
  have itself : (v.pooled seen).pooled [some (v.pooled seen)] = v.pooled seen := by
    refine pooled_agreeing fun o found => ⟨_,List.mem_singleton.mp found,?_⟩
    rw [same_itself,pooled_number compared]
    rfl
  calc (v.pooled seen).pooled again
      = (v.pooled seen).pooled (seen ++ [some (v.pooled seen)]) := pooled_congr fun o => by simp [members]
    _ = ((v.pooled seen).pooled seen).pooled [some (v.pooled seen)] := pooled_append _ _ _
    _ = v.pooled seen := by rw [twice,itself]

end Value

namespace Bindings

theorem map_map (b : Bindings) (f g : Register → Value → Value) : (b.map f).map g = b.map fun r v => g r (f r v) := by
  simp [map]

theorem map_of_lookup {b : Bindings} {f g : Register → Value → Value}
    (agree : ∀ r v, b.lookup r = some v → f r v = g r v) : b.map f = b.map g := by
  have entries : (b.entries.map fun e => (e.1,f e.1 e.2)) = b.entries.map fun e => (e.1,g e.1 e.2) :=
    List.map_congr_left fun e member => by rw [agree _ _ (find?_of_mem b.sorted member)]
  simp only [map,entries]

theorem widened_pooled (b : Bindings) (others : List Bindings) :
    b.widened others = b.map fun r v => v.pooled (others.map (·.lookup r)) := by
  induction others generalizing b with
  | nil =>
    have kept : (b.map fun r v => v.pooled []) = b := by simp [map,Value.pooled]
    exact kept.symm
  | cons other rest ih =>
    have first : b.widened (other :: rest) = (b.map fun r v => relax (other.lookup r) v).widened rest := rfl
    rw [first,ih,map_map]
    refine map_of_lookup fun r v _ => ?_
    rw [List.map_cons,← List.singleton_append,Value.pooled_append,Value.relax_pooled]

def Numbers (b : Bindings) : Prop := ∀ r v, b.lookup r = some v → v.isNaN = false

theorem Numbers.same {b : Bindings} (numbers : Numbers b) : b.same b = true := by
  refine same_of_lookup fun r => ?_
  cases found : b.lookup r with
  | none => exact Or.inl ⟨rfl,rfl⟩
  | some v =>
    refine Or.inr ⟨v,v,rfl,rfl,?_⟩
    rw [Value.same_itself,numbers r v found]
    rfl

end Bindings

namespace PathState

theorem widened_enter (b : Bindings) (others : List Bindings) (n : Nat) :
    (enter b n).widened (others.map fun other => enter other n) = enter (b.widened others) n := by
  unfold widened
  rw [List.map_map]
  exact congrArg (fun seen => enter (b.widened seen) n) (List.map_id others)

def seen (others : List PathState) (r : Register) : List (Option Value) := others.map (·.bindings.lookup r)

theorem mem_seen {others : List PathState} {r : Register} {o : Option Value} :
    o ∈ seen others r ↔ ∃ other ∈ others, other.bindings.lookup r = o := List.mem_map

theorem widened_bindings (s : PathState) (others : List PathState) :
    (s.widened others).bindings = s.bindings.map fun r v => v.pooled (seen others r) := by
  unfold widened seen enter
  rw [Bindings.widened_pooled]
  simp only [List.map_map]
  rfl

theorem widened_lookup (s : PathState) (others : List PathState) (r : Register) :
    (s.widened others).bindings.lookup r = (s.bindings.lookup r).map fun v => v.pooled (seen others r) := by
  rw [widened_bindings,Bindings.lookup_map]

structure Pools (s : PathState) (others : List PathState) (w : PathState) : Prop where
  history : w.reads = [] ∧ w.assigns = [] ∧ w.registers = s.registers
  domain : ∀ r, (w.bindings.lookup r).isSome = (s.bindings.lookup r).isSome
  untyped : ∀ r v, s.bindings.lookup r = some v →
    (∃ other ∈ others, ∃ x, other.bindings.lookup r = some x ∧ x.typeName ≠ v.typeName) →
    w.bindings.lookup r = some (.unknown "?")
  agreed : ∀ r v, s.bindings.lookup r = some v →
    (∀ other ∈ others, ∃ x, other.bindings.lookup r = some x ∧ x.same v = true) → w.bindings.lookup r = some v
  typed : ∀ r v, s.bindings.lookup r = some v →
    (∀ other ∈ others, ∀ x, other.bindings.lookup r = some x → x.typeName = v.typeName) →
    (∃ other ∈ others, ∀ x, other.bindings.lookup r = some x → x.same v = false) →
    w.bindings.lookup r = some (.unknown v.typeName)
  covered : ∀ r u, w.bindings.lookup r = some u → s.bindings.lookup r = some u ∨ u.isUnknown = true
  unordered : ∀ again, (∀ other, other ∈ again ↔ other ∈ others) → s.widened again = w
  stable : others ≠ [] ∨ s.bindings.Numbers → ∀ again, (∀ other, other ∈ again ↔ other ∈ others ∨ other = w) →
    w.widened again = w ∧ (w.widened again).bindings.same w.bindings = true

theorem widened_unordered (s : PathState) {others again : List PathState}
    (members : ∀ other, other ∈ again ↔ other ∈ others) : s.widened again = s.widened others := by
  have bindings : (s.widened again).bindings = (s.widened others).bindings := by
    rw [widened_bindings,widened_bindings]
    refine Bindings.map_of_lookup fun r v _ => Value.pooled_congr fun o => ?_
    simp only [mem_seen,members]
  exact congrArg (fun b => enter b s.registers) bindings

theorem widened_numbers (s : PathState) {others : List PathState} (compared : others ≠ [] ∨ s.bindings.Numbers) :
    (s.widened others).bindings.Numbers := by
  intro r u wide
  rw [widened_lookup] at wide
  obtain ⟨v,found,rfl⟩ := Option.map_eq_some_iff.mp wide
  exact Value.pooled_number (compared.imp (fun some => by simpa [seen] using some) fun numbers => numbers r v found)

theorem widened_again (s : PathState) {others again : List PathState} (compared : others ≠ [] ∨ s.bindings.Numbers)
    (members : ∀ other, other ∈ again ↔ other ∈ others ∨ other = s.widened others) :
    (s.widened others).widened again = s.widened others := by
  have bindings : ((s.widened others).widened again).bindings = (s.widened others).bindings := by
    rw [widened_bindings,widened_bindings,Bindings.map_map]
    refine Bindings.map_of_lookup fun r v found => Value.pooled_again ?_ fun o => ?_
    · exact compared.imp (fun some => by simpa [seen] using some) fun numbers => numbers r v found
    · have itself : (s.widened others).bindings.lookup r = some (v.pooled (seen others r)) := by
        rw [widened_lookup,found]
        rfl
      simp only [mem_seen,members,or_and_right,exists_or,exists_eq_left,itself]
      exact or_congr Iff.rfl eq_comm
  exact congrArg (fun b => enter b s.registers) bindings

theorem widening_pools (s : PathState) (others : List PathState) : Pools s others (s.widened others) where
  history := ⟨rfl,rfl,rfl⟩
  domain r := by rw [widened_lookup,Option.isSome_map]
  untyped r v bound := by
    rintro ⟨other,member,x,found,types⟩
    rw [widened_lookup,bound,Option.map_some,Value.pooled_differing (mem_seen.mpr ⟨other,member,found⟩) types]
  agreed r v bound agree := by
    rw [widened_lookup,bound,Option.map_some,Value.pooled_agreeing fun o held => ?_]
    obtain ⟨other,member,rfl⟩ := mem_seen.mp held
    exact agree other member
  typed r v bound types := by
    rintro ⟨other,member,unequal⟩
    rw [widened_lookup,bound,Option.map_some,
      Value.pooled_typed (fun x held => ?_) (mem_seen.mpr ⟨other,member,rfl⟩) unequal]
    obtain ⟨owner,here,found⟩ := mem_seen.mp held
    exact types owner here x found
  covered r u wide := by
    rw [widened_lookup] at wide
    obtain ⟨v,found,rfl⟩ := Option.map_eq_some_iff.mp wide
    rcases Value.pooled_kept v (seen others r) with own | unknown
    · exact Or.inl (by rw [found,own])
    · exact Or.inr unknown
  unordered again members := widened_unordered s members
  stable compared again members := by
    have fixed := widened_again s compared members
    refine ⟨fixed,?_⟩
    rw [fixed]
    exact (widened_numbers s compared).same

end PathState
end SmaliPrune
