import Mathlib.Data.Fintype.Card
import SmaliPrune.Proofs.Bindings

namespace SmaliPrune

-- How much is known of a register: its value, the type of its value, that it has one, or
-- not even that.
inductive Grade where
  | unbound | known | typed | untyped
  deriving DecidableEq, Repr

instance : Fintype Grade := ⟨{.unbound,.known,.typed,.untyped},fun g => by cases g <;> decide⟩

def Value.grade : Value → Grade
  | .unknown type => if type = "?" then .untyped else .typed
  | _ => .known

theorem Value.typeName_of_same {v w : Value} (same : v.same w = true) : v.typeName = w.typeName := by
  cases v <;> cases w <;> simp_all [Value.same,Value.typeName]

theorem Value.eq_of_unknown {v : Value} (unknown : v.isUnknown = true) : v = .unknown v.typeName := by
  cases v <;> simp_all [Value.isUnknown,Value.typeName]

theorem Value.grade_known {v : Value} (known : v.isUnknown = false) : v.grade = .known := by
  cases v <;> simp_all [Value.isUnknown,Value.grade]

theorem Value.unknown_of_grade {v : Value} (graded : v.grade ≠ .known) : v.isUnknown = true := by
  cases unknown : v.isUnknown with
  | true => rfl
  | false => exact absurd (Value.grade_known unknown) graded

theorem Value.grade_ne_unbound (v : Value) : v.grade ≠ .unbound := by
  cases v with
  | unknown type =>
    simp only [grade]
    split <;> decide
  | _ => exact nofun

namespace Bindings

def grade (b : Bindings) (r : Register) : Grade := ((b.lookup r).map Value.grade).getD .unbound

theorem grade_some {b : Bindings} {r : Register} {v : Value} (found : b.lookup r = some v) : b.grade r = v.grade := by
  unfold grade
  rw [found]
  rfl

theorem grade_none {b : Bindings} {r : Register} (free : b.lookup r = none) : b.grade r = .unbound := by
  unfold grade
  rw [free]
  rfl

theorem lookup_of_grade {b : Bindings} {r : Register} {v : Value} (graded : b.grade r = v.grade) :
    ∃ w, b.lookup r = some w ∧ w.grade = v.grade := by
  cases found : b.lookup r with
  | some w => exact ⟨w,rfl,by rw [← graded,grade_some found]⟩
  | none =>
    rw [grade_none found] at graded
    exact absurd graded.symm v.grade_ne_unbound

def Compared (seen : Option Value) (v : Value) : Prop :=
  v = .unknown "?" ∨ (∃ w, seen = some w ∧ w.same v = true) ∨
    (v.isUnknown = true ∧ ∀ w, seen = some w → w.typeName = v.typeName)

theorem relax_compared (seen : Option Value) (v : Value) : Compared seen (relax seen v) := by
  unfold relax
  split
  · exact Or.inr (Or.inr ⟨rfl,nofun⟩)
  · next w =>
    split
    · next same => exact Or.inr (Or.inl ⟨w,rfl,same⟩)
    · split
      · next types =>
        refine Or.inr (Or.inr ⟨rfl,fun u seen => ?_⟩)
        rw [← Option.some.inj seen]
        exact beq_iff_eq.mp types
      · exact Or.inl rfl

theorem Compared.relax {seen : Option Value} {v : Value} (compared : Compared seen v) (other : Option Value) :
    Compared seen (relax other v) := by
  have forgets : Compared seen (.unknown v.typeName) := by
    rcases compared with rfl | ⟨w,rfl,same⟩ | ⟨_,types⟩
    · exact Or.inl rfl
    · refine Or.inr (Or.inr ⟨rfl,fun u seen => ?_⟩)
      rw [← Option.some.inj seen]
      exact Value.typeName_of_same (w := v) same
    · exact Or.inr (Or.inr ⟨rfl,types⟩)
  unfold Bindings.relax
  split
  · exact forgets
  · split
    · exact compared
    · split
      · exact forgets
      · exact Or.inl rfl

theorem Compared.same {seen : Option Value} {v w : Value} (compared : Compared seen v) (found : seen = some w)
    (graded : w.grade = v.grade) : w.same v = true := by
  subst found
  have untyped : v = .unknown "?" → w.same v = true := by
    rintro rfl
    have unknown := Value.unknown_of_grade (v := w) (by rw [graded]; decide)
    rw [Value.eq_of_unknown unknown] at graded ⊢
    by_cases same : w.typeName = "?"
    · simp [Value.same,same]
    · simp [Value.grade,same] at graded
  rcases compared with blank | ⟨u,seen,same⟩ | ⟨unknown,types⟩
  · exact untyped blank
  · rw [Option.some.inj seen]
    exact same
  · rw [Value.eq_of_unknown unknown,← types w rfl] at graded untyped ⊢
    by_cases same : w.typeName = "?"
    · exact untyped (by rw [same])
    · have unknown := Value.unknown_of_grade (v := w) (by rw [graded]; simp [Value.grade,same])
      rw [Value.eq_of_unknown unknown]
      simp [Value.same,Value.typeName]

theorem widened_lookup_compared {b other : Bindings} {others : List Bindings} (member : other ∈ others) {r : Register}
    {v : Value} (wide : (b.widened others).lookup r = some v) : Compared (other.lookup r) v := by
  have later : ∀ (rest : List Bindings) (b : Bindings),
      (∀ u, b.lookup r = some u → Compared (other.lookup r) u) →
      ∀ u, (b.widened rest).lookup r = some u → Compared (other.lookup r) u := by
    intro rest
    induction rest with
    | nil => exact fun b before => before
    | cons next rest ih =>
      intro b before
      refine ih _ fun u found => ?_
      rw [lookup_map] at found
      obtain ⟨w,held,rfl⟩ := Option.map_eq_some_iff.mp found
      exact (before w held).relax _
  obtain ⟨front,back,rfl⟩ := List.append_of_mem member
  unfold widened at wide
  rw [List.foldl_append] at wide
  refine later back _ (fun u found => ?_) v wide
  rw [lookup_map] at found
  obtain ⟨w,_,rfl⟩ := Option.map_eq_some_iff.mp found
  exact relax_compared _ w

theorem sameEntries_of_find? {es fs : List (Register × Value)}
    (sorted : es.Pairwise fun a b => a.1.before b.1 = true) (sorted' : fs.Pairwise fun a b => a.1.before b.1 = true)
    (agree : ∀ r, (find? r es = none ∧ find? r fs = none) ∨
      ∃ v w, find? r es = some v ∧ find? r fs = some w ∧ v.same w = true) : sameEntries es fs = true := by
  induction es generalizing fs with
  | nil =>
    cases fs with
    | nil => rfl
    | cons f fs => simpa [find?] using agree f.1
  | cons e es ih =>
    obtain ⟨p,v⟩ := e
    cases fs with
    | nil => simpa [find?] using agree p
    | cons f fs =>
      obtain ⟨q,w⟩ := f
      obtain ⟨first,tail⟩ := List.pairwise_cons.mp sorted
      obtain ⟨first',tail'⟩ := List.pairwise_cons.mp sorted'
      have heads : p = q := by
        apply Classical.byContradiction
        intro different
        have left : p.before q = true := by
          rcases agree q with ⟨_,free⟩ | ⟨u,_,found,_,_⟩
          · simp [find?] at free
          · simp only [find?,if_neg (Ne.symm different)] at found
            exact first _ (mem_of_find? found)
        have right : q.before p = true := by
          rcases agree p with ⟨free,_⟩ | ⟨_,u,_,found,_⟩
          · simp [find?] at free
          · simp only [find?,if_neg different] at found
            exact first' _ (mem_of_find? found)
        have loop := Register.before_trans left right
        rw [Register.before_irrefl] at loop
        cases loop
      subst q
      have values : v.same w = true := by simpa [find?] using agree p
      have rests : sameEntries es fs = true := by
        refine ih tail tail' fun r => ?_
        by_cases here : r = p
        · subst r
          exact Or.inl ⟨find?_before first,find?_before first'⟩
        · simpa only [find?,if_neg here] using agree r
      simp [sameEntries,values,rests]

theorem same_of_lookup {b c : Bindings} (agree : ∀ r, (b.lookup r = none ∧ c.lookup r = none) ∨
    ∃ v w, b.lookup r = some v ∧ c.lookup r = some w ∧ v.same w = true) : b.same c = true :=
  sameEntries_of_find? b.sorted c.sorted agree

theorem same_of_grades {b other : Bindings} {others : List Bindings} (member : other ∈ others)
    (graded : ∀ r, other.grade r = (b.widened others).grade r) : other.same (b.widened others) = true := by
  refine same_of_lookup fun r => ?_
  cases wide : (b.widened others).lookup r with
  | none =>
    refine Or.inl ⟨?_,rfl⟩
    cases found : other.lookup r with
    | none => rfl
    | some w => exact absurd (by rw [← grade_some found,graded r,grade_none wide]) w.grade_ne_unbound
  | some v =>
    have graded' := graded r
    rw [grade_some wide] at graded'
    obtain ⟨w,found,same⟩ := lookup_of_grade graded'
    exact Or.inr ⟨w,v,found,rfl,(widened_lookup_compared member wide).same found same⟩

end Bindings
end SmaliPrune
