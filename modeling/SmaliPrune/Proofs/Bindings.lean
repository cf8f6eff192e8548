import SmaliPrune.Registers.PathState

namespace SmaliPrune

-- Only floats can be the same and yet different, or differ from themselves.
theorem Value.eq_of_same {v w : Value} (exact : v.isFloating = false) (same : v.same w = true) : v = w := by
  cases v <;> cases w <;> simp_all [Value.same,Value.isFloating]

theorem Value.same_self {v : Value} (exact : v.isFloating = false) : v.same v = true := by
  cases v <;> simp_all [Value.same,Value.isFloating]

def Value.Blurs (v w : Value) : Prop := v.isUnknown = true ∨ v = w ∨ v.same w = true

theorem Value.Blurs.refl (v : Value) : v.Blurs v := Or.inr (Or.inl rfl)

theorem Value.unknown_of_same {v w : Value} (same : v.same w = true) (unknown : w.isUnknown = true) :
    v.isUnknown = true := by
  cases v <;> cases w <;> simp_all [Value.same,Value.isUnknown]

theorem Value.exact_of_unknown {v : Value} (unknown : v.isUnknown = true) : v.isFloating = false := by
  cases v <;> simp_all [isUnknown,isFloating]

namespace Bindings

def Plain (b : Bindings) : Prop := ∀ r v, b.lookup r = some v → v.isFloating = false

-- What the first has of a register, where it is known, the second has too.
def CoversAt (r : Register) (a b : Bindings) : Prop :=
  ∀ v, a.lookup r = some v → v.isUnknown = false → b.lookup r = some v

def Covers (a b : Bindings) : Prop := ∀ r, CoversAt r a b

theorem Covers.trans {a b c : Bindings} (first : Covers a b) (second : Covers b c) : Covers a c :=
  fun r v found known => second r v (first r v found known) known

def Blurs (a b : Bindings) : Prop :=
  ∀ r, (a.lookup r = none ∧ b.lookup r = none) ∨
    ∃ v w, a.lookup r = some v ∧ b.lookup r = some w ∧ v.Blurs w

theorem Blurs.refl (b : Bindings) : Blurs b b := by
  intro r
  cases found : b.lookup r with
  | none => exact Or.inl ⟨rfl,rfl⟩
  | some v => exact Or.inr ⟨v,v,rfl,rfl,.refl v⟩

theorem Blurs.covers {a b : Bindings} (blurs : Blurs a b) (plain : Plain a) : Covers a b := by
  intro r v found known
  rcases blurs r with ⟨missing,_⟩ | ⟨x,y,here,there,blur⟩
  · rw [found] at missing
    cases missing
  · rw [found] at here
    cases here
    rcases blur with unknown | equal | same
    · rw [known] at unknown
      cases unknown
    · rw [there,equal]
    · rw [there,Value.eq_of_same (plain r v found) same]

theorem Blurs.plain {a b : Bindings} (blurs : Blurs a b) (plain : Plain b) : Plain a := by
  intro r v found
  rcases blurs r with ⟨missing,_⟩ | ⟨x,y,here,there,blur⟩
  · rw [found] at missing
    cases missing
  · rw [found] at here
    cases here
    have exact := plain r y there
    rcases blur with unknown | equal | same
    · exact Value.exact_of_unknown unknown
    · rw [equal]
      exact exact
    · cases v <;> cases y <;> simp_all [Value.same,Value.isFloating]

theorem read_of_lookup {b : Bindings} {r : Register} {v : Value} (found : b.lookup r = some v) : b.read r = v := by
  unfold read
  rw [found]
  rfl

theorem read_set_self (b : Bindings) (r : Register) (v : Value) : (b.set r v).read r = v :=
  read_of_lookup (by rw [lookup_set,if_pos rfl])

theorem lookup_of_read {b : Bindings} {r : Register} (known : (b.read r).isUnknown = false) :
    b.lookup r = some (b.read r) := by
  unfold read at *
  cases found : b.lookup r with
  | none =>
    rw [found] at known
    cases known
  | some v => rfl

theorem CoversAt.read {r : Register} {a b : Bindings} (covers : CoversAt r a b) :
    (a.read r).isUnknown = true ∨ a.read r = b.read r := by
  cases known : (a.read r).isUnknown with
  | true => exact Or.inl rfl
  | false => exact Or.inr (read_of_lookup (covers _ (lookup_of_read known) known)).symm

theorem Plain.read {b : Bindings} (plain : Plain b) (r : Register) : (b.read r).isFloating = false := by
  cases known : (b.read r).isUnknown with
  | true => exact Value.exact_of_unknown known
  | false => exact plain r _ (lookup_of_read known)

theorem Plain.set {b : Bindings} (plain : Plain b) (r : Register) {v : Value} (exact : v.isFloating = false) :
    Plain (b.set r v) := by
  intro q w found
  rw [lookup_set] at found
  split at found
  · cases found
    exact exact
  · exact plain q w found

theorem plain_empty : Plain empty := by
  intro r v found
  cases found

theorem mem_of_find? {es : List (Register × Value)} {r : Register} {v : Value} (found : find? r es = some v) :
    (r,v) ∈ es := by
  induction es with
  | nil => cases found
  | cons head rest ih =>
    obtain ⟨q,w⟩ := head
    simp only [find?] at found
    split at found
    · next equal =>
      cases found
      exact equal ▸ List.mem_cons_self
    · exact List.mem_cons_of_mem _ (ih found)

theorem find?_before {es : List (Register × Value)} {r : Register} (first : ∀ e ∈ es, r.before e.1 = true) :
    find? r es = none := by
  cases found : find? r es with
  | none => rfl
  | some v =>
    have less := first _ (mem_of_find? found)
    rw [Register.before_irrefl] at less
    cases less

theorem find?_of_mem {es : List (Register × Value)} (sorted : es.Pairwise fun a b => a.1.before b.1 = true)
    {e : Register × Value} (member : e ∈ es) : find? e.1 es = some e.2 := by
  induction es with
  | nil => cases member
  | cons head rest ih =>
    obtain ⟨first,tail⟩ := List.pairwise_cons.mp sorted
    rcases List.mem_cons.mp member with rfl | member
    · simp [find?]
    · have different : e.1 ≠ head.1 := by
        intro equal
        have less := first e member
        rw [equal,Register.before_irrefl] at less
        cases less
      simp only [find?,if_neg different]
      exact ih tail member

theorem Plain.entries {b : Bindings} (plain : Plain b) : ∀ e ∈ b.entries, e.2.isFloating = false :=
  fun _ member => plain _ _ (find?_of_mem b.sorted member)

theorem same_self {b : Bindings} (plain : Plain b) : b.same b = true := by
  have entries : ∀ es : List (Register × Value), (∀ e ∈ es, e.2.isFloating = false) → sameEntries es es = true := by
    intro es
    induction es with
    | nil => exact fun _ => rfl
    | cons e rest ih =>
      intro exact'
      have first := Value.same_self (exact' e List.mem_cons_self)
      have others := ih fun other member => exact' other (List.mem_cons_of_mem _ member)
      simp [sameEntries,first,others]
  exact entries b.entries plain.entries

theorem eq_of_same {b c : Bindings} (plain : Plain b) (same : b.same c = true) : b = c := by
  have entries : ∀ es fs : List (Register × Value), (∀ e ∈ es, e.2.isFloating = false) →
      sameEntries es fs = true → es = fs := by
    intro es
    induction es with
    | nil =>
      intro fs _ same
      cases fs with
      | nil => rfl
      | cons f fs => cases same
    | cons e es ih =>
      intro fs exact' same
      cases fs with
      | nil => cases same
      | cons f fs =>
        obtain ⟨p,v⟩ := e
        obtain ⟨q,w⟩ := f
        simp only [sameEntries,Bool.and_eq_true,beq_iff_eq] at same
        obtain ⟨⟨rfl,agree⟩,rest⟩ := same
        have first : v = w := Value.eq_of_same (exact' (p,v) List.mem_cons_self) agree
        rw [first,ih fs (fun other member => exact' other (List.mem_cons_of_mem _ member)) rest]
  have equal := entries b.entries c.entries plain.entries same
  cases b
  cases c
  simp only at equal
  subst equal
  rfl

theorem find?_map (f : Register → Value → Value) (r : Register) (es : List (Register × Value)) :
    find? r (es.map fun e => (e.1,f e.1 e.2)) = (find? r es).map (f r) := by
  induction es with
  | nil => rfl
  | cons e rest ih =>
    simp only [List.map_cons,find?]
    by_cases equal : r = e.1
    · subst r
      simp
    · simp only [if_neg equal,ih]

theorem lookup_map (b : Bindings) (f : Register → Value → Value) (r : Register) :
    (b.map f).lookup r = (b.lookup r).map (f r) := find?_map f r b.entries

theorem same_lookup {b c : Bindings} (same : b.same c = true) (r : Register) :
    (b.lookup r = none ∧ c.lookup r = none) ∨ ∃ v w, b.lookup r = some v ∧ c.lookup r = some w ∧ v.same w = true := by
  have entries : ∀ es fs : List (Register × Value), sameEntries es fs = true →
      (find? r es = none ∧ find? r fs = none) ∨ ∃ v w, find? r es = some v ∧ find? r fs = some w ∧ v.same w = true := by
    intro es
    induction es with
    | nil =>
      intro fs same
      cases fs with
      | nil => exact Or.inl ⟨rfl,rfl⟩
      | cons f fs => cases same
    | cons e es ih =>
      intro fs same
      cases fs with
      | nil => cases same
      | cons f fs =>
        obtain ⟨p,v⟩ := e
        obtain ⟨q,w⟩ := f
        simp only [sameEntries,Bool.and_eq_true,beq_iff_eq] at same
        obtain ⟨⟨rfl,agree⟩,rest⟩ := same
        simp only [find?]
        by_cases here : r = p
        · simp only [if_pos here]
          exact Or.inr ⟨v,w,rfl,rfl,agree⟩
        · simp only [if_neg here]
          exact ih fs rest
  exact entries b.entries c.entries same

theorem relax_cases (seen : Option Value) (v : Value) : relax seen v = v ∨ (relax seen v).isUnknown = true := by
  unfold relax
  split
  · exact Or.inr rfl
  · split
    · exact Or.inl rfl
    · split <;> exact Or.inr rfl

theorem widened_lookup (b : Bindings) (others : List Bindings) (r : Register) :
    (b.lookup r = none ∧ (b.widened others).lookup r = none) ∨
      ∃ v w, (b.widened others).lookup r = some v ∧ b.lookup r = some w ∧ (v.isUnknown = true ∨ v = w) := by
  unfold widened
  induction others generalizing b with
  | nil =>
    cases found : b.lookup r with
    | none => exact Or.inl ⟨rfl,found⟩
    | some v => exact Or.inr ⟨v,v,found,rfl,Or.inr rfl⟩
  | cons other rest ih =>
    simp only [List.foldl_cons]
    have one := lookup_map b (fun r v => relax (other.lookup r) v) r
    rcases ih (b.map fun r v => relax (other.lookup r) v) with ⟨none,none'⟩ | ⟨v,w,found,mapped,kept⟩
    · refine Or.inl ⟨?_,none'⟩
      rw [one] at none
      exact Option.map_eq_none_iff.mp none
    · rw [one] at mapped
      obtain ⟨u,held,equal⟩ := Option.map_eq_some_iff.mp mapped
      refine Or.inr ⟨v,u,found,held,?_⟩
      rcases relax_cases (other.lookup r) u with same | gone
      · rw [← same,equal]
        exact kept
      · rcases kept with unknown | rfl
        · exact Or.inl unknown
        · exact Or.inl (equal ▸ gone)

theorem widened_blurs (b : Bindings) (others : List Bindings) : Blurs (b.widened others) b := by
  intro r
  rcases widened_lookup b others r with ⟨none,none'⟩ | ⟨v,w,found,held,kept⟩
  · exact Or.inl ⟨none',none⟩
  · exact Or.inr ⟨v,w,found,held,kept.imp_right Or.inl⟩

theorem same_widened_blurs {a b : Bindings} {others : List Bindings} (same : a.same (b.widened others) = true) :
    Blurs a b := by
  intro r
  rcases same_lookup same r with ⟨none,none'⟩ | ⟨u,v,found,wide,agree⟩
  · rcases widened_lookup b others r with ⟨none'',_⟩ | ⟨v,w,found,_,_⟩
    · exact Or.inl ⟨none,none''⟩
    · rw [none'] at found
      cases found
  · rcases widened_lookup b others r with ⟨_,none⟩ | ⟨v',w,found',held,kept⟩
    · rw [none] at wide
      cases wide
    · rw [found'] at wide
      cases wide
      refine Or.inr ⟨u,w,found,held,?_⟩
      rcases kept with unknown | rfl
      · exact Or.inl (Value.unknown_of_same agree unknown)
      · exact Or.inr (Or.inr agree)

theorem same_blurs {a b : Bindings} (same : a.same b = true) : Blurs a b :=
  same_widened_blurs (show a.same (b.widened []) = true from same)

end Bindings
end SmaliPrune
