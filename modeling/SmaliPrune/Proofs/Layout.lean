import SmaliPrune.Graph.Exits
import SmaliPrune.Method.Removal
import SmaliPrune.Proofs.Catalogue

namespace SmaliPrune

def width (code : List Instr) : Nat := total Instr.units code

def Laid : Nat → List Instr → Prop
  | _,[] => True
  | a,i :: rest => i.address = a ∧ Laid (a + i.units) rest

def Splits (code : List Instr) (a : Nat) : Prop := ∃ before after, code = before ++ after ∧ a = width before

theorem width_append (code rest : List Instr) : width (code ++ rest) = width code + width rest :=
  total_append Instr.units code rest

theorem width_concat (code : List Instr) (i : Instr) : width (code ++ [i]) = width code + i.units := by
  rw [width_append]
  rfl

theorem width_map (f : Instr → Instr) (same : ∀ i, (f i).units = i.units) (code : List Instr) :
    width (code.map f) = width code := by
  unfold width
  rw [total_map]
  exact total_congr fun i _ => same i

theorem Instr.units_pos (i : Instr) : 0 < i.units := i.opcode.format.units_pos

def Instr.outline (i : Instr) : Instr := { i with action := .nop }

theorem laid_outline {a : Nat} {code : List Instr} : Laid a (code.map Instr.outline) ↔ Laid a code := by
  induction code generalizing a with
  | nil => exact Iff.rfl
  | cons i rest ih => exact and_congr Iff.rfl ih

theorem width_outline (code : List Instr) : width (code.map Instr.outline) = width code :=
  width_map Instr.outline (fun _ => rfl) code

theorem splits_outline {code : List Instr} {a : Nat} (splits : Splits (code.map Instr.outline) a) : Splits code a := by
  obtain ⟨before,after,same,rfl⟩ := splits
  obtain ⟨before,after,rfl,rfl,rfl⟩ := List.map_eq_append_iff.mp same
  exact ⟨before,after,rfl,width_outline before⟩

theorem laid_append {a : Nat} {code rest : List Instr} :
    Laid a (code ++ rest) ↔ Laid a code ∧ Laid (a + width code) rest := by
  induction code generalizing a with
  | nil => simp [Laid,width,total]
  | cons i code ih =>
    rw [List.cons_append]
    simp only [Laid]
    rw [ih,and_assoc,show a + i.units + width code = a + width (i :: code) from Nat.add_assoc _ _ _]

theorem laid_split {code : List Instr} {i : Instr} (laid : Laid 0 code) (member : i ∈ code) :
    ∃ before after, code = before ++ i :: after ∧ i.address = width before := by
  obtain ⟨before,after,rfl⟩ := List.append_of_mem member
  refine ⟨before,after,rfl,?_⟩
  have here := (laid_append.mp laid).2.1
  omega

theorem laid_le {a : Nat} {code : List Instr} {i : Instr} (laid : Laid a code) (member : i ∈ code) :
    a ≤ i.address ∧ i.next ≤ a + width code := by
  obtain ⟨before,after,rfl⟩ := List.append_of_mem member
  have here := (laid_append.mp laid).2.1
  rw [width_append,Instr.next]
  simp only [width,total] at *
  omega

theorem laid_apart {a : Nat} {code : List Instr} {i j : Instr} (laid : Laid a code) (first : i ∈ code)
    (second : j ∈ code) : i = j ∨ i.next ≤ j.address ∨ j.next ≤ i.address := by
  induction code generalizing a with
  | nil => cases first
  | cons k rest ih =>
    have above : ∀ l ∈ rest, k.next ≤ l.address := by
      intro l member
      rw [Instr.next,laid.1]
      exact (laid_le laid.2 member).1
    rcases List.mem_cons.mp first with rfl | inside
    · rcases List.mem_cons.mp second with rfl | inside
      · exact Or.inl rfl
      · exact Or.inr (Or.inl (above j inside))
    · rcases List.mem_cons.mp second with rfl | inside'
      · exact Or.inr (Or.inr (above i inside))
      · exact ih laid.2 inside inside'

theorem laid_eq {a : Nat} {code : List Instr} {i j : Instr} (laid : Laid a code) (first : i ∈ code) (second : j ∈ code)
    (same : i.address = j.address) : i = j := by
  have := i.units_pos
  have := j.units_pos
  rcases laid_apart laid first second with one | before | after
  · exact one
  · unfold Instr.next at before
    omega
  · unfold Instr.next at after
    omega

theorem laid_eq_of_next {a : Nat} {code : List Instr} {i j : Instr} (laid : Laid a code) (first : i ∈ code)
    (second : j ∈ code) (same : i.next = j.next) : i = j := by
  have := i.units_pos
  have := j.units_pos
  rcases laid_apart laid first second with one | before | after
  · exact one
  · unfold Instr.next at *
    omega
  · unfold Instr.next at *
    omega

namespace Method

theorem at?_of_mem {m : Method} {a : Nat} {i : Instr} (laid : Laid a m.code) (member : i ∈ m.code) :
    m.at? i.address = some i := by
  unfold at?
  cases found : m.code.find? fun j => j.address == i.address with
  | none =>
    have := List.find?_eq_none.mp found i member
    simp at this
  | some j =>
    have same := List.find?_some found
    rw [laid_eq laid (List.mem_of_find?_eq_some found) member (by simpa using same)]

theorem units_eq {m : Method} (laid : Laid 0 m.code) : m.units = width m.code := by
  unfold units
  cases last : m.code.getLast? with
  | none =>
    rw [List.getLast?_eq_none_iff.mp last]
    rfl
  | some i =>
    obtain ⟨before,code⟩ := List.getLast?_eq_some_iff.mp last
    rw [code] at laid ⊢
    have here := (laid_append.mp laid).2.1
    rw [width_concat]
    simp only [Option.map_some,Option.getD_some,Instr.next,here]
    omega

def Boundary (m : Method) (a : Nat) : Prop := a ∈ m.addresses ∨ a = m.units

theorem boundary_iff {m : Method} (laid : Laid 0 m.code) {a : Nat} : m.Boundary a ↔ Splits m.code a := by
  unfold Boundary addresses
  rw [units_eq laid,List.mem_map]
  constructor
  · rintro (⟨i,member,rfl⟩ | rfl)
    · obtain ⟨before,after,code,here⟩ := laid_split laid member
      exact ⟨before,i :: after,code,here⟩
    · exact ⟨m.code,[],(List.append_nil _).symm,rfl⟩
  · rintro ⟨before,after,code,rfl⟩
    cases after with
    | nil => exact Or.inr (by rw [code,List.append_nil])
    | cons i after =>
      rw [code] at laid
      have here := (laid_append.mp laid).2.1
      refine Or.inl ⟨i,by rw [code]; simp,?_⟩
      omega

theorem boundary_next {m : Method} (laid : Laid 0 m.code) {i : Instr} (member : i ∈ m.code) : m.Boundary i.next := by
  obtain ⟨before,after,code,here⟩ := laid_split laid member
  refine (boundary_iff laid).mpr ⟨before ++ [i],after,by rw [code]; simp,?_⟩
  rw [width_concat,Instr.next,here]

-- Code without gaps, and no address in it that lies inside an instruction.
structure Aligned (m : Method) : Prop where
  laid : Laid 0 m.code
  targets : ∀ i ∈ m.code, ∀ x, i.action.target? = some x → m.Boundary x
  tries : ∀ t ∈ m.tries, m.Boundary t.first ∧ m.Boundary t.stop ∧ ∀ c ∈ t.handlers, m.Boundary c.entry

end Method
end SmaliPrune
