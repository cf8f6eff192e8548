import SmaliPrune.Proofs.Layout

namespace SmaliPrune

def kept (addresses : List Nat) (code : List Instr) : List Instr := code.filter fun i => !addresses.contains i.address

theorem mem_kept {addresses : List Nat} {code : List Instr} {i : Instr} :
    i ∈ kept addresses code ↔ i ∈ code ∧ i.address ∉ addresses := by
  simp [kept]

theorem kept_append (addresses : List Nat) (code rest : List Instr) :
    kept addresses (code ++ rest) = kept addresses code ++ kept addresses rest := List.filter_append code rest

theorem width_kept (addresses : List Nat) (code : List Instr) :
    width (code.filter fun i => addresses.contains i.address) + width (kept addresses code) = width code :=
  total_filter Instr.units _ code

theorem TryRange.covers_iff (t : TryRange) (a : Nat) : t.covers a = true ↔ t.first ≤ a ∧ a < t.stop := by
  simp [covers]

theorem Instr.relocate_id (i : Instr) : i.relocate id = i := by
  obtain ⟨address,opcode,action⟩ := i
  cases action <;> rfl

theorem TryRange.relocate_id (r : TryRange) : r.relocate id = r := by
  unfold relocate
  simp

namespace Method
variable {m : Method} {addresses : List Nat}

-- The method without the instructions at some addresses, and where its addresses go.
def cut (m : Method) (addresses : List Nat) : Method := m.without (m.located addresses)

def placed (m : Method) (addresses : List Nat) : Nat → Nat := relocate (m.located addresses)

theorem located_eq_nil : m.located addresses = [] ↔ ∀ a ∈ m.addresses, a ∉ addresses := by
  unfold located Method.addresses
  rw [List.filter_eq_nil_iff,List.forall_mem_map]
  simp only [List.contains_iff_mem]

theorem placed_of_none (none : m.located addresses = []) : m.placed addresses = id := by
  funext a
  unfold placed relocate shift
  rw [none]
  rfl

theorem shift_width (addresses : List Nat) {before after : List Instr} (laid : Laid 0 m.code) (code : m.code = before ++ after) :
    shift (m.located addresses) (width before) + width (kept addresses before) = width before := by
  have inside : before.filter (fun i => decide (i.address < width before)) = before := by
    rw [code] at laid
    refine List.filter_eq_self.mpr fun i member => ?_
    have := (laid_le (laid_append.mp laid).1 member).2
    have := i.units_pos
    unfold Instr.next at *
    simp only [decide_eq_true_eq]
    omega
  have outside : after.filter (fun i => decide (i.address < width before)) = [] := by
    rw [code] at laid
    refine List.filter_eq_nil_iff.mpr fun i member => ?_
    have := (laid_le (laid_append.mp laid).2 member).1
    simp only [decide_eq_true_eq]
    omega
  have gone : (m.located addresses).filter (fun i => decide (i.address < width before)) =
      before.filter fun i => addresses.contains i.address := by
    unfold located
    rw [code,List.filter_filter,List.filter_append]
    have swap : ∀ l : List Instr,
        l.filter (fun i => decide (i.address < width before) && addresses.contains i.address) =
          (l.filter fun i => decide (i.address < width before)).filter fun i => addresses.contains i.address := by
      intro l
      rw [List.filter_filter]
      simp only [Bool.and_comm]
    rw [swap,swap,inside,outside,List.filter_nil,List.append_nil]
  unfold shift
  rw [gone]
  exact width_kept addresses before

theorem shift_le (laid : Laid 0 m.code) {a : Nat} (boundary : m.Boundary a) : shift (m.located addresses) a ≤ a := by
  obtain ⟨before,after,code,rfl⟩ := (boundary_iff laid).mp boundary
  have := shift_width addresses laid code
  omega

theorem placed_width {before after : List Instr} (laid : Laid 0 m.code) (code : m.code = before ++ after) :
    m.placed addresses (width before) = width (kept addresses before) := by
  have := shift_width addresses laid code
  unfold placed relocate
  omega

theorem placed_next {i : Instr} (laid : Laid 0 m.code) (member : i ∈ m.code) :
    m.placed addresses i.next =
      if i.address ∈ addresses then m.placed addresses i.address else m.placed addresses i.address + i.units := by
  obtain ⟨before,after,code,here⟩ := laid_split laid member
  have code' : m.code = (before ++ [i]) ++ after := by rw [code]; simp
  have next : i.next = width (before ++ [i]) := by rw [width_concat,Instr.next,here]
  rw [next,placed_width laid code',here,placed_width laid code,kept_append,width_append,← here]
  by_cases gone : i.address ∈ addresses
  · simp [kept,width,total,gone]
  · simp [kept,width,total,gone]

theorem placed_between (addresses : List Nat) (laid : Laid 0 m.code) {a b : Nat} (first : m.Boundary a)
    (second : m.Boundary b) (le : a ≤ b) : ∃ between : List Instr, b = a + width between ∧
      m.placed addresses b = m.placed addresses a + width (kept addresses between) := by
  obtain ⟨before,after,code,rfl⟩ := (boundary_iff laid).mp first
  obtain ⟨before',after',code',rfl⟩ := (boundary_iff laid).mp second
  rw [placed_width laid code,placed_width laid code']
  rcases List.append_eq_append_iff.mp (code.symm.trans code') with ⟨between,rfl,_⟩ | ⟨more,rfl,_⟩
  · exact ⟨between,width_append _ _,by rw [kept_append,width_append]⟩
  · -- What is more has no width, so it is nothing.
    rw [width_append] at le
    cases more with
    | nil => exact ⟨[],by simp [width,total],by simp [kept,width,total]⟩
    | cons i more =>
      have := i.units_pos
      simp only [width,total] at le
      omega

theorem placed_mono (laid : Laid 0 m.code) {a b : Nat} (first : m.Boundary a) (second : m.Boundary b) (le : a ≤ b) :
    m.placed addresses a ≤ m.placed addresses b := by
  obtain ⟨between,_,same⟩ := placed_between addresses laid first second le
  omega

theorem placed_gap (laid : Laid 0 m.code) {a b : Nat} (first : m.Boundary a) (second : m.Boundary b) (le : a ≤ b) :
    m.placed addresses b + a ≤ m.placed addresses a + b := by
  obtain ⟨between,rfl,same⟩ := placed_between addresses laid first second le
  have := width_kept addresses between
  omega

theorem next_le (laid : Laid 0 m.code) {i : Instr} (member : i ∈ m.code) {a : Nat} (boundary : m.Boundary a)
    (less : i.address < a) : i.next ≤ a := by
  obtain ⟨before,after,code,rfl⟩ := (boundary_iff laid).mp boundary
  rw [code] at laid member
  obtain ⟨head,tail⟩ := laid_append.mp laid
  rcases List.mem_append.mp member with inside | outside
  · have := (laid_le head inside).2
    omega
  · have := (laid_le tail outside).1
    omega

theorem placed_lt (laid : Laid 0 m.code) {i : Instr} (member : i ∈ m.code) (stays : i.address ∉ addresses) {a : Nat}
    (boundary : m.Boundary a) (less : i.address < a) : m.placed addresses i.address < m.placed addresses a := by
  have le : m.placed addresses i.next ≤ m.placed addresses a :=
    placed_mono laid (boundary_next laid member) boundary (next_le laid member boundary less)
  rw [placed_next laid member,if_neg stays] at le
  have := i.units_pos
  omega

theorem cut_code (m : Method) (addresses : List Nat) :
    (m.cut addresses).code = (kept addresses m.code).map (Instr.relocate (m.placed addresses)) := by
  unfold cut without kept
  dsimp only
  congr 1
  refine List.filter_congr fun i member => ?_
  congr 1
  rw [Bool.eq_iff_iff]
  simp only [List.contains_iff_mem,List.mem_map,located,List.mem_filter]
  constructor
  · rintro ⟨j,⟨_,listed⟩,same⟩
    exact same ▸ listed
  · exact fun listed => ⟨i,⟨member,listed⟩,rfl⟩

theorem mem_cut {j : Instr} : j ∈ (m.cut addresses).code ↔
    ∃ i ∈ m.code, i.address ∉ addresses ∧ j = i.relocate (m.placed addresses) := by
  rw [cut_code,List.mem_map]
  constructor
  · rintro ⟨i,member,rfl⟩
    obtain ⟨inside,stays⟩ := mem_kept.mp member
    exact ⟨i,inside,stays,rfl⟩
  · rintro ⟨i,inside,stays,rfl⟩
    exact ⟨i,mem_kept.mpr ⟨inside,stays⟩,rfl⟩

theorem cut_laid (laid : Laid 0 m.code) : Laid 0 (m.cut addresses).code := by
  have rest : ∀ before after, m.code = before ++ after →
      Laid (width (kept addresses before)) ((kept addresses after).map (Instr.relocate (m.placed addresses))) := by
    intro before after
    induction after generalizing before with
    | nil => exact fun _ => trivial
    | cons i after ih =>
      intro code
      have code' : m.code = (before ++ [i]) ++ after := by rw [code]; simp
      have ih := ih (before ++ [i]) code'
      have here : i.address = width before := by
        rw [code] at laid
        have := (laid_append.mp laid).2.1
        omega
      rw [kept_append,width_append] at ih
      by_cases gone : i.address ∈ addresses
      · have alone : kept addresses [i] = [] := by simp [kept,gone]
        have skip : kept addresses (i :: after) = kept addresses after := by simp [kept,gone]
        rw [skip]
        rw [alone] at ih
        exact ih
      · have alone : kept addresses [i] = [i] := by simp [kept,gone]
        have keep : kept addresses (i :: after) = i :: kept addresses after := by simp [kept,gone]
        rw [keep,List.map_cons]
        rw [alone] at ih
        refine ⟨?_,?_⟩
        · exact (congrArg (m.placed addresses) here).trans (placed_width laid code)
        · rw [show width [i] = i.units from by simp [width,total]] at ih
          exact ih
  rw [cut_code]
  exact rest [] m.code rfl

theorem at?_cut (laid : Laid 0 m.code) {i : Instr} (member : i ∈ m.code) (stays : i.address ∉ addresses) :
    (m.cut addresses).at? (m.placed addresses i.address) = some (i.relocate (m.placed addresses)) :=
  at?_of_mem (i := i.relocate (m.placed addresses)) (cut_laid laid) (mem_cut.mpr ⟨i,member,stays,rfl⟩)

theorem cut_units (laid : Laid 0 m.code) : (m.cut addresses).units = m.placed addresses m.units := by
  rw [units_eq (cut_laid laid),units_eq laid,placed_width laid (List.append_nil _).symm,cut_code]
  exact width_map (Instr.relocate _) (fun _ => rfl) (kept addresses m.code)

theorem boundary_cut (laid : Laid 0 m.code) {a : Nat} (boundary : m.Boundary a) :
    (m.cut addresses).Boundary (m.placed addresses a) := by
  obtain ⟨before,after,code,rfl⟩ := (boundary_iff laid).mp boundary
  refine (boundary_iff (cut_laid laid)).mpr ⟨(kept addresses before).map (Instr.relocate (m.placed addresses)),
    (kept addresses after).map (Instr.relocate (m.placed addresses)),?_,?_⟩
  · rw [cut_code,code,kept_append,List.map_append]
  · rw [placed_width laid code]
    exact (width_map (Instr.relocate _) (fun _ => rfl) (kept addresses before)).symm

theorem target?_relocate (f : Nat → Nat) (i : Instr) : (i.relocate f).action.target? = i.action.target?.map f := by
  cases i with
  | mk address opcode action => cases action <;> rfl

theorem cut_aligned (aligned : m.Aligned) : (m.cut addresses).Aligned := by
  refine ⟨cut_laid aligned.laid,?_,?_⟩
  · intro j member x target
    obtain ⟨i,inside,_,rfl⟩ := mem_cut.mp member
    rw [target?_relocate] at target
    obtain ⟨y,target',rfl⟩ := Option.map_eq_some_iff.mp target
    exact boundary_cut aligned.laid (aligned.targets i inside y target')
  · intro t member
    obtain ⟨member,_⟩ := List.mem_filter.mp member
    obtain ⟨s,inside,rfl⟩ := List.mem_map.mp member
    obtain ⟨first,stop,entries⟩ := aligned.tries s inside
    refine ⟨boundary_cut aligned.laid first,boundary_cut aligned.laid stop,fun c member => ?_⟩
    obtain ⟨d,inside',rfl⟩ := List.mem_map.mp member
    exact boundary_cut aligned.laid (entries d inside')

theorem covers_placed (laid : Laid 0 m.code) {t : TryRange} (first : m.Boundary t.first) (stop : m.Boundary t.stop)
    {i : Instr} (member : i ∈ m.code) (stays : i.address ∉ addresses) :
    (t.relocate (m.placed addresses)).covers (m.placed addresses i.address) = t.covers i.address := by
  have start : m.Boundary i.address := Or.inl (List.mem_map_of_mem member)
  rw [Bool.eq_iff_iff,TryRange.covers_iff,TryRange.covers_iff]
  dsimp only [TryRange.relocate]
  constructor
  · rintro ⟨low,high⟩
    refine ⟨Nat.le_of_not_lt fun less => ?_,Nat.lt_of_not_le fun le => ?_⟩
    · have := placed_lt laid member stays first less
      omega
    · have : m.placed addresses t.stop ≤ m.placed addresses i.address := placed_mono laid stop start le
      omega
  · rintro ⟨low,high⟩
    exact ⟨placed_mono laid first start low,placed_lt laid member stays stop high⟩

theorem handlersFor_cut_bounded (laid : Laid 0 m.code)
    (bounded : ∀ t ∈ m.tries, m.Boundary t.first ∧ m.Boundary t.stop) {i : Instr} (member : i ∈ m.code)
    (stays : i.address ∉ addresses) : (m.cut addresses).handlersFor (m.placed addresses i.address) =
      (m.handlersFor i.address).map fun c => { c with entry := m.placed addresses c.entry } := by
  have covers : ∀ t ∈ m.tries, (t.relocate (m.placed addresses)).covers (m.placed addresses i.address) =
      t.covers i.address := fun t inside => covers_placed laid (bounded t inside).1 (bounded t inside).2 member stays
  unfold handlersFor
  rw [List.map_flatMap]
  have table : (m.cut addresses).tries =
      (m.tries.map fun t => t.relocate (m.placed addresses)).filter fun t => decide (t.first < t.stop) := rfl
  rw [table,List.filter_filter]
  have nonempty : ∀ t : TryRange, (t.covers (m.placed addresses i.address) && decide (t.first < t.stop)) =
      t.covers (m.placed addresses i.address) := by
    intro t
    rw [Bool.eq_iff_iff,Bool.and_eq_true,TryRange.covers_iff,decide_eq_true_eq]
    omega
  simp only [nonempty]
  rw [List.filter_map,List.flatMap_map]
  have same : (m.tries.filter fun t => (t.relocate (m.placed addresses)).covers (m.placed addresses i.address)) =
      m.tries.filter fun t => t.covers i.address := List.filter_congr covers
  exact congrArg (fun l => l.flatMap fun t => (t.relocate (m.placed addresses)).handlers) same

theorem handlersFor_cut (aligned : m.Aligned) {i : Instr} (member : i ∈ m.code) (stays : i.address ∉ addresses) :
    (m.cut addresses).handlersFor (m.placed addresses i.address) =
      (m.handlersFor i.address).map fun c => { c with entry := m.placed addresses c.entry } :=
  handlersFor_cut_bounded aligned.laid (fun t inside => ⟨(aligned.tries t inside).1,(aligned.tries t inside).2.1⟩)
    member stays

end Method
end SmaliPrune
