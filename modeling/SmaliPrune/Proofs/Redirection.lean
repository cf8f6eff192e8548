import SmaliPrune.Proofs.Remainder

namespace SmaliPrune

theorem Instr.relocate_relocate (f g : Nat → Nat) (i : Instr) : (i.relocate f).relocate g = i.relocate (g ∘ f) := by
  obtain ⟨address,opcode,action⟩ := i
  cases action <;> rfl

theorem Instr.offset?_eq_some {i : Instr} {d : Int} :
    i.offset? = some d ↔ ∃ x, i.action.target? = some x ∧ (x : Int) - i.address = d := by
  unfold offset?
  cases i.action.target? with
  | none => simp
  | some x => simp

namespace Method
variable {m : Method} {addresses : List Nat}

def firstKept? (m : Method) (addresses : List Nat) (a : Nat) : Option Instr :=
  (kept addresses m.code).find? fun i => a ≤ i.address

-- What lies between an address and the first instruction that stays is gone, so both end
-- up at one place; without such an instruction that place is the new end.
theorem placed_firstKept (addresses : List Nat) (laid : Laid 0 m.code) {a : Nat} (boundary : m.Boundary a) :
    match m.firstKept? addresses a with
    | some j => j ∈ m.code ∧ j.address ∉ addresses ∧ m.placed addresses a = m.placed addresses j.address
    | none => m.placed addresses a = m.placed addresses m.units := by
  obtain ⟨before,after,code,rfl⟩ := (boundary_iff laid).mp boundary
  have first : m.firstKept? addresses (width before) = (kept addresses after).head? := by
    have laid' := laid
    rw [code] at laid'
    obtain ⟨front,back⟩ := laid_append.mp laid'
    have below : (kept addresses before).find? (fun i => width before ≤ i.address) = none := by
      refine List.find?_eq_none.mpr fun i member => ?_
      have := (laid_le front (mem_kept.mp member).1).2
      have := i.units_pos
      unfold Instr.next at *
      simp only [decide_eq_true_eq]
      omega
    unfold firstKept?
    rw [code,kept_append,List.find?_append,below,Option.none_or]
    cases rest : kept addresses after with
    | nil => rfl
    | cons j more =>
      have inside : j ∈ after := (mem_kept.mp (rest ▸ List.mem_cons_self)).1
      have := (laid_le back inside).1
      exact List.find?_cons_of_pos (by simp only [decide_eq_true_eq]; omega)
  rw [first]
  cases rest : kept addresses after with
  | nil =>
    dsimp only [List.head?_nil]
    rw [units_eq laid,placed_width laid code,placed_width laid (List.append_nil _).symm,code,kept_append,rest,
      List.append_nil]
  | cons j more =>
    obtain ⟨skipped,behind,rfl,gone,stays,_⟩ := List.filter_eq_cons_iff.mp rest
    have code' : m.code = (before ++ skipped) ++ j :: behind := by rw [code,List.append_assoc]
    have here : j.address = width (before ++ skipped) := by
      rw [code'] at laid
      have := (laid_append.mp laid).2.1
      omega
    have nothing : kept addresses skipped = [] := List.filter_eq_nil_iff.mpr gone
    refine ⟨by rw [code']; simp,by simpa using stays,?_⟩
    rw [here,placed_width laid code,placed_width laid code',kept_append,nothing,List.append_nil]

-- What a method comes to without the instructions at some addresses. The others stay as
-- they are but for the addresses they mention, and move down by what went before them. A
-- branch, a range or a handler is now for the first instruction that stays at or behind the
-- one it was for, else for the end. No jump gets longer, and none to a later place stops
-- being one. A range goes only if it protects nothing that stays.
structure Redirected (m : Method) (addresses : List Nat) (m' : Method) (place : Nat → Nat) : Prop where
  frame : m' = { m with code := m'.code, tries := m'.tries }
  code : m'.code = (kept addresses m.code).map (Instr.relocate place)
  moved : ∀ i ∈ kept addresses m.code,
    place i.address + width ((m.located addresses).filter fun j => j.address < i.address) = i.address
  denotes : ∀ a, m.Boundary a → match m.firstKept? addresses a with
    | some j => m'.at? (place a) = some (j.relocate place)
    | none => place a = m'.units
  ranges : m'.tries.Sublist (m.tries.map (TryRange.relocate place))
  emptied : ∀ r ∈ m.tries, r.relocate place ∈ m'.tries ∨ ∀ i ∈ kept addresses m.code, r.covers i.address = false
  jumps : ∀ i ∈ kept addresses m.code, ∀ d, i.offset? = some d →
    ∃ d', (i.relocate place).offset? = some d' ∧ d'.natAbs ≤ d.natAbs ∧ (0 < d → 0 < d')

theorem offset_placed (aligned : m.Aligned) {i : Instr} (member : i ∈ m.code) (stays : i.address ∉ addresses) {d : Int}
    (jump : i.offset? = some d) : ∃ d', (i.relocate (m.placed addresses)).offset? = some d' ∧
      d'.natAbs ≤ d.natAbs ∧ (0 < d → 0 < d') := by
  obtain ⟨x,target,rfl⟩ := Instr.offset?_eq_some.mp jump
  have start : m.Boundary i.address := Or.inl (List.mem_map_of_mem member)
  have stop : m.Boundary x := aligned.targets i member x target
  refine ⟨(m.placed addresses x : Int) - m.placed addresses i.address,?_,?_⟩
  · refine Instr.offset?_eq_some.mpr ⟨m.placed addresses x,?_,rfl⟩
    rw [target?_relocate,target]
    rfl
  · rcases Nat.lt_or_ge i.address x with ahead | back
    · have := placed_lt aligned.laid member stays stop ahead
      have : m.placed addresses x + i.address ≤ m.placed addresses i.address + x :=
        placed_gap aligned.laid start stop (Nat.le_of_lt ahead)
      omega
    · have : m.placed addresses x ≤ m.placed addresses i.address := placed_mono aligned.laid stop start back
      have : m.placed addresses i.address + x ≤ m.placed addresses x + i.address :=
        placed_gap aligned.laid stop start back
      omega

end Method

namespace Traced
variable {t : Traced} {addresses : List Nat}

theorem remove_congr {others : List Nat} (same : ∀ a ∈ t.method.addresses, a ∈ others ↔ a ∈ addresses) :
    t.remove others = t.remove addresses := by
  have located : t.method.located others = t.method.located addresses := by
    refine List.filter_congr fun i member => ?_
    rw [Bool.eq_iff_iff,List.contains_iff_mem,List.contains_iff_mem]
    exact same i.address (List.mem_map_of_mem member)
  unfold remove
  rw [located]

theorem remove_at? (t : Traced) (addresses : List Nat) (a : Nat) :
    (t.remove addresses).method.at? a = (t.method.cut addresses).at? a := by
  unfold Method.at?
  rw [remove_code]

theorem remove_units (t : Traced) (addresses : List Nat) :
    (t.remove addresses).method.units = (t.method.cut addresses).units := by
  unfold Method.units
  rw [remove_code]

theorem remove_tries (t : Traced) (addresses : List Nat) :
    (t.remove addresses).method.tries.Sublist (t.method.tries.map (TryRange.relocate (t.method.placed addresses))) ∧
      ∀ r ∈ t.method.tries, r.relocate (t.method.placed addresses) ∈ (t.remove addresses).method.tries ∨
        t.method.placed addresses r.stop ≤ t.method.placed addresses r.first := by
  by_cases nothing : t.method.located addresses = []
  · have same : TryRange.relocate id = id := funext TryRange.relocate_id
    rw [remove_nothing nothing,Method.placed_of_none nothing,same,List.map_id]
    exact ⟨List.Sublist.refl _,fun r member => Or.inl member⟩
  · rw [remove_eq,if_neg nothing]
    refine ⟨List.filter_sublist,fun r member => ?_⟩
    rcases Nat.lt_or_ge (t.method.placed addresses r.first) (t.method.placed addresses r.stop) with some | none
    · exact Or.inl (List.mem_filter.mpr ⟨List.mem_map_of_mem member,decide_eq_true some⟩)
    · exact Or.inr none

-- Whatever addresses are given, and whatever the graph: what stays of the method goes on to
-- hang together as it did, and addresses without an instruction count for nothing.
theorem remove_redirects {t : Traced} (aligned : t.method.Aligned) (addresses : List Nat) :
    t.method.Redirected addresses (t.remove addresses).method (t.method.placed addresses) ∧
      (∀ others, (∀ a ∈ t.method.addresses, a ∈ others ↔ a ∈ addresses) → t.remove others = t.remove addresses) ∧
      ((∀ a ∈ t.method.addresses, a ∉ addresses) → t.remove addresses = t) := by
  refine ⟨?_,fun _ => remove_congr,fun none => remove_nothing (Method.located_eq_nil.mpr none)⟩
  have laid := aligned.laid
  obtain ⟨ranges,left⟩ := remove_tries t addresses
  constructor
  · rw [remove_eq]
    split <;> rfl
  · rw [remove_code,Method.cut_code]
  · intro i member
    have boundary : t.method.Boundary i.address := Or.inl (List.mem_map_of_mem (mem_kept.mp member).1)
    exact Nat.sub_add_cancel (Method.shift_le laid boundary)
  · intro a boundary
    have place := Method.placed_firstKept addresses laid boundary
    split
    · next j first =>
      rw [first] at place
      obtain ⟨member,stays,same⟩ := place
      rw [remove_at?,same]
      exact Method.at?_cut laid member stays
    · next none =>
      rw [none] at place
      rw [remove_units,Method.cut_units laid]
      exact place
  · exact ranges
  · intro r member
    refine (left r member).imp_right fun empty i inside => ?_
    obtain ⟨listed,stays⟩ := mem_kept.mp inside
    obtain ⟨first,stop,_⟩ := aligned.tries r member
    rw [← Method.covers_placed laid first stop listed stays,Bool.eq_false_iff,ne_eq,TryRange.covers_iff]
    dsimp only [TryRange.relocate]
    omega
  · intro i member d jump
    obtain ⟨inside,stays⟩ := mem_kept.mp member
    exact Method.offset_placed aligned inside stays jump

-- A jump over code that goes and one back into it, which is then one to itself.
def circling : List Char :=
  (".method static run()V\n.registers 2\n:a\nconst/4 v0, 0x1\nif-eqz v0, :c\n:b\nconst/16 v1, 0x5\nconst/4 v1, 0x0\n" ++
    ":c\ngoto :b\n:d\nreturn-void\n.catchall \x7b:b .. :c\x7d :b\n.catchall \x7b:a .. :d\x7d :d\n.end method").toList

theorem circling_redirected : ∃ m, Source.method "La;" circling = .ok m ∧ m.Aligned ∧
    m.code.map (fun i => (i.address,i.offset?)) = [(0,none),(1,some 5),(3,none),(5,none),(6,some (-3)),(7,none)] ∧
    ∀ g, ∃ m', (Traced.remove ⟨m,g⟩ [5,9,3]).method = m' ∧
      m.Redirected [5,9,3] m' (m.placed [5,9,3]) ∧
      m'.code.map (fun i => (i.address,i.offset?)) = [(0,none),(1,some 2),(3,some 0),(4,none)] ∧
      m'.tries = [⟨0,4,[⟨none,4⟩]⟩] := by
  obtain ⟨_,ok⟩ := exists_of_isOk (x := do
    let m ← Source.method "La;" circling
    let m' := (Traced.remove ⟨m,.empty⟩ [5,9,3]).method
    if m.code.map (fun i => (i.address,i.offset?)) = [(0,none),(1,some 5),(3,none),(5,none),(6,some (-3)),(7,none)] ∧
        m'.code.map (fun i => (i.address,i.offset?)) = [(0,none),(1,some 2),(3,some 0),(4,none)] ∧
        m'.tries = [⟨0,4,[⟨none,4⟩]⟩] then pure ()
      else throw ⟨.emptyMethod,[]⟩) (by
        -- Its characters one by one: the kernel is slow to take a long literal apart.
        generalize chars : circling = text
        unfold circling at chars
        simp only [String.toList_append,String.reduceToList] at chars
        subst chars
        decide +kernel)
  obtain ⟨m,loaded,ok⟩ := bind_ok.mp ok
  dsimp only at ok
  split at ok
  · next facts =>
    have aligned : m.Aligned := (Source.method_ok loaded).2
    refine ⟨m,loaded,aligned,facts.1,fun g => ⟨_,rfl,(remove_redirects (t := ⟨m,g⟩) aligned [5,9,3]).1,?_⟩⟩
    have same : (Traced.remove ⟨m,g⟩ [5,9,3]).method = (Traced.remove ⟨m,.empty⟩ [5,9,3]).method := by
      rw [remove_eq,remove_eq]
      split <;> rfl
    rw [same]
    exact facts.2
  · cases ok

-- Ranges may be nested, empty or reversed, and handlers may begin anywhere: what stays is
-- caught by the same entries in the same order.
theorem remove_keeps_protection {t : Traced} (laid : Laid 0 t.method.code)
    (bounded : ∀ r ∈ t.method.tries, t.method.Boundary r.first ∧ t.method.Boundary r.stop) (addresses : List Nat)
    {i : Instr} (member : i ∈ t.method.code) (stays : i.address ∉ addresses) :
    (t.remove addresses).method.at? (t.method.placed addresses i.address) =
        some (i.relocate (t.method.placed addresses)) ∧
      (t.remove addresses).method.handlersFor (t.method.placed addresses i.address) =
        (t.method.handlersFor i.address).map fun c => ⟨c.type,t.method.placed addresses c.entry⟩ := by
  refine ⟨?_,?_⟩
  · rw [remove_at?]
    exact Method.at?_cut laid member stays
  · by_cases nothing : t.method.located addresses = []
    · rw [remove_nothing nothing,Method.placed_of_none nothing]
      exact (List.map_id _).symm
    · rw [remove_eq,if_neg nothing]
      exact Method.handlersFor_cut_bounded laid bounded member stays

def sheltered : List Char :=
  (".method static run()V\n.registers 1\n:a\nnop\n:b\nconst/16 v0, 0x0\n:c\nconst/16 v0, 0x1\n:d\nnop\n:e\nnop\n" ++
    ":f\nreturn-void\n.catch La; \x7b:b .. :d\x7d :e\n.catch Lb; \x7b:a .. :c\x7d :f\n.catchall \x7b:c .. :a\x7d :e\n" ++
    ".catchall \x7b:b .. :b\x7d :e\n.catchall \x7b:c .. :d\x7d :f\n.end method").toList

theorem sheltered_protected : ∃ m i, Source.method "La;" sheltered = .ok m ∧ m.tries.length = 5 ∧ m.at? 3 = some i ∧
    m.handlersFor 3 = [⟨some "La;",6⟩,⟨none,7⟩] ∧
    ∀ g, ((Traced.remove ⟨m,g⟩ [1,0,6]).method.at? 0).isSome = true ∧
      (Traced.remove ⟨m,g⟩ [1,0,6]).method.handlersFor 0 = [⟨some "La;",3⟩,⟨none,3⟩] := by
  obtain ⟨_,ok⟩ := exists_of_isOk (x := do
    let m ← Source.method "La;" sheltered
    if m.tries.length = 5 ∧ (m.at? 3).isSome = true ∧ m.handlersFor 3 = [⟨some "La;",6⟩,⟨none,7⟩] ∧
        [3,6,7].map (m.placed [1,0,6]) = [0,3,3] then pure ()
      else throw ⟨.emptyMethod,[]⟩) (by
        generalize chars : sheltered = text
        unfold sheltered at chars
        simp only [String.toList_append,String.reduceToList] at chars
        subst chars
        decide +kernel)
  obtain ⟨m,loaded,ok⟩ := bind_ok.mp ok
  split at ok
  · next facts =>
    obtain ⟨ranges,here,before,moved⟩ := facts
    obtain ⟨i,here⟩ := Option.isSome_iff_exists.mp here
    obtain ⟨member,address⟩ := Method.mem_of_at? here
    simp only [List.map_cons,List.map_nil,List.cons.injEq,and_true] at moved
    have aligned : m.Aligned := (Source.method_ok loaded).2
    refine ⟨m,i,loaded,ranges,here,before,fun g => ?_⟩
    obtain ⟨stands,kept⟩ := remove_keeps_protection (t := ⟨m,g⟩) aligned.laid
      (fun r inside => ⟨(aligned.tries r inside).1,(aligned.tries r inside).2.1⟩) [1,0,6] member
      (by rw [address]; decide)
    rw [address,moved.1] at stands kept
    rw [stands,kept,before]
    simp [moved]
  · cases ok

end Traced
end SmaliPrune
