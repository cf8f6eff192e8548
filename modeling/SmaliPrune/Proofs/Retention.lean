import SmaliPrune.Proofs.Redirection
import SmaliPrune.Proofs.Sweeps

namespace SmaliPrune

theorem Instr.sideEffect_relocate (f : Nat → Nat) (i : Instr) : (i.relocate f).sideEffect = i.sideEffect := by
  cases i with
  | mk address opcode action => cases action <;> rfl

theorem Instr.isNop_relocate (f : Nat → Nat) (i : Instr) : (i.relocate f).isNop = i.isNop := by
  cases i with
  | mk address opcode action => cases action <;> rfl

namespace Method
variable {m m' m'' : Method} {i : Instr} {must must' must'' : Instr → Prop}

def Essential (m : Method) (i : Instr) : Prop :=
  i.sideEffect = .strong ∨ i.isNop = true ∨ m.code.getLast? = some i

-- What a handler runs by itself: from its entry on, with the first instruction that does
-- not continue as the last.
def Sheltered (m : Method) (i : Instr) : Prop :=
  ∃ r ∈ m.tries, ∃ c ∈ r.handlers, ∃ before run after, m.code = before ++ (run ++ i :: after) ∧
    (run ++ i :: after).head?.map Instr.address = some c.entry ∧ ∀ j ∈ run, j.canContinue = true

-- The second method is the first without some of its instructions, the others in order and
-- changed in nothing but addresses and branch targets. Some have to be among these.
def Keeps (m : Method) (must : Instr → Prop) (m' : Method) : Prop :=
  ∃ (stays : Instr → Bool) (place : Nat → Nat),
    m'.code = (m.code.filter stays).map (Instr.relocate place) ∧ ∀ i ∈ m.code, must i → stays i = true

theorem Keeps.weaken {must fewer : Instr → Prop} (keeps : m.Keeps must m') (less : ∀ i, fewer i → must i) :
    m.Keeps fewer m' := by
  obtain ⟨stays,place,code,all⟩ := keeps
  exact ⟨stays,place,code,fun i member need => all i member (less i need)⟩

theorem Essential.carried {stays : Instr → Bool} {place : Nat → Nat} (essential : m.Essential i)
    (code : m'.code = (m.code.filter stays).map (Instr.relocate place)) (stay : stays i = true) :
    m'.Essential (i.relocate place) := by
  rcases essential with strong | nop | last
  · exact Or.inl ((i.sideEffect_relocate place).trans strong)
  · exact Or.inr (Or.inl ((i.isNop_relocate place).trans nop))
  · obtain ⟨front,split⟩ := List.getLast?_eq_some_iff.mp last
    refine Or.inr (Or.inr ?_)
    rw [code,split,List.filter_append,List.filter_cons_of_pos stay,List.filter_nil,List.map_append,List.map_singleton,
      List.getLast?_concat]

def Carries (m : Method) (must : Instr → Prop) (m' : Method) (must' : Instr → Prop) : Prop :=
  ∃ (stays : Instr → Bool) (place : Nat → Nat), m'.code = (m.code.filter stays).map (Instr.relocate place) ∧
    ∀ i ∈ m.code, must i → stays i = true ∧ must' (i.relocate place)

theorem carries_itself (m : Method) (must : Instr → Prop) : m.Carries must m must := by
  refine ⟨fun _ => true,id,?_,fun i _ need => ⟨rfl,?_⟩⟩
  · rw [List.filter_true,show Instr.relocate id = id from funext Instr.relocate_id,List.map_id]
  · rw [Instr.relocate_id]
    exact need

theorem Carries.keeps (carries : m.Carries must m' must') : m.Keeps must m' := by
  obtain ⟨stays,place,code,all⟩ := carries
  exact ⟨stays,place,code,fun i member need => (all i member need).1⟩

theorem Carries.trans (first : m.Carries must m' must') (second : m'.Carries must' m'' must'') :
    m.Carries must m'' must'' := by
  obtain ⟨stays,place,code,all⟩ := first
  obtain ⟨stays',place',code',all'⟩ := second
  refine ⟨fun i => stays i && stays' (i.relocate place),place' ∘ place,?_,fun i member need => ?_⟩
  · have once : Instr.relocate place' ∘ Instr.relocate place = Instr.relocate (place' ∘ place) :=
      funext (Instr.relocate_relocate place place')
    rw [code',code,List.filter_map,List.map_map,once,List.filter_filter]
    congr 1
    exact List.filter_congr fun i _ => Bool.and_comm _ _
  · obtain ⟨stay,need'⟩ := all i member need
    have inside : i.relocate place ∈ m'.code := by
      rw [code]
      exact List.mem_map_of_mem (List.mem_filter.mpr ⟨member,stay⟩)
    obtain ⟨stay',need''⟩ := all' _ inside need'
    rw [Instr.relocate_relocate] at need''
    exact ⟨Bool.and_eq_true_iff.mpr ⟨stay,stay'⟩,need''⟩

theorem Keeps.trans (first : m.Keeps m.Essential m') (second : m'.Keeps m'.Essential m'') :
    m.Keeps m.Essential m'' := by
  obtain ⟨stays,place,code,all⟩ := first
  obtain ⟨stays',place',code',all'⟩ := second
  have carried : m.Carries m.Essential m' m'.Essential :=
    ⟨stays,place,code,fun i member essential => ⟨all i member essential,essential.carried code (all i member essential)⟩⟩
  exact (carried.trans ⟨stays',place',code',fun i member need => ⟨all' i member need,trivial⟩⟩ :
    m.Carries m.Essential m'' fun _ => True).keeps

theorem mem_runOn_of_run {run after : List Instr} (goes : ∀ j ∈ run, j.canContinue = true) :
    i ∈ runOn (run ++ i :: after) := by
  induction run with
  | nil =>
    rw [List.nil_append,runOn]
    split <;> exact List.mem_cons_self
  | cons j rest ih =>
    rw [List.cons_append,runOn,if_pos (goes j List.mem_cons_self)]
    exact List.mem_cons_of_mem j (ih fun k member => goes k (List.mem_cons_of_mem j member))

theorem Sheltered.region (laid : Laid 0 m.code) (sheltered : m.Sheltered i) :
    ∃ entry ∈ m.handlerEntries, i.address ∈ m.handlerRegion entry := by
  obtain ⟨r,table,c,listed,before,run,after,code,starts,goes⟩ := sheltered
  refine ⟨c.entry,mem_ascending.mpr (List.mem_flatMap.mpr ⟨r,table,List.mem_map_of_mem listed⟩),?_⟩
  cases front : run ++ i :: after with
  | nil => simp at front
  | cons first rest =>
    rw [front] at starts
    have entry : first.address = c.entry := Option.some.inj starts
    have apart : ∀ j ∈ before, (j.address != c.entry) = true := by
      intro j member
      rw [code,front] at laid
      have below := (laid_le (laid_append.mp laid).1 member).2
      have here := (laid_append.mp laid).2.1
      have := j.units_pos
      unfold Instr.next at below
      simp only [bne_iff_ne,ne_eq]
      omega
    unfold handlerRegion
    rw [code,List.dropWhile_append_of_pos apart,front,List.dropWhile_cons_of_neg (by simp [entry]),← front]
    exact List.mem_map_of_mem (mem_runOn_of_run goes)

theorem removable_free (laid : Laid 0 m.code) (member : i ∈ m.code) (removable : i.address ∈ m.removable) :
    ¬ (m.Essential i ∨ m.Sheltered i) := by
  have last := fun last => removable_not_last laid (l := i) last removable
  unfold Method.removable at removable
  have free := (List.mem_filter.mp removable).2
  rw [at?_of_mem laid member] at free
  simp only [Option.any_some,Bool.and_eq_true,Bool.not_eq_true'] at free
  obtain ⟨unguarded,mild,busy⟩ := free
  rintro ((strong | nop | final) | sheltered)
  · rw [strong] at mild
    cases mild
  · rw [nop] at busy
    cases busy
  · exact last final
  · obtain ⟨entry,handles,inside⟩ := sheltered.region laid
    have guarded := List.contains_iff_mem.mpr (List.mem_flatMap.mpr ⟨entry,handles,inside⟩)
    rw [unguarded] at guarded
    cases guarded

end Method

theorem Pruner.perform_keeps (p : Pruner) {t : Traced} (laid : Laid 0 t.method.code) :
    t.method.Keeps (fun i => t.method.Essential i ∨ t.method.Sheltered i) (p.perform t).2.2.method := by
  rw [p.perform_eq]
  refine ⟨fun i => !t.condemned.contains i.address,t.method.placed t.condemned,?_,fun i member need => ?_⟩
  · rw [Traced.remove_code,Method.cut_code]
    rfl
  · dsimp only
    rw [Bool.not_eq_true',Bool.eq_false_iff,ne_eq,List.contains_iff_mem]
    exact fun condemned => Method.removable_free laid member (Traced.mem_condemned.mp condemned).1 need

namespace Traced

def Pruned : Traced → Traced → Prop := Relation.ReflTransGen fun t u => ∃ p : Pruner, (p.perform t).2.2 = u

theorem Pruned.keeps {t u : Traced} (laid : Laid 0 t.method.code) (pruned : t.Pruned u) :
    Laid 0 u.method.code ∧ t.method.Keeps t.method.Essential u.method := by
  induction pruned with
  | refl => exact ⟨laid,(t.method.carries_itself _).keeps⟩
  | tail _ step ih =>
    obtain ⟨p,rfl⟩ := step
    obtain ⟨laid',keeps⟩ := ih
    refine ⟨?_,keeps.trans ((p.perform_keeps laid').weaken fun _ => Or.inl)⟩
    rw [p.perform_eq]
    exact remove_laid laid' _

end Traced

namespace Optimizer

theorem sweep_pruned (ps : List Pruner) (t : Traced) : t.Pruned (sweep ps t).2.2 := by
  induction ps generalizing t with
  | nil => exact .refl
  | cons p ps ih =>
    have rest : ((p.perform t).2.2).Pruned (sweep ps (p.perform t).2.2).2.2 := ih (p.perform t).2.2
    exact .head ⟨p,rfl⟩ rest

theorem sweepUpTo_pruned (most : Nat) (ps : List Pruner) (t : Traced) : t.Pruned (sweepUpTo most ps t).2.2.2 := by
  induction most generalizing ps t with
  | zero => exact .refl
  | succ most ih =>
    have once := sweep_pruned ps t
    unfold sweepUpTo
    rcases swept : sweep ps t with ⟨changed,qs,u⟩
    rw [swept] at once
    cases changed with
    | false => exact once
    | true => exact .trans once (ih qs u)

-- However many passes and sweeps there are, and whatever the graph: strong effects, nops
-- and the last instruction are what they were, in their order. Handlers as they are at the
-- time outlast each single pass.
theorem simplify_keeps {owner : String} {text : List Char} {m : Method} (loaded : Source.method owner text = .ok m)
    (g : PathGraph) :
    (∀ o : Optimizer, m.Keeps m.Essential (o.simplify ⟨m,g⟩).2.2.method) ∧
      ∀ t, Traced.Pruned ⟨m,g⟩ t → m.Keeps m.Essential t.method ∧
        ∀ p : Pruner, t.method.Keeps (fun i => t.method.Essential i ∨ t.method.Sheltered i) (p.perform t).2.2.method := by
  have laid := (Source.method_ok loaded).2.laid
  refine ⟨fun o => ?_,fun t pruned => ?_⟩
  · exact ((sweepUpTo_pruned o.maxSweeps o.passes ⟨m,g⟩).keeps laid).2
  · obtain ⟨laid',keeps⟩ := pruned.keeps laid
    exact ⟨keeps,fun p => p.perform_keeps laid'⟩

-- A graph without nodes, so that nothing seems to be reached.
def sparing : List Char :=
  (".method static run()V\n.registers 1\n:a\nconst/4 v0, 0x0\nsput v0, La;->f:I\nnop\ngoto :d\n:c\nconst/4 v0, 0x1\n" ++
    "goto :d\nconst/4 v0, 0x2\n:d\nreturn-void\n.catchall \x7b:a .. :c\x7d :c\n.end method").toList

theorem sparing_kept : ∃ m o t, Source.method "La;" sparing = .ok m ∧ m.addresses = [0,1,3,4,5,6,7,8] ∧
    ({ passes := [{},{}] } : Optimizer).simplify ⟨m,.empty⟩ = (true,o,t) ∧ t.method.addresses = [0,2,3,4,5] ∧
    m.Keeps m.Essential t.method ∧
    ∀ p : Pruner, m.Keeps (fun i => m.Essential i ∨ m.Sheltered i) (p.perform ⟨m,.empty⟩).2.2.method := by
  obtain ⟨_,ok⟩ := exists_of_isOk (x := do
    let m ← Source.method "La;" sparing
    if m.addresses = [0,1,3,4,5,6,7,8] ∧ (({ passes := [{},{}] } : Optimizer).simplify ⟨m,.empty⟩).1 = true ∧
        (({ passes := [{},{}] } : Optimizer).simplify ⟨m,.empty⟩).2.2.method.addresses = [0,2,3,4,5] then pure ()
      else throw ⟨.emptyMethod,[]⟩) (by
        generalize chars : sparing = text
        unfold sparing at chars
        simp only [String.toList_append,String.reduceToList] at chars
        subst chars
        decide +kernel)
  obtain ⟨m,loaded,ok⟩ := bind_ok.mp ok
  split at ok
  · next facts =>
    obtain ⟨whole,changed,left⟩ := facts
    obtain ⟨simplified,pruned⟩ := simplify_keeps loaded .empty
    have keeps := simplified { passes := [{},{}] }
    rcases result : ({ passes := [{},{}] } : Optimizer).simplify ⟨m,.empty⟩ with ⟨flag,o,t⟩
    rw [result] at changed left keeps
    exact ⟨m,o,t,loaded,whole,changed ▸ result,left,keeps,(pruned ⟨m,.empty⟩ .refl).2⟩
  · cases ok

end Optimizer
end SmaliPrune
