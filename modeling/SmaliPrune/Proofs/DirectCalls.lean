import SmaliPrune.Proofs.Batches
import SmaliPrune.Proofs.Retention

namespace SmaliPrune

namespace Instr

def direct? (i : Instr) : Option MethodRef :=
  match i.action with
  | .invoke .direct _ callee => some callee
  | _ => none

theorem direct?_eq_some {i : Instr} {callee : MethodRef} (direct : i.direct? = some callee) :
    ∃ registers, i.action = .invoke .direct registers callee := by
  unfold direct? at direct
  split at direct
  · next registers _ action =>
    cases direct
    exact ⟨registers,action⟩
  · cases direct

theorem direct?_relocate (f : Nat → Nat) (i : Instr) : (i.relocate f).direct? = i.direct? := by
  obtain ⟨address,opcode,action⟩ := i
  cases action <;> rfl

end Instr

namespace Traced
variable {t u : Traced} {i : Instr} {callee : MethodRef}

def Calls (t : Traced) : Prop :=
  ∀ id a s i callee, t.graph.spot? id = some (a,s) → t.method.at? a = some i → i.direct? = some callee →
    ∃ state, s = some state ∧ ∀ r, r ∈ state.assigns ↔ r = .result ∧ callee.isVoid = false

theorem Calls.remove (calls : t.Calls) (sound : t.Sound) (gone : List Nat) : (t.remove gone).Calls := by
  intro id a s j callee spot here direct
  obtain ⟨i,member,stays,same,spot'⟩ := (spot?_remove sound).mp spot
  have found : t.method.at? i.address = some i := Method.at?_of_mem sound.aligned.laid member
  have moved := (remove_leaves sound (.fresh []) gone).found _ _ found stays
  rw [same] at moved
  cases here.symm.trans moved
  rw [Instr.direct?_relocate] at direct
  exact calls id _ s i callee spot' found direct

theorem Pruned.calls (sound : t.Sound) (calls : t.Calls) (pruned : t.Pruned u) : u.Sound ∧ u.Calls := by
  induction pruned with
  | refl => exact ⟨sound,calls⟩
  | tail _ step ih =>
    obtain ⟨p,rfl⟩ := step
    obtain ⟨sound',calls'⟩ := ih
    rw [p.perform_eq]
    exact ⟨remove_sound sound' _,calls'.remove sound' _⟩

theorem dead_call (sound : t.Sound) (calls : t.Calls) (member : i ∈ t.method.code)
    (reached : t.graph.isReached i.address = true) (direct : i.direct? = some callee) :
    t.isDeadAssignment i.address = true ↔ callee.isVoid = false ∧
      ∀ child ∈ t.graph.childrenAt i.address, ¬ t.Wanted .result child := by
  have here : t.method.at? i.address = some i := Method.at?_of_mem sound.aligned.laid member
  obtain ⟨id,n,first,node,address⟩ := sound.piled.first_reached reached
  have spot : t.graph.spot? id = some (i.address,n.state) := by
    rw [PathGraph.spot?,node,← address]
    rfl
  obtain ⟨s,state,assigned⟩ := calls id _ _ i callee spot here direct
  have passes : Register.result ≠ .returned := by decide
  rw [isDeadAssignment_iff]
  constructor
  · intro assignment
    obtain ⟨n',s',first',state',⟨r,written,_⟩,lost⟩ := assignment
    cases first.symm.trans first'
    cases state.symm.trans state'
    obtain ⟨rfl,some⟩ := (assigned r).mp written
    refine ⟨some,fun child listed wanted => ?_⟩
    have no := lost .result written passes
    rw [(isLive_iff _ _ _).mpr ⟨child,listed,wanted⟩] at no
    cases no
  · intro lost
    obtain ⟨some,unwanted⟩ := lost
    refine ⟨n,s,first,state,⟨.result,(assigned _).mpr ⟨rfl,some⟩,passes⟩,fun r written _ => ?_⟩
    obtain ⟨rfl,_⟩ := (assigned r).mp written
    cases live : t.isLive (t.graph.childrenAt i.address) .result with
    | false => rfl
    | true =>
      obtain ⟨child,listed,wanted⟩ := (isLive_iff _ _ _).mp live
      exact absurd wanted (unwanted child listed)

theorem condemned_call (sound : t.Sound) (calls : t.Calls) (member : i ∈ t.method.code)
    (reached : t.graph.isReached i.address = true) (direct : i.direct? = some callee) :
    i.address ∈ t.condemned ↔ i.address ∈ t.method.removable ∧ callee.isVoid = false ∧
      ∀ child ∈ t.graph.childrenAt i.address, ¬ t.Wanted .result child := by
  have here : t.method.at? i.address = some i := Method.at?_of_mem sound.aligned.laid member
  obtain ⟨registers,action⟩ := Instr.direct?_eq_some direct
  rw [← dead_call sound calls member reached direct]
  constructor
  · intro condemned
    obtain ⟨removable,unreached | assignment | result | branch⟩ := mem_condemned.mp condemned
    · unfold isUnreached at unreached
      rw [reached] at unreached
      cases unreached
    · exact ⟨removable,assignment⟩
    · simp [isDeadResult,here,action] at result
    · simp [isUselessBranch,here,Instr.isGoto,action] at branch
  · intro lost
    obtain ⟨removable,dead⟩ := lost
    exact mem_condemned.mpr ⟨removable,Or.inr (Or.inl dead)⟩

def Spares (t : Traced) (i : Instr) : Prop :=
  t.graph.isReached i.address = true ∧
    ∃ callee, i.direct? = some callee ∧ (callee.isVoid = true ∨ callee.owner ∉ immutableClasses)

theorem Spares.stays (sound : t.Sound) (calls : t.Calls) (member : i ∈ t.method.code) (spares : t.Spares i) :
    i.address ∉ t.condemned := by
  intro condemned
  obtain ⟨reached,callee,direct,kept⟩ := spares
  obtain ⟨removable,some,_⟩ := (condemned_call sound calls member reached direct).mp condemned
  rcases kept with void | outside
  · rw [void] at some
    cases some
  · obtain ⟨registers,action⟩ := Instr.direct?_eq_some direct
    apply Method.removable_free sound.aligned.laid member removable
    refine Or.inl (Or.inl ?_)
    simp [Instr.sideEffect,Action.sideEffect,action,outside]

theorem Spares.remove (sound : t.Sound) {gone : List Nat} (member : i ∈ t.method.code) (spares : t.Spares i)
    (stays : i.address ∉ gone) : (t.remove gone).Spares (i.relocate (t.method.placed gone)) := by
  obtain ⟨reached,callee,direct,kept⟩ := spares
  refine ⟨PathGraph.isReached_iff.mpr ?_,callee,(Instr.direct?_relocate _ i).trans direct,kept⟩
  obtain ⟨id,listed⟩ := PathGraph.isReached_iff.mp reached
  obtain ⟨s,spot⟩ := (sound.piled.members _ _).mp listed
  exact ⟨id,((remove_sound sound gone).piled.members _ _).mpr ⟨s,(spot?_remove sound).mpr ⟨i,member,stays,rfl,spot⟩⟩⟩

theorem perform_calls (sound : t.Sound) (calls : t.Calls) (p : Pruner) : ∃ (stays : Instr → Bool) (place : Nat → Nat),
    (p.perform t).2.2.method.code = (t.method.code.filter stays).map (Instr.relocate place) ∧
      (∀ i ∈ t.method.code, t.Spares i → stays i = true ∧ (p.perform t).2.2.Spares (i.relocate place)) ∧
      ∀ i ∈ t.method.code, t.graph.isReached i.address = true → ∀ callee, i.direct? = some callee →
        (stays i = false ↔ i.address ∈ t.method.removable ∧ callee.isVoid = false ∧
          ∀ child ∈ t.graph.childrenAt i.address, ¬ t.Wanted .result child) := by
  rw [p.perform_eq]
  refine ⟨fun i => !t.condemned.contains i.address,t.method.placed t.condemned,?_,?_,?_⟩
  · rw [Traced.remove_code,Method.cut_code]
    rfl
  · intro i member spares
    have stays := spares.stays sound calls member
    exact ⟨by simpa using stays,spares.remove sound member stays⟩
  · intro i member reached callee direct
    rw [← condemned_call sound calls member reached direct,Bool.not_eq_false',List.contains_iff_mem]

theorem Pruned.spares (sound : t.Sound) (calls : t.Calls) (pruned : t.Pruned u) :
    t.method.Carries t.Spares u.method u.Spares := by
  induction pruned with
  | refl => exact t.method.carries_itself _
  | tail before step ih =>
    obtain ⟨p,rfl⟩ := step
    obtain ⟨sound',calls'⟩ := Pruned.calls sound calls before
    obtain ⟨stays,place,code,spared,_⟩ := perform_calls sound' calls' p
    exact ih.trans ⟨stays,place,code,spared⟩

end Traced

theorem Certified.calls {m : Method} {h : Hierarchy} {entry : Bindings} {g : PathGraph} {entries : Array Bindings}
    (certified : Certified m h entry g entries) : (⟨m,g⟩ : Traced).Calls := by
  intro id a s i callee spot here direct
  obtain ⟨registers,action⟩ := Instr.direct?_eq_some direct
  obtain ⟨c,_,j,there,spot'⟩ := certified.stands id (by rw [PathGraph.Live,spot]; rfl)
  cases spot.symm.trans spot'
  cases here.symm.trans there
  refine ⟨_,rfl,fun r => ?_⟩
  rw [Instr.run_mem_assigns]
  simp only [Instr.effect,action]
  cases callee.isVoid with
  | true => simp
  | false => simp

-- The exclusion of direct calls is made for lost results only. However often is swept, those
-- without a result stay and so do those of classes that are not immutable. The others go as
-- dead assignments, exactly if nothing behind them reads the result.
theorem simplify_spares {owner : String} {text : List Char} {m : Method} {limits : Limits} {h : Hierarchy}
    {g : PathGraph} (loaded : Source.method owner text = .ok m) (executed : (m.execute limits h).1 = .ok g) :
    (∀ o : Optimizer, m.Keeps (Traced.Spares ⟨m,g⟩) (o.simplify ⟨m,g⟩).2.2.method) ∧
      ∀ t, Traced.Pruned ⟨m,g⟩ t → m.Carries (Traced.Spares ⟨m,g⟩) t.method t.Spares ∧
        ∀ p : Pruner, ∃ (stays : Instr → Bool) (place : Nat → Nat),
          (p.perform t).2.2.method.code = (t.method.code.filter stays).map (Instr.relocate place) ∧
          ∀ i ∈ t.method.code, t.graph.isReached i.address = true → ∀ callee, i.direct? = some callee →
            (stays i = false ↔ i.address ∈ t.method.removable ∧ callee.isVoid = false ∧
              ∀ child ∈ t.graph.childrenAt i.address, ¬ t.Wanted .result child) := by
  obtain ⟨_,aligned⟩ := Source.method_ok loaded
  obtain ⟨s,_,explored⟩ := Method.execute_ok executed
  obtain ⟨entries,certified⟩ := Method.explore_certified explored
  have sound := certified.sound aligned
  have calls := certified.calls
  refine ⟨fun o => ?_,fun t pruned => ⟨pruned.spares sound calls,fun p => ?_⟩⟩
  · exact ((Optimizer.sweepUpTo_pruned o.maxSweeps o.passes ⟨m,g⟩).spares sound calls).keeps
  · obtain ⟨sound',calls'⟩ := pruned.calls sound calls
    obtain ⟨stays,place,code,_,exact'⟩ := Traced.perform_calls sound' calls' p
    exact ⟨stays,place,code,exact'⟩

-- Two direct calls on a string, of which the second has a result.
def measuring : List Char := Source.ofLines [
  ".method static run(Ljava/lang/String;)V","invoke-direct \x7bp0\x7d, Ljava/lang/String;-><init>()V",
  "invoke-direct \x7bp0\x7d, Ljava/lang/String;->length()I","return-void",".end method"]

theorem measuring_runs : ∃ m g i j callee called, Source.method "La;" measuring = .ok m ∧ (m.execute {} (.fresh [])).1 = .ok g ∧
    m.at? 0 = some i ∧ g.isReached 0 = true ∧ i.direct? = some callee ∧ callee.isVoid = true ∧
    m.at? 3 = some j ∧ g.isReached 3 = true ∧ j.direct? = some called ∧ called.isVoid = false ∧
    3 ∈ m.removable ∧ (⟨m,g⟩ : Traced).isLive (g.childrenAt 3) .result = false ∧
    ∀ k ∈ (({} : Pruner).perform ⟨m,g⟩).2.2.method.code, k.direct?.map MethodRef.isVoid ≠ some false := by
  obtain ⟨_,ok⟩ := exists_of_isOk (x := do
    let m ← Source.method "La;" measuring
    let g ← (m.execute {} (.fresh [])).1
    if ((m.at? 0).bind Instr.direct?).map MethodRef.isVoid = some true ∧
      ((m.at? 3).bind Instr.direct?).map MethodRef.isVoid = some false ∧ g.isReached 0 = true ∧ g.isReached 3 = true ∧
      3 ∈ m.removable ∧ (⟨m,g⟩ : Traced).isLive (g.childrenAt 3) .result = false ∧
      (∀ k ∈ (({} : Pruner).perform ⟨m,g⟩).2.2.method.code, k.direct?.map MethodRef.isVoid ≠ some false) then pure ()
      else throw ⟨.emptyMethod,[]⟩) (by decide +kernel)
  obtain ⟨m,loaded,ok⟩ := bind_ok.mp ok
  obtain ⟨g,executed,ok⟩ := bind_ok.mp ok
  split at ok
  · next facts =>
    obtain ⟨first,second,reached,reached',removable,unread,left⟩ := facts
    obtain ⟨callee,direct,void⟩ := Option.map_eq_some_iff.mp first
    obtain ⟨called,direct',some⟩ := Option.map_eq_some_iff.mp second
    obtain ⟨i,here,direct⟩ := Option.bind_eq_some_iff.mp direct
    obtain ⟨j,here',direct'⟩ := Option.bind_eq_some_iff.mp direct'
    exact ⟨m,g,i,j,callee,called,loaded,executed,here,reached,direct,void,here',reached',direct',some,removable,unread,left⟩
  · cases ok

theorem measuring_spares : ∃ m g i j, Source.method "La;" measuring = .ok m ∧ (m.execute {} (.fresh [])).1 = .ok g ∧
    m.at? 0 = some i ∧ m.at? 3 = some j ∧ Traced.Spares ⟨m,g⟩ i ∧
    (∀ o : Optimizer, m.Keeps (Traced.Spares ⟨m,g⟩) (o.simplify ⟨m,g⟩).2.2.method) ∧
    ∃ (stays : Instr → Bool) (place : Nat → Nat), (({} : Pruner).perform ⟨m,g⟩).2.2.method.code =
      (m.code.filter stays).map (Instr.relocate place) ∧ stays i = true ∧ stays j = false := by
  obtain ⟨m,g,i,j,callee,called,loaded,executed,here,reached,direct,void,here',reached',direct',some,removable,unread,_⟩ :=
    measuring_runs
  obtain ⟨simplified,pruned⟩ := simplify_spares loaded executed
  obtain ⟨stays,place,code,exact'⟩ := (pruned ⟨m,g⟩ .refl).2 {}
  obtain ⟨member,address⟩ := Method.mem_of_at? here
  obtain ⟨member',address'⟩ := Method.mem_of_at? here'
  rw [← address] at reached
  rw [← address'] at reached' removable unread
  refine ⟨m,g,i,j,loaded,executed,here,here',⟨reached,callee,direct,Or.inl void⟩,simplified,stays,place,code,?_,?_⟩
  · cases stay : stays i with
    | true => rfl
    | false =>
      have result := ((exact' i member reached callee direct).mp stay).2.1
      rw [void] at result
      cases result
  · refine (exact' j member' reached' called direct').mpr ⟨removable,some,fun child listed wanted => ?_⟩
    rw [(Traced.isLive_iff _ _ _).mpr ⟨child,listed,wanted⟩] at unread
    cases unread

theorem measuring_pruned : ∃ m g j called, Source.method "La;" measuring = .ok m ∧ (m.execute {} (.fresh [])).1 = .ok g ∧
    m.at? 3 = some j ∧ g.isReached 3 = true ∧ j.direct? = some called ∧
    ∀ k ∈ (({} : Pruner).perform ⟨m,g⟩).2.2.method.code, k.direct? ≠ some called := by
  obtain ⟨m,g,_,j,_,called,loaded,executed,_,_,_,_,here,reached,direct,some,_,_,left⟩ := measuring_runs
  refine ⟨m,g,j,called,loaded,executed,here,reached,direct,fun k member calls => left k member ?_⟩
  rw [calls,Option.map_some,some]

end SmaliPrune
