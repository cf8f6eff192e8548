import SmaliPrune.Proofs.Remainder

namespace SmaliPrune

namespace Traced
variable {t : Traced}

theorem remove_laid (laid : Laid 0 t.method.code) (gone : List Nat) : Laid 0 (t.remove gone).method.code := by
  rw [remove_code]
  exact Method.cut_laid laid

theorem remove_shrinks {gone : List Nat} {i : Instr} (member : i ∈ t.method.code) (listed : i.address ∈ gone) :
    (t.remove gone).method.code.length < t.method.code.length := by
  rw [remove_code,Method.cut_code,List.length_map]
  refine List.length_filter_lt_length_iff_exists.mpr ⟨i,member,?_⟩
  simp [listed]

theorem condemned_followed (laid : Laid 0 t.method.code) {a : Nat} (condemned : a ∈ t.condemned) :
    ∃ i ∈ t.method.code, i.address = a ∧ ∃ j ∈ t.method.code, j.address = i.next := by
  obtain ⟨i,here,follows⟩ := Method.removable_next laid (mem_condemned.mp condemned).1
  obtain ⟨member,address⟩ := Method.mem_of_at? here
  exact ⟨i,member,address,follows⟩

theorem remove_keeps_last (laid : Laid 0 t.method.code) (some' : t.method.code ≠ []) :
    (t.remove t.condemned).method.code ≠ [] := by
  obtain ⟨l,last⟩ := Option.ne_none_iff_exists'.mp (mt List.getLast?_eq_none_iff.mp some')
  have member : l ∈ t.method.code := List.mem_of_getLast? last
  have stays : l.address ∉ t.condemned := fun condemned =>
    Method.removable_not_last laid last (mem_condemned.mp condemned).1
  exact List.ne_nil_of_mem (mem_remove.mpr ⟨l,member,stays,rfl⟩)

end Traced

namespace Pruner
variable {p : Pruner} {t : Traced}

def Rests (p : Pruner) (t : Traced) : Prop := p.valid = t.method.removable ∧ (t.candidates p.valid).all = []

theorem perform_idle (idle : t.condemned = []) : p.perform t = (false,p.refresh t,t) := by
  have nothing : t.candidates t.method.removable = ⟨[],[],[],[]⟩ := by
    unfold Traced.condemned Candidates.all at idle
    simp only [List.append_eq_nil_iff] at idle
    obtain ⟨⟨⟨unreached,assignments⟩,results⟩,branches⟩ := idle
    cases found : t.candidates t.method.removable
    simp_all
  unfold perform refresh
  dsimp only
  rw [nothing]
  rfl

theorem perform_busy (busy : t.condemned ≠ []) : ∃ q, p.perform t = (true,q,t.remove t.condemned) := by
  have some' : (t.candidates (p.refresh t).valid).all.isEmpty = false := List.isEmpty_eq_false_iff.mpr busy
  unfold perform
  dsimp only
  rw [some']
  exact ⟨_,rfl⟩

theorem refresh_rests (idle : t.condemned = []) : (p.refresh t).Rests t := ⟨rfl,idle⟩

theorem Rests.perform (rests : p.Rests t) : p.perform t = (false,p,t) := by
  obtain ⟨valid,none⟩ := rests
  rw [valid] at none
  have same : p.refresh t = p := by
    unfold refresh
    rw [← valid]
  rw [perform_idle none,same]

end Pruner

namespace Optimizer

theorem sweep_cons {p q : Pruner} {ps qs : List Pruner} {t u v : Traced} {changed more : Bool}
    (first : p.perform t = (changed,q,u)) (others : sweep ps u = (more,qs,v)) :
    sweep (p :: ps) t = (changed || more,q :: qs,v) := by
  simp only [sweep,first,others]

-- What a sweep comes to: it finds nothing, and from then on no pass will; or the method is
-- shorter, but is not empty for that.
theorem sweep_spec (ps : List Pruner) {t : Traced} (laid : Laid 0 t.method.code) :
    match sweep ps t with
    | (false,qs,u) => u = t ∧ ∀ q ∈ qs, q.Rests t
    | (true,_,u) => Laid 0 u.method.code ∧ u.method.code.length < t.method.code.length ∧ u.method.code ≠ [] := by
  induction ps generalizing t with
  | nil => exact ⟨rfl,fun _ member => absurd member List.not_mem_nil⟩
  | cons p ps ih =>
    by_cases idle : t.condemned = []
    · have others := ih laid
      rcases swept : sweep ps t with ⟨more,qs,u⟩
      rw [swept] at others
      rw [sweep_cons (Pruner.perform_idle idle) swept]
      cases more with
      | true => exact others
      | false =>
        refine ⟨others.1,fun q member => ?_⟩
        rcases List.mem_cons.mp member with rfl | member
        · exact Pruner.refresh_rests idle
        · exact others.2 q member
    · obtain ⟨q,performed⟩ := Pruner.perform_busy (p := p) idle
      obtain ⟨a,condemned⟩ := List.exists_mem_of_ne_nil _ idle
      obtain ⟨i,member,rfl,_⟩ := Traced.condemned_followed laid condemned
      have laid' := Traced.remove_laid laid t.condemned
      have shorter := Traced.remove_shrinks member condemned
      have others := ih laid'
      rcases swept : sweep ps (t.remove t.condemned) with ⟨more,qs,u⟩
      rw [swept] at others
      rw [sweep_cons performed swept]
      cases more with
      | true => exact ⟨others.1,others.2.1.trans shorter,others.2.2⟩
      | false =>
        obtain ⟨rfl,_⟩ := others
        exact ⟨laid',shorter,Traced.remove_keeps_last laid (List.ne_nil_of_mem member)⟩

theorem sweep_rests {ps : List Pruner} {t : Traced} (rest : ∀ p ∈ ps, p.Rests t) : sweep ps t = (false,ps,t) := by
  induction ps with
  | nil => rfl
  | cons p ps ih =>
    have first := (rest p List.mem_cons_self).perform
    have others := ih fun q member => rest q (List.mem_cons_of_mem _ member)
    simp only [sweep,first,others,Bool.or_self]

-- What several sweeps come to. Each but the last makes the method shorter, and where there
-- may be as many as there are instructions the last one finds nothing.
structure Swept (most : Nat) (t : Traced) (changed : Bool) (n : Nat) (ps : List Pruner) (u : Traced) : Prop where
  shrinks : changed = true ↔ u.method.code.length < t.method.code.length
  same : changed = false → u = t
  few : t.method.code ≠ [] → u.method.code ≠ [] ∧ n + u.method.code.length ≤ t.method.code.length + 1
  rests : t.method.code.length ≤ most → 1 ≤ most → ∀ p ∈ ps, p.Rests u

theorem Swept.le {most n : Nat} {t u : Traced} {changed : Bool} {ps : List Pruner} (swept : Swept most t changed n ps u) :
    u.method.code.length ≤ t.method.code.length := by
  cases changed with
  | false => rw [swept.same rfl]
  | true => exact Nat.le_of_lt (swept.shrinks.mp rfl)

theorem sweepUpTo_swept (most : Nat) (ps : List Pruner) {t : Traced} (laid : Laid 0 t.method.code) :
    match sweepUpTo most ps t with
    | (changed,n,qs,u) => Swept most t changed n qs u := by
  induction most generalizing ps t with
  | zero => exact ⟨by simp,fun _ => rfl,fun some' => ⟨some',by omega⟩,fun _ least => absurd least (Nat.not_succ_le_zero 0)⟩
  | succ most ih =>
    have once := sweep_spec ps laid
    rcases swept : sweep ps t with ⟨changed,qs,u⟩
    rw [swept] at once
    unfold sweepUpTo
    rw [swept]
    cases changed with
    | false =>
      obtain ⟨rfl,rests⟩ := once
      exact ⟨by simp,fun _ => rfl,fun some' => ⟨some',by omega⟩,fun _ _ => rests⟩
    | true =>
      obtain ⟨laid',shorter,left⟩ := once
      have more := ih qs laid'
      dsimp only
      rcases result : sweepUpTo most qs u with ⟨changed',n,rs,v⟩
      rw [result] at more
      obtain ⟨left',few⟩ := more.few left
      have length := List.length_pos_iff.mpr left
      have le := more.le
      dsimp only
      refine ⟨⟨fun _ => by omega,fun _ => rfl⟩,nofun,fun _ => ⟨left',by omega⟩,fun enough _ => ?_⟩
      exact more.rests (by omega) (by omega)

-- Whatever passes there are and whatever the graph: the flag tells whether the method got
-- shorter, there are no more sweeps than instructions, and with that many allowed nothing
-- is left to do, so that to simplify once more costs one sweep and changes nothing.
theorem simplify_settles {owner : String} {text : List Char} {m : Method} {g : PathGraph} {o o' : Optimizer}
    {t : Traced} {changed : Bool} (loaded : Source.method owner text = .ok m)
    (simplified : o.simplify ⟨m,g⟩ = (changed,o',t)) :
    (changed = true ↔ t.method.code.length < m.code.length) ∧ (changed = false → t = ⟨m,g⟩) ∧
    (m.code ≠ [] → t.method.code ≠ [] ∧ o'.sweeps ≤ o.sweeps + m.code.length) ∧
    (m.code.length ≤ o.maxSweeps → 1 ≤ o.maxSweeps →
      (∀ p ∈ o'.passes, p.valid = t.method.removable ∧ (t.candidates p.valid).all = []) ∧
        o'.simplify t = (false,{ o' with sweeps := o'.sweeps + 1 },t)) := by
  have swept := sweepUpTo_swept o.maxSweeps o.passes (t := ⟨m,g⟩) (Source.method_ok loaded).2.laid
  unfold simplify at simplified
  cases result : sweepUpTo o.maxSweeps o.passes ⟨m,g⟩ with
  | mk flag last =>
    obtain ⟨n,ps,u⟩ := last
    rw [result] at swept simplified
    dsimp only at simplified
    cases simplified
    refine ⟨swept.shrinks,swept.same,fun some' => ?_,fun enough least => ⟨swept.rests enough least,?_⟩⟩
    · obtain ⟨left,few⟩ := swept.few some'
      have length := List.length_pos_iff.mpr left
      exact ⟨left,by dsimp only at few ⊢; omega⟩
    · obtain ⟨most,same⟩ := Nat.exists_eq_add_of_le' least
      have idle : sweep ps t = (false,ps,t) := sweep_rests (swept.rests enough least)
      simp only [simplify,same,sweepUpTo,idle]

-- A jump over dead code: without that code it leads nowhere, and that takes a sweep each.
def skipping : List Char :=
  (".method static run()V\n.registers 1\ngoto :a\nconst/4 v0, 0x1\n:a\nreturn-void\n.end method").toList

theorem skipping_settles : ∃ m g o t, Source.method "La;" skipping = .ok m ∧ (m.execute {} (.fresh [])).1 = .ok g ∧
    m.code.length = 3 ∧ ({ passes := [{},{}], maxSweeps := 3 } : Optimizer).simplify ⟨m,g⟩ = (true,o,t) ∧
    t.method.code.length < 3 ∧ o.sweeps ≤ 3 ∧ o.simplify t = (false,{ o with sweeps := o.sweeps + 1 },t) := by
  obtain ⟨_,ok⟩ := exists_of_isOk (x := do
    let m ← Source.method "La;" skipping
    let g ← (m.execute {} (.fresh [])).1
    if m.code.length = 3 ∧ (({ passes := [{},{}], maxSweeps := 3 } : Optimizer).simplify ⟨m,g⟩).1 = true then pure ()
      else throw ⟨.emptyMethod,[]⟩) (by decide +kernel)
  obtain ⟨m,loaded,ok⟩ := bind_ok.mp ok
  obtain ⟨g,executed,ok⟩ := bind_ok.mp ok
  split at ok
  · next facts =>
    obtain ⟨three,changed⟩ := facts
    have some' : m.code ≠ [] := List.ne_nil_of_length_pos (by omega)
    rcases simplified : ({ passes := [{},{}], maxSweeps := 3 } : Optimizer).simplify ⟨m,g⟩ with ⟨flag,o,t⟩
    rw [simplified] at changed
    obtain ⟨shrinks,_,few,settles⟩ := simplify_settles loaded simplified
    rw [three] at shrinks few settles
    have sweeps := (few some').2
    rw [Nat.zero_add] at sweeps
    exact ⟨m,g,o,t,loaded,executed,three,changed ▸ simplified,shrinks.mp changed,sweeps,
      (settles (Nat.le_refl 3) (by decide)).2⟩
  · cases ok

end Optimizer
end SmaliPrune
