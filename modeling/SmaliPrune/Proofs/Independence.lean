import SmaliPrune.Proofs.Exploration
import SmaliPrune.Report

namespace SmaliPrune

namespace Explored

structure Alike (x y : Explored) : Prop where
  graph : x.graph = y.graph
  entries : x.entries = y.entries
  agrees : x.hierarchy.Agrees y.hierarchy

section
variable {x y : Explored} {m : Method}

theorem Alike.arrival (alike : x.Alike y) (visits : Nat) (v : Visit) : x.arrival visits v = y.arrival visits v := by
  unfold Explored.arrival match? entriesAt
  rw [alike.graph,alike.entries]

theorem Alike.join (alike : x.Alike y) (parent : Option Nat) (id : Nat) : (x.join parent id).Alike (y.join parent id) := by
  cases parent with
  | none => exact alike
  | some p => exact ⟨congrArg (PathGraph.connect · p id) alike.graph,alike.entries,alike.agrees⟩

theorem Alike.settle (alike : x.Alike y) (visits : Nat) (pending : List Visit) :
    ∃ x' y' opened, settle m visits pending x = (x',opened) ∧ settle m visits pending y = (y',opened) ∧ x'.Alike y' := by
  induction pending generalizing x y with
  | nil => exact ⟨x,y,none,rfl,rfl,alike⟩
  | cons v rest ih =>
    unfold Explored.settle
    cases m.at? v.address with
    | none => exact ih alike
    | some i =>
      dsimp only
      rw [alike.arrival]
      cases y.arrival visits v with
      | joins id => exact ih (alike.join v.parent id)
      | opens entry => exact ⟨x,y,some (i,{ v with entry },rest),rfl,rfl,alike⟩

theorem Alike.enter (alike : x.Alike y) (i : Instr) (v : Visit) : (x.enter m i v).Alike (y.enter m i v) := by
  have answer := Method.answer?_agrees alike.agrees i v.entry
  refine ⟨?_,congrArg (Array.push · v.entry) alike.entries,?_⟩
  · unfold Explored.enter
    dsimp only
    rw [answer,alike.graph]
  · apply (Method.rememberExits_agrees m x.hierarchy i v.entry).trans
    exact alike.agrees.trans fun name => (Method.rememberExits_agrees m y.hierarchy i v.entry name).symm

theorem Alike.onward (alike : x.Alike y) (i : Instr) (v : Visit) : x.onward m i v = y.onward m i v := by
  unfold Explored.onward
  rw [Method.exits_agrees alike.agrees,alike.graph]

theorem Alike.run (alike : x.Alike y) (visits budget : Nat) (pending : List Visit) :
    ∃ x' y' ended, run m visits budget pending x = (x',ended) ∧ run m visits budget pending y = (y',ended) ∧
      x'.Alike y' := by
  induction budget generalizing pending x y with
  | zero =>
    obtain ⟨x',y',opened,first,second,alike'⟩ := alike.settle (m := m) visits pending
    unfold Explored.run
    rw [first,second]
    cases opened with
    | none => exact ⟨x',y',true,rfl,rfl,alike'⟩
    | some one => exact ⟨x',y',false,rfl,rfl,alike'⟩
  | succ budget ih =>
    obtain ⟨x',y',opened,first,second,alike'⟩ := alike.settle (m := m) visits pending
    unfold Explored.run
    rw [first,second]
    cases opened with
    | none => exact ⟨x',y',true,rfl,rfl,alike'⟩
    | some one =>
      obtain ⟨i,v,rest⟩ := one
      dsimp only
      rw [alike'.onward]
      exact ih (alike'.enter i v) _

theorem settle_hierarchy (m : Method) (visits : Nat) (pending : List Visit) (x : Explored) :
    (Explored.settle m visits pending x).1.hierarchy = x.hierarchy := by
  induction pending generalizing x with
  | nil => rfl
  | cons v rest ih =>
    unfold Explored.settle
    split
    · exact ih x
    · split
      · refine (ih _).trans ?_
        unfold Explored.join
        split <;> rfl
      · rfl

theorem run_agrees (m : Method) (visits budget : Nat) (pending : List Visit) (x : Explored) :
    (Explored.run m visits budget pending x).1.hierarchy.Agrees x.hierarchy := by
  induction budget generalizing pending x with
  | zero =>
    have kept := settle_hierarchy m visits pending x
    unfold Explored.run
    split
    · next result =>
      rw [result] at kept
      exact kept ▸ .refl _
    · next result =>
      rw [result] at kept
      exact kept ▸ .refl _
  | succ budget ih =>
    have kept := settle_hierarchy m visits pending x
    unfold Explored.run
    split
    · next result =>
      rw [result] at kept
      exact kept ▸ .refl _
    · next y i v rest result =>
      rw [result] at kept
      apply (ih _ _).trans
      exact kept ▸ Method.rememberExits_agrees m y.hierarchy i v.entry

end
end Explored

namespace Method

theorem explore_same {h k : Hierarchy} (agrees : h.Agrees k) (m : Method) (limits : Limits) (entry : Bindings) :
    (m.explore limits h entry).1 = (m.explore limits k entry).1 := by
  unfold explore
  cases m.code with
  | nil => rfl
  | cons first rest =>
    have alike : (⟨.empty,#[],h⟩ : Explored).Alike ⟨.empty,#[],k⟩ := ⟨rfl,rfl,agrees⟩
    obtain ⟨x,y,ended,ran,ran',alike'⟩ := alike.run (m := m) limits.visits limits.nodes [⟨none,first.address,entry⟩]
    dsimp only
    rw [ran,ran']
    cases ended with
    | false => rfl
    | true => exact congrArg Except.ok alike'.graph

theorem explore_agrees (m : Method) (limits : Limits) (h : Hierarchy) (entry : Bindings) :
    (m.explore limits h entry).2.Agrees h := by
  unfold explore
  cases m.code with
  | nil => exact .refl h
  | cons first rest =>
    have ran := Explored.run_agrees m limits.visits limits.nodes [⟨none,first.address,entry⟩] ⟨.empty,#[],h⟩
    dsimp only
    split
    · next result =>
      rw [result] at ran
      exact ran
    · next result =>
      rw [result] at ran
      exact ran

theorem execute_same {h k : Hierarchy} (agrees : h.Agrees k) (m : Method) (limits : Limits) :
    (m.execute limits h).1 = (m.execute limits k).1 := by
  unfold execute
  cases m.initialState with
  | error f => rfl
  | ok s => exact explore_same agrees m limits s.bindings

theorem execute_agrees (m : Method) (limits : Limits) (h : Hierarchy) : (m.execute limits h).2.Agrees h := by
  unfold execute
  cases m.initialState with
  | error f => exact .refl h
  | ok s => exact m.explore_agrees limits h s.bindings

end Method

namespace Tally

theorem add_assoc (s t u : Tally) : (s.add t).add u = s.add (t.add u) := by simp [add,Nat.add_assoc]

theorem add_add_add_comm (s t u v : Tally) : (s.add t).add (u.add v) = (s.add u).add (t.add v) := by
  simp [add,Nat.add_add_add_comm]

theorem zero_add (t : Tally) : ({} : Tally).add t = t := by simp [add]

theorem count_eq (t : Tally) (c : Candidates) : t.count c = t.add (({} : Tally).count c) := by simp [count,add]

end Tally

namespace Optimizer

def tally (ps : List Pruner) : Tally := ps.foldl (fun (t : Tally) p => t.add p.tally) {}

theorem tally_cons (p : Pruner) (ps : List Pruner) : tally (p :: ps) = p.tally.add (tally ps) := by
  have start : ∀ (ps : List Pruner) (t : Tally),
      ps.foldl (fun (t : Tally) p => t.add p.tally) t = t.add (ps.foldl (fun (t : Tally) p => t.add p.tally) {}) := by
    intro ps
    induction ps with
    | nil => exact fun _ => rfl
    | cons q qs ih =>
      intro t
      rw [List.foldl_cons,List.foldl_cons,ih,ih (({} : Tally).add q.tally),Tally.zero_add,Tally.add_assoc]
  unfold tally
  rw [List.foldl_cons,start,Tally.zero_add]

end Optimizer

theorem Pruner.perform_gains (t : Traced) :
    ∃ changed u gain, ∀ p : Pruner, ∃ q, p.perform t = (changed,q,u) ∧ q.tally = p.tally.add gain := by
  let c := t.candidates t.method.removable
  let gain := ({} : Tally).count c
  by_cases idle : c.all.isEmpty = true
  · refine ⟨false,t,gain,fun p => ⟨⟨t.method.removable,p.tally.count c⟩,?_,p.tally.count_eq c⟩⟩
    unfold perform refresh
    exact if_pos idle
  · refine ⟨true,t.remove c.all,gain,fun p => ⟨⟨(t.remove c.all).method.removable,p.tally.count c⟩,?_,p.tally.count_eq c⟩⟩
    unfold perform refresh
    exact if_neg idle

namespace Optimizer

theorem sweep_gains (n : Nat) (t : Traced) : ∃ changed u gain, ∀ ps : List Pruner, ps.length = n →
    ∃ qs, sweep ps t = (changed,qs,u) ∧ qs.length = n ∧ tally qs = (tally ps).add gain := by
  induction n generalizing t with
  | zero =>
    refine ⟨false,t,{},fun ps length => ⟨[],?_,rfl,?_⟩⟩
    · rw [List.length_eq_zero_iff.mp length]
      rfl
    · rw [List.length_eq_zero_iff.mp length]
      rfl
  | succ n ih =>
    obtain ⟨changed,u,gain,performs⟩ := Pruner.perform_gains t
    obtain ⟨more,v,others,sweeps⟩ := ih u
    refine ⟨changed || more,v,gain.add others,fun ps length => ?_⟩
    obtain ⟨p,ps,rfl⟩ := List.exists_cons_of_length_eq_add_one length
    obtain ⟨q,performed,first⟩ := performs p
    obtain ⟨qs,swept,length',rest⟩ := sweeps ps (Nat.succ.inj length)
    refine ⟨q :: qs,?_,congrArg (· + 1) length',?_⟩
    · unfold sweep
      rw [performed]
      dsimp only
      rw [swept]
    · rw [tally_cons,tally_cons,first,rest,Tally.add_add_add_comm]

theorem sweepUpTo_gains (most n : Nat) (t : Traced) : ∃ changed k u gain, ∀ ps : List Pruner, ps.length = n →
    ∃ qs, sweepUpTo most ps t = (changed,k,qs,u) ∧ qs.length = n ∧ tally qs = (tally ps).add gain := by
  induction most generalizing t with
  | zero => exact ⟨false,0,t,{},fun ps length => ⟨ps,rfl,length,rfl⟩⟩
  | succ most ih =>
    obtain ⟨changed,u,gain,sweeps⟩ := sweep_gains n t
    cases changed with
    | false =>
      refine ⟨false,1,u,gain,fun ps length => ?_⟩
      obtain ⟨qs,swept,length',gains⟩ := sweeps ps length
      refine ⟨qs,?_,length',gains⟩
      unfold sweepUpTo
      rw [swept]
    | true =>
      obtain ⟨_,k,v,more,later⟩ := ih u
      refine ⟨true,k + 1,v,gain.add more,fun ps length => ?_⟩
      obtain ⟨qs,swept,length',first⟩ := sweeps ps length
      obtain ⟨rs,again,length'',second⟩ := later qs length'
      refine ⟨rs,?_,length'',?_⟩
      · unfold sweepUpTo
        rw [swept]
        dsimp only
        rw [again]
      · rw [second,first,Tally.add_assoc]

theorem simplify_gains (most n : Nat) (t : Traced) :
    ∃ changed k u gain, ∀ o : Optimizer, o.maxSweeps = most → o.passes.length = n →
      ∃ qs, o.simplify t = (changed,{ o with passes := qs, sweeps := o.sweeps + k },u) ∧ qs.length = n ∧
        tally qs = (tally o.passes).add gain := by
  obtain ⟨changed,k,u,gain,sweeps⟩ := sweepUpTo_gains most n t
  refine ⟨changed,k,u,gain,fun o limit length => ?_⟩
  obtain ⟨qs,swept,length',gains⟩ := sweeps o.passes length
  refine ⟨qs,?_,length',gains⟩
  unfold simplify
  rw [limit,swept]

theorem tally_replicate (n : Nat) : tally (.replicate n {}) = {} := by
  induction n with
  | zero => rfl
  | succ n ih => rw [List.replicate_succ,tally_cons,ih,Tally.zero_add]

def raised (counts others : List (String × Nat)) : List (String × Nat) :=
  List.zipWith (fun a b => (a.1,a.2 + b.2)) counts others

theorem counts_eq (o : Optimizer) : o.counts = if o.passes = [] then [] else (tally o.passes).entries := by
  unfold counts
  cases o.passes <;> rfl

theorem counts_raised {o p q : Optimizer} (same : o.passes.length = q.passes.length)
    (same' : p.passes.length = q.passes.length) (gains : tally o.passes = (tally p.passes).add (tally q.passes)) :
    o.counts = raised p.counts q.counts := by
  rw [counts_eq,counts_eq,counts_eq]
  simp only [← List.length_eq_zero_iff,same,same']
  split
  · rfl
  · rw [gains]
    rfl

end Optimizer

-- What is shared by methods that are worked on one after another: what was looked up about
-- types, and the optimizer with all it came upon.
structure Bench where
  hierarchy : Hierarchy
  optimizer : Optimizer

abbrev Outcome := Checked (PathGraph × Bool × Traced)

namespace Bench

def opened (platform : Platform) (classes : List ClassHead) (passes maxSweeps : Nat) : Bench :=
  ⟨classes.foldl Hierarchy.add (.fresh platform),{ passes := .replicate passes {}, maxSweeps }⟩

def treat (limits : Limits) (b : Bench) (m : Method) : Outcome × Bench :=
  match m.execute limits b.hierarchy with
  | (.error f,h) => (.error f,{ b with hierarchy := h })
  | (.ok g,h) =>
    let (changed,o,t) := b.optimizer.simplify ⟨m,g⟩
    (.ok (g,changed,t),⟨h,o⟩)

def treatAll (limits : Limits) : Bench → List Method → List Outcome × Bench
  | b,[] => ([],b)
  | b,m :: rest =>
    let (outcome,b) := b.treat limits m
    let (outcomes,b) := treatAll limits b rest
    (outcome :: outcomes,b)

structure Fits (b c : Bench) : Prop where
  agrees : b.hierarchy.Agrees c.hierarchy
  passes : b.optimizer.passes.length = c.optimizer.passes.length
  limit : b.optimizer.maxSweeps = c.optimizer.maxSweeps

theorem treat_gains (limits : Limits) (b : Bench) (m : Method) : ∃ outcome k gain, ∀ c : Bench, c.Fits b →
    ∃ d, c.treat limits m = (outcome,d) ∧ d.Fits b ∧ d.optimizer.sweeps = c.optimizer.sweeps + k ∧
      Optimizer.tally d.optimizer.passes = (Optimizer.tally c.optimizer.passes).add gain := by
  have kept : ∀ c : Bench, c.Fits b → (m.execute limits c.hierarchy).2.Agrees b.hierarchy :=
    fun c fits => (m.execute_agrees limits c.hierarchy).trans fits.agrees
  cases executed : (m.execute limits b.hierarchy).1 with
  | error f =>
    refine ⟨.error f,0,{},fun c fits => ?_⟩
    have result : m.execute limits c.hierarchy = (.error f,(m.execute limits c.hierarchy).2) :=
      Prod.ext ((Method.execute_same fits.agrees m limits).trans executed) rfl
    refine ⟨⟨(m.execute limits c.hierarchy).2,c.optimizer⟩,?_,⟨kept c fits,fits.passes,fits.limit⟩,rfl,rfl⟩
    unfold treat
    rw [result]
  | ok g =>
    obtain ⟨changed,k,u,gain,simplifies⟩ :=
      Optimizer.simplify_gains b.optimizer.maxSweeps b.optimizer.passes.length ⟨m,g⟩
    refine ⟨.ok (g,changed,u),k,gain,fun c fits => ?_⟩
    have result : m.execute limits c.hierarchy = (.ok g,(m.execute limits c.hierarchy).2) :=
      Prod.ext ((Method.execute_same fits.agrees m limits).trans executed) rfl
    obtain ⟨qs,simplified,length,gains⟩ := simplifies c.optimizer fits.limit fits.passes
    refine ⟨⟨(m.execute limits c.hierarchy).2,{ c.optimizer with passes := qs, sweeps := c.optimizer.sweeps + k }⟩,
      ?_,⟨kept c fits,length,fits.limit⟩,rfl,gains⟩
    unfold treat
    rw [result]
    dsimp only
    rw [simplified]

theorem treat_fits {limits : Limits} {b c : Bench} (fits : c.Fits b) (m : Method) : (c.treat limits m).2.Fits b := by
  obtain ⟨_,_,_,treats⟩ := treat_gains limits b m
  obtain ⟨d,treated,fits',_⟩ := treats c fits
  rw [treated]
  exact fits'

theorem treat_outcome {limits : Limits} {b c : Bench} (fits : c.Fits b) (m : Method) :
    (c.treat limits m).1 = (b.treat limits m).1 := by
  obtain ⟨outcome,_,_,treats⟩ := treat_gains limits b m
  obtain ⟨_,treated,_⟩ := treats c fits
  obtain ⟨_,alone,_⟩ := treats b ⟨.refl _,rfl,rfl⟩
  rw [treated,alone]

theorem treatAll_fits {limits : Limits} {b c : Bench} (fits : c.Fits b) (ms : List Method) :
    (c.treatAll limits ms).2.Fits b := by
  induction ms generalizing c with
  | nil => exact fits
  | cons m rest ih => exact ih (treat_fits fits m)

theorem treatAll_outcomes {limits : Limits} {b c : Bench} (fits : c.Fits b) (ms : List Method) :
    (c.treatAll limits ms).1 = ms.map fun m => (b.treat limits m).1 := by
  induction ms generalizing c with
  | nil => rfl
  | cons m rest ih =>
    rw [List.map_cons,← treat_outcome fits m,← ih (treat_fits fits m)]
    rfl

def shown : List (Method × Outcome) → List String
  | [] => []
  | (_,.error _) :: _ => []
  | (m,.ok (_,changed,t)) :: rest => (if changed then Report.methodLines m.code.length t.method else []) ++ shown rest

theorem work_shown (limits : Limits) (b : Bench) (ms : List Method) :
    (Report.work limits ms b.hierarchy b.optimizer).1 = shown (ms.zip (b.treatAll limits ms).1) := by
  induction ms generalizing b with
  | nil => rfl
  | cons m rest ih =>
    unfold Report.work treatAll treat
    rcases m.execute limits b.hierarchy with ⟨result,h⟩
    cases result with
    | error f => rfl
    | ok g => exact congrArg (_ ++ ·) (ih ⟨h,(b.optimizer.simplify ⟨m,g⟩).2.1⟩)

-- Whatever was worked on before, with success or not: a method comes to what it does on a bench
-- that was never used, and raises the numbers of sweeps and of finds by just what they are
-- there. So a report shows of each of its methods what it would show of that method alone.
theorem treated_alone (platform : Platform) (classes : List ClassHead) (passes maxSweeps : Nat) (limits : Limits) :
    let unused := opened platform classes passes maxSweeps
    (∀ earlier m, let used := (unused.treatAll limits earlier).2
      (used.treat limits m).1 = (unused.treat limits m).1 ∧
      (used.treat limits m).2.optimizer.sweeps = used.optimizer.sweeps + (unused.treat limits m).2.optimizer.sweeps ∧
      (used.treat limits m).2.optimizer.counts =
        Optimizer.raised used.optimizer.counts (unused.treat limits m).2.optimizer.counts) ∧
    ∀ ms, (Report.work limits ms unused.hierarchy unused.optimizer).1 =
      shown (ms.map fun m => (m,(unused.treat limits m).1)) := by
  intro unused
  have fits : unused.Fits unused := ⟨.refl _,rfl,rfl⟩
  constructor
  · intro earlier m used
    have fits' : used.Fits unused := treatAll_fits fits earlier
    obtain ⟨outcome,k,gain,treats⟩ := treat_gains limits unused m
    obtain ⟨c,after,later,sweeps,gains⟩ := treats used fits'
    obtain ⟨d,alone,first,sweeps',gains'⟩ := treats unused fits
    have empty : Optimizer.tally unused.optimizer.passes = {} := Optimizer.tally_replicate passes
    rw [empty,Tally.zero_add] at gains'
    rw [after,alone]
    refine ⟨rfl,?_,Optimizer.counts_raised (later.passes.trans first.passes.symm) (fits'.passes.trans first.passes.symm) ?_⟩
    · rw [sweeps,sweeps']
      exact congrArg (used.optimizer.sweeps + ·) (Nat.zero_add k).symm
    · rw [gains,gains']
  · intro ms
    rw [work_shown,treatAll_outcomes fits,← List.map_prod_left_eq_zip]

end Bench
end SmaliPrune
