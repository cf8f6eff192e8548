import SmaliPrune.Proofs.Exploration
import SmaliPrune.Proofs.Handlers
import SmaliPrune.Proofs.Loading

namespace SmaliPrune.Source

def bodyOf : Bool → List (Nat × List Char) → List Line
  | _,[] => []
  | true,(_,line) :: rest => bodyOf (!startsWith ".end annotation" line) rest
  | false,(_,line) :: rest =>
    match classify line with
    | .methodEnd => []
    | kind => kind :: bodyOf (kind == .remark) rest

def body (text : List Char) : List Line := bodyOf false ((numbered text).drop 1)

def Line.units : Line → Nat
  | .instruction text => (((instruction? text).bind fun read => Opcode.named? read.1).map Opcode.units).getD 0
  | _ => 0

-- Where a label stands in lines that begin at an address: behind the instructions above it,
-- the last time that it is written.
def labelled? (name : String) : Nat → List Line → Option Nat
  | _,[] => none
  | a,line :: rest => (labelled? name (a + line.units) rest).or (if line = .label name then some a else none)

def catches (lines : List Line) : List Catch :=
  lines.filterMap fun
    | .guard text => catch? text
    | _ => none

structure Directive where
  first : Nat
  stop : Nat
  handler : Handler
  deriving DecidableEq, Repr

def Directive.range (d : Directive) : Nat × Nat := (d.first,d.stop)

def Directive.covers (d : Directive) (a : Nat) : Bool := d.first ≤ a && a < d.stop

def Catch.directive? (lines : List Line) (c : Catch) : Option Directive := do
  return ⟨← labelled? c.first 0 lines,← labelled? c.stop 0 lines,⟨c.type,← labelled? c.handler 0 lines⟩⟩

def directives? (lines : List Line) : Option (List Directive) := (catches lines).mapM (Catch.directive? lines)

def covering (a : Nat) (ds : List Directive) : List Directive := ds.filter fun d => d.covers a

def grouped (ds : List Directive) : List Directive :=
  (ds.map Directive.range).eraseDups.flatMap fun r => ds.filter fun d => d.range == r

-- Between two directives of one range there is none of another.
def Uninterrupted (ds : List Directive) : Prop := ∀ d e f, [d,e,f].Sublist ds → d.range = f.range → e.range = d.range

def tableOf (ds : List Directive) : List TryRange :=
  ds.foldl (fun table d => addGuard d.first d.stop d.handler table) []

theorem bodyOf_more {n : Nat} {line : List Char} {rest : List (Nat × List Char)} (continues : classify line ≠ .methodEnd) :
    bodyOf false ((n,line) :: rest) = classify line :: bodyOf (classify line == .remark) rest := by
  rw [bodyOf]
  split
  · next ended => exact absurd ended continues
  · rfl

theorem catches_cons (line : Line) (lines : List Line) : catches (line :: lines) = catches [line] ++ catches lines :=
  List.filterMap_append (l := [line])

theorem Draft.add_reads {d e : Draft} {ins n : Nat} {line : Line} (ok : d.add ins n line = .ok e) :
    e.guards.reverse.map Prod.snd = d.guards.reverse.map Prod.snd ++ catches [line] ∧
      e.address = d.address + line.units ∧ e.skipping = (line == .remark || d.skipping) ∧
      ∀ name, e.labels.lookup name = (if line = .label name then some d.address else none).or (d.labels.lookup name) := by
  cases line with
  | registers text =>
    simp only [add,bind_ok] at ok
    obtain ⟨_,_,last⟩ := ok
    cases last
    simp [catches,Line.units]
  | locals text =>
    simp only [add,bind_ok] at ok
    obtain ⟨_,_,last⟩ := ok
    cases last
    simp [catches,Line.units]
  | payload => cases ok
  | remark | directive | methodEnd =>
    cases ok
    simp [catches,Line.units]
  | guard text =>
    simp only [add] at ok
    split at ok
    · next c read =>
      cases ok
      simp [catches,Line.units,read]
    · cases ok
  | label name =>
    cases ok
    refine ⟨by simp [catches],rfl,by simp,fun other => ?_⟩
    rw [List.lookup_cons]
    by_cases here : other = name
    · simp [here]
    · simp [beq_false_of_ne here,Ne.symm here]
  | instruction text =>
    simp only [add] at ok
    split at ok
    · cases ok
    · next name operands read =>
      split at ok
      · cases ok
      · next opcode named =>
        cases ok
        simp [catches,Line.units,read,named]

theorem Draft.collect_reads {d e : Draft} {ins : Nat} {lines : List (Nat × List Char)}
    (ok : collect ins d lines = .ok (some e)) :
    e.guards.reverse.map Prod.snd = d.guards.reverse.map Prod.snd ++ catches (bodyOf d.skipping lines) ∧
      ∀ name, e.labels.lookup name = (labelled? name d.address (bodyOf d.skipping lines)).or (d.labels.lookup name) := by
  induction lines generalizing d with
  | nil => cases ok
  | cons l rest ih =>
    obtain ⟨n,line⟩ := l
    simp only [collect] at ok
    split at ok
    · next skipping =>
      obtain ⟨guards,labels⟩ := ih ok
      cases ends : startsWith ".end annotation" line with
      | true => simpa [bodyOf,skipping,ends] using And.intro guards labels
      | false => simpa [bodyOf,skipping,ends] using And.intro guards labels
    · next reading =>
      rw [Bool.not_eq_true] at reading
      split at ok
      · next ended =>
        cases ok
        simp [bodyOf,reading,ended,catches,labelled?]
      · next continues =>
        obtain ⟨f,added,more⟩ := bind_ok.mp ok
        obtain ⟨guards,address,skipping,labels⟩ := add_reads (within_ok.mp added)
        obtain ⟨guards',labels'⟩ := ih more
        rw [reading,Bool.or_false] at skipping
        rw [reading,bodyOf_more continues]
        constructor
        · rw [guards',guards,skipping,List.append_assoc,← catches_cons]
        · intro name
          rw [labels',labels,address,skipping,← Option.or_assoc]
          rfl

theorem mapM_some {α β : Type} {f : α → Option β} {xs : List α} {ys : List β}
    (all : List.Forall₂ (fun x y => f x = some y) xs ys) : xs.mapM f = some ys := by
  induction all with
  | nil => rfl
  | cons head _ ih =>
    rw [List.mapM_cons,head,ih]
    rfl

theorem resolveGuard_reads {f : Frame} {lines : List Line} (labels : ∀ name, f.labels.lookup name = labelled? name 0 lines)
    {n : Nat} {c : Catch} {g : Nat × Nat × Handler} (ok : resolveGuard f n c = .ok g) :
    c.directive? lines = some ⟨g.1,g.2.1,g.2.2⟩ := by
  obtain ⟨a,first,rest⟩ := bind_ok.mp (within_ok.mp ok)
  obtain ⟨b,stop,rest⟩ := bind_ok.mp rest
  obtain ⟨x,entry,last⟩ := bind_ok.mp rest
  cases last
  have first := (labels _).symm.trans (Frame.address_ok first)
  have stop := (labels _).symm.trans (Frame.address_ok stop)
  have entry := (labels _).symm.trans (Frame.address_ok entry)
  simp [Catch.directive?,first,stop,entry]

theorem finish_reads {d : Draft} {owner : String} {h : Header} {m : Method} {lines : List Line}
    (guards : d.guards.reverse.map Prod.snd = catches lines) (labels : ∀ name, d.labels.lookup name = labelled? name 0 lines)
    (ok : d.finish owner h = .ok m) : ∃ ds, directives? lines = some ds ∧ m.tries = tableOf ds := by
  unfold Draft.finish at ok
  dsimp only at ok
  split at ok
  · cases ok
  · obtain ⟨code,_,rest⟩ := bind_ok.mp ok
    obtain ⟨table,resolved,last⟩ := bind_ok.mp rest
    cases last
    obtain ⟨gs,each,last⟩ := bind_ok.mp resolved
    cases last
    refine ⟨gs.map fun g => ⟨g.1,g.2.1,g.2.2⟩,?_,?_⟩
    · unfold directives?
      rw [← guards]
      apply mapM_some
      rw [List.forall₂_map_left_iff,List.forall₂_map_right_iff]
      exact (mapM_ok each).imp fun _ _ => resolveGuard_reads labels
    · unfold tableOf
      rw [List.foldl_map]

theorem method_reads {owner : String} {text : List Char} {m : Method} (loaded : method owner text = .ok m) :
    ∃ ds, directives? (body text) = some ds ∧ m.tries = tableOf ds := by
  unfold method at loaded
  split at loaded
  · cases loaded
  · next n first rest split' =>
    obtain ⟨h,_,loaded⟩ := bind_ok.mp loaded
    dsimp only at loaded
    obtain ⟨d?,collected,loaded⟩ := bind_ok.mp (within_ok.mp loaded)
    split at loaded
    · cases loaded
    · have lines : body text = bodyOf Draft.start.skipping rest := by
        rw [body,split']
        rfl
      obtain ⟨guards,labels⟩ := Draft.collect_reads collected
      rw [← lines] at guards labels
      refine finish_reads guards (fun name => ?_) loaded
      rw [labels]
      exact Option.or_none

def Directive.Alongside (d : Directive) : Directive → Bool := fun e => e.range == d.range

theorem foldl_addGuard (rest : List Directive) (d : Directive) (handlers : List Handler) (table : List TryRange) :
    rest.foldl (fun table e => addGuard e.first e.stop e.handler table) (⟨d.first,d.stop,handlers⟩ :: table) =
      ⟨d.first,d.stop,handlers ++ (rest.filter d.Alongside).map Directive.handler⟩ ::
        (rest.filter fun e => !d.Alongside e).foldl (fun table e => addGuard e.first e.stop e.handler table) table := by
  induction rest generalizing handlers table with
  | nil => simp
  | cons e rest ih =>
    by_cases same : d.first = e.first ∧ d.stop = e.stop
    · have along : d.Alongside e = true := by simp [Directive.Alongside,Directive.range,same]
      rw [List.foldl_cons,addGuard,if_pos same,ih]
      simp [along]
    · have other : d.Alongside e = false := by
        simp only [Directive.Alongside,Directive.range,beq_eq_false_iff_ne,ne_eq,Prod.mk.injEq]
        exact fun equal => same ⟨equal.1.symm,equal.2.symm⟩
      rw [List.foldl_cons,addGuard,if_neg same,ih]
      simp [other]

theorem tableOf_cons (d : Directive) (rest : List Directive) :
    tableOf (d :: rest) = ⟨d.first,d.stop,d.handler :: (rest.filter d.Alongside).map Directive.handler⟩ ::
      tableOf (rest.filter fun e => !d.Alongside e) := by
  unfold tableOf
  rw [List.foldl_cons]
  exact foldl_addGuard rest d [d.handler] []

theorem grouped_cons (d : Directive) (rest : List Directive) :
    grouped (d :: rest) = d :: rest.filter d.Alongside ++ grouped (rest.filter fun e => !d.Alongside e) := by
  have others : (rest.map Directive.range).filter (fun r => !r == d.range) =
      (rest.filter fun e => !d.Alongside e).map Directive.range := List.filter_map
  unfold grouped
  rw [List.map_cons,List.eraseDups_cons,List.flatMap_cons,List.filter_cons_of_pos (by simp),others]
  congr 1
  apply List.flatMap_congr
  intro r listed
  obtain ⟨e,member,rfl⟩ := List.mem_map.mp (List.mem_eraseDups.mp listed)
  have differs : e.range ≠ d.range := by simpa [Directive.Alongside] using (List.mem_filter.mp member).2
  rw [List.filter_cons_of_neg (by simpa using Ne.symm differs),List.filter_filter]
  apply List.filter_congr
  intro f _
  by_cases here : f.range = e.range
  · simp [Directive.Alongside,here,differs]
  · simp [here]

-- Whatever holds with no directive, and of a first one and those of other ranges if of the
-- latter, holds.
theorem rangewise {P : List Directive → Prop} (nil : P [])
    (cons : ∀ d rest, P (rest.filter fun e => !d.Alongside e) → P (d :: rest)) (ds : List Directive) : P ds := by
  induction length : ds.length using Nat.strongRecOn generalizing ds with
  | ind k ih =>
    cases ds with
    | nil => exact nil
    | cons d rest =>
      apply cons
      apply ih _ ?_ _ rfl
      have := List.length_filter_le (fun e => !d.Alongside e) rest
      rw [List.length_cons] at length
      omega

theorem covers_alongside {d e : Directive} (along : d.Alongside e = true) (a : Nat) : e.covers a = d.covers a := by
  have same : e.range = d.range := by simpa [Directive.Alongside] using along
  obtain ⟨first,stop⟩ := Prod.mk.inj same
  unfold Directive.covers
  rw [first,stop]

theorem handlers_tableOf (a : Nat) (ds : List Directive) :
    ((tableOf ds).filter fun t => t.covers a).flatMap TryRange.handlers = (grouped (covering a ds)).map Directive.handler := by
  induction ds using rangewise with
  | nil => rfl
  | cons d rest ih =>
    have apart : covering a (rest.filter fun e => !d.Alongside e) = (covering a rest).filter fun e => !d.Alongside e := by
      unfold covering
      rw [List.filter_comm]
    have first : ∀ handlers, (⟨d.first,d.stop,handlers⟩ : TryRange).covers a = d.covers a := fun _ => rfl
    rw [tableOf_cons,List.filter_cons,first]
    cases covers : d.covers a with
    | true =>
      have head : covering a (d :: rest) = d :: covering a rest := List.filter_cons_of_pos covers
      have along : (covering a rest).filter d.Alongside = rest.filter d.Alongside := by
        unfold covering
        rw [List.filter_filter]
        apply List.filter_congr
        intro e _
        cases same : d.Alongside e with
        | true => simp [covers_alongside same,covers]
        | false => rfl
      rw [if_pos rfl,List.flatMap_cons,ih,head,grouped_cons,apart,along]
      simp
    | false =>
      have head : covering a (d :: rest) = covering a rest := List.filter_cons_of_neg (by simp [covers])
      have all : (covering a rest).filter (fun e => !d.Alongside e) = covering a rest := by
        apply List.filter_eq_self.mpr
        intro e member
        cases same : d.Alongside e with
        | false => rfl
        | true =>
          have inside := (List.mem_filter.mp member).2
          rw [covers_alongside same,covers] at inside
          cases inside
      rw [if_neg Bool.false_ne_true,ih,head,apart,all]

theorem grouped_perm (ds : List Directive) : (grouped ds).Perm ds := by
  induction ds using rangewise with
  | nil => exact .refl _
  | cons d rest ih =>
    rw [grouped_cons]
    apply List.Perm.cons
    exact (ih.append_left _).trans (List.filter_append_perm d.Alongside rest)

theorem filter_append_others {α : Type} {p : α → Bool} {xs : List α}
    (before : ∀ e f, [e,f].Sublist xs → p f = true → p e = true) : xs.filter p ++ xs.filter (fun x => !p x) = xs := by
  induction xs with
  | nil => rfl
  | cons x rest ih =>
    cases chosen : p x with
    | true =>
      rw [List.filter_cons_of_pos chosen,List.filter_cons_of_neg (by simp [chosen]),List.cons_append,
        ih fun e f sub => before e f (sub.trans (List.sublist_cons_self x rest))]
    | false =>
      have none : ∀ f ∈ rest, p f = false := by
        intro f member
        cases later : p f with
        | false => rfl
        | true =>
          rw [before x f ((List.singleton_sublist.mpr member).cons_cons x) later] at chosen
          cases chosen
      have chosen' : ∀ f ∈ x :: rest, p f = false := List.forall_mem_cons.mpr ⟨chosen,none⟩
      rw [List.filter_eq_nil_iff.mpr (by simpa using chosen'),List.filter_eq_self.mpr (by simpa using chosen')]
      rfl

theorem grouped_uninterrupted {ds : List Directive} (tidy : Uninterrupted ds) : grouped ds = ds := by
  induction ds using rangewise with
  | nil => rfl
  | cons d rest ih =>
    have before : ∀ e f, [e,f].Sublist rest → d.Alongside f = true → d.Alongside e = true := by
      intro e f sub same
      have same : f.range = d.range := by simpa [Directive.Alongside] using same
      simpa [Directive.Alongside] using tidy d e f (sub.cons_cons d) same.symm
    have tidy' : Uninterrupted (rest.filter fun e => !d.Alongside e) :=
      fun x y z sub => tidy x y z (sub.trans (List.filter_sublist.trans (List.sublist_cons_self d rest)))
    rw [grouped_cons,ih tidy',List.cons_append,filter_append_others before]

-- The handlers of an address are the directives that cover it, each once. Those of one range
-- come together, in the order they are written, and the ranges in the order of their first
-- directives; so where none interrupts those of another range, all are in the order they are
-- written. An exception of a known type goes to the first in that order that matches.
theorem handlersFor_grouped {owner : String} {text : List Char} {m : Method}
    (loaded : Source.method owner text = .ok m) : ∃ ds, directives? (body text) = some ds ∧ ∀ a,
      m.handlersFor a = (grouped (covering a ds)).map Directive.handler ∧
      (grouped (covering a ds)).Perm (covering a ds) ∧
      (Uninterrupted (covering a ds) → m.handlersFor a = (covering a ds).map Directive.handler) ∧
      ∀ h thrown before c behind, m.handlersFor a = before ++ c :: behind →
        (∀ b ∈ before, b.catches? h (some thrown) = some false) → c.catches? h (some thrown) = some true →
        m.exceptionTargets h a (some thrown) = [c.entry] := by
  obtain ⟨ds,read,tries⟩ := method_reads loaded
  refine ⟨ds,read,fun a => ?_⟩
  have handlers : m.handlersFor a = (grouped (covering a ds)).map Directive.handler := by
    unfold Method.handlersFor
    rw [tries]
    exact handlers_tableOf a ds
  refine ⟨handlers,grouped_perm _,fun tidy => by rw [handlers,grouped_uninterrupted tidy],?_⟩
  intro h thrown before c behind listed rejects certain
  unfold Method.exceptionTargets
  rw [listed,catchers_first rejects certain]
  rfl

def interleaved : List Char := ofLines [
  ".method static run(La;)V",":a","throw p0",":b","nop",":c","return-void",".catch Lb; \x7b:a .. :b\x7d :c",
  ".catch Ljava/lang/Error; \x7b:a .. :c\x7d :b",".catchall \x7b:a .. :b\x7d :a",".end method"]

theorem interleaved_loads : ∃ m, method "La;" interleaved = .ok m ∧
    m.handlersFor 0 = [⟨some "Lb;",2⟩,⟨none,0⟩,⟨some "Ljava/lang/Error;",1⟩] ∧
    m.exceptionTargets (.fresh Platform.standard) 0 (some "Ljava/lang/Error;") = [0] := by
  obtain ⟨_,ok⟩ := exists_of_isOk (x := do
    let m ← method "La;" interleaved
    if m.handlersFor 0 = [⟨some "Lb;",2⟩,⟨none,0⟩,⟨some "Ljava/lang/Error;",1⟩] ∧
      m.exceptionTargets (.fresh Platform.standard) 0 (some "Ljava/lang/Error;") = [0] then pure ()
      else throw ⟨.emptyMethod,[]⟩) (by decide +kernel)
  obtain ⟨m,loaded,ok⟩ := bind_ok.mp ok
  split at ok
  · next facts => exact ⟨m,loaded,facts⟩
  · cases ok

theorem interleaved_written : directives? (body interleaved) =
    some [⟨0,1,some "Lb;",2⟩,⟨0,2,some "Ljava/lang/Error;",1⟩,⟨0,1,none,0⟩] := by decide +kernel

theorem interleaved_grouped : ∃ m ds, method "La;" interleaved = .ok m ∧ directives? (body interleaved) = some ds ∧
    m.handlersFor 0 = (grouped (covering 0 ds)).map Directive.handler ∧
    m.handlersFor 1 = (covering 1 ds).map Directive.handler ∧ covering 1 ds = [⟨0,2,some "Ljava/lang/Error;",1⟩] := by
  obtain ⟨m,loaded,_⟩ := interleaved_loads
  obtain ⟨ds,read,handlers⟩ := handlersFor_grouped loaded
  have one : covering 1 ds = [⟨0,2,some "Ljava/lang/Error;",1⟩] := by
    cases read.symm.trans interleaved_written
    rfl
  have tidy : Uninterrupted (covering 1 ds) := by
    intro d e f sub
    rw [one] at sub
    exact absurd sub.length_le (by simp)
  exact ⟨m,ds,loaded,read,(handlers 0).1,(handlers 1).2.2.1 tidy,one⟩

-- Thrown at its first address, an error would be caught by the second directive, but the
-- handler of the third is the one it reaches.
theorem interleaved_reordered : ∃ m ds, method "La;" interleaved = .ok m ∧
    directives? (body interleaved) = some ds ∧ m.handlersFor 0 ≠ (covering 0 ds).map Directive.handler ∧
    ((covering 0 ds).find? fun d =>
      d.handler.catches? (.fresh Platform.standard) (some "Ljava/lang/Error;") == some true) =
        some ⟨0,2,some "Ljava/lang/Error;",1⟩ ∧
    m.exceptionTargets (.fresh Platform.standard) 0 (some "Ljava/lang/Error;") = [0] := by
  obtain ⟨m,loaded,handlers,reached⟩ := interleaved_loads
  refine ⟨m,_,loaded,interleaved_written,?_,by decide +kernel,reached⟩
  rw [handlers]
  decide +kernel

end SmaliPrune.Source
