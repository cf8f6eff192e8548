import Mathlib.Logic.Relation
import SmaliPrune.Proofs.Content
import SmaliPrune.Proofs.Directives

namespace SmaliPrune

theorem mapM_alike {α β : Type} {f g : α → Checked β} (alike : ∀ x y, f x = .ok y ↔ g x = .ok y) (xs : List α)
    (ys : List β) : xs.mapM f = .ok ys ↔ xs.mapM g = .ok ys := by
  induction xs generalizing ys with
  | nil => exact Iff.rfl
  | cons x xs ih =>
    rw [List.mapM_cons,List.mapM_cons,bind_ok,bind_ok]
    refine exists_congr fun y => and_congr (alike x y) ?_
    rw [bind_ok,bind_ok]
    exact exists_congr fun zs => and_congr (ih zs) Iff.rfl

namespace Source
open Text

-- The number of a line gets into nothing but the places of a fault.

def unplaced (texts : List (List Char)) : List (Nat × List Char) := texts.map fun text => (0,text)

def Pending.unnumbered (p : Pending) : Pending := { p with line := 0 }

def Draft.unnumbered (d : Draft) : Draft :=
  { d with guards := d.guards.map fun g => (0,g.2), pending := d.pending.map Pending.unnumbered }

theorem Draft.add_unnumbered (d : Draft) (ins n : Nat) (line : Line) :
    d.unnumbered.add ins 0 line = (d.add ins n line).map unnumbered := by
  cases line with
  | registers text | locals text =>
    simp only [add]
    cases count text <;> rfl
  | guard text =>
    simp only [add]
    cases catch? text <;> rfl
  | instruction text =>
    simp only [add]
    cases instruction? text with
    | none => rfl
    | some read =>
      simp only
      cases Opcode.named? read.1 <;> rfl
  | _ => rfl

theorem Draft.collect_unnumbered {ins : Nat} {f : Draft} (lines : List (Nat × List Char)) (d : Draft) :
    collect ins d.unnumbered (unplaced (lines.map Prod.snd)) = .ok (some f) ↔
      ∃ e, collect ins d lines = .ok (some e) ∧ e.unnumbered = f := by
  induction lines generalizing d with
  | nil =>
    constructor
    · intro ok
      cases ok
    · rintro ⟨_,ok,_⟩
      cases ok
  | cons l rest ih =>
    obtain ⟨n,line⟩ := l
    have skips : d.unnumbered.skipping = d.skipping := rfl
    simp only [List.map_cons,unplaced,collect,skips]
    split
    · have same : (if startsWith ".end annotation" line then { d.unnumbered with skipping := false } else d.unnumbered) =
          (if startsWith ".end annotation" line then { d with skipping := false } else d).unnumbered := by
        split <;> rfl
      rw [same]
      exact ih _
    · split
      · constructor
        · intro ok
          cases ok
          exact ⟨d,rfl,rfl⟩
        · rintro ⟨_,ok,rfl⟩
          cases ok
          rfl
      · rw [add_unnumbered d ins n]
        cases d.add ins n (classify line) with
        | error e =>
          constructor
          · intro ok
            cases ok
          · rintro ⟨_,ok,_⟩
            cases ok
        | ok e => exact ih e

theorem Draft.finish_unnumbered (d : Draft) (owner : String) (h : Header) (m : Method) :
    d.unnumbered.finish owner h = .ok m ↔ d.finish owner h = .ok m := by
  have code : ∀ (f : Frame) is, (d.unnumbered.pending.reverse.mapM fun p => (p.assemble f).within (.line p.line)) = .ok is ↔
      (d.pending.reverse.mapM fun p => (p.assemble f).within (.line p.line)) = .ok is := by
    intro f is
    rw [unnumbered,← List.map_reverse,List.mapM_map]
    exact mapM_alike (fun p i => within_ok.trans within_ok.symm) _ is
  have table : ∀ (f : Frame) ts, tryTable f d.unnumbered.guards.reverse = .ok ts ↔ tryTable f d.guards.reverse = .ok ts := by
    intro f ts
    have resolved : ∀ rs, (d.unnumbered.guards.reverse.mapM fun g => resolveGuard f g.1 g.2) = .ok rs ↔
        (d.guards.reverse.mapM fun g => resolveGuard f g.1 g.2) = .ok rs := by
      intro rs
      rw [unnumbered,← List.map_reverse,List.mapM_map]
      exact mapM_alike (fun g r => within_ok.trans within_ok.symm) _ rs
    unfold tryTable
    rw [bind_ok,bind_ok]
    exact exists_congr fun rs => and_congr (resolved rs) Iff.rfl
  have registers : d.unnumbered.registers = d.registers := rfl
  have labels : d.unnumbered.labels = d.labels := rfl
  unfold finish
  dsimp only
  rw [registers,labels]
  split
  · exact Iff.rfl
  · rw [bind_ok,bind_ok]
    refine exists_congr fun is => and_congr (code _ is) ?_
    rw [bind_ok,bind_ok]
    exact exists_congr fun ts => and_congr (table _ ts) Iff.rfl

def Tells (owner : String) (texts : List (List Char)) (m : Method) : Prop :=
  ∃ first rest h d, texts = first :: rest ∧ header first = .ok h ∧
    Draft.collect h.ins .start (unplaced rest) = .ok (some d) ∧ d.finish owner h = .ok m

theorem method_tells (owner : String) (text : List Char) (m : Method) :
    method owner text = .ok m ↔ Tells owner (content text) m := by
  rw [← numbered_content]
  unfold method Tells
  cases numbered text with
  | nil =>
    constructor
    · intro ok
      cases ok
    · rintro ⟨_,_,_,_,same,_⟩
      cases same
  | cons l rest =>
    obtain ⟨n,first⟩ := l
    simp only [bind_ok,within_ok,List.map_cons]
    constructor
    · rintro ⟨h,headed,collected,ok,last⟩
      cases collected with
      | none => cases last
      | some d =>
        have rest := (Draft.collect_unnumbered (f := d.unnumbered) rest .start).mpr ⟨d,ok,rfl⟩
        exact ⟨_,_,h,_,rfl,headed,rest,(d.finish_unnumbered owner h m).mpr last⟩
    · rintro ⟨_,_,h,_,same,headed,ok,last⟩
      obtain ⟨rfl,rfl⟩ := List.cons.inj same
      obtain ⟨d,collected,rfl⟩ := (Draft.collect_unnumbered rest .start).mp ok
      exact ⟨h,headed,some d,collected,(d.finish_unnumbered owner h m).mp last⟩

def annotated (inside : Bool) (line : List Char) : Bool :=
  if inside then !startsWith ".end annotation" line else startsWith ".annotation" line

theorem startsWith_iff {word : String} {line : List Char} : startsWith word line = true ↔ word.toList <+: line :=
  List.isPrefixOf_iff_prefix

theorem startsWith_apart {word other : String} {line : List Char} (here : startsWith word line = true)
    (apart : ¬ word.toList <+: other.toList ∧ ¬ other.toList <+: word.toList) : startsWith other line = false := by
  refine Bool.eq_false_iff.mpr fun there => ?_
  exact (List.prefix_or_prefix_of_prefix (startsWith_iff.mp here) (startsWith_iff.mp there)).elim apart.1 apart.2

theorem classify_remark (line : List Char) : (classify line == .remark) = startsWith ".annotation" line := by
  cases here : startsWith ".annotation" line with
  | true =>
    have ends : startsWith ".end method" line = false := startsWith_apart here (by decide)
    have registers : startsWith ".registers" line = false := startsWith_apart here (by decide)
    have locals : startsWith ".locals" line = false := startsWith_apart here (by decide)
    simp [classify,here,ends,registers,locals]
  | false =>
    simp only [classify,here,Bool.false_eq_true,if_false]
    repeat' split
    all_goals rfl

-- If all drafts that some lines can give read alike what comes behind, then so does the
-- draft before them. Of the lines it matters only whether they leave an annotation open.
theorem Draft.collect_behind {ins : Nat} {back other : List (List Char)} (front : List (List Char)) (d : Draft)
    (alike : ∀ e : Draft, e.skipping = front.foldl annotated d.skipping →
      collect ins e (unplaced back) = collect ins e (unplaced other)) :
    collect ins d (unplaced (front ++ back)) = collect ins d (unplaced (front ++ other)) := by
  induction front generalizing d with
  | nil => exact alike d rfl
  | cons line front ih =>
    simp only [unplaced,List.cons_append,List.map_cons,collect]
    split
    · next skipping =>
      refine ih _ fun e reached => alike e ?_
      rw [reached,List.foldl_cons,annotated,if_pos skipping]
      split
      · next ends => rw [ends]; rfl
      · next goes => rw [Bool.eq_false_iff.mpr goes,skipping]; rfl
    · next reading =>
      split
      · rfl
      · cases added : d.add ins 0 (classify line) with
        | error e => rfl
        | ok e =>
          refine ih e fun f reached => alike f ?_
          have state := (add_reads added).2.2.1
          rw [Bool.eq_false_iff.mpr reading,Bool.or_false,classify_remark] at state
          rw [reached,List.foldl_cons,annotated,if_neg reading,state]

def Passive (line : List Char) : Prop := classify (bare line) = .directive ∧ startsWith ".end annotation" (bare line) = false

instance (line : List Char) : Decidable (Passive line) := instDecidableAnd

theorem passive_debug {word : String} (debug : word ∈ [".line",".prologue",".epilogue",".source",".local",".end local",
    ".restart local"]) {line rest : List Char} (spelled : bare line = word.toList ++ rest)
    (next : ∀ c ∈ rest.head?, isBlank c = true) : Passive line := by
  -- With this letter `.local` would be `.locals`, which is read.
  have longer : rest.head? ≠ some 's' := fun head => absurd (next 's' head) (by decide)
  unfold Passive
  rw [spelled]
  simp only [List.mem_cons,List.not_mem_nil,or_false] at debug
  rcases debug with rfl | rfl | rfl | rfl | rfl | rfl | rfl
  all_goals
    cases rest with
    | nil => decide
    | cons c rest =>
      have other : ('s' == c) = false := beq_eq_false_iff_ne.mpr fun same => longer (by rw [← same]; rfl)
      simp [classify,startsWith,List.isPrefixOf,other]

theorem Draft.collect_passive {ins : Nat} {line : List Char} (passive : Passive line) (d : Draft) (rest : List (List Char)) :
    collect ins d (unplaced (bare line :: rest)) = collect ins d (unplaced rest) := by
  simp only [unplaced,List.map_cons,collect,passive.1,passive.2]
  split
  · rfl
  · rfl

structure Notice (head : List Char) (inner : List (List Char)) (foot : List Char) : Prop where
  begins : startsWith ".annotation" (bare head) = true
  goes : ∀ line ∈ inner, startsWith ".end annotation" (trim line) = false
  ends : startsWith ".end annotation" (bare foot) = true

theorem Draft.collect_inner {ins : Nat} (inner rest : List (List Char)) {d : Draft} (skipping : d.skipping = true)
    (goes : ∀ line ∈ inner, startsWith ".end annotation" line = false) :
    collect ins d (unplaced (inner ++ rest)) = collect ins d (unplaced rest) := by
  induction inner with
  | nil => rfl
  | cons line inner ih =>
    have first := goes line List.mem_cons_self
    rw [← ih fun other member => goes other (List.mem_cons_of_mem _ member)]
    simp only [unplaced,List.cons_append,List.map_cons,collect,skipping,first]
    rfl

theorem startsWith_trim (front : List Char) {c : Char} (solid : isBlank c = false) {word : String}
    (spelled : word.toList = front ++ [c]) {line : List Char} (here : startsWith word (bare line) = true) :
    startsWith word (trim line) = true := by
  have start : word.toList <+: trimStart line :=
    (startsWith_iff.mp here).trans ((trimEnd_front _).trans (trim_front (beforeComment_front .code line)))
  obtain ⟨rest,same⟩ := start
  refine startsWith_iff.mpr ?_
  rw [trim,← same,spelled,List.append_assoc]
  exact trimEnd_kept solid front rest

def written (lines : List (List Char)) : List Char := lines.flatMap fun line => line ++ ['\n']

theorem content_written (lines : List (List Char)) : content (written lines) = lines.flatMap content := by
  induction lines with
  | nil => rfl
  | cons line rest ih =>
    have first : written (line :: rest) = line ++ '\n' :: written rest := by simp [written]
    rw [first,content_feed,ih]
    rfl

def Within (text : List Char) : Prop := ((content text).drop 1).foldl annotated false = true

instance (text : List Char) : Decidable (Within text) := instDecidableEqBool _ _

-- One change to how a text is written that does not change what it says: to its blanks and
-- line ends, its comments, and its directives and annotations that say nothing about code.
inductive Relaid : List Char → List Char → Prop where
  | indent {before blanks behind : List Char} (opens : Opens before) (blank : Blank blanks) (single : '\n' ∉ blanks) :
      Relaid (before ++ behind) (before ++ (blanks ++ behind))
  | trail {before blanks behind : List Char} (closes : Closes behind) (blank : Blank blanks) (single : '\n' ∉ blanks) :
      Relaid (before ++ behind) (before ++ (blanks ++ behind))
  | ending (before behind : List Char) : Relaid (before ++ '\n' :: behind) (before ++ '\r' :: '\n' :: behind)
  | lastEnding (text : List Char) : Relaid text (text ++ ['\n'])
  | empty {before blanks remark behind : List Char} (opens : Opens before) (blank : Blank blanks) (hash : Remark remark)
      (single : '\n' ∉ blanks ++ remark) : Relaid (before ++ behind) (before ++ (blanks ++ remark ++ '\n' :: behind))
  | comment {before line blanks remark behind : List Char} (opens : Opens before) (closes : Closes behind)
      (outside : Scan.code.behind line = .code) (blank : Blank blanks) (single : '\n' ∉ line ++ (blanks ++ '#' :: remark)) :
      Relaid (before ++ (line ++ behind)) (before ++ (line ++ (blanks ++ '#' :: remark) ++ behind))
  | directive {before line behind : List Char} (opens : Opens before) (headed : content before ≠ [])
      (passive : Passive line) (single : '\n' ∉ line) : Relaid (before ++ behind) (before ++ (line ++ '\n' :: behind))
  | note {before head foot behind : List Char} {inner : List (List Char)} (opens : Opens before)
      (headed : content before ≠ []) (outside : ¬ Within before) (whole : Notice head inner foot)
      (single : ∀ line ∈ head :: (inner ++ [foot]), '\n' ∉ line) :
      Relaid (before ++ behind) (before ++ (written (head :: (inner ++ [foot])) ++ behind))

theorem Tells.passed {owner : String} {m : Method} {front mid back : List (List Char)} (headed : front ≠ [])
    (passed : ∀ {ins : Nat} {d : Draft}, d.skipping = (front.drop 1).foldl annotated false →
      Draft.collect ins d (unplaced (mid ++ back)) = Draft.collect ins d (unplaced back)) :
    Tells owner (front ++ back) m ↔ Tells owner (front ++ (mid ++ back)) m := by
  obtain ⟨first,front,rfl⟩ := List.exists_cons_of_ne_nil headed
  have same : ∀ ins, Draft.collect ins .start (unplaced (front ++ (mid ++ back))) =
      Draft.collect ins .start (unplaced (front ++ back)) :=
    fun ins => Draft.collect_behind front .start fun e reached => passed reached
  constructor
  · rintro ⟨_,_,h,d,lines,read,collected,last⟩
    obtain ⟨rfl,rfl⟩ := List.cons.inj lines
    exact ⟨_,_,h,d,rfl,read,(same h.ins).trans collected,last⟩
  · rintro ⟨_,_,h,d,lines,read,collected,last⟩
    obtain ⟨rfl,rfl⟩ := List.cons.inj lines
    exact ⟨_,_,h,d,rfl,read,(same h.ins).symm.trans collected,last⟩

theorem ne_nil_of_startsWith {word : String} {line : List Char} (long : word.toList ≠ [])
    (here : startsWith word line = true) : line ≠ [] := by
  rintro rfl
  exact long (List.prefix_nil.mp (startsWith_iff.mp here))

theorem Passive.solid {line : List Char} (passive : Passive line) : bare line ≠ [] := by
  intro nothing
  have kind := passive.1
  rw [nothing] at kind
  cases kind

theorem Notice.content {head foot : List Char} {inner : List (List Char)} (whole : Notice head inner foot)
    (single : ∀ line ∈ head :: (inner ++ [foot]), '\n' ∉ line) :
    content (written (head :: (inner ++ [foot]))) = bare head :: (inner.flatMap content ++ [bare foot]) := by
  have first := content_solid (single head List.mem_cons_self) (ne_nil_of_startsWith (by decide) whole.begins)
  have last := content_solid (single foot (by simp)) (ne_nil_of_startsWith (by decide) whole.ends)
  rw [content_written,List.flatMap_cons,List.flatMap_append,List.flatMap_singleton,first,last]
  rfl

theorem Notice.inside {head foot : List Char} {inner : List (List Char)} (whole : Notice head inner foot)
    (single : ∀ line ∈ head :: (inner ++ [foot]), '\n' ∉ line) :
    ∀ text ∈ inner.flatMap Source.content, startsWith ".end annotation" text = false := by
  intro text member
  obtain ⟨line,within,read⟩ := List.mem_flatMap.mp member
  rw [mem_content_single (single line (by simp [within])) read]
  refine Bool.eq_false_iff.mpr fun here => ?_
  have there := startsWith_trim ".end annotatio".toList (c := 'n') (by decide) (by decide) here
  rw [whole.goes line within] at there
  cases there

theorem Draft.collect_notice {ins : Nat} {head foot : List Char} {inner rest : List (List Char)}
    (begins : startsWith ".annotation" head = true) (goes : ∀ line ∈ inner, startsWith ".end annotation" line = false)
    (ends : startsWith ".end annotation" foot = true) {d : Draft} (reading : d.skipping = false) :
    collect ins d (unplaced (head :: (inner ++ [foot]) ++ rest)) = collect ins d (unplaced rest) := by
  have kind : classify head = .remark := by
    rw [← beq_iff_eq,classify_remark,begins]
  have opened : collect ins d (unplaced (head :: (inner ++ [foot]) ++ rest)) =
      collect ins { d with skipping := true } (unplaced (inner ++ foot :: rest)) := by
    simp only [unplaced,List.cons_append,List.append_assoc,List.nil_append,List.map_cons,collect,reading,kind]
    rfl
  have closed : collect ins { d with skipping := true } (unplaced (foot :: rest)) = collect ins d (unplaced rest) := by
    obtain ⟨_,_,_,_,_,_⟩ := d
    cases reading
    simp only [unplaced,List.map_cons,collect,ends]
    rfl
  rw [opened,collect_inner inner (foot :: rest) rfl goes,closed]

theorem opens_written (lines : List (List Char)) : Opens (written lines) := by
  rcases List.eq_nil_or_concat lines with rfl | ⟨front,last,rfl⟩
  · exact Or.inl rfl
  · exact Or.inr ⟨written front ++ last,by simp [written]⟩

theorem Relaid.tells {owner : String} {m : Method} {text text' : List Char} (relaid : Relaid text text') :
    Tells owner (content text) m ↔ Tells owner (content text') m := by
  have unchanged : content text = content text' → (Tells owner (content text) m ↔ Tells owner (content text') m) := by
    intro same
    rw [same]
  -- Most changes leave the content as it is; the last two put lines in that are passed over.
  cases relaid with
  | @indent before blanks behind opens blank single =>
    refine unchanged ?_
    rw [content_opened opens,content_opened opens,content_before blank single]
  | @trail before blanks behind closes blank single =>
    refine unchanged ?_
    rw [← List.append_assoc,content_closed closes,content_closed closes,content_behind blank single]
  | ending before behind =>
    refine unchanged ?_
    rw [content_feed,List.append_cons before,content_feed,content_behind (by decide) (by decide)]
  | lastEnding =>
    refine unchanged ?_
    rw [content_feed]
    exact (List.append_nil _).symm
  | @empty before blanks remark behind opens blank hash single =>
    refine unchanged ?_
    rw [content_opened opens,content_opened opens,content_first single,content_single single,bare_remark blank hash]
    rfl
  | @comment before line blanks remark behind opens closes outside blank single =>
    refine unchanged (content_line opens closes (fun member => single (List.mem_append_left _ member)) single ?_)
    exact (bare_comment outside blank remark).symm
  | @directive before line behind opens headed passive single =>
    rw [content_opened opens,content_opened opens,content_feed,content_solid single passive.solid]
    exact Tells.passed headed fun _ => Draft.collect_passive passive _ _
  | @note before head foot behind inner opens headed outside whole single =>
    rw [content_opened opens,content_opened opens,content_opened (opens_written _),whole.content single]
    refine Tells.passed headed fun reached =>
      Draft.collect_notice whole.begins (whole.inside single) whole.ends ?_
    rw [reached]
    exact Bool.eq_false_iff.mpr outside

theorem layout_ignored (owner : String) {text text' : List Char} (changed : Relation.EqvGen Relaid text text') (m : Method) :
    method owner text = .ok m ↔ method owner text' = .ok m := by
  induction changed with
  | rel text text' relaid =>
    rw [method_tells,method_tells]
    exact relaid.tells
  | refl => exact Iff.rfl
  | symm _ _ _ ih => exact ih.symm
  | trans _ _ _ _ _ first second => exact first.trans second

def opening : List Char := ofLines [".method static f()V"]

def closing : List Char := ofLines ["return-void",".end method"]

def noticed : List (List Char) := ["  # .end annotation".toList,"return-void".toList,".annotation Lb;".toList]

def notice : List Char := written (".annotation La;".toList :: (noticed ++ [".end annotation".toList]))

def named : List Char := ".local v0, \"#\":I".toList

theorem noticed_same : ∃ m, method "La;" (opening ++ closing) = .ok m ∧
    method "La;" (opening ++ (named ++ '\n' :: (notice ++ closing)) ++ ['\n']) = .ok m := by
  have opens : Opens opening := Or.inr ⟨".method static f()V".toList,rfl⟩
  have headed : content opening ≠ [] := by decide
  have spelled : bare named = ".local".toList ++ ' ' :: "v0, \"#\":I".toList := by decide +kernel
  have first : Relaid (opening ++ closing) (opening ++ (notice ++ closing)) :=
    .note opens headed (by decide) ⟨by decide,by decide,by decide⟩ (by decide)
  have second : Relaid (opening ++ (notice ++ closing)) (opening ++ (named ++ '\n' :: (notice ++ closing))) :=
    .directive opens headed (passive_debug (by decide) spelled fun c head => by cases head; rfl) (by decide)
  have ok : (method "La;" (opening ++ closing)).isOk = true := by decide +kernel
  cases loaded : method "La;" (opening ++ closing) with
  | error e =>
    rw [loaded] at ok
    cases ok
  | ok m =>
    exact ⟨m,rfl,(layout_ignored "La;" (.trans _ _ _ (.rel _ _ first) (.trans _ _ _ (.rel _ _ second)
      (.rel _ _ (.lastEnding _)))) m).mp loaded⟩

end Source
end SmaliPrune
