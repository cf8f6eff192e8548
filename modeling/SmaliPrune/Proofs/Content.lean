import Mathlib.Data.List.TakeWhile
import SmaliPrune.Proofs.Comments

namespace SmaliPrune

namespace Text

variable {s t b : List Char}

theorem trimEnd_behind (blank : Blank b) : trimEnd (s ++ b) = trimEnd s := by
  induction s with
  | nil => exact trimEnd_blanks blank
  | cons c s ih => rw [List.cons_append,trimEnd,trimEnd,ih]

theorem trim_before (blank : Blank b) : trim (b ++ s) = trim s := by
  rw [trim,trimStart,List.dropWhile_append_of_pos blank]
  rfl

theorem trim_behind (blank : Blank b) : trim (s ++ b) = trim s := by
  have nothing : b.dropWhile isBlank = [] := List.dropWhile_eq_nil_iff.mpr blank
  rw [trim,trimStart,List.dropWhile_append,nothing]
  split
  · next empty => rw [trim,trimStart,List.isEmpty_iff.mp empty]
  · exact trimEnd_behind blank

theorem trimEnd_front (s : List Char) : trimEnd s <+: s := by
  induction s with
  | nil => exact List.prefix_rfl
  | cons c s ih =>
    rw [trimEnd]
    split
    · split
      · exact List.nil_prefix
      · exact List.cons_prefix_cons.mpr ⟨rfl,List.nil_prefix⟩
    · exact List.cons_prefix_cons.mpr ⟨rfl,ih⟩

theorem trimEnd_kept {c : Char} (solid : isBlank c = false) (s rest : List Char) :
    s ++ [c] <+: trimEnd (s ++ c :: rest) := by
  induction s with
  | nil =>
    rw [List.nil_append,List.nil_append,trimEnd_cons solid]
    exact List.cons_prefix_cons.mpr ⟨rfl,List.nil_prefix⟩
  | cons d s ih =>
    rw [List.cons_append,List.cons_append,trimEnd]
    split
    · next nothing =>
      rw [nothing] at ih
      simp at ih
    · exact List.cons_prefix_cons.mpr ⟨rfl,ih⟩

theorem trim_front (front : s <+: t) : trimStart s <+: trimStart t := by
  obtain ⟨rest,rfl⟩ := front
  unfold trimStart
  rw [List.dropWhile_append]
  split
  · next empty =>
    rw [List.isEmpty_iff.mp empty]
    exact List.nil_prefix
  · exact List.prefix_append _ _

theorem lines_cons {c : Char} (inside : c ≠ '\n') (next : c = '\r' → s.head? ≠ some '\n') :
    lines (c :: s) = match lines s with
      | [] => [[c]]
      | l :: ls => (c :: l) :: ls := by
  have apart : ∀ rest, c = '\r' → s = '\n' :: rest → False := by
    intro rest return' feed
    exact next return' (by rw [feed]; rfl)
  exact lines.eq_4 c s apart inside

theorem lines_single (single : '\n' ∉ s) : lines s = if s = [] then [] else [s] := by
  induction s with
  | nil => rfl
  | cons c s ih =>
    obtain ⟨first,others⟩ := not_or.mp (mt List.mem_cons.mpr single)
    rw [lines_cons (Ne.symm first) fun _ head => others (List.mem_of_mem_head? head),ih others]
    by_cases empty : s = []
    · simp [empty]
    · simp [empty]

theorem lines_first (single : '\n' ∉ s) (rest : List Char) :
    ∃ line, lines (s ++ '\n' :: rest) = line :: lines rest ∧ (s = line ∨ s = line ++ ['\r']) := by
  induction s with
  | nil => exact ⟨[],rfl,Or.inl rfl⟩
  | cons c s ih =>
    obtain ⟨first,others⟩ := not_or.mp (mt List.mem_cons.mpr single)
    by_cases last : c = '\r' ∧ s = []
    · obtain ⟨rfl,rfl⟩ := last
      exact ⟨[],rfl,Or.inr rfl⟩
    · obtain ⟨line,cut,same⟩ := ih others
      refine ⟨c :: line,?_,same.imp (congrArg (c :: ·)) (congrArg (c :: ·))⟩
      have next : c = '\r' → (s ++ '\n' :: rest).head? ≠ some '\n' := by
        intro return'
        cases s with
        | nil => exact absurd ⟨return',rfl⟩ last
        | cons d s => exact fun head => others (by cases head; exact List.mem_cons_self)
      rw [List.cons_append,lines_cons (Ne.symm first) next,cut]

end Text

namespace Source
open Text

variable {s t b : List Char}

def Scan.behind : Scan → List Char → Scan
  | scan,[] => scan
  | scan,c :: rest => if scan == .code && c == '#' then .code else behind (scan.after c) rest

theorem beforeComment_front (scan : Scan) (s : List Char) : beforeComment scan s <+: s := by
  induction s generalizing scan with
  | nil => exact List.prefix_rfl
  | cons c s ih =>
    rw [beforeComment]
    split
    · exact List.nil_prefix
    · exact List.cons_prefix_cons.mpr ⟨rfl,ih _⟩

theorem beforeComment_append (scan : Scan) (s t : List Char) : beforeComment scan (s ++ t) = beforeComment scan s ∨
    beforeComment scan (s ++ t) = beforeComment scan s ++ beforeComment (scan.behind s) t := by
  induction s generalizing scan with
  | nil => exact Or.inr rfl
  | cons c s ih =>
    rw [List.cons_append,beforeComment,beforeComment,Scan.behind]
    split
    · exact Or.inl rfl
    · exact (ih (scan.after c)).imp (congrArg (c :: ·)) (congrArg (c :: ·))

theorem bare_append (blank : Blank (beforeComment (Scan.code.behind s) t)) : bare (s ++ t) = bare s := by
  unfold bare
  rcases beforeComment_append .code s t with same | more
  · rw [same]
  · rw [more]
    exact trim_behind blank

theorem bare_before (blank : Blank b) : bare (b ++ s) = bare s := by
  rw [bare,(passes_blanks blank).beforeComment]
  exact trim_before blank

theorem bare_behind (blank : Blank b) : bare (s ++ b) = bare s :=
  bare_append fun c member => blank c ((beforeComment_front _ b).mem member)

theorem bare_comment (outside : Scan.code.behind s = .code) (blank : Blank b) (remark : List Char) :
    bare (s ++ (b ++ '#' :: remark)) = bare s := by
  refine bare_append ?_
  have cut : beforeComment .code (b ++ '#' :: remark) = b := by
    rw [(passes_blanks blank).beforeComment]
    exact List.append_nil b
  rwa [outside,cut]

theorem bare_remark {tail : List Char} (blank : Blank b) (remark : Remark tail) : bare (b ++ tail) = [] := by
  rw [bare_before blank,bare,remark.beforeComment]
  rfl

def content (text : List Char) : List (List Char) := ((lines text).map bare).filter fun line => !line.isEmpty

theorem numbered_content (text : List Char) : (numbered text).map Prod.snd = content text := by
  have each : (fun l : Nat × List Char => !l.2.isEmpty) = (fun line => !line.isEmpty) ∘ Prod.snd := rfl
  have texts : (lines text).zipIdx.map Prod.fst = lines text := List.zipIdx_map_fst 0 _
  unfold numbered content
  rw [each,← List.filter_map,List.map_map]
  conv => rhs; rw [← texts,List.map_map]
  rfl

theorem content_single (single : '\n' ∉ s) : content s = [bare s].filter fun line => !line.isEmpty := by
  unfold content
  rw [lines_single single]
  split
  · next empty =>
    subst empty
    rfl
  · rfl

theorem content_solid (single : '\n' ∉ s) (solid : bare s ≠ []) : content s = [bare s] := by
  rw [content_single single,List.filter_eq_self]
  simpa using solid

theorem mem_content_single (single : '\n' ∉ s) (member : t ∈ content s) : t = bare s := by
  rw [content_single single] at member
  exact List.mem_singleton.mp (List.mem_filter.mp member).1

theorem content_first (single : '\n' ∉ s) (rest : List Char) : content (s ++ '\n' :: rest) = content s ++ content rest := by
  obtain ⟨line,cut,same⟩ := lines_first single rest
  have alike : bare line = bare s := by
    rcases same with rfl | rfl
    · rfl
    · exact (bare_behind (by decide)).symm
  rw [content_single single,← alike,content,cut,List.map_cons,← List.singleton_append,List.filter_append]
  rfl

theorem content_feed (s rest : List Char) : content (s ++ '\n' :: rest) = content s ++ content rest := by
  by_cases single : '\n' ∈ s
  · obtain ⟨line,more,same,first⟩ := List.eq_append_cons_of_mem single
    have shorter : more.length < s.length := by
      rw [same,List.length_append,List.length_cons]
      omega
    rw [same,List.append_assoc,List.cons_append,content_first first,content_feed more rest,content_first first,
      List.append_assoc]
  · exact content_first single rest
termination_by s.length

def Opens (s : List Char) : Prop := s = [] ∨ ∃ front, s = front ++ ['\n']

def Closes (t : List Char) : Prop := t = [] ∨ ∃ rest, t = '\n' :: rest ∨ t = '\r' :: '\n' :: rest

theorem last_line (s : List Char) : ∃ front line, s = front ++ line ∧ Opens front ∧ '\n' ∉ line := by
  by_cases single : '\n' ∈ s.reverse
  · obtain ⟨line,front,same,last⟩ := List.eq_append_cons_of_mem single
    have split : s = (front.reverse ++ ['\n']) ++ line.reverse := by
      rw [← List.reverse_reverse s,same]
      simp
    exact ⟨_,_,split,Or.inr ⟨_,rfl⟩,by simpa using last⟩
  · exact ⟨[],s,rfl,Or.inl rfl,by simpa using single⟩

theorem content_opened (opens : Opens s) (rest : List Char) : content (s ++ rest) = content s ++ content rest := by
  rcases opens with rfl | ⟨front,rfl⟩
  · rfl
  · rw [List.append_assoc,List.singleton_append,content_feed,content_feed front [],List.append_assoc]
    rfl

theorem content_behind (blank : Blank b) (single : '\n' ∉ b) (s : List Char) : content (s ++ b) = content s := by
  obtain ⟨front,line,rfl,opens,last⟩ := last_line s
  have whole : '\n' ∉ line ++ b := fun member => (List.mem_append.mp member).elim last single
  rw [List.append_assoc,content_opened opens,content_opened opens,content_single whole,content_single last,
    bare_behind blank]

theorem content_closed (closes : Closes t) (s : List Char) : content (s ++ t) = content s ++ content t := by
  rcases closes with rfl | ⟨rest,rfl | rfl⟩
  · simp [content,lines]
  · rw [content_feed,← List.nil_append ('\n' :: rest),content_feed]
    rfl
  · have cut : ∀ front, content (front ++ '\r' :: '\n' :: rest) = content front ++ content rest := by
      intro front
      rw [List.append_cons,content_feed,content_behind (by decide) (by decide)]
    rw [cut,← List.nil_append ('\r' :: '\n' :: rest),cut]
    rfl

theorem content_before (blank : Blank b) (single : '\n' ∉ b) (s : List Char) : content (b ++ s) = content s := by
  by_cases feeds : '\n' ∈ s
  · obtain ⟨line,rest,rfl,first⟩ := List.eq_append_cons_of_mem feeds
    have whole : '\n' ∉ b ++ line := fun member => (List.mem_append.mp member).elim single first
    rw [← List.append_assoc,content_first whole,content_first first,content_single whole,content_single first,
      bare_before blank]
  · have whole : '\n' ∉ b ++ s := fun member => (List.mem_append.mp member).elim single feeds
    rw [content_single whole,content_single feeds,bare_before blank]

theorem content_line {line other : List Char} (opens : Opens s) (closes : Closes t) (single : '\n' ∉ line)
    (single' : '\n' ∉ other) (alike : bare line = bare other) :
    content (s ++ (line ++ t)) = content (s ++ (other ++ t)) := by
  rw [content_opened opens,content_opened opens,content_closed closes,content_closed closes,content_single single,
    content_single single',alike]

end Source
end SmaliPrune
