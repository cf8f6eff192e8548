import SmaliPrune.Source.Line
import SmaliPrune.Proofs.References

namespace SmaliPrune

namespace Text

def Blank (s : List Char) : Prop := ∀ c ∈ s, isBlank c = true

instance (s : List Char) : Decidable (Blank s) := List.decidableBAll _ s

structure Trimmed (s : List Char) : Prop where
  first : ∀ c ∈ s.head?, isBlank c = false
  last : ∀ c ∈ s.getLast?, isBlank c = false

variable {s : List Char}

theorem trimStart_blanks {blanks : List Char} (all : Blank blanks)
    (first : ∀ c ∈ s.head?, isBlank c = false) : trimStart (blanks ++ s) = s := by
  rw [trimStart,List.dropWhile_append_of_pos all]
  cases s with
  | nil => rfl
  | cons c s => exact List.dropWhile_cons_of_neg (by simp [first c rfl])

theorem trimEnd_last {c : Char} (solid : isBlank c = false) {blanks : List Char} (all : Blank blanks) :
    trimEnd (s ++ c :: blanks) = s ++ [c] := by
  induction s with
  | nil => rw [List.nil_append,trimEnd_cons solid,trimEnd_blanks all,List.nil_append]
  | cons c' s ih =>
    rw [List.cons_append,trimEnd,ih]
    cases s <;> rfl

theorem Trimmed.trim {indent blanks : List Char} (trimmed : Trimmed s) (before : Blank indent)
    (behind : Blank blanks) : trim (indent ++ (s ++ blanks)) = s := by
  rcases List.eq_nil_or_concat s with rfl | ⟨front,last,rfl⟩
  · have whole : trimStart (indent ++ blanks ++ []) = [] :=
      trimStart_blanks (List.forall_mem_append.mpr ⟨before,behind⟩) nofun
    rw [List.append_nil] at whole
    rw [List.nil_append,Text.trim,whole]
    rfl
  · rw [List.concat_eq_append] at trimmed ⊢
    have solid : isBlank last = false := trimmed.last last (by simp)
    have first : ∀ c ∈ (front ++ [last] ++ blanks).head?, isBlank c = false := by
      intro c here
      cases front with
      | nil => exact trimmed.first c here
      | cons => exact trimmed.first c here
    rw [Text.trim,trimStart_blanks before first,List.append_assoc,List.singleton_append,trimEnd_last solid behind]

end Text

namespace Source
open Text

inductive Passes : Scan → List Char → Scan → Prop where
  | nil {start : Scan} : Passes start [] start
  | cons {start stop : Scan} {c : Char} {s : List Char} (mark : start = .code → c ≠ '#')
      (others : Passes (start.after c) s stop) : Passes start (c :: s) stop

variable {start middle stop : Scan} {s t : List Char}

theorem Passes.append (passes : Passes start s middle) (passes' : Passes middle t stop) : Passes start (s ++ t) stop := by
  induction passes with
  | nil => exact passes'
  | cons mark _ ih => exact .cons mark (ih passes')

theorem Passes.beforeComment (passes : Passes start s stop) (rest : List Char) :
    beforeComment start (s ++ rest) = s ++ Source.beforeComment stop rest := by
  induction passes with
  | nil => rfl
  | @cons start stop c s mark _ ih =>
    have clear : (start == .code && c == '#') = false := by
      cases start <;> simp_all
    rw [List.cons_append,Source.beforeComment,clear,ih]
    rfl

def Clear (s : List Char) : Prop := ∀ c ∈ s, c ≠ '"' ∧ c ≠ '#'

theorem Clear.append (clear : Clear s) (clear' : Clear t) : Clear (s ++ t) := List.forall_mem_append.mpr ⟨clear,clear'⟩

theorem Clear.cons {c : Char} (first : c ≠ '"' ∧ c ≠ '#') (clear : Clear s) : Clear (c :: s) :=
  List.forall_mem_cons.mpr ⟨first,clear⟩

theorem clear_of {p : Char → Prop} (all : ∀ c ∈ s, p c) (quote : ¬p '"') (mark : ¬p '#') : Clear s := by
  intro c member
  have here := all c member
  constructor
  · rintro rfl
    exact quote here
  · rintro rfl
    exact mark here

theorem passes_code (clear : Clear s) : Passes .code s .code := by
  induction s with
  | nil => exact .nil
  | cons c s ih =>
    obtain ⟨quote,mark⟩ := clear c List.mem_cons_self
    have same : Scan.code.after c = .code := by simp [Scan.after]
    exact .cons (fun _ => mark) (by rw [same]; exact ih fun c member => clear c (List.mem_cons_of_mem _ member))

theorem passes_string (clear : ∀ c ∈ s, c ≠ '"' ∧ c ≠ '\\') : Passes .string s .string := by
  induction s with
  | nil => exact .nil
  | cons c s ih =>
    obtain ⟨quote,slash⟩ := clear c List.mem_cons_self
    have same : Scan.string.after c = .string := by simp [Scan.after]
    exact .cons nofun (by rw [same]; exact ih fun c member => clear c (List.mem_cons_of_mem _ member))

theorem passes_escape (c : Char) : Passes .string ['\\',c] .string := .cons nofun (.cons nofun .nil)

theorem passes_quoted (passes : Passes .string s .string) : Passes .code ('"' :: s ++ ['"']) .code :=
  .cons (fun _ => by decide) (passes.append (.cons nofun .nil))

theorem passes_blanks (blank : Blank s) : Passes .code s .code :=
  passes_code (clear_of blank (by decide) (by decide))

-- What may end a line behind its text: nothing, or a comment.
def Remark (tail : List Char) : Prop := ∀ c ∈ tail.head?, c = '#'

theorem Remark.beforeComment {tail : List Char} (remark : Remark tail) : beforeComment .code tail = [] := by
  cases tail with
  | nil => rfl
  | cons c tail =>
    obtain rfl := remark c rfl
    rfl

theorem bare_text {indent blanks tail : List Char} (passes : Passes .code s .code) (trimmed : Trimmed s)
    (before : Blank indent) (behind : Blank blanks) (remark : Remark tail) :
    bare (indent ++ (s ++ (blanks ++ tail))) = s := by
  rw [bare,(passes_blanks before).beforeComment,passes.beforeComment,(passes_blanks behind).beforeComment,
    remark.beforeComment,List.append_nil,trimmed.trim before behind]

end Source
end SmaliPrune
