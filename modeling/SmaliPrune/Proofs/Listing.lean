import SmaliPrune.Source.Reading
import SmaliPrune.Proofs.Numerals

namespace SmaliPrune.Source
open Text

variable {α : Type}

def Gaps (s : List Char) : Prop := ∀ c ∈ s, isGap c = true

instance (s : List Char) : Decidable (Gaps s) := List.decidableBAll _ s

theorem gap_cases {c : Char} (gap : isGap c = true) : c = ' ' ∨ c = '\t' := by
  simpa only [isGap,Bool.or_eq_true,beq_iff_eq] using gap

theorem gap_blank {c : Char} (gap : isGap c = true) : isBlank c = true ∧ c ≠ ',' := by
  rcases gap_cases gap with rfl | rfl <;> decide

def Ends (marks rest : List Char) : Prop := ∀ c ∈ (skipGaps rest).head?, c ∈ marks

def Wordless (marks : List Char) : Prop := ∀ c ∈ marks, c.isAlphanum = false

instance (marks : List Char) : Decidable (Wordless marks) := List.decidableBAll _ marks

-- An item is read wherever it is written, with its end marked. Gaps behind it may go with it.
structure Reads (item : List Char → Reading α) (marks : List Char) (a : α) (s : List Char) : Prop where
  solid : ∀ rest, skipGaps (s ++ rest) = s ++ rest
  reads : ∀ rest, Ends marks rest → ∃ left, item (s ++ rest) = .got a left ∧ skipGaps left = skipGaps rest

inductive Following (writes : α → List Char → Prop) : List α → List Char → Prop where
  | nil : Following writes [] []
  | cons {a : α} {as : List α} {before behind s t : List Char} (gaps : Gaps before) (gaps' : Gaps behind)
      (item : writes a s) (others : Following writes as t) :
      Following writes (a :: as) (before ++ ',' :: (behind ++ (s ++ t)))

inductive Listed (writes : α → List Char → Prop) : List α → List Char → Prop where
  | nil : Listed writes [] []
  | cons {a : α} {as : List α} {s t : List Char} (item : writes a s) (others : Following writes as t) :
      Listed writes (a :: as) (s ++ t)

theorem skipGaps_append {gaps : List Char} (all : Gaps gaps) (rest : List Char) :
    skipGaps (gaps ++ rest) = skipGaps rest := List.dropWhile_append_of_pos all

theorem skipGaps_solid {c : Char} (solid : isGap c = false) (rest : List Char) : skipGaps (c :: rest) = c :: rest :=
  List.dropWhile_cons_of_neg (by rw [solid]; exact Bool.false_ne_true)

theorem skipGaps_to {gaps : List Char} {c : Char} (all : Gaps gaps) (solid : isGap c = false) (rest : List Char) :
    skipGaps (gaps ++ c :: rest) = c :: rest := by
  rw [skipGaps_append all,skipGaps_solid solid]

theorem skipGaps_skipGaps (s : List Char) : skipGaps (skipGaps s) = skipGaps s := by
  induction s with
  | nil => rfl
  | cons c s ih =>
    cases gap : isGap c with
    | true => rw [show c :: s = [c] ++ s from rfl,skipGaps_append (by simpa [Gaps] using gap),ih]
    | false => rw [skipGaps_solid gap,skipGaps_solid gap]

theorem skipGaps_gaps {gaps : List Char} (all : Gaps gaps) : skipGaps gaps = [] := by
  have whole := skipGaps_append all []
  rwa [List.append_nil] at whole

theorem skipGaps_length (s : List Char) : (skipGaps s).length ≤ s.length :=
  (List.dropWhile_sublist _).length_le

theorem gaps_split (s : List Char) : ∃ gaps, Gaps gaps ∧ s = gaps ++ skipGaps s :=
  ⟨s.takeWhile isGap,List.all_eq_true.mp List.all_takeWhile,(List.takeWhile_append_dropWhile).symm⟩

theorem ends_to {gaps marks : List Char} {c : Char} (all : Gaps gaps) (solid : isGap c = false) (mark : c ∈ marks)
    (rest : List Char) : Ends marks (gaps ++ c :: rest) := by
  intro c' first
  rw [skipGaps_to all solid] at first
  cases first
  exact mark

theorem Reads.of_got {item : List Char → Reading α} {marks s : List Char} {a : α} {c : Char} (solid : isGap c = false)
    (got : ∀ rest, Ends marks rest → item (c :: (s ++ rest)) = .got a rest) : Reads item marks a (c :: s) where
  solid _ := skipGaps_solid solid _
  reads rest ends := ⟨rest,got rest ends,rfl⟩

theorem Ends.first {marks rest : List Char} (ends : Ends marks rest) : ∀ c ∈ rest.head?, isGap c = true ∨ c ∈ marks := by
  intro c first
  cases rest with
  | nil => cases first
  | cons c' rest =>
    cases first
    cases gap : isGap c with
    | true => exact .inl rfl
    | false =>
      right
      apply ends
      rw [skipGaps_solid gap]
      rfl

theorem Ends.parted {marks rest : List Char} (ends : Ends marks rest) (wordless : Wordless marks) : Parted rest := by
  intro c first
  rcases ends.first c first with gap | mark
  · rcases gap_cases gap with rfl | rfl <;> rfl
  · exact wordless c mark

namespace Following
variable {writes writes' : α → List Char → Prop} {as : List α} {t : List Char}

theorem imp (weaker : ∀ a s, writes a s → writes' a s) (following : Following writes as t) : Following writes' as t := by
  induction following with
  | nil => exact .nil
  | cons gaps gaps' item others ih => exact .cons gaps gaps' (weaker _ _ item) ih

theorem length {rest : List Char} (following : Following writes as t) : as.length ≤ (skipGaps (t ++ rest)).length := by
  induction following with
  | nil => exact Nat.zero_le _
  | @cons a as before behind s t gaps gaps' item others ih =>
    have fewer := skipGaps_length (t ++ rest)
    rw [List.append_assoc,List.cons_append,skipGaps_to gaps rfl]
    simp only [List.length_cons,List.length_append] at fewer ⊢
    omega

theorem ends {marks rest : List Char} (comma : ',' ∈ marks) (following : Following writes as t)
    (ends : Ends marks rest) : Ends marks (t ++ rest) := by
  cases following with
  | nil => exact ends
  | cons gaps gaps' item others =>
    rw [List.append_assoc,List.cons_append]
    exact ends_to gaps rfl comma _

end Following

theorem Listed.imp {writes writes' : α → List Char → Prop} {as : List α} {t : List Char}
    (weaker : ∀ a s, writes a s → writes' a s) (listed : Listed writes as t) : Listed writes' as t := by
  cases listed with
  | nil => exact .nil
  | cons item others => exact .cons (weaker _ _ item) (others.imp weaker)

section
variable {item : List Char → Reading α} {marks : List Char} {as : List α} {s t rest : List Char}

theorem readMark_miss {mark : Char} (other : s.head? ≠ some mark) : readMark [mark] s = .miss := by
  cases s with
  | nil => rfl
  | cons c s =>
    have unlike : ¬mark = c := fun same => other (by rw [same]; rfl)
    simp [readMark,after?,unlike]

theorem readMark_got (mark : Char) (rest : List Char) : readMark [mark] (mark :: rest) = .got () rest := by
  simp [readMark,after?]

theorem readComma_miss (last : (skipGaps s).head? ≠ some ',') : readComma s = .miss := by
  rw [readComma,readMark_miss last]
  rfl

theorem readComma_got (comma : skipGaps s = ',' :: rest) : readComma s = .got () (skipGaps rest) := by
  rw [readComma,comma,readMark_got]
  rfl

-- By induction on the items: in front of each the reader may stand a few gaps further on.
theorem readMore_following (comma : ',' ∈ marks) (following : Following (Reads item marks) as t)
    (ends : Ends marks rest) (last : (skipGaps rest).head? ≠ some ',') {most : Nat} (enough : as.length ≤ most)
    (here : skipGaps s = skipGaps (t ++ rest)) :
    ∃ left, readMore item most s = .got as left ∧ skipGaps left = skipGaps rest := by
  induction following generalizing s most with
  | nil =>
    cases most with
    | zero => exact ⟨s,rfl,here⟩
    | succ most =>
      have ended : readComma s = .miss := readComma_miss (by rwa [here])
      exact ⟨s,by simp only [readMore,ended],here⟩
  | @cons a as before behind s' t gaps gaps' spelled others ih =>
    obtain ⟨most,rfl⟩ : ∃ less, most = less + 1 := ⟨most - 1,by simp at enough; omega⟩
    rw [List.append_assoc,List.cons_append,skipGaps_to gaps rfl] at here
    have next := readComma_got here
    rw [List.append_assoc,skipGaps_append gaps',List.append_assoc,spelled.solid] at next
    obtain ⟨left,reads,same⟩ := spelled.reads (t ++ rest) (others.ends comma ends)
    obtain ⟨left',more,same'⟩ := ih (Nat.le_of_succ_le_succ enough) same
    exact ⟨left',by simp only [readMore,next,reads,more,Reading.map],same'⟩

theorem readItems_listed (comma : ',' ∈ marks) (listed : Listed (Reads item marks) as t) (ends : Ends marks rest)
    (last : (skipGaps rest).head? ≠ some ',') (nothing : item (skipGaps rest) = .miss) :
    ∃ left, readItems item (skipGaps (t ++ rest)) = .got as left ∧ skipGaps left = skipGaps rest := by
  cases listed with
  | nil => exact ⟨skipGaps rest,by simp only [List.nil_append,readItems,nothing],skipGaps_skipGaps rest⟩
  | @cons a as s t spelled others =>
    rw [List.append_assoc,spelled.solid]
    obtain ⟨left,reads,same⟩ := spelled.reads (t ++ rest) (others.ends comma ends)
    have enough : as.length ≤ left.length := by
      have count : as.length ≤ (skipGaps (t ++ rest)).length := others.length
      rw [← same] at count
      exact Nat.le_trans count (skipGaps_length left)
    obtain ⟨left',more,same'⟩ := readMore_following comma others ends last enough same
    exact ⟨left',by simp only [readItems,reads,more,Reading.map],same'⟩

end
end SmaliPrune.Source
