import SmaliPrune.Proofs.Listing

namespace SmaliPrune.Source
open Text

inductive Named : RegisterName → List Char → Prop where
  | plain {n : Nat} {s : List Char} (digits : Numeral 10 s n) (small : n ≤ registerLimit) : Named (.plain n) ('v' :: s)
  | parameter {n : Nat} {s : List Char} (digits : Numeral 10 s n) (small : n ≤ registerLimit) :
      Named (.parameter n) ('p' :: s)

def braced (opened body closing : List Char) : List Char := '\x7b' :: (opened ++ (body ++ (closing ++ ['\x7d'])))

inductive WritesList (rs : List RegisterName) : List Char → Prop where
  | braced {opened t closing : List Char} (gaps : Gaps opened) (gaps' : Gaps closing) (listed : Listed Named rs t) :
      WritesList rs (braced opened t closing)

inductive WritesRange (first last : RegisterName) : List Char → Prop where
  | braced {opened s before behind s' closing : List Char} (gaps : Gaps opened) (gaps' : Gaps closing)
      (apart : Gaps before) (apart' : Gaps behind) (named : Named first s) (named' : Named last s') :
      WritesRange first last (braced opened (s ++ (before ++ '.' :: '.' :: (behind ++ s'))) closing)

variable {s rest : List Char} {c : Char}

theorem readRegister_digits {n : Nat} (word : c = 'v' ∨ c = 'p') (digits : Numeral 10 s n)
    (small : n ≤ registerLimit) (parted : Parted rest) :
    readRegister (c :: (s ++ rest)) = .got (if c == 'v' then .plain n else .parameter n) rest := by
  obtain ⟨ds,some',reads,means⟩ := digits.run_append (parted.digitless (by decide))
  obtain ⟨d,ds,rfl⟩ := List.exists_cons_of_ne_nil some'
  have letter : (c == 'v' || c == 'p') = true := by rcases word with rfl | rfl <;> rfl
  simp only [readRegister,letter,if_true,reads,means,if_pos small]

theorem readRegister_named {r : RegisterName} (named : Named r s) (parted : Parted rest) :
    readRegister (s ++ rest) = .got r rest := by
  cases named with
  | plain digits small => exact readRegister_digits (.inl rfl) digits small parted
  | parameter digits small => exact readRegister_digits (.inr rfl) digits small parted

theorem named_text {n : Nat} (small : n ≤ registerLimit) :
    Named (.plain n) (RegisterName.plain n).text.toList ∧ Named (.parameter n) (RegisterName.parameter n).text.toList := by
  have digits := Numeral.repr n
  constructor
  · rw [RegisterName.text,String.toList_append]
    exact .plain digits small
  · rw [RegisterName.text,String.toList_append]
    exact .parameter digits small

theorem Named.first {r : RegisterName} (named : Named r s) : ∃ c t, s = c :: t ∧ (c = 'v' ∨ c = 'p') := by
  cases named with
  | plain digits small => exact ⟨_,_,rfl,.inl rfl⟩
  | parameter digits small => exact ⟨_,_,rfl,.inr rfl⟩

theorem Named.solid {r : RegisterName} (named : Named r s) (rest : List Char) :
    skipGaps (s ++ rest) = s ++ rest := by
  obtain ⟨c,t,rfl,word⟩ := named.first
  exact skipGaps_solid (by rcases word with rfl | rfl <;> rfl) _

theorem Named.reads {r : RegisterName} {marks : List Char} (wordless : Wordless marks) (named : Named r s) :
    Reads readRegister marks r s where
  solid := named.solid
  reads rest ends := ⟨rest,readRegister_named named (ends.parted wordless),rfl⟩

theorem WritesList.first {rs : List RegisterName} (writes : WritesList rs s) : ∃ t, s = '\x7b' :: t := by
  cases writes
  exact ⟨_,rfl⟩

theorem WritesRange.first {first last : RegisterName} (writes : WritesRange first last s) : ∃ t, s = '\x7b' :: t := by
  cases writes
  exact ⟨_,rfl⟩

theorem readOpen_braced (opened body closing rest : List Char) (gaps : Gaps opened) :
    readOpen (braced opened body closing ++ rest) = .got () (skipGaps (body ++ (closing ++ '\x7d' :: rest))) := by
  simp only [readOpen,braced,List.cons_append,List.append_assoc,readMark_got,Reading.andThen,skipGaps_append gaps,
    List.nil_append]

theorem readClose_got {left : List Char} (here : skipGaps left = '\x7d' :: rest) :
    readClose left = .got () rest := by
  rw [readClose,here,readMark_got]

theorem readDots_miss (ends : Ends [',','\x7d'] s) : readDots s = .miss := by
  have other : ['.','.'].isPrefixOf (skipGaps s) = false := by
    cases at' : ['.','.'].isPrefixOf (skipGaps s) with
    | false => rfl
    | true =>
      obtain ⟨tail,same⟩ := List.isPrefixOf_iff_prefix.mp at'
      have mark := ends '.' (by rw [← same]; rfl)
      exact absurd mark (by decide)
  simp [readDots,readMark,after?,other,Reading.andThen]

theorem readDots_got {left : List Char} (here : skipGaps left = '.' :: '.' :: rest) :
    readDots left = .got () (skipGaps rest) := by
  simp [readDots,here,readMark,after?,Reading.andThen]

theorem readRegisterList_written {rs : List RegisterName} (writes : WritesList rs s) (rest : List Char) :
    readRegisterList (s ++ rest) = .got rs rest := by
  cases writes with
  | @braced opened t closing gaps gaps' listed =>
    have brace := skipGaps_to gaps' (c := '\x7d') rfl rest
    have ends : Ends [',','\x7d'] (closing ++ '\x7d' :: rest) := ends_to gaps' rfl (by decide) rest
    have last : (skipGaps (closing ++ '\x7d' :: rest)).head? ≠ some ',' := by simp [brace]
    have nothing : readRegister (skipGaps (closing ++ '\x7d' :: rest)) = .miss := by rw [brace]; rfl
    have reads : Listed (Reads readRegister [',','\x7d']) rs t := listed.imp fun r s => Named.reads (by decide)
    obtain ⟨left,items,same⟩ := readItems_listed (by decide) reads ends last nothing
    have closes := readClose_got (same.trans brace)
    simp only [readRegisterList,readOpen_braced opened t closing rest gaps,Reading.andThen_got,items,closes,
      Reading.map_got]

theorem readRegisterRange_list {rs : List RegisterName} (writes : WritesList rs s) (rest : List Char) :
    readRegisterRange (s ++ rest) = .miss := by
  cases writes with
  | @braced opened t closing gaps gaps' listed =>
    simp only [readRegisterRange,readOpen_braced opened t closing rest gaps,Reading.andThen_got]
    cases listed with
    | nil =>
      have nothing : readRegister ('\x7d' :: rest) = .miss := rfl
      rw [List.nil_append,skipGaps_to gaps' rfl,nothing,Reading.andThen_miss]
    | @cons r rs s t named others =>
      have ends : Ends [',','\x7d'] (closing ++ '\x7d' :: rest) := ends_to gaps' rfl (by decide) rest
      have behind := others.ends (by decide) ends
      have register := readRegister_named named (behind.parted (by decide))
      rw [List.append_assoc,named.solid,register,Reading.andThen_got,readDots_miss behind,Reading.andThen_miss]

theorem readRegisterRange_written {first last : RegisterName} (writes : WritesRange first last s) (rest : List Char) :
    readRegisterRange (s ++ rest) = .got (first,last) rest := by
  cases writes with
  | @braced opened s before behind s' closing gaps gaps' apart apart' named named' =>
    have dots := readDots_got (skipGaps_to apart (c := '.') rfl ('.' :: (behind ++ (s' ++ (closing ++ '\x7d' :: rest)))))
    have closes := readClose_got (skipGaps_to gaps' (c := '\x7d') rfl rest)
    have parted : Parted (before ++ '.' :: '.' :: (behind ++ (s' ++ (closing ++ '\x7d' :: rest)))) :=
      (ends_to apart rfl (List.mem_singleton_self '.') _).parted (by decide)
    have parted' : Parted (closing ++ '\x7d' :: rest) :=
      (ends_to gaps' rfl (List.mem_singleton_self '\x7d') _).parted (by decide)
    rw [skipGaps_append apart',named'.solid] at dots
    simp only [readRegisterRange,readOpen_braced _ _ closing rest gaps,List.append_assoc,List.cons_append,named.solid,
      Reading.andThen_got,readRegister_named named parted,dots,readRegister_named named' parted',closes,Reading.map_got]

theorem readRegister_miss (plain : c ≠ 'v') (parameter : c ≠ 'p') : readRegister (c :: s) = .miss := by
  simp [readRegister,plain,parameter]

theorem readOpen_miss (other : c ≠ '\x7b') : readOpen (c :: s) = .miss := by
  rw [readOpen,readMark_miss (by simp [other]),Reading.andThen_miss]

theorem readRegisterRange_miss (other : c ≠ '\x7b') : readRegisterRange (c :: s) = .miss := by
  rw [readRegisterRange,readOpen_miss other,Reading.andThen_miss]

theorem readRegisterList_miss (other : c ≠ '\x7b') : readRegisterList (c :: s) = .miss := by
  rw [readRegisterList,readOpen_miss other,Reading.andThen_miss]

end SmaliPrune.Source
