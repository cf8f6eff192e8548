import SmaliPrune.Fault
import SmaliPrune.Hierarchy.Basic

namespace SmaliPrune

namespace Descriptor

theorem readName_append {name : List Char} (some' : name ≠ []) (plain : ';' ∉ name) (rest : List Char) :
    readName (name ++ ';' :: rest) = some (String.ofList name,rest) := by
  have front : (name ++ ';' :: rest).takeWhile (· != ';') = name := by
    have inside : ∀ c ∈ name, (c != ';') = true := fun c member => bne_iff_ne.mpr fun same => plain (same ▸ member)
    rw [List.takeWhile_append_of_pos inside,List.takeWhile_cons_of_neg (by decide),List.append_nil]
  unfold readName
  dsimp only
  rw [front,List.drop_left]
  simp [some']

theorem read_write {t : Descriptor} (writable : t.Writable) (rest : List Char) :
    read (t.write ++ rest) = some (t,rest) := by
  induction t with
  | array of ih =>
    have inner := ih writable
    simp [write,read,inner]
  | object name =>
    obtain ⟨some',plain⟩ := writable
    have named := readName_append some' plain rest
    rw [String.ofList_toList] at named
    simp [write,read,named]
  | _ => rfl

theorem ofText?_text {t : Descriptor} (writable : t.Writable) : ofText? t.text = some t := by
  have whole := read_write writable []
  rw [List.append_nil] at whole
  unfold ofText? text
  rw [String.toList_ofList,whole]

theorem write_length (t : Descriptor) : 0 < t.write.length := by
  cases t <;> simp [write]

theorem readName_canonical {s rest : List Char} {name : String} (ok : readName s = some (name,rest)) :
    s = name.toList ++ ';' :: rest ∧ name.toList ≠ [] ∧ ';' ∉ name.toList := by
  have plain : ∀ c ∈ s.takeWhile (· != ';'), (c != ';') = true := List.all_eq_true.mp List.all_takeWhile
  have cut : s.takeWhile (· != ';') ++ s.drop (s.takeWhile (· != ';')).length = s :=
    List.prefix_iff_eq_append.mp (List.takeWhile_prefix _)
  unfold readName at ok
  dsimp only at ok
  split at ok
  · next behind stop =>
    rw [stop] at cut
    split at ok
    · cases ok
    · next some' =>
      cases ok
      rw [String.toList_ofList]
      exact ⟨cut.symm,fun empty => some' (List.isEmpty_iff.mpr empty),fun member => by simpa using plain _ member⟩
  · cases ok

theorem primitive?_canonical {c : Char} {t : Descriptor} (ok : primitive? c = some t) : t.write = [c] ∧ t.Writable := by
  unfold primitive? at ok
  split at ok
  all_goals first | cases ok; exact ⟨rfl,trivial⟩ | cases ok

theorem read_canonical {s rest : List Char} {t : Descriptor} (ok : read s = some (t,rest)) :
    s = t.write ++ rest ∧ t.Writable := by
  induction s generalizing t rest with
  | nil => cases ok
  | cons c s ih =>
    simp only [read] at ok
    split at ok
    · next object =>
      obtain ⟨⟨name,_⟩,named,same⟩ := Option.map_eq_some_iff.mp ok
      cases same
      obtain ⟨whole,some',plain⟩ := readName_canonical named
      rw [beq_iff_eq.mp object,whole]
      exact ⟨by simp [write],some',plain⟩
    · split at ok
      · next array =>
        obtain ⟨⟨of,_⟩,inner,same⟩ := Option.map_eq_some_iff.mp ok
        cases same
        obtain ⟨whole,writable⟩ := ih inner
        rw [beq_iff_eq.mp array,whole]
        exact ⟨rfl,writable⟩
      · obtain ⟨u,primitive,same⟩ := Option.map_eq_some_iff.mp ok
        cases same
        obtain ⟨whole,writable⟩ := primitive?_canonical primitive
        exact ⟨by rw [whole]; rfl,writable⟩

theorem ofText?_iff {s : String} {t : Descriptor} : ofText? s = some t ↔ t.Writable ∧ s = t.text := by
  constructor
  · intro ok
    unfold ofText? at ok
    split at ok
    · next whole =>
      cases ok
      obtain ⟨same,writable⟩ := read_canonical whole
      rw [List.append_nil] at same
      exact ⟨writable,by rw [text,← same,String.ofList_toList]⟩
    · cases ok
  · rintro ⟨writable,rfl⟩
    exact ofText?_text writable

end Descriptor

namespace Proto

def Writable (p : Proto) : Prop := (∀ t ∈ p.args, t.Writable) ∧ p.result.Writable

theorem readArgs_write {args : List Descriptor} (writable : ∀ t ∈ args, t.Writable) {most : Nat}
    (enough : args.length ≤ most) {rest : List Char} (ended : Descriptor.read rest = none) :
    readArgs most (args.flatMap Descriptor.write ++ rest) = (args,rest) := by
  induction args generalizing most with
  | nil => cases most <;> simp [readArgs,ended]
  | cons t args ih =>
    obtain ⟨most,rfl⟩ : ∃ less, most = less + 1 := ⟨most - 1,by simp at enough; omega⟩
    have first := Descriptor.read_write (writable t (by simp)) (args.flatMap Descriptor.write ++ rest)
    have others := ih (fun t' member => writable t' (by simp [member])) (Nat.le_of_succ_le_succ enough)
    rw [List.flatMap_cons,List.append_assoc]
    simp only [readArgs,first,others]

theorem args_length (args : List Descriptor) : args.length ≤ (args.flatMap Descriptor.write).length := by
  induction args with
  | nil => exact Nat.le_refl 0
  | cons t args ih =>
    have some' := t.write_length
    simp only [List.flatMap_cons,List.length_append,List.length_cons]
    omega

theorem read_write {p : Proto} (writable : p.Writable) (rest : List Char) : read (p.write ++ rest) = some (p,rest) := by
  have result := Descriptor.read_write writable.2 rest
  have enough : p.args.length ≤ (p.args.flatMap Descriptor.write ++ ')' :: (p.result.write ++ rest)).length := by
    have count := args_length p.args
    rw [List.length_append]
    omega
  have ended : Descriptor.read (')' :: (p.result.write ++ rest)) = none := rfl
  have args := readArgs_write writable.1 enough ended
  simp only [write,List.cons_append,List.append_assoc,read,args,result,Option.map_some]

theorem readArgs_canonical {most : Nat} {s rest : List Char} {args : List Descriptor}
    (ok : readArgs most s = (args,rest)) : s = args.flatMap Descriptor.write ++ rest ∧ ∀ t ∈ args, t.Writable := by
  induction most generalizing s args with
  | zero =>
    cases ok
    exact ⟨rfl,nofun⟩
  | succ most ih =>
    simp only [readArgs] at ok
    split at ok
    · cases ok
      exact ⟨rfl,nofun⟩
    · next t behind first =>
      obtain ⟨whole,writable⟩ := Descriptor.read_canonical first
      cases others : readArgs most behind with
      | mk args' rest' =>
        rw [others] at ok
        cases ok
        obtain ⟨whole',writable'⟩ := ih others
        refine ⟨?_,List.forall_mem_cons.mpr ⟨writable,writable'⟩⟩
        rw [whole,whole',List.flatMap_cons,List.append_assoc]

theorem read_canonical {s rest : List Char} {p : Proto} (ok : read s = some (p,rest)) :
    s = p.write ++ rest ∧ p.Writable := by
  unfold read at ok
  split at ok
  · next s =>
    split at ok
    · next args behind first =>
      obtain ⟨⟨result,_⟩,last,same⟩ := Option.map_eq_some_iff.mp ok
      cases same
      obtain ⟨whole,writable⟩ := readArgs_canonical first
      obtain ⟨whole',writable'⟩ := Descriptor.read_canonical last
      exact ⟨by simp [write,whole,whole'],writable,writable'⟩
    · cases ok
  · cases ok

theorem ofText?_iff {s : String} {p : Proto} : ofText? s = some p ↔ p.Writable ∧ s = p.text := by
  constructor
  · intro ok
    unfold ofText? at ok
    split at ok
    · next whole =>
      cases ok
      obtain ⟨same,writable⟩ := read_canonical whole
      rw [List.append_nil] at same
      exact ⟨writable,by rw [text,← same,String.ofList_toList]⟩
    · cases ok
  · rintro ⟨writable,rfl⟩
    have whole := read_write writable []
    rw [List.append_nil] at whole
    unfold ofText? text
    rw [String.toList_ofList,whole]

end Proto

-- A written form is a code: what may be written is read back, a text is accepted exactly if
-- it was written, and no two things are written alike.
structure Coded {α : Type} (write : α → String) (Writable : α → Prop) (parse : String → Checked α)
    (bad : String → Cause) : Prop where
  reads : ∀ a, Writable a → parse (write a) = .ok a
  reproduces : ∀ s a, parse s = .ok a → write a = s ∧ Writable a
  refuses : ∀ s, (∀ a, Writable a → write a ≠ s) → parse s = fault (bad s)
  unambiguous : ∀ a b, Writable a → Writable b → write a = write b → a = b

theorem Coded.of_reader {α : Type} {write : α → String} {Writable : α → Prop} {parse : String → Checked α}
    {bad : String → Cause} {read? : String → Option α} (accepts : ∀ {s a}, read? s = some a ↔ Writable a ∧ s = write a)
    (parsed : ∀ s, parse s = match read? s with | some a => .ok a | none => fault (bad s)) :
    Coded write Writable parse bad where
  reads a writable := by rw [parsed,accepts.mpr ⟨writable,rfl⟩]
  reproduces s a ok := by
    rw [parsed] at ok
    split at ok
    · next found =>
      cases ok
      obtain ⟨writable,same⟩ := accepts.mp found
      exact ⟨same.symm,writable⟩
    · cases ok
  refuses s foreign := by
    rw [parsed]
    split
    · next a found =>
      obtain ⟨writable,same⟩ := accepts.mp found
      exact absurd same.symm (foreign a writable)
    · rfl
  unambiguous a b writable writable' same := by
    have found := accepts.mpr ⟨writable,same.symm⟩
    rw [accepts.mpr ⟨writable',rfl⟩] at found
    exact (Option.some.inj found).symm

theorem descriptors_coded :
    Coded Descriptor.text Descriptor.Writable Descriptor.parse .badDescriptor ∧
      Coded Proto.text Proto.Writable Proto.parse .badProto :=
  ⟨.of_reader Descriptor.ofText?_iff fun s => by unfold Descriptor.parse; cases Descriptor.ofText? s <;> rfl,
    .of_reader Proto.ofText?_iff fun s => by unfold Proto.parse; cases Proto.ofText? s <;> rfl⟩

end SmaliPrune
