import SmaliPrune.Descriptor.Reference
import SmaliPrune.Proofs.Descriptors

namespace SmaliPrune

namespace Text

def Solid (s : List Char) : Prop := ∀ c ∈ s, isBlank c = false

def Bare (marks s : List Char) : Prop := ∀ c ∈ s, isBlank c = false ∧ c ∉ marks

def Arrowed (s : List Char) : Prop := ['-','>'] <:+: s

variable {s : List Char}

namespace Bare
variable {marks marks' : List Char}

theorem solid (bare : Bare marks s) : Solid s := fun c member => (bare c member).1

theorem unmarked (bare : Bare marks s) {mark : Char} (known : mark ∈ marks) : mark ∉ s :=
  fun member => (bare mark member).2 known

theorem mono (fewer : marks' ⊆ marks) (bare : Bare marks s) : Bare marks' s :=
  fun c member => ⟨(bare c member).1,fun mark => (bare c member).2 (fewer mark)⟩

theorem cons {c : Char} (first : isBlank c = false ∧ c ∉ marks) (bare : Bare marks s) : Bare marks (c :: s) :=
  List.forall_mem_cons.mpr ⟨first,bare⟩

theorem append {t : List Char} (bare : Bare marks s) (bare' : Bare marks t) : Bare marks (s ++ t) :=
  List.forall_mem_append.mpr ⟨bare,bare'⟩

end Bare

instance {marks : List Char} : Decidable (Bare marks s) := List.decidableBAll _ s

instance : Decidable (Arrowed s) := inferInstanceAs (Decidable (['-','>'] <:+: s))

theorem cutAt_mark {mark : Char} (clear : mark ∉ s) (rest : List Char) :
    cutAt [mark] (s ++ mark :: rest) = some (s,rest) := by
  induction s with
  | nil => simp [cutAt]
  | cons c s ih =>
    have other : ¬mark = c := fun same => clear (same ▸ List.mem_cons_self ..)
    have behind := ih fun member => clear (List.mem_cons_of_mem c member)
    simp [cutAt,other,behind]

theorem Arrowed.cons {c : Char} (arrowed : Arrowed s) : Arrowed (c :: s) := List.infix_cons arrowed

theorem arrowed_of_marks {rest : List Char} : Arrowed ('-' :: '>' :: rest) := ⟨[],rest,rfl⟩

theorem cutAt_arrow (clear : ¬Arrowed s) (rest : List Char) :
    cutAt ['-','>'] (s ++ '-' :: '>' :: rest) = some (s,rest) := by
  induction s with
  | nil => simp [cutAt]
  | cons c s ih =>
    have behind := ih fun arrowed => clear arrowed.cons
    have elsewhere : ['-','>'].isPrefixOf (c :: (s ++ '-' :: '>' :: rest)) = false := by
      cases at' : ['-','>'].isPrefixOf (c :: (s ++ '-' :: '>' :: rest)) with
      | false => rfl
      | true =>
        obtain ⟨tail,same⟩ := List.isPrefixOf_iff_prefix.mp at'
        -- an arrow at the seam would have to begin with another one's dash
        cases s with
        | nil => cases same
        | cons c' s =>
          cases same
          exact absurd arrowed_of_marks clear
    rw [List.cons_append,cutAt,elsewhere,behind]
    rfl

theorem cutAt_unarrowed (clear : ¬Arrowed s) : cutAt ['-','>'] s = none := by
  induction s with
  | nil => rfl
  | cons c s ih =>
    have behind := ih fun arrowed => clear arrowed.cons
    have elsewhere : ['-','>'].isPrefixOf (c :: s) = false := by
      cases at' : ['-','>'].isPrefixOf (c :: s) with
      | false => rfl
      | true => exact absurd (List.isPrefixOf_iff_prefix.mp at').isInfix clear
    rw [cutAt,elsewhere,behind]
    rfl

theorem Arrowed.tail {c : Char} (arrowed : Arrowed (c :: s)) (other : c ≠ '-') : Arrowed s := by
  rcases List.infix_cons_iff.mp arrowed with ⟨tail,same⟩ | inside
  · cases same
    exact absurd rfl other
  · exact inside

theorem Arrowed.front {c : Char} (arrowed : Arrowed (s ++ [c])) (other : c ≠ '>') : Arrowed s := by
  rcases List.infix_concat_iff.mp arrowed with ⟨front,same⟩ | inside
  · have last : '>' = c := by simpa using congrArg List.getLast? same
    exact absurd last.symm other
  · exact inside

theorem trimEnd_cons {c : Char} (solid : isBlank c = false) (rest : List Char) :
    trimEnd (c :: rest) = c :: trimEnd rest := by
  rw [trimEnd]
  split
  · next nothing => simp [solid,nothing]
  · rfl

theorem trimEnd_blanks {blanks : List Char} (all : ∀ c ∈ blanks, isBlank c = true) : trimEnd blanks = [] := by
  induction blanks with
  | nil => rfl
  | cons c blanks ih =>
    have nothing := ih fun c' member => all c' (List.mem_cons_of_mem c member)
    simp [trimEnd,nothing,all c]

theorem trimEnd_append (solid : Solid s) {blanks : List Char} (all : ∀ c ∈ blanks, isBlank c = true) :
    trimEnd (s ++ blanks) = s := by
  induction s with
  | nil => exact trimEnd_blanks all
  | cons c s ih =>
    rw [List.cons_append,trimEnd_cons (solid c (List.mem_cons_self ..)),ih fun c' member => solid c' (List.mem_cons_of_mem c member)]

theorem trim_solid (solid : Solid s) : trim s = s := by
  have start : trimStart s = s := by
    cases s with
    | nil => rfl
    | cons c s => exact List.dropWhile_cons_of_neg (by simp [solid c])
  have ends : trimEnd (s ++ []) = s := trimEnd_append solid (by simp)
  rw [trim,start]
  rwa [List.append_nil] at ends

end Text

open Text

-- A name that ends where the name ends, wherever a reference has it.
structure PlainName (name : List Char) : Prop where
  bare : Bare [',','(',')',':',';'] name
  unarrowed : ¬Arrowed name

namespace Descriptor

def Plain : Descriptor → Prop
  | .array of => of.Plain
  | .object name => name.toList ≠ [] ∧ PlainName name.toList
  | _ => True

variable {t : Descriptor}

theorem Plain.writable (plain : t.Plain) : t.Writable := by
  induction t with
  | array of ih => exact ih plain
  | object name => exact ⟨plain.1,plain.2.bare.unmarked (by decide)⟩
  | _ => trivial

theorem Plain.bare (plain : t.Plain) : Bare [',','(',')',':'] t.write := by
  induction t with
  | array of ih => exact (ih plain).cons (by decide)
  | object name => exact ((plain.2.bare.mono (by decide)).append (by decide)).cons (by decide)
  | _ => decide

theorem Plain.unarrowed (plain : t.Plain) : ¬Arrowed t.write := by
  induction t with
  | array of ih => exact fun arrowed => ih plain (arrowed.tail (by decide))
  | object name => exact fun arrowed => plain.2.unarrowed ((arrowed.tail (by decide)).front (by decide))
  | _ => exact fun arrowed => absurd (arrowed.tail (by decide)) (by decide)

end Descriptor

def PlainType (text : String) : Prop := ∃ t : Descriptor, t.Plain ∧ text = t.text

namespace PlainType
variable {text : String}

theorem bare (plain : PlainType text) : Bare [',','(',')',':'] text.toList := by
  obtain ⟨t,plain,rfl⟩ := plain
  rw [Descriptor.text,String.toList_ofList]
  exact plain.bare

theorem unarrowed (plain : PlainType text) : ¬Arrowed text.toList := by
  obtain ⟨t,plain,rfl⟩ := plain
  rw [Descriptor.text,String.toList_ofList]
  exact plain.unarrowed

end PlainType

namespace FieldRef

structure Plain (f : FieldRef) : Prop where
  owner : PlainType f.owner
  name : PlainName f.name.toList
  type : f.type.Plain

theorem Plain.bare {f : FieldRef} (plain : f.Plain) : Bare [',','('] f.write := by
  have owner : Bare [',','('] f.owner.toList := plain.owner.bare.mono (by decide)
  have name : Bare [',','('] f.name.toList := plain.name.bare.mono (by decide)
  have type : Bare [',','('] f.type.write := plain.type.bare.mono (by decide)
  exact ((owner.append (by decide)).append name).append (type.cons (by decide))

theorem ofChars?_write {f : FieldRef} (plain : f.Plain) : ofChars? f.write = some f := by
  have unmarked : ':' ∉ f.name.toList := plain.name.bare.unmarked (by decide)
  have arrow := cutAt_arrow plain.owner.unarrowed (f.name.toList ++ ':' :: f.type.write)
  have colon := cutAt_mark unmarked f.type.write
  have type := Descriptor.read_write plain.type.writable []
  rw [List.append_nil] at type
  simp only [ofChars?,write,List.append_assoc,List.cons_append,List.nil_append,arrow,colon,type,Option.bind_eq_bind,
    Option.bind_some,trim_solid plain.owner.bare.solid,trim_solid plain.name.bare.solid,String.ofList_toList]
end FieldRef

namespace MethodRef

structure Plain (m : MethodRef) : Prop where
  owner : PlainType m.owner
  name : PlainName m.name.toList
  args : ∀ t ∈ m.proto.args, t.Plain
  result : m.proto.result.Plain

theorem Plain.bare {m : MethodRef} (plain : m.Plain) : Bare [','] m.write := by
  have owner : Bare [','] m.owner.toList := plain.owner.bare.mono (by decide)
  have name : Bare [','] m.name.toList := plain.name.bare.mono (by decide)
  have args : Bare [','] (m.proto.args.flatMap Descriptor.write) := by
    intro c member
    obtain ⟨t,arg,inside⟩ := List.mem_flatMap.mp member
    exact (plain.args t arg).bare.mono (by decide) c inside
  have result : Bare [','] m.proto.result.write := plain.result.bare.mono (by decide)
  exact ((owner.append (by decide)).append name).append ((args.append (result.cons (by decide))).cons (by decide))

theorem ofChars?_write {m : MethodRef} (plain : m.Plain) : ofChars? m.write = some m := by
  have unmarked : '(' ∉ m.name.toList := plain.name.bare.unmarked (by decide)
  have writable : m.proto.Writable := ⟨fun t member => (plain.args t member).writable,plain.result.writable⟩
  have arrow := cutAt_arrow plain.owner.unarrowed (m.name.toList ++ m.proto.write)
  obtain ⟨rest,bracket⟩ : ∃ rest, m.proto.write = '(' :: rest := ⟨_,rfl⟩
  have name := cutAt_mark unmarked rest
  have proto := Proto.read_write writable []
  rw [List.append_nil] at proto
  rw [bracket] at arrow proto
  simp only [ofChars?,write,bracket,List.append_assoc,List.cons_append,List.nil_append,arrow,name,proto,
    Option.bind_eq_bind,Option.bind_some,trim_solid plain.owner.bare.solid,trim_solid plain.name.bare.solid,String.ofList_toList]

end MethodRef
end SmaliPrune
