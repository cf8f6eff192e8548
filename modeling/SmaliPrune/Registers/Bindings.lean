import SmaliPrune.Registers.Register
import SmaliPrune.Value

namespace SmaliPrune

structure Bindings where
  entries : List (Register × Value)
  sorted : entries.Pairwise fun a b => a.1.before b.1 = true

namespace Bindings

def empty : Bindings := ⟨[],.nil⟩

def find? (r : Register) : List (Register × Value) → Option Value
  | [] => none
  | (q,v) :: rest => if r = q then some v else find? r rest

def lookup (b : Bindings) (r : Register) : Option Value := find? r b.entries

def read (b : Bindings) (r : Register) : Value := (b.lookup r).getD (.unknown "?")

def put (r : Register) (v : Value) : List (Register × Value) → List (Register × Value)
  | [] => [(r,v)]
  | (q,w) :: rest =>
    if r = q then (r,v) :: rest
    else if r.before q then (r,v) :: (q,w) :: rest
    else (q,w) :: put r v rest

theorem mem_put {r : Register} {v : Value} {es : List (Register × Value)} {e : Register × Value}
    (member : e ∈ put r v es) : e = (r,v) ∨ e ∈ es := by
  induction es with
  | nil => simpa [put] using member
  | cons head rest ih =>
    obtain ⟨q,w⟩ := head
    simp only [put] at member
    split at member
    · rcases List.mem_cons.mp member with h | h
      · exact Or.inl h
      · exact Or.inr (List.mem_cons_of_mem _ h)
    · split at member
      · rcases List.mem_cons.mp member with h | h
        · exact Or.inl h
        · exact Or.inr h
      · rcases List.mem_cons.mp member with h | h
        · exact Or.inr (h ▸ List.mem_cons_self)
        · rcases ih h with h | h
          · exact Or.inl h
          · exact Or.inr (List.mem_cons_of_mem _ h)

theorem sorted_put (r : Register) (v : Value) (es : List (Register × Value))
    (sorted : es.Pairwise fun a b => a.1.before b.1 = true) :
    (put r v es).Pairwise fun a b => a.1.before b.1 = true := by
  induction es with
  | nil => simp [put]
  | cons head rest ih =>
    obtain ⟨q,w⟩ := head
    obtain ⟨headLess,tail⟩ := List.pairwise_cons.mp sorted
    by_cases equal : r = q
    · subst r
      simp only [put,if_true]
      exact List.pairwise_cons.mpr ⟨headLess,tail⟩
    · by_cases less : r.before q = true
      · simp only [put,if_neg equal,less,if_true]
        refine List.pairwise_cons.mpr ⟨?_,sorted⟩
        intro e member
        rcases List.mem_cons.mp member with rfl | old
        · exact less
        · exact Register.before_trans less (headLess e old)
      · simp only [put,if_neg equal,if_neg less]
        refine List.pairwise_cons.mpr ⟨?_,ih tail⟩
        intro e member
        rcases mem_put member with rfl | old
        · exact Register.before_total equal less
        · exact headLess e old

def set (b : Bindings) (r : Register) (v : Value) : Bindings := ⟨put r v b.entries,sorted_put r v _ b.sorted⟩

theorem find?_put (r q : Register) (v : Value) (es : List (Register × Value)) :
    find? q (put r v es) = if q = r then some v else find? q es := by
  induction es with
  | nil => simp [put,find?]
  | cons head rest ih =>
    obtain ⟨p,w⟩ := head
    by_cases equal : r = p
    · subst p
      by_cases same : q = r <;> simp [put,find?,same]
    · by_cases less : r.before p = true
      · by_cases same : q = r <;> simp [put,find?,equal,less,same]
      · simp only [put,if_neg equal,if_neg less,find?,ih]
        by_cases same : q = p
        · subst p
          simp [Ne.symm equal]
        · simp [same]

theorem lookup_set (b : Bindings) (r q : Register) (v : Value) :
    (b.set r v).lookup q = if q = r then some v else b.lookup q := find?_put r q v b.entries

def map (f : Register → Value → Value) (b : Bindings) : Bindings :=
  ⟨b.entries.map fun e => (e.1,f e.1 e.2),by
    rw [List.pairwise_map]
    exact b.sorted⟩

def sameEntries : List (Register × Value) → List (Register × Value) → Bool
  | [],[] => true
  | (r,v) :: rest,(q,w) :: others => r == q && v.same w && sameEntries rest others
  | _,_ => false

def same (b c : Bindings) : Bool := sameEntries b.entries c.entries

-- What is left of a value when another path has `seen` in its register: nothing but the
-- type if they differ, and not even that if the types do.
def relax (seen : Option Value) (v : Value) : Value :=
  match seen with
  | none => .unknown v.typeName
  | some w =>
    if w.same v then v
    else if w.typeName == v.typeName then .unknown v.typeName
    else .unknown "?"

def widened (b : Bindings) (others : List Bindings) : Bindings :=
  others.foldl (fun kept other => kept.map fun r v => relax (other.lookup r) v) b

end Bindings
end SmaliPrune
