import Mathlib.Data.List.Forall2
import SmaliPrune.Proofs.Layout
import SmaliPrune.Source.Method

namespace SmaliPrune

theorem bind_ok {α β : Type} {x : Checked α} {f : α → Checked β} {b : β} :
    (x >>= f) = .ok b ↔ ∃ a, x = .ok a ∧ f a = .ok b := by
  cases x with
  | error e => exact ⟨nofun,fun ⟨_,h,_⟩ => nomatch h⟩
  | ok a => exact ⟨fun h => ⟨a,rfl,h⟩,fun ⟨_,h,rest⟩ => by cases h; exact rest⟩

theorem within_ok {α : Type} {x : Checked α} {p : Place} {a : α} : x.within p = .ok a ↔ x = .ok a := by
  cases x with
  | error e => exact ⟨nofun,nofun⟩
  | ok b => exact Iff.rfl

theorem mapM_ok {α β : Type} {f : α → Checked β} {xs : List α} {ys : List β} (ok : xs.mapM f = .ok ys) :
    List.Forall₂ (fun x y => f x = .ok y) xs ys := by
  induction xs generalizing ys with
  | nil =>
    cases ok
    exact .nil
  | cons x xs ih =>
    rw [List.mapM_cons] at ok
    obtain ⟨y,head,rest⟩ := bind_ok.mp ok
    obtain ⟨zs,tail,last⟩ := bind_ok.mp rest
    cases last
    exact .cons head (ih tail)

theorem forall₂_mem {α β : Type} {R : α → β → Prop} {xs : List α} {ys : List β} (all : List.Forall₂ R xs ys) :
    ∀ y ∈ ys, ∃ x ∈ xs, R x y := by
  induction all with
  | nil => exact fun _ member => absurd member List.not_mem_nil
  | @cons x z _ _ head _ ih =>
    intro y member
    rcases List.mem_cons.mp member with rfl | later
    · exact ⟨x,List.mem_cons_self,head⟩
    · obtain ⟨w,inside,related⟩ := ih y later
      exact ⟨w,List.mem_cons_of_mem _ inside,related⟩

namespace Source

def ofLines (lines : List String) : List Char := lines.flatMap fun line => line.toList ++ ['\n']

theorem Frame.address_ok {f : Frame} {name : String} {a : Nat} (found : f.address name = .ok a) :
    f.labels.lookup name = some a := by
  unfold address at found
  split at found
  · next known =>
    cases found
    exact known
  · cases found

theorem Slots.label_ok {s : Slots} {n x : Nat} (found : s.label n = .ok x) :
    ∃ name, s.frame.labels.lookup name = some x := by
  obtain ⟨operand,_,resolved⟩ := bind_ok.mp found
  cases operand with
  | label name => exact ⟨name,Frame.address_ok resolved⟩
  | _ => cases resolved

theorem Slots.action_ok {s : Slots} {o : Opcode} {a : Action} (ok : s.action o = .ok a) :
    a.hasForm o.form = true ∧ ∀ x, a.target? = some x → ∃ name, s.frame.labels.lookup name = some x := by
  have none : ∀ {i : Action}, i.target? = .none → ∀ x, i.target? = some x → ∃ name, s.frame.labels.lookup name = some x := by
    intro i missing x same
    rw [missing] at same
    cases same
  unfold action at ok
  cases form : o.form with
  | payload => simp only [form,fault] at ok; cases ok
  | goto =>
    simp only [form,bind_ok] at ok
    obtain ⟨x,target,last⟩ := ok
    cases last
    refine ⟨rfl,fun y same => ?_⟩
    cases same
    exact Slots.label_ok target
  | ifZero test =>
    simp only [form,bind_ok] at ok
    obtain ⟨r,_,x,target,last⟩ := ok
    cases last
    refine ⟨by simp [Action.hasForm],fun y same => ?_⟩
    cases same
    exact Slots.label_ok target
  | ifPair test =>
    simp only [form,bind_ok] at ok
    obtain ⟨r,_,q,_,x,target,last⟩ := ok
    cases last
    refine ⟨by simp [Action.hasForm],fun y same => ?_⟩
    cases same
    exact Slots.label_ok target
  | binary op type inPlace =>
    cases inPlace with
    | true =>
      simp only [form,bind_ok] at ok
      obtain ⟨r,_,q,_,last⟩ := ok
      cases last
      exact ⟨by simp [Action.hasForm],none rfl⟩
    | false =>
      simp only [form,bind_ok] at ok
      obtain ⟨r,_,q,_,rhs,_,last⟩ := ok
      cases last
      cases rhs <;> exact ⟨by simp [Action.hasForm],none rfl⟩
  | nop | returnVoid =>
    simp only [form] at ok
    cases ok
    exact ⟨rfl,none rfl⟩
  | moveResult | moveException | returnValue | monitor | throw | other =>
    simp only [form,bind_ok] at ok
    obtain ⟨_,_,last⟩ := ok
    cases last
    exact ⟨by simp [Action.hasForm],none rfl⟩
  | move | constInt | constLong | constString | constClass | arrayLength | staticGet | staticPut | newInstance
  | checkCast | invoke =>
    simp only [form,bind_ok] at ok
    obtain ⟨_,_,_,_,last⟩ := ok
    cases last
    exact ⟨by simp [Action.hasForm],none rfl⟩
  | arrayGet | arrayPut | fieldGet | fieldPut | newArray | instanceOf =>
    simp only [form,bind_ok] at ok
    obtain ⟨_,_,_,_,_,_,last⟩ := ok
    cases last
    exact ⟨by simp [Action.hasForm],none rfl⟩

def Pending.outline (p : Pending) : Instr := ⟨p.address,p.opcode,.nop⟩

theorem Pending.assemble_ok {p : Pending} {f : Frame} {i : Instr} (ok : p.assemble f = .ok i) :
    i.outline = p.outline ∧ i.action.hasForm p.opcode.form = true ∧
      ∀ x, i.action.target? = some x → ∃ name, f.labels.lookup name = some x := by
  obtain ⟨a,assembled,last⟩ := bind_ok.mp ok
  cases last
  obtain ⟨formed,targets⟩ := Slots.action_ok assembled
  exact ⟨rfl,formed,targets⟩

def Draft.outline (d : Draft) : List Instr := d.pending.reverse.map Pending.outline

-- What was read so far lies without gaps, and every label stands between two instructions
-- of it, before the first or behind the last.
structure Draft.Sound (d : Draft) : Prop where
  laid : Laid 0 d.outline
  ends : d.address = width d.outline
  labels : ∀ l ∈ d.labels, Splits d.outline l.2
  opcodes : ∀ p ∈ d.pending, p.opcode ∈ Opcode.catalogue

theorem Draft.Sound.congr {d e : Draft} (sound : d.Sound) (pending : e.pending = d.pending)
    (address : e.address = d.address) (labels : e.labels = d.labels) : e.Sound := by
  have outline : e.outline = d.outline := by
    unfold Draft.outline
    rw [pending]
  refine ⟨outline ▸ sound.laid,?_,?_,pending ▸ sound.opcodes⟩
  · rw [outline,address]
    exact sound.ends
  · rw [outline,labels]
    exact sound.labels

theorem Draft.outline_more (d : Draft) (p : Pending) (address : Nat) :
    Draft.outline { d with pending := p :: d.pending, address } = d.outline ++ [p.outline] := by
  unfold outline
  rw [List.reverse_cons,List.map_append]
  rfl

theorem Draft.start_sound : Draft.start.Sound :=
  ⟨trivial,rfl,fun _ member => absurd member List.not_mem_nil,fun _ member => absurd member List.not_mem_nil⟩

theorem Draft.Sound.label {d : Draft} (sound : d.Sound) (name : String) :
    Draft.Sound { d with labels := (name,d.address) :: d.labels } := by
  refine ⟨sound.laid,sound.ends,fun l member => ?_,sound.opcodes⟩
  rcases List.mem_cons.mp member with rfl | old
  · exact ⟨d.outline,[],(List.append_nil _).symm,sound.ends⟩
  · exact sound.labels l old

theorem Draft.Sound.more {d : Draft} (sound : d.Sound) (line : Nat) {opcode : Opcode} (operands : List Operand)
    (listed : opcode ∈ Opcode.catalogue) :
    Draft.Sound { d with pending := ⟨line,d.address,opcode,operands⟩ :: d.pending, address := d.address + opcode.units } := by
  have outline := d.outline_more ⟨line,d.address,opcode,operands⟩ (d.address + opcode.units)
  refine ⟨?_,?_,?_,?_⟩
  · rw [outline,laid_append]
    refine ⟨sound.laid,?_,trivial⟩
    rw [Nat.zero_add]
    exact sound.ends
  · rw [outline,width_concat,← sound.ends]
    rfl
  · intro l member
    obtain ⟨before,after,same,here⟩ := sound.labels l member
    exact ⟨before,after ++ _,by rw [outline,same,List.append_assoc],here⟩
  · intro p member
    rcases List.mem_cons.mp member with rfl | old
    · exact listed
    · exact sound.opcodes p old

theorem Draft.add_sound {d e : Draft} {ins n : Nat} {line : Line} (sound : d.Sound) (ok : d.add ins n line = .ok e) :
    e.Sound := by
  cases line with
  | registers text =>
    simp only [add,bind_ok] at ok
    obtain ⟨_,_,last⟩ := ok
    cases last
    exact sound.congr rfl rfl rfl
  | locals text =>
    simp only [add,bind_ok] at ok
    obtain ⟨_,_,last⟩ := ok
    cases last
    exact sound.congr rfl rfl rfl
  | remark =>
    cases ok
    exact sound.congr rfl rfl rfl
  | payload => cases ok
  | guard text =>
    simp only [add] at ok
    split at ok
    · cases ok
      exact sound.congr rfl rfl rfl
    · cases ok
  | directive | methodEnd =>
    cases ok
    exact sound
  | label name =>
    cases ok
    exact sound.label name
  | instruction text =>
    simp only [add] at ok
    split at ok
    · cases ok
    · split at ok
      · cases ok
      · next operands _ _ opcode found =>
        cases ok
        exact sound.more n operands (List.mem_of_find?_eq_some found)

theorem Draft.collect_sound {d e : Draft} {ins : Nat} {lines : List (Nat × List Char)} (sound : d.Sound)
    (ok : collect ins d lines = .ok (some e)) : e.Sound := by
  induction lines generalizing d with
  | nil => cases ok
  | cons l rest ih =>
    obtain ⟨n,line⟩ := l
    simp only [collect] at ok
    split at ok
    · refine ih ?_ ok
      split
      · exact sound.congr rfl rfl rfl
      · exact sound
    · split at ok
      · cases ok
        exact sound
      · obtain ⟨f,added,more⟩ := bind_ok.mp ok
        exact ih (add_sound sound (within_ok.mp added)) more

theorem resolveGuard_ok {f : Frame} {n : Nat} {c : Catch} {first stop : Nat} {h : Handler}
    (ok : resolveGuard f n c = .ok (first,stop,h)) :
    ∀ a ∈ [first,stop,h.entry], ∃ name, f.labels.lookup name = some a := by
  obtain ⟨a,first',rest⟩ := bind_ok.mp (within_ok.mp ok)
  obtain ⟨b,stop',rest⟩ := bind_ok.mp rest
  obtain ⟨c,entry',last⟩ := bind_ok.mp rest
  cases last
  intro x member
  simp only [List.mem_cons,List.not_mem_nil,or_false] at member
  rcases member with rfl | rfl | rfl
  · exact ⟨_,Frame.address_ok first'⟩
  · exact ⟨_,Frame.address_ok stop'⟩
  · exact ⟨_,Frame.address_ok entry'⟩

def bounds (t : TryRange) : List Nat := t.first :: t.stop :: t.handlers.map Handler.entry

theorem bounds_addGuard {first stop : Nat} {h : Handler} {table : List TryRange} {P : Nat → Prop}
    (old : ∀ t ∈ table, ∀ a ∈ bounds t, P a) (new : ∀ a ∈ [first,stop,h.entry], P a) :
    ∀ t ∈ addGuard first stop h table, ∀ a ∈ bounds t, P a := by
  induction table with
  | nil =>
    intro t member
    rw [List.mem_singleton.mp member]
    exact new
  | cons s rest ih =>
    have tail := ih fun t member => old t (List.mem_cons_of_mem _ member)
    have head := old s List.mem_cons_self
    intro t member
    unfold addGuard at member
    split at member
    · rcases List.mem_cons.mp member with rfl | later
      · intro a inside
        simp only [bounds,List.map_append,List.mem_cons,List.mem_append] at inside head new
        rcases inside with rfl | rfl | inside | inside
        · exact head _ (Or.inl rfl)
        · exact head _ (Or.inr (Or.inl rfl))
        · exact head _ (Or.inr (Or.inr inside))
        · refine new _ (Or.inr (Or.inr (Or.inl ?_)))
          simpa using inside
      · exact old t (List.mem_cons_of_mem _ later)
    · rcases List.mem_cons.mp member with rfl | later
      · exact head
      · exact tail t later

theorem tryTable_ok {f : Frame} {guards : List (Nat × Catch)} {table : List TryRange}
    (ok : tryTable f guards = .ok table) : ∀ t ∈ table, ∀ a ∈ bounds t, ∃ name, f.labels.lookup name = some a := by
  obtain ⟨resolved,each,last⟩ := bind_ok.mp ok
  cases last
  have all : ∀ g ∈ resolved, ∀ a ∈ [g.1,g.2.1,g.2.2.entry], ∃ name, f.labels.lookup name = some a := by
    intro g member
    obtain ⟨_,_,ok⟩ := forall₂_mem (mapM_ok each) g member
    exact resolveGuard_ok ok
  have fold : ∀ (table : List TryRange), (∀ t ∈ table, ∀ a ∈ bounds t, ∃ name, f.labels.lookup name = some a) →
      ∀ t ∈ resolved.foldl (fun table g => addGuard g.1 g.2.1 g.2.2 table) table, ∀ a ∈ bounds t,
        ∃ name, f.labels.lookup name = some a := by
    clear each ok
    induction resolved with
    | nil => exact fun _ old => old
    | cons g rest ih =>
      intro table old
      exact ih (fun g' member => all g' (List.mem_cons_of_mem _ member)) _
        (bounds_addGuard old (all g List.mem_cons_self))
  exact fold [] nofun

theorem Draft.finish_ok {d : Draft} {owner : String} {h : Header} {m : Method} (sound : d.Sound)
    (ok : d.finish owner h = .ok m) : m.Catalogued ∧ m.Aligned := by
  unfold finish at ok
  dsimp only at ok
  split at ok
  · cases ok
  · obtain ⟨code,assembled,rest⟩ := bind_ok.mp ok
    obtain ⟨table,resolved,last⟩ := bind_ok.mp rest
    cases last
    have each := (mapM_ok assembled).imp fun _ _ ok => Pending.assemble_ok (within_ok.mp ok)
    have outline : code.map Instr.outline = d.outline := by
      have same : List.Forall₂ (· = ·) (d.pending.reverse.map Pending.outline) (code.map Instr.outline) := by
        rw [List.forall₂_map_left_iff,List.forall₂_map_right_iff]
        exact each.imp fun _ _ ok => ok.1.symm
      rw [List.forall₂_eq_eq_eq] at same
      exact same.symm
    have label : ∀ {name a}, d.labels.lookup name = some a → Splits code a := by
      intro name a known
      obtain ⟨before,_,same,_⟩ := List.lookup_eq_some_iff.mp known
      refine splits_outline ?_
      rw [outline]
      exact sound.labels (name,a) (by rw [same]; simp)
    have laid : Laid 0 code := by
      rw [← laid_outline,outline]
      exact sound.laid
    refine ⟨?_,laid,?_,?_⟩
    · intro i member
      obtain ⟨p,inside,same,formed,_⟩ := forall₂_mem each i member
      have opcode : i.opcode = p.opcode := congrArg Instr.opcode same
      exact ⟨opcode ▸ sound.opcodes p (List.mem_reverse.mp inside),opcode ▸ formed⟩
    · intro i member x target
      obtain ⟨p,_,_,_,targets⟩ := forall₂_mem each i member
      obtain ⟨name,known⟩ := targets x target
      exact (Method.boundary_iff laid).mpr (label known)
    · intro t member
      have known : ∀ a ∈ bounds t, Splits code a := by
        intro a inside
        obtain ⟨name,known⟩ := tryTable_ok resolved t member a inside
        exact label known
      refine ⟨?_,?_,fun c inside => ?_⟩
      · exact (Method.boundary_iff laid).mpr (known _ (by simp [bounds]))
      · exact (Method.boundary_iff laid).mpr (known _ (by simp [bounds]))
      · refine (Method.boundary_iff laid).mpr (known _ ?_)
        exact List.mem_cons_of_mem _ (List.mem_cons_of_mem _ (List.mem_map_of_mem inside))

theorem method_ok {owner : String} {text : List Char} {m : Method} (ok : method owner text = .ok m) :
    m.Catalogued ∧ m.Aligned := by
  unfold method at ok
  split at ok
  · cases ok
  · next n first rest _ =>
    obtain ⟨h,_,ok⟩ := bind_ok.mp ok
    dsimp only at ok
    obtain ⟨d?,collected,ok⟩ := bind_ok.mp (within_ok.mp ok)
    split at ok
    · cases ok
    · exact Draft.finish_ok (Draft.collect_sound Draft.start_sound collected) ok

end Source
end SmaliPrune
