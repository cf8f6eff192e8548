namespace SmaliPrune

def total {α : Type} (weight : α → Nat) : List α → Nat
  | [] => 0
  | a :: rest => weight a + total weight rest

@[simp]
theorem total_zero {α : Type} (as : List α) : total (fun _ => 0) as = 0 := by
  induction as with
  | nil => rfl
  | cons a rest ih => rw [total,ih]

theorem total_append {α : Type} (weight : α → Nat) (as bs : List α) :
    total weight (as ++ bs) = total weight as + total weight bs := by
  induction as with
  | nil => simp [total]
  | cons a rest ih =>
    rw [List.cons_append]
    simp only [total]
    omega

theorem total_map {α β : Type} (weight : β → Nat) (f : α → β) (as : List α) :
    total weight (as.map f) = total (fun a => weight (f a)) as := by
  induction as with
  | nil => rfl
  | cons a rest ih =>
    rw [List.map_cons]
    simp only [total,ih]

theorem total_filter {α : Type} (weight : α → Nat) (p : α → Bool) (as : List α) :
    total weight (as.filter p) + total weight (as.filter fun a => !p a) = total weight as := by
  induction as with
  | nil => rfl
  | cons a rest ih =>
    cases chosen : p a with
    | true =>
      rw [List.filter_cons_of_pos chosen,List.filter_cons_of_neg (by simp [chosen])]
      simp only [total]
      omega
    | false =>
      rw [List.filter_cons_of_neg (by simp [chosen]),List.filter_cons_of_pos (by simp [chosen])]
      simp only [total]
      omega

theorem total_perm {α : Type} {weight : α → Nat} {as bs : List α} (perm : as.Perm bs) :
    total weight as = total weight bs := by
  induction perm with
  | nil => rfl
  | cons a _ ih => simp only [total,ih]
  | swap a b _ =>
    simp only [total]
    omega
  | trans _ _ first second => exact first.trans second

theorem total_congr {α : Type} {weight other : α → Nat} {as : List α} (same : ∀ a ∈ as, weight a = other a) :
    total weight as = total other as := by
  induction as with
  | nil => rfl
  | cons a rest ih =>
    simp only [total,same a List.mem_cons_self,ih fun b member => same b (List.mem_cons_of_mem a member)]

theorem total_le {α : Type} {light heavy : α → Nat} (le : ∀ a, light a ≤ heavy a) (as : List α) :
    total light as ≤ total heavy as := by
  induction as with
  | nil => exact Nat.le_refl 0
  | cons a rest ih => exact Nat.add_le_add (le a) ih

end SmaliPrune
