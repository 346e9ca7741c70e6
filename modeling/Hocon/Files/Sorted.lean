namespace Hocon.Files

variable {α : Type}

/-- Put an element in front of the first one that it may come before. -/
def insertSorted (le : α → α → Bool) (x : α) : List α → List α
  | [] => [x]
  | y :: rest => if le x y then x :: y :: rest else y :: insertSorted le x rest

def sorted (le : α → α → Bool) (items : List α) : List α := items.foldr (insertSorted le) []

theorem perm_insertSorted (le : α → α → Bool) (x : α) (items : List α) :
    (insertSorted le x items).Perm (x :: items) := by
  induction items with
  | nil => exact List.Perm.refl _
  | cons y rest ih =>
    unfold insertSorted
    split
    · exact List.Perm.refl _
    · exact (ih.cons y).trans (List.Perm.swap x y rest)

theorem perm_sorted (le : α → α → Bool) (items : List α) : (sorted le items).Perm items := by
  induction items with
  | nil => exact List.Perm.refl _
  | cons x rest ih => exact (perm_insertSorted le x (sorted le rest)).trans (ih.cons x)

@[simp] theorem mem_sorted {le : α → α → Bool} {items : List α} {x : α} :
    x ∈ sorted le items ↔ x ∈ items := (perm_sorted le items).mem_iff

end Hocon.Files
