namespace Hocon.Text

/-- The parts between the occurrences of `mark`; one part more than occurrences. -/
def split (mark : Char) : List Char → List (List Char)
  | [] => [[]]
  | c :: rest =>
    if c = mark then [] :: split mark rest
    else match split mark rest with
      | part :: parts => (c :: part) :: parts
      | [] => [[c]]

theorem split_ne_nil (mark : Char) (text : List Char) : split mark text ≠ [] := by
  cases text with
  | nil => simp [split]
  | cons c rest => simp only [split]; split <;> (try split) <;> simp

theorem mem_of_mem_split {mark c : Char} {text part : List Char} (member : part ∈ split mark text)
    (inside : c ∈ part) : c ∈ text := by
  induction text generalizing part with
  | nil => simp_all [split]
  | cons d rest ih =>
    obtain ⟨first, parts, whole⟩ := List.exists_cons_of_ne_nil (split_ne_nil mark rest)
    rw [whole] at ih
    by_cases cut : d = mark
    · rw [split, if_pos cut, whole] at member
      rcases List.mem_cons.mp member with rfl | later
      · cases inside
      · exact List.mem_cons_of_mem _ (ih later inside)
    · rw [split, if_neg cut, whole] at member
      rcases List.mem_cons.mp member with rfl | later
      · rcases List.mem_cons.mp inside with rfl | inside
        · exact List.mem_cons_self
        · exact List.mem_cons_of_mem _ (ih List.mem_cons_self inside)
      · exact List.mem_cons_of_mem _ (ih (List.mem_cons_of_mem _ later) inside)

/-- The parts of a string between the occurrences of `mark`. -/
def splitAt (mark : Char) (text : String) : List String :=
  (split mark text.toList).map String.ofList

end Hocon.Text
