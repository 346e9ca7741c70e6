import Hocon.Text.Split
import Mathlib.Algebra.GroupWithZero.Nat

namespace Hocon.Text

variable {mark c : Char} {front rest text part : List Char}

private theorem split_eq_splitOn (mark : Char) (text : List Char) : split mark text = text.splitOn mark := by
  induction text with
  | nil => rfl
  | cons c rest ih =>
    rw [List.splitOn_cons_eq_if_modifyHead, ← ih, split]
    obtain ⟨part, parts, whole⟩ := List.exists_cons_of_ne_nil (split_ne_nil mark rest)
    by_cases cut : c = mark <;> simp [cut, whole]

theorem split_cons_of_ne (other : c ≠ mark) (rest : List Char) :
    split mark (c :: rest) = (split mark rest).modifyHead (c :: ·) := by
  rw [split_eq_splitOn, split_eq_splitOn, List.splitOn_cons_eq_if_modifyHead, if_neg (by simpa using other)]

theorem split_append_cons (mark : Char) (front rest : List Char) :
    split mark (front ++ mark :: rest) = split mark front ++ split mark rest := by
  simp only [split_eq_splitOn, List.splitOn_append_cons_self]

theorem split_append_of_notMem (outside : mark ∉ front) (rest : List Char) :
    split mark (front ++ rest) = (split mark rest).modifyHead (front ++ ·) := by
  induction front with
  | nil =>
    obtain ⟨part, parts, whole⟩ := List.exists_cons_of_ne_nil (split_ne_nil mark rest)
    rw [List.nil_append, whole]
    rfl
  | cons c front ih =>
    obtain ⟨other, outside⟩ := List.ne_and_not_mem_of_not_mem_cons outside
    rw [List.cons_append, split_cons_of_ne other.symm, ih outside, List.modifyHead_modifyHead]
    rfl

theorem split_of_notMem (outside : mark ∉ text) : split mark text = [text] := by
  rw [split_eq_splitOn, List.splitOn_eq_singleton outside]

theorem split_append (outside : mark ∉ part) : split mark (part ++ mark :: rest) = part :: split mark rest := by
  rw [split_append_cons, split_of_notMem outside]
  rfl

theorem notMem_of_mem_split (member : part ∈ split mark text) : mark ∉ part := by
  induction text generalizing part with
  | nil => simp_all [split]
  | cons c rest ih =>
    by_cases cut : c = mark
    · rw [split, if_pos cut] at member
      rcases List.mem_cons.mp member with rfl | later
      · exact List.not_mem_nil
      · exact ih later
    · obtain ⟨first, parts, whole⟩ := List.exists_cons_of_ne_nil (split_ne_nil mark rest)
      rw [split_cons_of_ne cut, whole, List.modifyHead_cons] at member
      rcases List.mem_cons.mp member with rfl | later
      · have outside : mark ∉ first := ih (whole ▸ List.mem_cons_self)
        exact List.not_mem_cons_of_ne_of_not_mem (Ne.symm cut) outside
      · exact ih (whole ▸ List.mem_cons_of_mem _ later)

/-- The parts hold every character but those that part them. -/
theorem mem_iff_mem_split (other : c ≠ mark) : c ∈ text ↔ ∃ part ∈ split mark text, c ∈ part := by
  induction text with
  | nil => simp [split]
  | cons d rest ih =>
    by_cases cut : d = mark
    · simp [split, cut, other, ih]
    · obtain ⟨first, parts, whole⟩ := List.exists_cons_of_ne_nil (split_ne_nil mark rest)
      simp [split_cons_of_ne cut, whole, ih, or_assoc]

/-- What parts the parts is one byte each. -/
theorem size_split (text : List Char) :
    ((split '/' text).map fun part => (String.ofList part).utf8ByteSize + 1).sum =
      (String.ofList text).utf8ByteSize + 1 := by
  induction text with
  | nil => rfl
  | cons c rest ih =>
    by_cases cut : c = '/'
    · subst cut
      have slash : "/".utf8ByteSize = 1 := rfl
      simp only [split, if_true, List.map_cons, List.sum_cons, ih]
      simp [slash]
      omega
    · obtain ⟨first, parts, whole⟩ := List.exists_cons_of_ne_nil (split_ne_nil '/' rest)
      rw [whole] at ih
      rw [split_cons_of_ne cut, whole]
      simp at ih ⊢
      omega

end Hocon.Text
