import Hocon.Files.Search
import Mathlib.Data.List.Sort

namespace Hocon.Files

section Sorted

variable {α : Type} {le : α → α → Bool} {items others : List α}

private theorem pairwise_insertSorted (total : ∀ a b, le a b = true ∨ le b a = true)
    (trans : ∀ {a b c}, le a b = true → le b c = true → le a c = true) {x : α}
    (ordered : items.Pairwise (le · · = true)) : (insertSorted le x items).Pairwise (le · · = true) := by
  induction items with
  | nil => exact List.pairwise_singleton _ x
  | cons y rest ih =>
    obtain ⟨least, ordered⟩ := List.pairwise_cons.mp ordered
    unfold insertSorted
    split
    case isTrue first =>
      refine List.pairwise_cons.mpr ⟨List.forall_mem_cons.mpr ⟨first, fun z member => ?_⟩, ?_⟩
      · exact trans first (least z member)
      · exact List.pairwise_cons.mpr ⟨least, ordered⟩
    case isFalse later =>
      refine List.pairwise_cons.mpr ⟨fun z member => ?_, ih ordered⟩
      rcases List.mem_cons.mp ((perm_insertSorted le x rest).mem_iff.mp member) with rfl | among
      · exact (total z y).resolve_left later
      · exact least z among

private theorem pairwise_sorted (total : ∀ a b, le a b = true ∨ le b a = true)
    (trans : ∀ {a b c}, le a b = true → le b c = true → le a c = true) (items : List α) :
    (sorted le items).Pairwise (le · · = true) := by
  induction items with
  | nil => exact .nil
  | cons x rest ih => exact pairwise_insertSorted total trans ih

private theorem sorted_eq_of_perm (total : ∀ a b, le a b = true ∨ le b a = true)
    (trans : ∀ {a b c}, le a b = true → le b c = true → le a c = true)
    (apart : ∀ a ∈ items, ∀ b ∈ items, le a b = true → le b a = true → a = b) (perm : items.Perm others) :
    sorted le items = sorted le others := by
  have same := (perm_sorted le items).trans (perm.trans (perm_sorted le others).symm)
  refine List.Perm.eq_of_pairwise (fun a b member among => ?_) (pairwise_sorted total trans items)
    (pairwise_sorted total trans others) same
  exact apart a (mem_sorted.mp member) b (perm.mem_iff.mpr (mem_sorted.mp among))

/-- What is sorted by names that differ does not depend on how it stood before. -/
theorem sorted_eq_of_names (name : α → String) (once : (items.map name).Nodup) (perm : items.Perm others) :
    sorted (fun a b => name a ≤ name b) items = sorted (fun a b => name a ≤ name b) others := by
  have total (a b : α) : decide (name a ≤ name b) = true ∨ decide (name b ≤ name a) = true := by
    simpa only [decide_eq_true_eq] using String.le_total (name a) (name b)
  have trans {a b c : α} (first : decide (name a ≤ name b) = true) (second : decide (name b ≤ name c) = true) :
      decide (name a ≤ name c) = true := by
    rw [decide_eq_true_eq] at first second ⊢
    exact String.le_trans first second
  refine sorted_eq_of_perm total trans (fun a member b among first second => ?_) perm
  rw [decide_eq_true_eq] at first second
  exact List.inj_on_of_nodup_map once member among (String.le_antisymm first second)

end Sorted

namespace Component

variable {a b c : Component}

private theorem le_total (a b : Component) : a.le b = true ∨ b.le a = true := by
  cases a <;> cases b <;> simp [le, rank, String.le_total]

private theorem le_trans (first : a.le b = true) (second : b.le c = true) : a.le c = true := by
  cases a <;> cases b <;> cases c <;> simp [le, rank] at first second ⊢
  exact String.le_trans first second

private theorem le_antisymm (first : a.le b = true) (second : b.le a = true) : a = b := by
  cases a <;> cases b <;> simp [le, rank] at first second ⊢
  exact String.le_antisymm first second

private theorem listLe_total (as bs : List Component) : listLe as bs = true ∨ listLe bs as = true := by
  induction as generalizing bs with
  | nil => exact .inl rfl
  | cons a as ih =>
    cases bs with
    | nil => exact .inr rfl
    | cons b bs =>
      by_cases same : a = b
      · simp [listLe, same, ih]
      · simpa [listLe, same, Ne.symm same] using le_total a b

/-- The first steps that differ decide, so three paths are compared by their earliest ones. -/
private theorem listLe_trans {as bs cs : List Component} (first : listLe as bs = true)
    (second : listLe bs cs = true) :
    listLe as cs = true := by
  induction as generalizing bs cs with
  | nil => rfl
  | cons a as ih =>
    cases bs with
    | nil => cases first
    | cons b bs =>
    cases cs with
    | nil => cases second
    | cons c cs =>
    rw [listLe] at first second ⊢
    by_cases near : a = b
    · subst near
      rw [if_pos rfl] at first
      by_cases far : a = c
      · rw [if_pos far] at second ⊢
        exact ih first second
      · rw [if_neg far] at second ⊢
        exact second
    · rw [if_neg near] at first
      by_cases far : b = c
      · subst far
        rwa [if_neg near]
      · rw [if_neg far] at second
        split
        case isTrue same => exact absurd (le_antisymm first (same ▸ second)) near
        case isFalse => exact le_trans first second

end Component

namespace FilePath

private theorem le_total (a b : FilePath) : a.le b = true ∨ b.le a = true := Component.listLe_total _ _

private theorem le_trans {a b c : FilePath} (first : a.le b = true) (second : b.le c = true) : a.le c = true :=
  Component.listLe_trans first second

end FilePath
/-- The files of a pattern come in the order of their paths. -/
theorem Tree.search_ordered {tree : Tree} {pattern : FilePath} {files : List FilePath}
    (found : tree.search pattern = .ok files) : files.Pairwise (FilePath.le · · = true) := by
  unfold Tree.search at found
  cases compiled : (steps pattern).mapError SearchFault.pattern with
  | error cause =>
    rw [compiled] at found
    cases found
  | ok steps =>
    cases followed : (tree.follow (tree.waypoint (start pattern)) steps).mapM id with
    | error cause =>
      simp only [compiled, followed, bind, Except.bind] at found
      cases found
    | ok reached =>
      simp only [compiled, followed, bind, Except.bind] at found
      split at found <;> cases found
      · exact .nil
      · exact pairwise_sorted FilePath.le_total FilePath.le_trans _

end Hocon.Files
