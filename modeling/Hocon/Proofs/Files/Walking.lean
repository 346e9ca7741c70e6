import Hocon.Proofs.Files.Escaping
import Hocon.Proofs.Files.Ordering
import Mathlib.Data.List.Nodup

namespace Hocon.Files

/-- A segment that stays where it is. -/
def isIdle (segment : String) : Bool := segment = "" || segment = "."

namespace FilePath

variable {path : FilePath} {name : String}

theorem isAbsolute_iff : path.isAbsolute = true ↔ ∃ rest, path.text.toList = '/' :: rest := by
  unfold isAbsolute
  cases path.text.toList <;> simp

theorem splitAt_ne_nil (text : String) : Text.splitAt '/' text ≠ [] := by
  simpa [Text.splitAt] using Text.split_ne_nil '/' text.toList

theorem splitAt_of_isAbsolute (absolute : path.isAbsolute = true) :
    ∃ rest, Text.splitAt '/' path.text = "" :: Text.splitAt '/' rest := by
  obtain ⟨rest, whole⟩ := isAbsolute_iff.mp absolute
  refine ⟨String.ofList rest, ?_⟩
  rw [Text.splitAt, whole, Text.split, if_pos rfl, Text.splitAt, String.toList_ofList]
  rfl

theorem segments_eq (path : FilePath) :
    path.segments = if path.isAbsolute then (Text.splitAt '/' path.text).tail else Text.splitAt '/' path.text := by
  by_cases absolute : path.isAbsolute
  · obtain ⟨rest, parts⟩ := splitAt_of_isAbsolute absolute
    simp [segments, parts, absolute]
  · rw [if_neg absolute, segments]
    split <;> simp_all

theorem slash_notMem_of_mem_segments (member : name ∈ path.segments) : '/' ∉ name.toList := by
  have part : name ∈ Text.splitAt '/' path.text := by
    rw [segments_eq] at member
    split at member
    · exact List.mem_of_mem_tail member
    · exact member
  obtain ⟨chars, among, rfl⟩ := List.mem_map.mp part
  rw [String.toList_ofList]
  exact Text.notMem_of_mem_split among

theorem segments_ne_nil (path : FilePath) : path.segments ≠ [] := by
  rw [segments_eq]
  split
  · rename_i absolute
    obtain ⟨rest, parts⟩ := splitAt_of_isAbsolute absolute
    rw [parts]
    exact splitAt_ne_nil rest
  · exact splitAt_ne_nil path.text

theorem size_segments (path : FilePath) : (path.segments.map fun segment => segment.utf8ByteSize + 1).sum =
    path.text.utf8ByteSize + if path.isAbsolute then 0 else 1 := by
  have whole : ((Text.splitAt '/' path.text).map fun part => part.utf8ByteSize + 1).sum =
      path.text.utf8ByteSize + 1 := by
    rw [Text.splitAt, List.map_map]
    exact (Text.size_split path.text.toList).trans (congrArg (·.utf8ByteSize + 1) String.ofList_toList)
  rw [segments_eq]
  by_cases absolute : path.isAbsolute
  · obtain ⟨rest, parts⟩ := splitAt_of_isAbsolute absolute
    rw [parts] at whole
    simp only [List.map_cons, List.sum_cons, String.utf8ByteSize_empty] at whole
    simp only [absolute, if_true, parts, List.tail_cons]
    omega
  · rw [if_neg absolute, if_neg absolute, whole]

theorem mem_iff_mem_segments {c : Char} (other : c ≠ '/') :
    c ∈ path.text.toList ↔ ∃ segment ∈ path.segments, c ∈ segment.toList := by
  have whole : c ∈ path.text.toList ↔ ∃ part ∈ Text.splitAt '/' path.text, c ∈ part.toList := by
    rw [Text.mem_iff_mem_split other, Text.splitAt]
    simp
  rw [whole, segments_eq]
  split
  · rename_i absolute
    obtain ⟨rest, parts⟩ := splitAt_of_isAbsolute absolute
    simp [parts]
  · exact Iff.rfl

private theorem isAbsolute_of_notMem (slashless : '/' ∉ name.toList) :
    (FilePath.mk name).isAbsolute = false := by
  by_contra absolute
  obtain ⟨rest, whole⟩ := isAbsolute_iff.mp (Bool.of_not_eq_false absolute)
  exact slashless (whole ▸ List.mem_cons_self)

private theorem splitAt_of_notMem (slashless : '/' ∉ name.toList) : Text.splitAt '/' name = [name] := by
  rw [Text.splitAt, Text.split_of_notMem slashless, List.map_singleton, String.ofList_toList]

private theorem segments_of_notMem (slashless : '/' ∉ name.toList) : (FilePath.mk name).segments = [name] := by
  rw [segments_eq, isAbsolute_of_notMem slashless, splitAt_of_notMem slashless]
  rfl

theorem join_eq (given : path.text ≠ "") (slashless : '/' ∉ name.toList) : path.join name =
    if path.text.toList.getLast? = some '/' then ⟨path.text ++ name⟩ else ⟨path.text ++ "/" ++ name⟩ := by
  unfold join
  simp [isAbsolute_of_notMem slashless, given]

/-- A path is written out, then a slash unless it ends in one, then the name. -/
theorem text_join (given : path.text ≠ "") (slashless : '/' ∉ name.toList) :
    ∃ slash, (slash = "" ∨ slash = "/") ∧ (path.join name).text = path.text ++ slash ++ name := by
  rw [join_eq given slashless]
  split
  · exact ⟨"", .inl rfl, by rw [String.append_empty]⟩
  · exact ⟨"/", .inr rfl, rfl⟩

theorem splitAt_append_slash (front rest : String) :
    Text.splitAt '/' (front ++ "/" ++ rest) = Text.splitAt '/' front ++ Text.splitAt '/' rest := by
  have whole : (front ++ "/" ++ rest).toList = front.toList ++ '/' :: rest.toList := by simp
  rw [Text.splitAt, whole, Text.split_append_cons, List.map_append]
  rfl

private theorem exists_append_slash {text : String} (ends : text.toList.getLast? = some '/') :
    ∃ front, text = front ++ "/" ++ "" := by
  obtain ⟨front, whole⟩ := List.getLast?_eq_some_iff.mp ends
  refine ⟨String.ofList front, ?_⟩
  rw [← String.toList_inj, whole]
  simp

private theorem splitAt_join (given : path.text ≠ "") (slashless : '/' ∉ name.toList) :
    Text.splitAt '/' (path.join name).text = Text.splitAt '/' path.text ++ [name] ∨
      ∃ above, Text.splitAt '/' path.text = above ++ [""] ∧
        Text.splitAt '/' (path.join name).text = above ++ [name] := by
  rw [join_eq given slashless]
  split
  · rename_i ends
    obtain ⟨front, text⟩ := exists_append_slash ends
    refine .inr ⟨Text.splitAt '/' front, ?_, ?_⟩
    · rw [text, splitAt_append_slash]
      rfl
    · rw [text, String.append_empty, splitAt_append_slash, splitAt_of_notMem slashless]
  · rw [splitAt_append_slash, splitAt_of_notMem slashless]
    exact .inl rfl

theorem getLast?_segments (ends : path.text.toList.getLast? = some '/') : path.segments.getLast? = some "" := by
  obtain ⟨front, text⟩ := exists_append_slash ends
  have parts : Text.splitAt '/' path.text = Text.splitAt '/' front ++ [""] := by
    rw [text, splitAt_append_slash]
    rfl
  rw [segments_eq, parts]
  split
  · rw [List.tail_append_of_ne_nil (splitAt_ne_nil _), List.getLast?_concat]
  · exact List.getLast?_concat

private theorem isAbsolute_join (given : path.text ≠ "") (slashless : '/' ∉ name.toList) :
    (path.join name).isAbsolute = path.isAbsolute := by
  have begins : path.text.toList ≠ [] := by simpa using given
  obtain ⟨c, rest, whole⟩ := List.exists_cons_of_ne_nil begins
  rw [join_eq given slashless]
  split <;> simp [isAbsolute, whole]

private theorem segments_join (given : path.text ≠ "") (slashless : '/' ∉ name.toList) :
    (path.join name).segments = path.segments ++ [name] ∨
      ∃ above, path.segments = above ++ [""] ∧ (path.join name).segments = above ++ [name] := by
  rw [segments_eq, segments_eq, isAbsolute_join given slashless]
  have parts := splitAt_join given slashless
  by_cases absolute : path.isAbsolute
  · rw [if_pos absolute, if_pos absolute]
    obtain ⟨rest, leading⟩ := splitAt_of_isAbsolute absolute
    rcases parts with longer | ⟨above, whole, longer⟩
    · left
      rw [longer, leading]
      rfl
    · right
      rw [leading] at whole
      cases above with
      | nil => exact absurd (List.cons.inj whole).2 (splitAt_ne_nil rest)
      | cons first above =>
        rw [leading, longer]
        exact ⟨above, (List.cons.inj whole).2, rfl⟩
  · rw [if_neg absolute, if_neg absolute]
    exact parts

private theorem componentsOf_append {front : List String} (given : front ≠ []) (atStart : Bool)
    (rest : List String) :
    componentsOf atStart (front ++ rest) = componentsOf atStart front ++ componentsOf false rest := by
  induction front generalizing atStart with
  | nil => exact absurd rfl given
  | cons segment front ih =>
    cases front with
    | nil => simp [componentsOf]
    | cons next front =>
      rw [List.cons_append, componentsOf, ih (List.cons_ne_nil next front), ← List.append_assoc]
      rfl

private theorem components_ne_nil (given : path.text ≠ "") : path.components ≠ [] := by
  unfold components
  split
  · exact List.cons_ne_nil _ _
  · rename_i relative
    obtain ⟨c, rest, whole⟩ := List.exists_cons_of_ne_nil (by simpa using given : path.text.toList ≠ [])
    have other : c ≠ '/' := by
      rintro rfl
      exact relative (isAbsolute_iff.mpr ⟨rest, whole⟩)
    obtain ⟨part, parts, split⟩ := List.exists_cons_of_ne_nil (Text.split_ne_nil '/' rest)
    have segments : path.segments = String.ofList (c :: part) :: parts.map String.ofList := by
      rw [segments_eq, if_neg relative, Text.splitAt, whole, Text.split_cons_of_ne other, split]
      rfl
    have step : (component? true (String.ofList (c :: part))).isSome := by
      unfold component?
      have named : String.ofList (c :: part) ≠ "" := by simp [← String.toList_inj]
      rw [if_neg named, if_pos rfl]
      repeat' split
      all_goals rfl
    rw [segments, componentsOf]
    intro none
    have empty := (List.append_eq_nil_iff.mp none).1
    rw [Option.toList_eq_nil_iff] at empty
    rw [empty] at step
    cases step

/-- What is inside of something else than the working directory is something else. -/
theorem isHere_join (given : path.text ≠ "") (slashless : '/' ∉ name.toList) (other : path.isHere = false) :
    (path.join name).isHere = false := by
  have further (atStart : Bool) : ∃ more, componentsOf atStart (path.join name).segments =
      componentsOf atStart path.segments ++ more := by
    rcases segments_join given slashless with longer | ⟨above, whole, longer⟩
    · rw [longer, componentsOf_append path.segments_ne_nil]
      exact ⟨_, rfl⟩
    · rw [longer, whole]
      cases above with
      | nil => exact ⟨_, rfl⟩
      | cons segment above =>
        rw [componentsOf_append (List.cons_ne_nil _ _), componentsOf_append (List.cons_ne_nil _ _)]
        exact ⟨_, congrArg (· ++ _) (List.append_nil _).symm⟩
  obtain ⟨more, longer⟩ : ∃ more, (path.join name).components = path.components ++ more := by
    unfold components
    rw [isAbsolute_join given slashless]
    split
    · obtain ⟨more, longer⟩ := further false
      exact ⟨more, congrArg (Component.root :: ·) longer⟩
    · exact further true
  simp only [isHere, beq_eq_false_iff_ne, ne_eq] at other ⊢
  rw [longer]
  intro here
  cases own : path.components with
  | nil => exact components_ne_nil given own
  | cons first behind =>
    rw [own] at here other
    obtain ⟨rfl, none⟩ := List.cons.inj here
    exact other (congrArg _ (List.append_eq_nil_iff.mp none).1)

/-- What a search can go on from: the working directory, spelled as a dot, or something else. -/
def Stands (path : FilePath) : Prop := path = ⟨"."⟩ ∨ path.isHere = false ∧ path.text ≠ ""

private theorem join_text_ne (given : path.text ≠ "") (slashless : '/' ∉ name.toList) :
    (path.join name).text ≠ "" := by
  obtain ⟨slash, _, text⟩ := text_join given slashless
  simp [text, given]

private theorem isHere_of_name (proper : isIdle name = false) (slashless : '/' ∉ name.toList) :
    (FilePath.mk name).isHere = false := by
  simp only [isIdle, Bool.or_eq_false_iff, decide_eq_false_iff_not] at proper
  simp only [isHere, components, isAbsolute_of_notMem slashless, segments_of_notMem slashless, componentsOf,
    component?, if_neg proper.1, if_neg proper.2]
  by_cases up : name = ".." <;> simp [up]

end FilePath

namespace Trail

variable {root : Node} {trail : Trail} {idle segment : String}

/-- A segment that stays where it is needs a directory there, and a dot one that can be entered, as
every name does. -/
private theorem step_idle_bind (still : isIdle idle = true) (apart : segment = "" → idle = "") :
    (trail.step root idle >>= fun next => next.step root segment) = trail.step root segment := by
  simp only [isIdle, Bool.or_eq_true, decide_eq_true_eq] at still
  by_cases folder : (trail.node root).isFolder
  · rcases still with rfl | rfl
    · have stays : trail.step root "" = .ok trail := by simp [step, folder]
      rw [stays]
      rfl
    · have named : segment ≠ "" := fun none => absurd (apart none) (by decide)
      by_cases enters : (trail.node root).access.enters
      · have stays : trail.step root "." = .ok trail := by simp [step, folder, enters]
        rw [stays]
        rfl
      · have stops {segment : String} (named : segment ≠ "") : trail.step root segment = .error .denied := by
          simp [step, folder, named, enters]
        rw [stops (by decide), stops named]
        rfl
  · have stops (segment : String) : trail.step root segment = .error .notFolder := by simp [step, folder]
    rw [stops, stops]
    rfl

/-- In front of a name the segments that stay count for nothing. -/
theorem foldlM_step_busy (front : List String) {final : String} (named : final ≠ "") (trail : Trail) :
    (front ++ [final]).foldlM (step root) trail =
      (front.filter (!isIdle ·) ++ [final]).foldlM (step root) trail := by
  induction front generalizing trail with
  | nil => rfl
  | cons segment front ih =>
    rw [List.cons_append, List.foldlM_cons, funext ih]
    by_cases still : isIdle segment = true
    · rw [List.filter_cons_of_neg (by simp [still])]
      have busy : ∀ other ∈ front.filter (!isIdle ·) ++ [final], other ≠ "" := by
        intro other member
        rcases List.mem_append.mp member with kept | last
        · rintro rfl
          exact absurd (List.mem_filter.mp kept).2 (by decide)
        · rwa [List.mem_singleton.mp last]
      obtain ⟨next, rest, whole⟩ := List.exists_cons_of_ne_nil
        (List.append_ne_nil_of_right_ne_nil (front.filter (!isIdle ·)) (List.cons_ne_nil final []))
      have apart : next = "" → segment = "" := fun none => absurd none (busy next (whole ▸ List.mem_cons_self))
      simp only [whole, List.foldlM_cons, ← bind_assoc, step_idle_bind still apart]
    · rw [List.filter_cons_of_pos (by simp [still]), List.cons_append, List.foldlM_cons]

end Trail

namespace Tree

variable {tree : Tree} {path : FilePath} {name : String}

theorem resolve_eq (given : path.text ≠ "") : tree.resolve path =
    ((if path.isAbsolute then [] else tree.current) ++ path.segments).foldlM (Trail.step tree.root) [] := by
  rw [resolve, if_neg given]

theorem inside_here (name : String) : inside ⟨"."⟩ name = ⟨name⟩ := rfl

theorem inside_of_isHere (other : path.isHere = false) : inside path name = path.join name := by
  rw [inside, other]
  rfl

/-- A search can go on from what is inside. -/
theorem stands_inside (stands : path.Stands) (slashless : '/' ∉ name.toList) (apart : path = ⟨"."⟩ → name ≠ "") :
    (inside path name).Stands := by
  rcases stands with rfl | ⟨other, given⟩
  · by_cases idle : isIdle name = true
    · simp only [isIdle, Bool.or_eq_true, decide_eq_true_eq, apart rfl, false_or] at idle
      subst idle
      exact .inl rfl
    · exact .inr ⟨FilePath.isHere_of_name (Bool.eq_false_iff.mpr idle) slashless, apart rfl⟩
  · rw [inside_of_isHere other]
    exact .inr ⟨FilePath.isHere_join given slashless other, FilePath.join_text_ne given slashless⟩

theorem resolve_inside (stands : path.Stands) (slashless : '/' ∉ name.toList) (apart : path = ⟨"."⟩ → name ≠ "") :
    tree.resolve (inside path name) = tree.resolve path >>= fun trail => trail.step tree.root name := by
  rcases stands with rfl | ⟨other, given⟩
  · have here : tree.resolve ⟨"."⟩ = (tree.current ++ ["."]).foldlM (Trail.step tree.root) [] := rfl
    rw [inside_here, resolve_eq (apart rfl), FilePath.isAbsolute_of_notMem slashless,
      FilePath.segments_of_notMem slashless, here]
    simp only [List.foldlM_append, List.foldlM_cons, List.foldlM_nil, bind_pure, bind_assoc,
      Trail.step_idle_bind (show isIdle "." = true from rfl) fun none => absurd none (apart rfl)]
    rfl
  · rw [inside_of_isHere other, resolve_eq (FilePath.join_text_ne given slashless), resolve_eq given,
      FilePath.isAbsolute_join given slashless]
    rcases FilePath.segments_join given slashless with longer | ⟨above, whole, longer⟩
    · rw [longer, ← List.append_assoc, List.foldlM_append]
      simp only [List.foldlM_cons, List.foldlM_nil, bind_pure]
    · rw [longer, whole]
      simp only [List.foldlM_append, List.foldlM_cons, List.foldlM_nil, bind_pure, bind_assoc,
        Trail.step_idle_bind (show isIdle "" = true from rfl) fun _ => rfl]

theorem find?_eq_some_iff {node : Node} : tree.find? path = some node ↔ '\x00' ∉ path.text.toList ∧
    path.text.utf8ByteSize < 4096 ∧ ∃ trail, tree.resolve path = .ok trail ∧ trail.node tree.root = node := by
  unfold find? locate
  by_cases nul : '\x00' ∈ path.text.toList
  · simp [nul, Except.toOption]
  by_cases long : path.text.utf8ByteSize ≥ 4096
  · simp [nul, long, Except.toOption, Nat.not_lt.mpr long]
  cases walked : tree.resolve path with
  | error cause => simp [nul, long, Except.map, Except.toOption]
  | ok trail => simp [nul, long, Except.map, Except.toOption, Nat.lt_of_not_ge long]

theorem find?_of_inside {node : Node} (stands : path.Stands) (slashless : '/' ∉ name.toList)
    (apart : path = ⟨"."⟩ → name ≠ "") (found : tree.find? (inside path name) = some node) :
    ∃ trail next : Trail, tree.find? path = some (trail.node tree.root) ∧
      trail.step tree.root name = .ok next ∧ next.node tree.root = node := by
  obtain ⟨nul, short, next, walked, rfl⟩ := find?_eq_some_iff.mp found
  have opens : '\x00' ∉ path.text.toList ∧ path.text.utf8ByteSize < 4096 := by
    rcases stands with rfl | ⟨other, given⟩
    · decide
    · obtain ⟨slash, _, text⟩ := FilePath.text_join given slashless
      rw [inside_of_isHere other, text] at nul short
      simp only [String.toList_append, List.mem_append, not_or, String.utf8ByteSize_append] at nul short
      exact ⟨nul.1.1, by omega⟩
  rw [resolve_inside stands slashless apart] at walked
  cases above : tree.resolve path with
  | error cause =>
    rw [above] at walked
    cases walked
  | ok trail =>
    rw [above] at walked
    exact ⟨trail, next, find?_eq_some_iff.mpr ⟨opens.1, opens.2, trail, above, rfl⟩, walked, rfl⟩

end Tree
end Hocon.Files
