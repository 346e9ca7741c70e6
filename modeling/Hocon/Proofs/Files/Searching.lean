import Hocon.Proofs.Files.Relisting
import Hocon.Proofs.Files.Walking

/-! The search for an escaped text. In directories that hold no name twice it finds the path that is put
together of the text's segments, if a file is there, and nothing else. Where an empty segment stands in
the working directory it finds nothing at all. -/
namespace Hocon.Files

namespace Node

/-- No directory holds a name twice. -/
def Distinct (node : Node) : Prop :=
  ∀ place found, node.at? place = some found → (found.held.map Prod.fst).Nodup

variable {node found : Node} {name : String}

private theorem Distinct.below (distinct : node.Distinct) (held : node.child? name = some found) :
    found.Distinct := by
  intro place other known
  refine distinct (name :: place) other ?_
  rwa [at?, held]

private theorem distinct_of_children (once : (node.held.map Prod.fst).Nodup)
    (children : ∀ name child, node.child? name = some child → child.Distinct) : node.Distinct := by
  intro place found known
  cases place with
  | nil => exact Option.some.inj known ▸ once
  | cons name rest =>
    rw [at?] at known
    split at known
    · rename_i child held
      exact children name child held rest found known
    · cases known

private theorem distinct_file (content : ByteArray) : (file content).Distinct :=
  distinct_of_children List.nodup_nil (by simp [child?, held])

theorem distinct_empty : (folder []).Distinct :=
  distinct_of_children List.nodup_nil (by simp [child?, held])

private theorem lookup_filter_ne {held : List (String × Node)} {other : String} (apart : other ≠ name) :
    (held.filter (·.1 != name)).lookup other = held.lookup other := by
  induction held with
  | nil => rfl
  | cons entry rest ih =>
    by_cases replaced : entry.1 = name
    · have further : (other == entry.1) = false := by simpa [replaced] using apart
      rw [List.filter_cons_of_neg (by simp [replaced]), ih, List.lookup_cons, further]
    · rw [List.filter_cons_of_pos (by simp [replaced]), List.lookup_cons, List.lookup_cons, ih]

private theorem mem_names (held : node.child? name = some found) : name ∈ node.names := by
  rw [names, mem_sorted, ← lookup_isSome_iff]
  exact Option.isSome_iff_exists.mpr ⟨found, held⟩

private theorem child?_alter (change : Node → Node) (node : Node) (name other : String) (rest : Location) :
    (node.alter change (name :: rest)).child? other =
      if other = name then some (((node.child? name).getD (.folder [])).alter change rest) else node.child? other := by
  rw [Node.alter, child?, Node.held, List.lookup_append]
  split
  · rename_i same
    subst same
    have gone : (node.held.filter (·.1 != other)).lookup other = none := by
      rw [List.lookup_eq_none_iff]
      intro entry member
      simpa [ne_comm] using (List.mem_filter.mp member).2
    rw [gone, Option.none_or, List.lookup_cons_self]
  · rename_i apart
    have further : (other == name) = false := by simpa using apart
    rw [lookup_filter_ne apart, List.lookup_cons, further]
    exact Option.or_none

private theorem Distinct.replaced (distinct : node.Distinct) (file : Option ByteArray) :
    (node.replaced file).Distinct := by
  cases file with
  | some content => exact distinct_file content
  | none => exact distinct_of_children (distinct [] node rfl) fun _ _ => distinct.below

private theorem Distinct.alter {change : Node → Node}
    (kept : ∀ {node : Node}, node.Distinct → (change node).Distinct)
    (distinct : node.Distinct) (place : Location) : (node.alter change place).Distinct := by
  induction place generalizing node with
  | nil => exact kept distinct
  | cons name rest ih =>
    have once := distinct [] node rfl
    have below : ((node.child? name).getD (.folder [])).Distinct := by
      cases held : node.child? name with
      | none => exact distinct_empty
      | some child => exact distinct.below held
    refine distinct_of_children ?_ fun other child known => ?_
    · have others : ((node.held.filter (·.1 != name)).map Prod.fst).Nodup :=
        once.sublist (List.filter_sublist.map Prod.fst)
      simpa [Node.alter, held, List.nodup_append] using others
    · rw [child?_alter] at known
      split at known
      · exact Option.some.inj known ▸ ih below
      · exact distinct.below known

end Node

namespace Trail

variable {root : Node} {trail next : Trail} {segment : String}

private theorem isFolder_of_step (done : trail.step root segment = .ok next) :
    (trail.node root).isFolder = true := by
  by_contra file
  rw [step, if_pos (by simp [file])] at done
  cases done

private theorem child_of_step (proper : isIdle segment = false) (other : segment ≠ "..")
    (done : trail.step root segment = .ok next) :
    ∃ child, (trail.node root).child? segment = some child ∧ next = (segment, child) :: trail := by
  simp only [isIdle, Bool.or_eq_false_iff, decide_eq_false_iff_not] at proper
  obtain ⟨named, moves⟩ := proper
  rw [step, if_neg (by simp [isFolder_of_step done]), if_neg named, if_neg moves, if_neg other] at done
  split at done
  · cases done
  split at done
  · cases done
  split at done
  · rename_i child held
    exact ⟨child, held, (Except.ok.inj done).symm⟩
  · cases done

end Trail

namespace Tree

variable {tree : Tree} {path folder : FilePath} {name : String} {segments : List String}

theorem distinct_insert (distinct : tree.root.Distinct) (place : Location) (file : Option ByteArray) :
    (tree.insert place file).root.Distinct :=
  distinct.alter (fun kept => kept.replaced file) place

private theorem isFile_iff :
    tree.isFile path = true ↔ ∃ node, tree.find? path = some node ∧ node.isFolder = false := by
  simp [isFile, Option.any_eq_true]

private theorem locate_of_find? {node : Node} (found : tree.find? path = some node) :
    tree.locate path = .ok node := by
  unfold find? at found
  cases located : tree.locate path with
  | error cause => simp [located, Except.toOption] at found
  | ok other =>
    rw [located] at found
    exact congrArg Except.ok (Option.some.inj found)

/-- Paths that lead to one file have its identity. -/
theorem identity_of_resolve {other : FilePath} (same : tree.resolve path = tree.resolve other)
    (file : tree.isFile other = true) : tree.identity path = tree.identity other := by
  obtain ⟨_, found, _⟩ := isFile_iff.mp file
  obtain ⟨_, _, trail, walked, _⟩ := find?_eq_some_iff.mp found
  simp only [identity, same, walked]

/-- What a directory tells of an escaped name, or of any name whether it is there. The search goes on
there, if it goes on. -/
def next (tree : Tree) (here : Waypoint) (name : String) : Except SearchFault (Option Waypoint) :=
  if name.toList.any isWild then
    if here.isFolder then
      match tree.list here.path with
      | .ok node => .ok (if node.names.contains name then some (told here.path node name) else none)
      | .error cause => .error (.unlisted here.path cause)
    else .ok none
  else
    let there := if name = "." || name = ".." then here.isFolder else tree.holds (inside here.path name)
    .ok (if there then some (tree.waypoint (inside here.path name)) else none)

/-- The search for one name after the other. -/
def walk (tree : Tree) (here : Waypoint) : List String → Except SearchFault (Option Waypoint)
  | [] => .ok (some here)
  | name :: rest =>
    match tree.next here name with
    | .ok (some there) => tree.walk there rest
    | .ok none => .ok none
    | .error fault => .error fault

private theorem locate_of_list {node : Node} (listed : tree.list path = .ok node) :
    tree.locate path = .ok node ∧ node.isFolder = true := by
  unfold list at listed
  cases located : tree.locate path with
  | error cause =>
    rw [located] at listed
    cases listed
  | ok found =>
    rw [located] at listed
    change (if _ then _ else _) = _ at listed
    split at listed
    · cases listed
    · rename_i folder
      split at listed <;> cases listed
      exact ⟨rfl, by simpa using folder⟩

private theorem filter_names (distinct : tree.root.Distinct) {node : Node} (listed : tree.list path = .ok node)
    (name : String) :
    node.names.filter (Pattern.fits (name.toList.map Pattern.only) ·.toList) =
      if node.names.contains name then [name] else [] := by
  have once : node.names.Nodup := by
    obtain ⟨trail, _, known⟩ := at?_of_locate (locate_of_list listed).1
    exact (perm_sorted _ _).nodup_iff.mpr (distinct _ _ known)
  have fits : (Pattern.fits (name.toList.map Pattern.only) ·.toList) = fun other => decide (other = name) := by
    funext other
    rw [Pattern.fits_only, decide_eq_decide, String.toList_inj]
    exact eq_comm
  rw [fits, List.filter_eq, once.count]
  simp only [List.contains_iff_mem]
  split <;> rfl

/-- The step of an escaped name leads to that name or nowhere. -/
private theorem follow_named (distinct : tree.root.Distinct) (here : Waypoint) (name : String)
    (rest : List Step) :
    tree.follow here (Step.named name :: rest) =
      match tree.next here name with
      | .ok (some there) => tree.follow there rest
      | .ok none => []
      | .error fault => [.error fault] := by
  rw [Step.named_eq, next]
  by_cases wild : name.toList.any isWild = true
  · rw [if_pos wild, if_pos wild, follow, opened]
    split
    case isFalse => rfl
    case isTrue =>
      cases listed : tree.list here.path with
      | error cause => rfl
      | ok node =>
        simp only [Step.specials_named wild, filter_names distinct listed, List.flatMap_nil, List.nil_append]
        split <;> simp
  · rw [if_neg wild, if_neg wild, follow]
    dsimp only
    generalize (if name = "." || name = ".." then here.isFolder else tree.holds (inside here.path name)) = there
    cases there <;> rfl

/-- The search for a text comes to one path at most, or to a fault. -/
private theorem follow_escaped (distinct : tree.root.Distinct) (here : Waypoint) (segments : List String) :
    tree.follow here (segments.map Step.named) =
      match tree.walk here segments with
      | .ok (some there) => [.ok there.path]
      | .ok none => []
      | .error fault => [.error fault] := by
  induction segments generalizing here with
  | nil => rw [List.map_nil, follow, walk]
  | cons segment rest ih =>
    rw [List.map_cons, follow_named distinct, walk]
    cases tree.next here segment with
    | error fault => rfl
    | ok further =>
      cases further with
      | none => rfl
      | some there => exact ih there

/-- A directory on the way from a path along some names has to tell a name with a wildcard in it, and
cannot be listed. -/
structure Bars (tree : Tree) (path : FilePath) (segments : List String) (folder : FilePath) (cause : ReadFault) :
    Prop where
  wild : ∃ above name below, segments = above ++ name :: below ∧ name.toList.any isWild = true ∧
    folder = above.foldl inside path
  unlisted : tree.list folder = .error cause

private theorem path_of_next {here there : Waypoint} (went : tree.next here name = .ok (some there)) :
    there.path = inside here.path name := by
  unfold next at went
  split at went
  · split at went
    · split at went
      · split at went <;> cases went
        rfl
      · cases went
    · cases went
  · dsimp only at went
    generalize (if name = "." || name = ".." then here.isFolder else tree.holds (inside here.path name)) = there at went
    cases there <;> cases went
    rfl

private theorem path_of_walk {here there : Waypoint} (went : tree.walk here segments = .ok (some there)) :
    there.path = segments.foldl inside here.path := by
  induction segments generalizing here with
  | nil =>
    cases went
    rfl
  | cons segment rest ih =>
    rw [walk] at went
    split at went
    case h_1 further first => rw [ih went, path_of_next first, List.foldl_cons]
    case h_2 => cases went
    case h_3 => cases went

private theorem unlisted_of_next {here : Waypoint} {fault : SearchFault} (failed : tree.next here name = .error fault) :
    name.toList.any isWild = true ∧
      ∃ cause, fault = .unlisted here.path cause ∧ tree.list here.path = .error cause := by
  unfold next at failed
  split at failed
  case isTrue wild =>
    split at failed
    case isTrue =>
      split at failed
      case h_1 => cases failed
      case h_2 cause listed =>
        cases failed
        exact ⟨wild, cause, rfl, listed⟩
    case isFalse => cases failed
  case isFalse => cases failed

/-- Only a directory that has to be listed and cannot be stops a walk. -/
theorem bars_of_walk {here : Waypoint} {fault : SearchFault} (failed : tree.walk here segments = .error fault) :
    ∃ folder cause, fault = .unlisted folder cause ∧ tree.Bars here.path segments folder cause := by
  induction segments generalizing here with
  | nil => cases failed
  | cons segment rest ih =>
    rw [walk] at failed
    split at failed
    case h_1 further first =>
      obtain ⟨folder, cause, same, ⟨above, name, below, rfl, wild, whole⟩, unlisted⟩ := ih failed
      rw [path_of_next first] at whole
      exact ⟨folder, cause, same, ⟨segment :: above, name, below, rfl, wild, whole⟩, unlisted⟩
    case h_2 => cases failed
    case h_3 first =>
      cases failed
      obtain ⟨wild, cause, rfl, unlisted⟩ := unlisted_of_next first
      exact ⟨here.path, cause, rfl, ⟨[], segment, rest, rfl, wild, rfl⟩, unlisted⟩

/-- An empty segment stands in the working directory. -/
def blocked : List String → Bool
  | "." :: rest => blocked rest
  | segment :: _ => segment = ""
  | [] => false

/-- Segments that can follow a path one by one. -/
structure Passable (path : FilePath) (segments : List String) : Prop where
  stands : path.Stands
  slashless : ∀ segment ∈ segments, '/' ∉ segment.toList
  clear : path = ⟨"."⟩ → blocked segments = false

namespace Passable

variable {rest : List String}

private theorem apart (passable : Passable path (name :: rest)) (here : path = ⟨"."⟩) : name ≠ "" := by
  rintro rfl
  cases passable.clear here

private theorem head (passable : Passable path (name :: rest)) : '/' ∉ name.toList :=
  passable.slashless name List.mem_cons_self

private theorem tail (passable : Passable path (name :: rest)) : Passable (inside path name) rest where
  stands := stands_inside passable.stands passable.head passable.apart
  slashless := fun segment member => passable.slashless segment (List.mem_cons_of_mem name member)
  clear := by
    intro here
    rcases passable.stands with rfl | ⟨other, given⟩
    · cases here
      exact passable.clear rfl
    · rw [inside_of_isHere other] at here
      have behind := FilePath.isHere_join given passable.head other
      rw [here] at behind
      cases behind

end Passable

/-- No path leads on from the working directory by an empty segment. -/
private theorem walk_blocked {here : Waypoint} (home : here.path = ⟨"."⟩) (stuck : blocked segments = true) :
    tree.walk here segments = .ok none := by
  induction segments generalizing here with
  | nil => cases stuck
  | cons segment rest ih =>
    by_cases dot : segment = "."
    · subst dot
      rw [walk, next, if_neg (by decide), home]
      dsimp only
      generalize (if ("." = "." || "." = "..") then here.isFolder else _) = there
      cases there with
      | false => rfl
      | true => exact ih rfl stuck
    · have empty : segment = "" := by simpa [blocked, dot] using stuck
      subst empty
      rw [walk, next, home]
      rfl

private theorem find?_of_foldl {node : Node} (passable : Passable path segments)
    (found : tree.find? (segments.foldl inside path) = some node) : ∃ above, tree.find? path = some above := by
  induction segments generalizing path with
  | nil => exact ⟨node, found⟩
  | cons segment rest ih =>
    obtain ⟨further, there⟩ := ih passable.tail found
    obtain ⟨trail, _, above, _⟩ := find?_of_inside passable.stands passable.head passable.apart there
    exact ⟨_, above⟩

/-- A search does not miss that there is a directory. -/
def Sees (tree : Tree) (here : Waypoint) : Prop := tree.isFolder here.path = true → here.isFolder = true

private theorem proper_of_wild (wild : name.toList.any isWild = true) : isIdle name = false ∧ name ≠ ".." := by
  refine ⟨?_, by rintro rfl; cases wild⟩
  by_contra idle
  simp only [isIdle, Bool.not_eq_false, Bool.or_eq_true, decide_eq_true_eq] at idle
  rcases idle with rfl | rfl <;> cases wild

private theorem Sees.isFolder {here : Waypoint} {node : Node} (sees : tree.Sees here)
    (passable : Passable here.path (name :: segments)) (there : tree.find? (inside here.path name) = some node) :
    here.isFolder = true := by
  obtain ⟨trail, _, above, stepped, _⟩ := find?_of_inside passable.stands passable.head passable.apart there
  refine sees ?_
  rw [Tree.isFolder, above]
  exact Trail.isFolder_of_step stepped

/-- A search goes on to what is there, unless it has to list what cannot be listed. -/
private theorem next_of_found {here : Waypoint} {node : Node} {found : Option Waypoint} (sees : tree.Sees here)
    (passable : Passable here.path (name :: segments)) (there : tree.find? (inside here.path name) = some node)
    (went : tree.next here name = .ok found) : ∃ further, found = some further ∧ tree.Sees further := by
  obtain ⟨trail, after, above, stepped, same⟩ :=
    find?_of_inside passable.stands passable.head passable.apart there
  have folder := sees.isFolder passable there
  rw [next, if_pos folder] at went
  split at went
  case isTrue wild =>
    obtain ⟨proper, other⟩ := proper_of_wild wild
    obtain ⟨child, held, rfl⟩ := Trail.child_of_step proper other stepped
    split at went
    case h_1 listing listed =>
      obtain rfl : trail.node tree.root = listing := by
        have opened := (locate_of_find? above).symm.trans (locate_of_list listed).1
        exact Except.ok.inj opened
      have known := Node.mem_names held
      rw [if_pos (by simpa using known)] at went
      cases went
      refine ⟨_, rfl, fun kind => ?_⟩
      rw [told, held]
      rw [told, isFolder, there, ← same] at kind
      exact kind
    case h_2 => cases went
  case isFalse =>
    have goes : (if name = "." || name = ".." then here.isFolder else tree.holds (inside here.path name)) = true := by
      rw [folder, holds, there]
      split <;> rfl
    rw [goes] at went
    cases went
    exact ⟨_, rfl, id⟩

/-- What is there is found, each directory on the way being there too. -/
private theorem walk_of_found {here : Waypoint} {node : Node} {found : Option Waypoint} (sees : tree.Sees here)
    (passable : Passable here.path segments) (there : tree.find? (segments.foldl inside here.path) = some node)
    (went : tree.walk here segments = .ok found) : ∃ last, found = some last := by
  induction segments generalizing here with
  | nil => exact ⟨here, (Except.ok.inj went).symm⟩
  | cons segment rest ih =>
    obtain ⟨further, opens⟩ := find?_of_foldl passable.tail there
    rw [walk] at went
    split at went
    case h_1 last first =>
      obtain ⟨_, same, sees⟩ := next_of_found sees passable opens first
      cases same
      have path := path_of_next first
      exact ih sees (path ▸ passable.tail) (path ▸ there) went
    case h_2 first =>
      obtain ⟨_, missing, _⟩ := next_of_found sees passable opens first
      cases missing
    case h_3 => cases went

/-- On the way to what is there every directory is met, so one that bars it stops the walk. -/
private theorem clear_of_walk {here : Waypoint} {node : Node} {found : Option Waypoint} {cause : ReadFault}
    (sees : tree.Sees here) (passable : Passable here.path segments)
    (there : tree.find? (segments.foldl inside here.path) = some node)
    (went : tree.walk here segments = .ok found) : ¬ tree.Bars here.path segments folder cause := by
  rintro ⟨⟨above, name, below, split_up, wild, whole⟩, unlisted⟩
  induction above generalizing here segments with
  | nil =>
    subst split_up whole
    obtain ⟨further, opens⟩ := find?_of_foldl passable.tail there
    have stops : tree.next here name = .error (.unlisted here.path cause) := by
      rw [List.foldl_nil] at unlisted
      rw [next, if_pos wild, if_pos (sees.isFolder passable opens), unlisted]
    rw [List.nil_append, walk, stops] at went
    cases went
  | cons segment above ih =>
    subst split_up
    obtain ⟨further, opens⟩ := find?_of_foldl passable.tail there
    rw [List.cons_append, walk] at went
    split at went
    case h_1 last first =>
      obtain ⟨_, same, sees⟩ := next_of_found sees passable opens first
      cases same
      have path := path_of_next first
      exact ih sees (path ▸ passable.tail) (path ▸ there) went rfl (path ▸ whole)
    case h_2 first =>
      obtain ⟨_, missing, _⟩ := next_of_found sees passable opens first
      cases missing
    case h_3 => cases went

/-- The path that a search for an escaped text may find. -/
def spelled (path : FilePath) : FilePath := path.segments.foldl inside (start path)

private theorem stands_start (path : FilePath) : (start path).Stands := by
  unfold start
  split
  · exact .inr (by decide)
  · exact .inl rfl

/-- An empty segment stands in the working directory from which a path starts. -/
def stuck (path : FilePath) : Bool := !path.isAbsolute && blocked path.segments

private theorem passable_start (free : stuck path = false) : Passable (start path) path.segments where
  stands := stands_start path
  slashless := fun _ => FilePath.slash_notMem_of_mem_segments
  clear := by
    intro here
    by_contra blocks
    have relative : path.isAbsolute = false := by
      by_contra absolute
      rw [start, if_pos (Bool.of_not_eq_false absolute)] at here
      exact absurd here (by decide)
    simp [stuck, relative, Bool.of_not_eq_false blocks] at free

theorem walk_of_stuck (stops : stuck path = true) :
    tree.walk (tree.waypoint (start path)) path.segments = .ok none := by
  simp only [stuck, Bool.and_eq_true, Bool.not_eq_true'] at stops
  have home : start path = ⟨"."⟩ := by rw [start, stops.1]; rfl
  exact walk_blocked home stops.2

private theorem sees_waypoint (path : FilePath) : tree.Sees (tree.waypoint path) := fun kind => kind

theorem not_bars_of_walk {found : Option Waypoint} {cause : ReadFault} (free : stuck path = false)
    (file : tree.isFile (spelled path) = true)
    (walked : tree.walk (tree.waypoint (start path)) path.segments = .ok found) :
    ¬ tree.Bars (start path) path.segments folder cause := by
  obtain ⟨node, there, _⟩ := isFile_iff.mp file
  exact clear_of_walk (sees_waypoint (start path)) (passable_start free) there walked

/-- A walk that no directory stops comes to the file that is spelled, if one is there and no empty segment
stands in the working directory. -/
private theorem file_of_walk {found : Option Waypoint}
    (walked : tree.walk (tree.waypoint (start path)) path.segments = .ok found) :
    (found.toList.map Waypoint.path).filter tree.isFile =
      if !stuck path && tree.isFile (spelled path) then [spelled path] else [] := by
  cases found with
  | none =>
    split
    case isTrue file =>
      simp only [Bool.and_eq_true, Bool.not_eq_true'] at file
      obtain ⟨node, there, _⟩ := isFile_iff.mp file.2
      have missed := walk_of_found (sees_waypoint (start path)) (passable_start file.1) there walked
      simp at missed
    case isFalse => rfl
  | some last =>
    have whole : last.path = spelled path := path_of_walk walked
    have free : stuck path = false := by
      by_contra stops
      rw [walk_of_stuck (Bool.of_not_eq_false stops)] at walked
      cases walked
    simp only [Option.toList_some, List.map_cons, List.map_nil, whole, free, Bool.not_false, Bool.true_and,
      List.filter_cons, List.filter_nil]

/-- The search for an escaped text finds the file that the text spells, if there is one and no empty
segment stands in the working directory, and nothing else. It fails as the walk along the segments does. -/
theorem search_escape (distinct : tree.root.Distinct) (last : path.segments.getLast? ≠ some "") :
    tree.search ⟨Pattern.escape path.text⟩ =
      match tree.walk (tree.waypoint (start path)) path.segments with
      | .ok _ => .ok (if !stuck path && tree.isFile (spelled path) then [spelled path] else [])
      | .error fault => .error fault := by
  have ends : ¬ (FilePath.mk (Pattern.escape path.text)).text.toList.getLast? == some '/' := by
    rw [beq_iff_eq]
    exact mt FilePath.getLast?_segments (FilePath.getLast?_segments_escape last)
  have begins : start ⟨Pattern.escape path.text⟩ = start path := by
    rw [start, Pattern.isAbsolute_escape, start]
  rw [search, steps_escape last, begins]
  simp only [Except.mapError, bind, Except.bind, follow_escaped distinct, if_neg ends]
  cases walked : tree.walk (tree.waypoint (start path)) path.segments with
  | error fault => rfl
  | ok found =>
    have sorting : sorted FilePath.le ((found.toList.map Waypoint.path).filter tree.isFile) =
        if !stuck path && tree.isFile (spelled path) then [spelled path] else [] := by
      rw [file_of_walk walked]
      split <;> rfl
    cases found <;> exact congrArg Except.ok sorting

private theorem resolve_foldl_inside (passable : Passable path segments) :
    tree.resolve (segments.foldl inside path) =
    tree.resolve path >>= fun trail => segments.foldlM (Trail.step tree.root) trail := by
  induction segments generalizing path with
  | nil =>
    simp only [List.foldl_nil, List.foldlM_nil]
    exact (bind_pure (tree.resolve path)).symm
  | cons segment rest ih =>
    rw [List.foldl_cons, ih passable.tail, resolve_inside passable.stands passable.head passable.apart]
    simp only [bind_assoc, List.foldlM_cons]

private theorem mem_foldl_inside {c : Char} (passable : Passable path segments) (slash : c ≠ '/')
    (dot : c ≠ '.') :
    c ∈ (segments.foldl inside path).text.toList ↔
      c ∈ path.text.toList ∨ ∃ segment ∈ segments, c ∈ segment.toList := by
  induction segments generalizing path with
  | nil => simp
  | cons segment rest ih =>
    have here : c ∈ (inside path segment).text.toList ↔ c ∈ path.text.toList ∨ c ∈ segment.toList := by
      rcases passable.stands with rfl | ⟨other, given⟩
      · simp [inside_here, dot]
      · obtain ⟨between, known, text⟩ := FilePath.text_join given passable.head
        rw [inside_of_isHere other, text]
        rcases known with rfl | rfl <;> simp [slash]
    rw [List.foldl_cons, ih passable.tail, here]
    simp [or_assoc]

private theorem size_foldl_inside (passable : Passable path segments) :
    (segments.foldl inside path).text.utf8ByteSize ≤
    path.text.utf8ByteSize + (segments.map fun segment => segment.utf8ByteSize + 1).sum := by
  induction segments generalizing path with
  | nil => simp
  | cons segment rest ih =>
    have here : (inside path segment).text.utf8ByteSize ≤ path.text.utf8ByteSize + (segment.utf8ByteSize + 1) := by
      rcases passable.stands with rfl | ⟨other, given⟩
      · simp [inside_here]
        omega
      · obtain ⟨between, known, text⟩ := FilePath.text_join given passable.head
        rw [inside_of_isHere other, text, String.utf8ByteSize_append, String.utf8ByteSize_append]
        have short : between.utf8ByteSize ≤ 1 := by rcases known with rfl | rfl <;> decide
        omega
    have further := ih passable.tail
    rw [List.foldl_cons, List.map_cons, List.sum_cons]
    omega

/-- Two paths lead to the same, and what the second one opens the first one does too. -/
structure Shortens (tree : Tree) (path other : FilePath) : Prop where
  resolve : tree.resolve path = tree.resolve other
  nul : '\x00' ∈ path.text.toList ↔ '\x00' ∈ other.text.toList
  size : path.text.utf8ByteSize ≤ other.text.utf8ByteSize

namespace Shortens

variable {other third : FilePath}

theorem trans (first : tree.Shortens path other) (second : tree.Shortens other third) : tree.Shortens path third where
  resolve := first.resolve.trans second.resolve
  nul := first.nul.trans second.nul
  size := Nat.le_trans first.size second.size

private theorem find? {node : Node} (shortens : tree.Shortens path other)
    (found : tree.find? other = some node) :
    tree.find? path = some node := by
  obtain ⟨nul, short, there⟩ := find?_eq_some_iff.mp found
  have small := Nat.lt_of_le_of_lt shortens.size short
  exact find?_eq_some_iff.mpr ⟨mt shortens.nul.mp nul, small, shortens.resolve ▸ there⟩

/-- Only a path that is too long may not open what the shorter one does. -/
private theorem find?_of_lt {node : Node} (shortens : tree.Shortens path other)
    (short : other.text.utf8ByteSize < 4096)
    (found : tree.find? path = some node) : tree.find? other = some node := by
  obtain ⟨nul, _, there⟩ := find?_eq_some_iff.mp found
  exact find?_eq_some_iff.mpr ⟨mt shortens.nul.mpr nul, short, shortens.resolve ▸ there⟩

theorem isFile (shortens : tree.Shortens path other) (file : tree.isFile other = true) : tree.isFile path = true ∧
    tree.read path = tree.read other ∧ tree.identity path = tree.identity other := by
  obtain ⟨node, found, kind⟩ := isFile_iff.mp file
  have known := shortens.find? found
  refine ⟨isFile_iff.mpr ⟨node, known, kind⟩, ?_, identity_of_resolve shortens.resolve file⟩
  rw [read, read, locate_of_find? known, locate_of_find? found]

/-- Only where the second path is too long, the first one may open a file that the second does not. -/
theorem isFile_of_lt (shortens : tree.Shortens path other) (file : tree.isFile path = true) :
    tree.isFile other = true ∨ 4096 ≤ other.text.utf8ByteSize := by
  obtain ⟨node, found, kind⟩ := isFile_iff.mp file
  refine (Nat.lt_or_ge other.text.utf8ByteSize 4096).imp_left fun short => ?_
  exact isFile_iff.mpr ⟨node, shortens.find?_of_lt short found, kind⟩

end Shortens

theorem resolve_congr {other : FilePath} {front others : List String} {final : String} (given : path.text ≠ "")
    (given' : other.text ≠ "") (start : path.isAbsolute = other.isAbsolute) (named : final ≠ "")
    (first : path.segments = front ++ [final]) (second : other.segments = others ++ [final])
    (busy : front.filter (!isIdle ·) = others.filter (!isIdle ·)) : tree.resolve path = tree.resolve other := by
  rw [resolve_eq given, resolve_eq given', start, first, second]
  rw [List.foldlM_append, List.foldlM_append, funext (Trail.foldlM_step_busy front named),
    funext (Trail.foldlM_step_busy others named), busy]

/-- The path that is found leads to what the text itself leads to. -/
theorem shortens_spelled (given : path.text ≠ "") (last : path.segments.getLast? ≠ some "")
    (free : stuck path = false) : tree.Shortens (spelled path) path where
  resolve := by
    obtain ⟨front, final, whole⟩ := (List.eq_nil_or_concat path.segments).resolve_left path.segments_ne_nil
    rw [List.concat_eq_append] at whole
    have named : final ≠ "" := by
      rintro rfl
      exact last (by rw [whole, List.getLast?_concat])
    obtain ⟨idle, still, first⟩ : ∃ idle, isIdle idle = true ∧ tree.resolve (start path) =
        ((if path.isAbsolute then [] else tree.current) ++ [idle]).foldlM (Trail.step tree.root) [] := by
      by_cases absolute : path.isAbsolute
      · exact ⟨"", rfl, by rw [start, if_pos absolute, if_pos absolute]; rfl⟩
      · exact ⟨".", rfl, by rw [start, if_neg absolute, if_neg absolute]; rfl⟩
    have busy : (idle :: front).filter (!isIdle ·) = front.filter (!isIdle ·) := by
      rw [List.filter_cons_of_neg (by simp [still])]
    rw [spelled, resolve_foldl_inside (passable_start free), first, resolve_eq given, whole]
    generalize (if path.isAbsolute then [] else tree.current) = above
    calc (above ++ [idle]).foldlM (Trail.step tree.root) [] >>= (front ++ [final]).foldlM (Trail.step tree.root)
        = above.foldlM (Trail.step tree.root) [] >>= ((idle :: front) ++ [final]).foldlM (Trail.step tree.root) := by
          simp only [List.foldlM_append, List.foldlM_cons, List.foldlM_nil, List.cons_append, bind_assoc, bind_pure]
      _ = above.foldlM (Trail.step tree.root) [] >>= (front ++ [final]).foldlM (Trail.step tree.root) := by
          rw [funext (Trail.foldlM_step_busy (idle :: front) named), funext (Trail.foldlM_step_busy front named), busy]
      _ = (above ++ (front ++ [final])).foldlM (Trail.step tree.root) [] := List.foldlM_append.symm
  nul := by
    have clean : '\x00' ∉ (start path).text.toList := by
      unfold start
      split <;> decide
    exact (mem_foldl_inside (passable_start free) (by decide) (by decide)).trans
      ((or_iff_right clean).trans (FilePath.mem_iff_mem_segments (by decide)).symm)
  size := by
    obtain ⟨segment, rest, whole⟩ := List.exists_cons_of_ne_nil path.segments_ne_nil
    have passable := passable_start free
    rw [whole] at passable
    have first : (inside (start path) segment).text.utf8ByteSize + (if path.isAbsolute then 0 else 1) =
        segment.utf8ByteSize + 1 := by
      by_cases absolute : path.isAbsolute
      · have text : inside (start path) segment = ⟨"/" ++ segment⟩ := by
          rw [start, if_pos absolute, inside_of_isHere (by decide), FilePath.join_eq (by decide) passable.head]
          rfl
        have slash : "/".utf8ByteSize = 1 := rfl
        rw [text, if_pos absolute, String.utf8ByteSize_append, slash]
        omega
      · rw [start, if_neg absolute, if_neg absolute, inside_here]
    have further := size_foldl_inside passable.tail
    have sizes := path.size_segments
    rw [whole, List.map_cons, List.sum_cons] at sizes
    rw [spelled, whole, List.foldl_cons]
    omega

end Tree
end Hocon.Files
