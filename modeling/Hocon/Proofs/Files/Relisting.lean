import Hocon.Include.Chain
import Hocon.Proofs.Files.Ordering

namespace Hocon.Files

/-- The same node, but for the order in which directories tell what they hold. None holds a name twice. -/
inductive Node.Relisted : Node → Node → Prop where
  | regular (content : ByteArray) (readable : Bool) : Relisted (.regular content readable) (.regular content readable)
  | directory {held other : List (String × Node)} (access : Access) (once : (held.map Prod.fst).Nodup)
      (names : (held.map Prod.fst).Perm (other.map Prod.fst))
      (within : ∀ {name child image}, held.lookup name = some child → other.lookup name = some image →
        Relisted child image) : Relisted (.directory held access) (.directory other access)

private theorem filterMap_lookup {β : Type} {held : List (String × Node)} (once : (held.map Prod.fst).Nodup)
    (f : String × Node → β) :
    ((held.map Prod.fst).filterMap fun name => (held.lookup name).map fun child => f (name, child)) = held.map f := by
  induction held with
  | nil => rfl
  | cons entry rest ih =>
    obtain ⟨first, child⟩ := entry
    obtain ⟨fresh, once⟩ := List.nodup_cons.mp once
    have here : (((first, child) :: rest).lookup first).map (fun child => f (first, child)) = some (f (first, child)) := by
      rw [List.lookup_cons_self, Option.map_some]
    have behind : ∀ name ∈ rest.map Prod.fst, ((first, child) :: rest).lookup name = rest.lookup name := by
      intro name member
      have apart : (name == first) = false := by simpa using ne_of_mem_of_not_mem member fresh
      rw [List.lookup_cons, apart]
    simp only [List.map_cons, List.filterMap_cons, here, ← ih once]
    exact congrArg _ (List.filterMap_congr fun name member => by rw [behind name member])

theorem lookup_isSome_iff {held : List (String × Node)} {name : String} :
    (held.lookup name).isSome = true ↔ name ∈ held.map Prod.fst := by
  rw [List.lookup_isSome_iff, List.mem_map]
  exact exists_congr fun entry => and_congr_right fun _ => beq_iff_eq.trans eq_comm

private theorem lookup_rel {related : Node → Node → Prop} {held other : List (String × Node)}
    (names : (held.map Prod.fst).Perm (other.map Prod.fst)) (name : String)
    (within : ∀ {child image}, held.lookup name = some child → other.lookup name = some image → related child image) :
    Option.Rel related (held.lookup name) (other.lookup name) := by
  have both := lookup_isSome_iff.trans ((names.mem_iff (a := name)).trans lookup_isSome_iff.symm)
  cases first : held.lookup name with
  | none =>
    cases second : other.lookup name with
    | none => exact .none
    | some found => simp [first, second] at both
  | some child =>
    cases second : other.lookup name with
    | none => simp [first, second] at both
    | some found => exact .some (within first second)

/-- What is made of each name and what is held there is the same in some order, if it is so name by name. -/
private theorem map_perm {β : Type} {held other : List (String × Node)} {f g : String × Node → β}
    (once : (held.map Prod.fst).Nodup) (names : (held.map Prod.fst).Perm (other.map Prod.fst))
    (same : ∀ {name child image}, held.lookup name = some child → other.lookup name = some image →
      f (name, child) = g (name, image)) : (held.map f).Perm (other.map g) := by
  rw [← filterMap_lookup once f, ← filterMap_lookup (names.nodup_iff.mp once) g]
  have alike : ∀ name ∈ held.map Prod.fst, ((held.lookup name).map fun child => f (name, child)) =
      (other.lookup name).map fun child => g (name, child) := by
    intro name _
    have related := lookup_rel names name same
    generalize held.lookup name = child, other.lookup name = image at related ⊢
    cases related with
    | none => rfl
    | some equal => exact congrArg some equal
  rw [List.filterMap_congr alike]
  exact names.filterMap _

namespace Node.Relisted

variable {node image : Node}

/-- A directory may tell what it holds in any order. -/
theorem of_perm {held other : List (String × Node)} (access : Access) (once : (held.map Prod.fst).Nodup)
    (perm : held.Perm other) (each : ∀ entry ∈ held, entry.2.Relisted entry.2) :
    Relisted (.directory held access) (.directory other access) := by
  refine .directory access once (perm.map Prod.fst) fun {name child image} first second => ?_
  have here := Include.mem_of_lookup first
  have there := perm.mem_iff.mpr (Include.mem_of_lookup second)
  cases List.inj_on_of_nodup_map once here there rfl
  exact each _ here

private theorem isFolder (relisted : Relisted node image) : image.isFolder = node.isFolder := by
  cases relisted <;> rfl

private theorem access (relisted : Relisted node image) : image.access = node.access := by
  cases relisted <;> rfl

private theorem child? (relisted : Relisted node image) (name : String) :
    Option.Rel Relisted (node.child? name) (image.child? name) := by
  cases relisted with
  | regular => exact .none
  | directory access once names within => exact lookup_rel names name within

private theorem names (relisted : Relisted node image) : image.names = node.names := by
  cases relisted with
  | regular => rfl
  | directory access once names within =>
    exact (sorted_eq_of_names id (by rwa [List.map_id]) names).symm

private theorem told (relisted : Relisted node image) (path : FilePath) (name : String) :
    Tree.told path image name = Tree.told path node name := by
  have held := relisted.child? name
  unfold Tree.told
  generalize node.child? name = child, image.child? name = found at held
  cases held with
  | none => rfl
  | some same => exact congrArg (Waypoint.mk (Tree.inside path name)) same.isFolder

end Node.Relisted

/-- Two attempts fail for the same cause, or end in what is related. -/
inductive Alike {α β : Type} (related : α → β → Prop) : Except ReadFault α → Except ReadFault β → Prop where
  | error (cause : ReadFault) : Alike related (.error cause) (.error cause)
  | ok {value : α} {image : β} (same : related value image) : Alike related (.ok value) (.ok image)

/-- The same names, and at each of them the same node but for the order of listings. -/
def Trail.Relisted (trail image : Trail) : Prop :=
  List.Forall₂ (fun entry other => entry.1 = other.1 ∧ entry.2.Relisted other.2) trail image

namespace Trail

variable {root other : Node} {trail image : Trail}

private theorem Relisted.node (relisted : Relisted trail image) (roots : root.Relisted other) :
    (trail.node root).Relisted (image.node other) := by
  cases relisted with
  | nil => exact roots
  | cons same => exact same.2

private theorem Relisted.place (relisted : Relisted trail image) : image.place = trail.place := by
  have names : image.map Prod.fst = trail.map Prod.fst := by
    induction relisted with
    | nil => rfl
    | cons same _ ih => exact congrArg₂ List.cons same.1.symm ih
  rw [Trail.place, Trail.place, names]

private theorem Relisted.step (relisted : Relisted trail image) (roots : root.Relisted other)
    (segment : String) :
    Alike Relisted (trail.step root segment) (image.step other segment) := by
  have here := relisted.node roots
  unfold Trail.step
  rw [here.isFolder, here.access]
  split
  · exact .error _
  split
  · exact .ok relisted
  split
  · exact .error _
  split
  · exact .ok relisted
  split
  · refine .ok ?_
    cases relisted with
    | nil => exact .nil
    | cons _ above => exact above
  split
  · exact .error _
  · have held := here.child? segment
    generalize (trail.node root).child? segment = child, (image.node other).child? segment = found at held
    cases held with
    | none => exact .error _
    | some same => exact .ok (.cons ⟨rfl, same⟩ relisted)

private theorem Relisted.foldlM_step (relisted : Relisted trail image) (roots : root.Relisted other)
    (segments : List String) :
    Alike Relisted (segments.foldlM (Trail.step root) trail) (segments.foldlM (Trail.step other) image) := by
  induction segments generalizing trail image with
  | nil => exact .ok relisted
  | cons segment rest ih =>
    have first := relisted.step roots segment
    rw [List.foldlM_cons, List.foldlM_cons]
    generalize trail.step root segment = next, image.step other segment = found at first
    cases first with
    | error cause => exact .error cause
    | ok same => exact ih same

end Trail

private theorem Tree.everywhereHeld_eq (tree : Tree) (path : FilePath) (held : List (String × Node)) :
    tree.everywhereHeld path held = held.map fun entry =>
      let here : Waypoint := ⟨Tree.inside path entry.1, entry.2.isFolder⟩
      (entry.1, .ok (entry.1, here) :: tree.opened here fun _ => tree.everywhere here.path entry.2) := by
  induction held with
  | nil => rfl
  | cons entry rest ih => exact congrArg (_ :: ·) ih

/-- The same files and directories, each of which may tell what it holds in another order. -/
structure Tree.Relisted (tree other : Tree) : Prop where
  root : tree.root.Relisted other.root
  current : other.current = tree.current

namespace Tree.Relisted

variable {tree other : Tree}

private theorem resolve (relisted : Relisted tree other) (path : FilePath) :
    Alike Trail.Relisted (tree.resolve path) (other.resolve path) := by
  unfold Tree.resolve
  split
  · exact .error _
  · rw [relisted.current]
    exact Trail.Relisted.foldlM_step .nil relisted.root _

theorem identity (relisted : Relisted tree other) (path : FilePath) : other.identity path = tree.identity path := by
  have walked := relisted.resolve path
  unfold Tree.identity
  generalize tree.resolve path = trail, other.resolve path = image at walked
  cases walked with
  | error cause => rfl
  | ok same => exact congrArg (fun place => Component.root :: place.map .name) same.place

private theorem locate (relisted : Relisted tree other) (path : FilePath) :
    Alike Node.Relisted (tree.locate path) (other.locate path) := by
  unfold Tree.locate
  split
  · exact .error _
  · split
    · exact .error _
    · have walked := relisted.resolve path
      generalize tree.resolve path = trail, other.resolve path = image at walked
      cases walked with
      | error cause => exact .error cause
      | ok same => exact .ok (same.node relisted.root)

theorem read (relisted : Relisted tree other) (path : FilePath) : other.read path = tree.read path := by
  have found := relisted.locate path
  unfold Tree.read
  generalize tree.locate path = node, other.locate path = image at found
  cases found with
  | error cause => rfl
  | ok same => cases same <;> rfl

private theorem find? (relisted : Relisted tree other) (path : FilePath) :
    Option.Rel Node.Relisted (tree.find? path) (other.find? path) := by
  have found := relisted.locate path
  unfold Tree.find?
  generalize tree.locate path = node, other.locate path = image at found
  cases found with
  | error cause => exact .none
  | ok same => exact .some same

private theorem holds (relisted : Relisted tree other) (path : FilePath) :
    other.holds path = tree.holds path := by
  have found := relisted.find? path
  unfold Tree.holds
  generalize tree.find? path = node, other.find? path = image at found
  cases found <;> rfl

private theorem any_find? (relisted : Relisted tree other) {kind : Node → Bool}
    (same : ∀ {node image}, Node.Relisted node image → kind image = kind node) (path : FilePath) :
    (other.find? path).any kind = (tree.find? path).any kind := by
  have found := relisted.find? path
  generalize tree.find? path = node, other.find? path = image at found
  cases found with
  | none => rfl
  | some alike => exact same alike

private theorem isFolder (relisted : Relisted tree other) (path : FilePath) :
    other.isFolder path = tree.isFolder path :=
  relisted.any_find? Node.Relisted.isFolder path

private theorem isFile (relisted : Relisted tree other) (path : FilePath) :
    other.isFile path = tree.isFile path :=
  relisted.any_find? (fun same => congrArg (!·) same.isFolder) path

private theorem waypoint (relisted : Relisted tree other) (path : FilePath) :
    other.waypoint path = tree.waypoint path :=
  congrArg (Waypoint.mk path) (relisted.isFolder path)

private theorem list (relisted : Relisted tree other) (path : FilePath) :
    Alike Node.Relisted (tree.list path) (other.list path) := by
  have found := relisted.locate path
  unfold Tree.list
  generalize tree.locate path = node, other.locate path = image at found
  cases found with
  | error cause => exact .error cause
  | @ok node image same =>
    change Alike _ (if _ then _ else _) (if _ then _ else _)
    rw [same.isFolder, same.access]
    split
    · exact .error _
    split
    · exact .error _
    · exact .ok same

/-- A directory is listed or not, and what is done with it then does not depend on its order. -/
private theorem opened {α : Type} (relisted : Relisted tree other) (here : Waypoint)
    {further again : Node → List (Except SearchFault α)}
    (same : ∀ {node image}, Node.Relisted node image → again image = further node) :
    other.opened here again = tree.opened here further := by
  have listed := relisted.list here.path
  unfold Tree.opened
  generalize tree.list here.path = node, other.list here.path = image at listed
  cases listed with
  | error cause => rfl
  | ok alike => simp only [same alike]

private theorem everywhere (relisted : Relisted tree other) {node image : Node}
    (same : Node.Relisted node image)
    (path : FilePath) : other.everywhere path image = tree.everywhere path node := by
  induction same generalizing path with
  | regular => rfl
  | @directory held others access once names within ih =>
    have perm : (tree.everywhereHeld path held).Perm (other.everywhereHeld path others) := by
      rw [Tree.everywhereHeld_eq, Tree.everywhereHeld_eq]
      refine map_perm once names fun {name child image} first second => ?_
      have kind := (within first second).isFolder
      have below := ih first second (Tree.inside path name)
      simp only [kind, below, relisted.opened _ fun _ => rfl]
    have distinct : ((tree.everywhereHeld path held).map Prod.fst).Nodup := by
      rw [Tree.everywhereHeld_eq, List.map_map]
      exact once
    rw [Tree.everywhere, Tree.everywhere, sorted_eq_of_names Prod.fst distinct perm]

/-- The steps of a pattern lead to the same paths, in the same order. -/
private theorem follow (relisted : Relisted tree other) (here : Waypoint) (steps : List Step) :
    other.follow here steps = tree.follow here steps := by
  match steps with
  | [] => rw [Tree.follow, Tree.follow]
  | .literal name :: rest =>
    have further (place : Waypoint) := relisted.follow place rest
    simp only [Tree.follow, relisted.waypoint, relisted.holds, further]
  | .fitting pattern :: rest =>
    have further (place : Waypoint) := relisted.follow place rest
    rw [Tree.follow, Tree.follow]
    refine relisted.opened here fun {node image} same => ?_
    simp only [same.names, same.told, relisted.waypoint, further]
  | .anyDepth :: .anyDepth :: rest =>
    rw [Tree.follow, Tree.follow]
    exact relisted.follow here (.anyDepth :: rest)
  | [.anyDepth] =>
    simp only [Tree.follow]
    exact relisted.opened here fun {node image} same => by simp only [relisted.everywhere same]
  | .anyDepth :: .literal name :: rest | .anyDepth :: .fitting pattern :: rest =>
    have further (place : Waypoint) := relisted.follow place rest
    simp only [Tree.follow]
    refine relisted.opened here fun {node image} same => ?_
    simp only [relisted.everywhere same, further]
termination_by steps.length

theorem search (relisted : Relisted tree other) (pattern : FilePath) : other.search pattern = tree.search pattern := by
  have files : other.isFile = tree.isFile := funext relisted.isFile
  unfold Tree.search
  simp only [relisted.follow, relisted.waypoint, files]

end Tree.Relisted

end Hocon.Files
