import Hocon.Files.Node

/-! Walking through directories. A trail holds the nodes on the way down from the root, so
that a step costs no second walk, and what a trail has led to lies at its place. -/
namespace Hocon.Files

/-- Why a file cannot be read as text. -/
inductive ReadFault where
  | notFound
  | denied
  | notFolder
  | isFolder
  | nameTooLong
  | nulInName
  | notText
deriving DecidableEq, Inhabited, Repr

def ReadFault.message : ReadFault → String
  | .notFound => "No such file or directory (os error 2)"
  | .denied => "Permission denied (os error 13)"
  | .notFolder => "Not a directory (os error 20)"
  | .isFolder => "Is a directory (os error 21)"
  | .nameTooLong => "File name too long (os error 36)"
  | .nulInName => "file name contained an unexpected NUL byte"
  | .notText => "stream did not contain valid UTF-8"

/-- The names that were followed from the root, each with the node it led to, the latest
first. -/
abbrev Trail := List (String × Node)

namespace Trail

/-- Where a trail from a root has led. -/
def node (root : Node) : Trail → Node
  | [] => root
  | (_, node) :: _ => node

def place (trail : Trail) : Location := (trail.map Prod.fst).reverse

/-- One segment of a path, followed from where the trail has led. A slash alone only asks for a
directory there; any name, the dots among them, goes through it. -/
def step (root : Node) (trail : Trail) (segment : String) : Except ReadFault Trail :=
  if !(trail.node root).isFolder then .error .notFolder
  else if segment = "" then .ok trail
  else if !(trail.node root).access.enters then .error .denied
  else if segment = "." then .ok trail
  else if segment = ".." then .ok trail.tail
  else if segment.utf8ByteSize > 255 then .error .nameTooLong
  else match (trail.node root).child? segment with
    | some child => .ok ((segment, child) :: trail)
    | none => .error .notFound

/-- Each name of the trail is held by the node that the names before it led to. -/
def Leads (root : Node) : Trail → Prop
  | [] => True
  | (name, child) :: above => (node root above).child? name = some child ∧ Leads root above

variable {root : Node} {trail next : Trail}

theorem Leads.tail (leads : Leads root trail) : Leads root trail.tail := by
  cases trail with
  | nil => exact leads
  | cons _ above => exact leads.2

theorem Leads.step {segment : String} (leads : Leads root trail)
    (done : trail.step root segment = .ok next) : Leads root next := by
  unfold Trail.step at done
  split at done
  · cases done
  split at done
  · cases done; exact leads
  split at done
  · cases done
  split at done
  · cases done; exact leads
  split at done
  · cases done; exact leads.tail
  split at done
  · cases done
  split at done
  · rename_i child held
    cases done
    exact ⟨held, leads⟩
  · cases done

theorem Leads.foldlM_step {segments : List String} (leads : Leads root trail)
    (done : segments.foldlM (Trail.step root) trail = .ok next) : Leads root next := by
  induction segments generalizing trail with
  | nil => cases done; exact leads
  | cons segment rest ih =>
    rw [List.foldlM_cons] at done
    cases first : trail.step root segment with
    | error cause => rw [first] at done; cases done
    | ok further => rw [first] at done; exact ih (leads.step first) done

theorem Leads.at?_place (leads : Leads root trail) : root.at? trail.place = some (trail.node root) := by
  induction trail with
  | nil => rfl
  | cons entry above ih =>
    have here : place (entry :: above) = place above ++ [entry.1] := by simp [place]
    rw [here, Node.at?_append, ih leads.2, Option.bind_some, Node.at?, leads.1]
    rfl

end Trail
end Hocon.Files
