import Hocon.Document
import Hocon.Include.Chain

namespace Hocon.Include

inductive Held where
  | text (content : String)
  | root (root : Root)
deriving Inhabited

abbrev Table := List (String × Held)

/-- Answer from the table, with the patterns of the `chain` being included. A pattern
that is not there stands for the empty document, if no document is required. -/
def Table.includer (table : Table) (chain : List String) : Includer := fun directive =>
  match _held : table.lookup directive.pattern with
  | none => if directive.required then throw (.notInTable directive.pattern) else pure .empty
  | some (.root root) => pure root
  | some (.text content) =>
    if _fresh : directive.pattern ∈ chain then throw (.includeCycle directive.pattern)
    else return (← parse (Table.includer table (directive.pattern :: chain)) content).root
termination_by outside table chain
decreasing_by exact outside_cons_lt (mem_of_lookup _held) _fresh

end Hocon.Include
