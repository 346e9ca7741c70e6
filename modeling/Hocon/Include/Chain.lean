/-! Chains of what is being included. Each step of an include adds a key that was not in
the chain before, so among finitely many keys chains cannot grow without end. -/
namespace Hocon.Include

variable {α β : Type}

/-- How many entries of a table are still outside a chain. -/
def outside [DecidableEq α] (table : List (α × β)) (chain : List α) : Nat :=
  table.countP fun entry => entry.1 ∉ chain

theorem outside_cons_lt [DecidableEq α] {table : List (α × β)} {chain : List α} {key : α} {value : β}
    (held : (key, value) ∈ table) (fresh : key ∉ chain) :
    outside table (key :: chain) < outside table chain := by
  induction table with
  | nil => simp at held
  | cons entry rest ih =>
    have others : outside rest (key :: chain) ≤ outside rest chain :=
      List.countP_mono_left fun entry _ => by simp
    have step : ∀ chain : List α, outside (entry :: rest) chain =
        outside rest chain + if entry.1 ∉ chain then 1 else 0 := fun chain => by
      simp [outside, List.countP_cons]
    rw [step, step]
    rcases List.mem_cons.mp held with rfl | later
    · simp [fresh]; omega
    · have smaller := ih later
      by_cases same : entry.1 = key <;> by_cases kept : entry.1 ∈ chain <;> simp [same, kept] <;> omega

theorem mem_of_lookup [BEq α] [LawfulBEq α] {table : List (α × β)} {key : α} {value : β}
    (found : table.lookup key = some value) : (key, value) ∈ table := by
  obtain ⟨before, after, whole, _⟩ := List.lookup_eq_some_iff.mp found
  rw [whole]
  exact List.mem_append_right before List.mem_cons_self

end Hocon.Include
