import Hocon.Proofs.Resolution.Dependency

/-! What is recorded while references are resolved. A reference is recorded once, after
all that it waits for; so the records are a part of every meaning that fits the document,
and none of them is on a cycle. -/
namespace Hocon

/-- The meaning that records give to references; what is not recorded stands for nothing. -/
def Memo.meaning (memo : Memo) : Meaning := fun reference => (memo.lookup reference.id).join

theorem Memo.meaning_of_lookup {memo : Memo} {reference : Reference} {result : Option Value}
    (known : memo.lookup reference.id = some result) : memo.meaning reference = result := by
  simp [Memo.meaning, known]

/-- Records keep what is known, and add only numbers that are allowed. -/
structure Memo.Growth (before after : Memo) (allowed : List Nat) : Prop where
  keeps : ∀ id result, before.lookup id = some result → after.lookup id = some result
  confined : ∀ id, before.lookup id = none → id ∉ allowed → after.lookup id = none

namespace Memo.Growth

theorem refl (memo : Memo) (allowed : List Nat) : Growth memo memo allowed :=
  ⟨fun _ _ known => known, fun _ absent _ => absent⟩

theorem trans {before middle after : Memo} {allowed : List Nat}
    (first : Growth before middle allowed) (second : Growth middle after allowed) :
    Growth before after allowed :=
  ⟨fun id result known => second.keeps id result (first.keeps id result known),
    fun id absent outside => second.confined id (first.confined id absent outside) outside⟩

theorem weaken {before after : Memo} {allowed larger : List Nat} (growth : Growth before after allowed)
    (subset : allowed ⊆ larger) : Growth before after larger :=
  ⟨growth.keeps, fun id absent outside =>
    growth.confined id absent (fun member => outside (subset member))⟩

theorem insert {memo : Memo} {allowed : List Nat} {id : Nat} (result : Option Value)
    (fresh : memo.lookup id = none) (permitted : id ∈ allowed) :
    Growth memo ((id, result) :: memo) allowed := by
  refine ⟨?_, ?_⟩
  · intro other known found
    have different : other ≠ id := by
      rintro rfl
      simp [fresh] at found
    simpa [List.lookup_cons, beq_eq_false_iff_ne.mpr different] using found
  · intro other absent outside
    have different : other ≠ id := by
      rintro rfl
      exact outside permitted
    simpa [List.lookup_cons, beq_eq_false_iff_ne.mpr different] using absent

theorem isSome {before after : Memo} {allowed : List Nat} (growth : Growth before after allowed)
    {id : Nat} (known : (before.lookup id).isSome) : (after.lookup id).isSome := by
  obtain ⟨result, found⟩ := Option.isSome_iff_exists.mp known
  simp [growth.keeps id result found]

/-- A record that is there already keeps its meaning. -/
theorem meaning {before after : Memo} {allowed : List Nat} (growth : Growth before after allowed)
    {reference : Reference} (known : (before.lookup reference.id).isSome) :
    after.meaning reference = before.meaning reference := by
  obtain ⟨result, found⟩ := Option.isSome_iff_exists.mp known
  rw [meaning_of_lookup found, meaning_of_lookup (growth.keeps _ _ found)]

end Memo.Growth

/-- Records as resolving makes them: each for a live reference that had none, whose result
is what it has to stand for under the earlier records, which cover all that it waits for. -/
inductive Recorded (environment : Environment) (source : Value) : Memo → Prop where
  | empty : Recorded environment source []
  | insert {memo : Memo} {reference : Reference} {result : Option Value}
      (earlier : Recorded environment source memo) (live : reference ∈ source.references)
      (fresh : memo.lookup reference.id = none)
      (covered : ∀ other ∈ reference.dependencies source, (memo.lookup other.id).isSome)
      (denoted : reference.denote environment source memo.meaning = .ok result) :
      Recorded environment source ((reference.id, result) :: memo)

/-- The numbers of the references in a value tell them apart. -/
def Value.Identified (source : Value) : Prop :=
  ∀ first ∈ source.references, ∀ second ∈ source.references, first.id = second.id → first = second

namespace Recorded

variable {environment : Environment} {source : Value} {memo : Memo}

private theorem holds (identified : source.Identified) (recorded : Recorded environment source memo)
    {reference : Reference} {result : Option Value} (live : reference ∈ source.references)
    (known : memo.lookup reference.id = some result) :
    (∀ other ∈ reference.dependencies source, (memo.lookup other.id).isSome) ∧
      reference.denote environment source memo.meaning = .ok result := by
  induction recorded with
  | empty => simp at known
  | @insert memo latest recent earlier latestLive fresh covered denoted ih =>
    have growth := Memo.Growth.insert recent fresh (List.mem_singleton_self latest.id)
    -- Either way the records before the latest cover the reference and denote it alike.
    have before : (∀ other ∈ reference.dependencies source, (memo.lookup other.id).isSome) ∧
        reference.denote environment source memo.meaning = .ok result := by
      by_cases same : reference.id = latest.id
      · obtain rfl := identified reference live latest latestLive same
        obtain rfl : recent = result := by simpa using known
        exact ⟨covered, denoted⟩
      · exact ih (by simpa [List.lookup_cons, beq_eq_false_iff_ne.mpr same] using known)
    refine ⟨fun other member => growth.isSome (before.1 other member), ?_⟩
    rw [← before.2]
    exact Reference.denote_reads environment source reference _ _
      (fun other member => growth.meaning (before.1 other member))

/-- Whatever meaning fits the document agrees with the records. -/
theorem agrees (identified : source.Identified) (recorded : Recorded environment source memo)
    {meaning : Meaning} (fits : meaning.Fits environment source)
    {reference : Reference} (live : reference ∈ source.references)
    (known : (memo.lookup reference.id).isSome) : meaning reference = memo.meaning reference := by
  induction recorded generalizing reference with
  | empty => simp at known
  | @insert memo latest recent earlier latestLive fresh covered denoted ih =>
    by_cases same : reference.id = latest.id
    · obtain rfl := identified reference live latest latestLive same
      have alike : reference.denote environment source meaning =
          reference.denote environment source memo.meaning :=
        Reference.denote_reads environment source reference _ _
          (fun other member => ih (refers_iff.mpr ⟨live, member⟩).live (covered other member))
      have result := (fits reference live).symm.trans (alike.trans denoted)
      rw [Except.ok.inj result, Memo.meaning_of_lookup List.lookup_cons_self]
    · have growth := Memo.Growth.insert recent fresh (List.mem_singleton_self latest.id)
      have older : (memo.lookup reference.id).isSome := by
        simpa [List.lookup_cons, beq_eq_false_iff_ne.mpr same] using known
      rw [growth.meaning older]
      exact ih live older

/-- What is recorded waits for nothing without end. -/
theorem accessible (identified : source.Identified) (recorded : Recorded environment source memo)
    {reference : Reference} (live : reference ∈ source.references)
    (known : (memo.lookup reference.id).isSome) :
    Acc (fun other waiting => Refers source waiting other) reference := by
  induction recorded generalizing reference with
  | empty => simp at known
  | @insert memo latest recent earlier latestLive fresh covered denoted ih =>
    by_cases same : reference.id = latest.id
    · obtain rfl := identified reference live latest latestLive same
      refine Acc.intro reference fun other refers => ?_
      exact ih refers.live (covered other (refers_iff.mp refers).2)
    · exact ih live (by simpa [List.lookup_cons, beq_eq_false_iff_ne.mpr same] using known)

/-- Records of every reference make a meaning that fits. -/
theorem fits (identified : source.Identified) (recorded : Recorded environment source memo)
    (complete : ∀ reference ∈ source.references, (memo.lookup reference.id).isSome) :
    memo.meaning.Fits environment source := by
  intro reference live
  obtain ⟨result, known⟩ := Option.isSome_iff_exists.mp (complete reference live)
  rw [(recorded.holds identified live known).2, Memo.meaning_of_lookup known]

end Recorded
end Hocon
