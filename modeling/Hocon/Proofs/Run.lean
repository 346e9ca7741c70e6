import Hocon.Session

namespace Hocon

theorem ok_of_bind {α β : Type} {first : Except Fault α} {next : α → Except Fault β} {result : β}
    (done : first >>= next = .ok result) : ∃ value, first = .ok value ∧ next value = .ok result := by
  cases first with
  | error fault => simp [bind, Except.bind] at done
  | ok value => exact ⟨value, rfl, done⟩

theorem ok_of_isOk {α : Type} {outcome : Except Fault α} (good : outcome.isOk = true) :
    ∃ value, outcome = .ok value := by
  cases outcome with
  | error fault => cases good
  | ok value => exact ⟨value, rfl⟩

theorem ok_of_toOption {α : Type} {outcome : Except Fault α} {result : α}
    (good : outcome.toOption = some result) : outcome = .ok result := by
  cases outcome with
  | error fault => cases good
  | ok value => rw [Option.some.inj good]

namespace Run

variable {α β : Type} {session after : Session}

theorem ok_of_bind {first : Run α} {next : α → Run β} {result : β}
    (done : (first >>= next) session = .ok result after) :
    ∃ value middle, first session = .ok value middle ∧ next value middle = .ok result after := by
  cases ran : first session with
  | ok value middle =>
    refine ⟨value, middle, rfl, ?_⟩
    simpa only [bind, EStateM.bind, ran] using done
  | error fault middle => simp [bind, EStateM.bind, ran] at done

/-- A sequence of runs fails in its first step or behind it. -/
theorem error_of_bind {first : Run α} {next : α → Run β} {fault : Fault}
    (failed : (first >>= next) session = .error fault after) :
    first session = .error fault after ∨
      ∃ value middle, first session = .ok value middle ∧ next value middle = .error fault after := by
  cases ran : first session with
  | ok value middle =>
    refine .inr ⟨value, middle, rfl, ?_⟩
    simpa only [bind, EStateM.bind, ran] using failed
  | error cause middle =>
    simp only [bind, EStateM.bind, ran] at failed
    cases failed
    exact .inl rfl

theorem bind_of_ok {first : Run α} {next : α → Run β} {value : α} {middle : Session} {result : β}
    (done : first session = .ok value middle) (further : next value middle = .ok result after) :
    (first >>= next) session = .ok result after := by
  simpa only [bind, EStateM.bind, done] using further

theorem ofExcept_of_ok {outcome : Except Fault α} {result : α} (done : outcome = .ok result) :
    ofExcept outcome session = .ok result session := by
  rw [done]
  rfl

theorem ok_of_ofExcept {outcome : Except Fault α} {result : α}
    (done : ofExcept outcome session = .ok result after) : outcome = .ok result ∧ after = session := by
  cases outcome with
  | error fault => cases done
  | ok value =>
    cases done
    exact ⟨rfl, rfl⟩

/-- What a sequence comes to is what its second step comes to, unless the first one fails. -/
theorem outcome_bind (first : Run α) (next : α → Run β) (session : Session) :
    (first >>= next).outcome session =
      match first session with
      | .ok value middle => (next value).outcome middle
      | .error fault middle => (.error fault, middle) := by
  unfold outcome
  simp only [bind, EStateM.bind]
  cases first session <;> rfl

theorem outcome_of_ok {run : Run α} {result : α} (done : run session = .ok result after) :
    (run.outcome session).1 = .ok result := by
  rw [outcome, done]

theorem outcome_of_error {run : Run α} {fault : Fault} (failed : run session = .error fault after) :
    (run.outcome session).1 = .error fault := by
  rw [outcome, failed]

theorem error_of_outcome {run : Run α} {fault : Fault} (failed : (run.outcome session).1 = .error fault) :
    ∃ after, run session = .error fault after := by
  unfold outcome at failed
  cases ran : run session with
  | ok value after =>
    rw [ran] at failed
    cases failed
  | error cause after =>
    rw [ran] at failed
    cases failed
    exact ⟨after, rfl⟩

theorem ok_of_outcome {run : Run α} {result : α} (done : (run.outcome session).1 = .ok result) :
    ∃ after, run session = .ok result after := by
  unfold outcome at done
  cases ran : run session with
  | ok value after =>
    rw [ran] at done
    cases done
    exact ⟨after, rfl⟩
  | error fault after =>
    rw [ran] at done
    cases done

end Run
end Hocon
