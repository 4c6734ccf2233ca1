/-! Two steps one after another, where each may stop with an error. -/

namespace Lox.Sequencing

variable {ε σ α β : Type} {first : EStateM ε σ α} {next : α → EStateM ε σ β} {start middle : σ}

theorem bind_ok {value : α} (ran : first start = .ok value middle) :
    (first >>= next) start = next value middle := by
  change EStateM.bind first next start = _
  rw [EStateM.bind, ran]

theorem bind_error {stop : ε} (ran : first start = .error stop middle) :
    (first >>= next) start = .error stop middle := by
  change EStateM.bind first next start = _
  rw [EStateM.bind, ran]

/-- Where the first steps end alike, both runs go on from the same place, or both have stopped. -/
theorem bind_alike {other : EStateM ε σ α} {later : α → EStateM ε σ β} {start' : σ}
    (same : first start = other start') :
    (∃ value middle, (first >>= next) start = next value middle ∧
      (other >>= later) start' = later value middle) ∨
        (first >>= next) start = (other >>= later) start' := by
  cases ran : first start with
  | ok value middle => exact .inl ⟨value, middle, bind_ok ran, bind_ok (same.symm.trans ran)⟩
  | error stop middle =>
    exact .inr ((bind_error ran).trans (bind_error (same.symm.trans ran)).symm)

theorem exists_of_map_ok {f : α → β} {value : β} (ran : (f <$> first) start = .ok value middle) :
    ∃ result, first start = .ok result middle ∧ f result = value := by
  change EStateM.map f first start = _ at ran
  rw [EStateM.map] at ran
  split at ran
  next result stop found =>
    obtain ⟨same, rfl⟩ := EStateM.Result.ok.inj ran
    exact ⟨result, found, same⟩
  next => cases ran

end Lox.Sequencing
