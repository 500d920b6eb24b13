import Mathlib.Data.Option.Basic

/-! Events with at most one timed notification that is pending: of two the earlier wins. -/
namespace SystemcCompiler.TimedEvent

variable {pending : Option Nat} {due bound time : Nat}

/-- The time that is pending after a notification for the time `due`. -/
def notify (pending : Option Nat) (due : Nat) : Option Nat :=
  some (pending.elim due (min due))

theorem notify_cases (h : time ∈ notify pending due) : time = due ∨ time ∈ pending := by
  cases pending with
  | none => exact .inl (Option.some.inj h).symm
  | some old =>
    obtain rfl := Option.some.inj h
    rcases Nat.le_total due old with hle | hle
    · exact .inl (Nat.min_eq_left hle)
    · exact .inr (congrArg some (Nat.min_eq_right hle).symm)

/-- The event occurs by the time of the notification, and not later than it would have. -/
theorem notify_le (pending : Option Nat) (due : Nat) :
    ∃ time ∈ notify pending due, time ≤ due ∧ ∀ old ∈ pending, time ≤ old := by
  refine ⟨_, rfl, ?_, ?_⟩
  · cases pending with
    | none => exact Nat.le_refl due
    | some old => exact Nat.min_le_left due old
  · rintro old rfl
    exact Nat.min_le_right due old

/-- A time before which nothing is notified stays one. -/
theorem le_notify (hpending : ∀ old ∈ pending, bound ≤ old) (hdue : bound ≤ due) :
    ∀ time ∈ notify pending due, bound ≤ time := by
  intro time htime
  rcases notify_cases htime with rfl | hold
  · exact hdue
  · exact hpending time hold

end SystemcCompiler.TimedEvent
