import Mathlib.Data.List.Basic

/-! Deterministic machines that take one input per cycle, and lockstep
simulation between them. -/
namespace SystemcCompiler.Lockstep

/-- `ι` are the inputs of a cycle, `ω` is what can be observed of a state. -/
structure Machine (ι ω : Type) where
  State : Type
  step : State → ι → State
  observe : State → ω

namespace Machine
variable {ι ω : Type}

def run (m : Machine ι ω) (s : m.State) (inputs : List ι) : m.State :=
  inputs.foldl m.step s

/-- What is observed after each cycle. -/
def trace (m : Machine ι ω) : m.State → List ι → List ω
  | _, [] => []
  | s, i :: inputs => m.observe (m.step s i) :: m.trace (m.step s i) inputs

/-- Every step of the run meets a condition on its input and the state before it. -/
def EveryStep (m : Machine ι ω) (ok : m.State → ι → Prop) : m.State → List ι → Prop
  | _, [] => True
  | s, i :: inputs => ok s i ∧ m.EveryStep ok (m.step s i) inputs

theorem everyStep_of_forall {m : Machine ι ω} {ok : m.State → ι → Prop}
    (h : ∀ s i, ok s i) (s : m.State) (inputs : List ι) : m.EveryStep ok s inputs := by
  induction inputs generalizing s with
  | nil => trivial
  | cons i inputs ih => exact ⟨h s i, ih _⟩

theorem EveryStep.imp {m : Machine ι ω} {p q : m.State → ι → Prop} (h : ∀ s i, p s i → q s i)
    {s : m.State} {inputs : List ι} (hp : m.EveryStep p s inputs) : m.EveryStep q s inputs := by
  induction inputs generalizing s with
  | nil => trivial
  | cons i inputs ih => exact ⟨h s i hp.1, ih hp.2⟩

end Machine

variable {ι ω : Type}

/-- Related states stay related under equal inputs and look the same, in steps
that meet `ok`. -/
structure Simulation (m n : Machine ι ω) (ok : m.State → ι → Prop) where
  Rel : m.State → n.State → Prop
  step : ∀ s t i, Rel s t → ok s i → Rel (m.step s i) (n.step t i)
  observe : ∀ s t, Rel s t → m.observe s = n.observe t

namespace Simulation
variable {m n : Machine ι ω} {ok : m.State → ι → Prop}

theorem run_rel (sim : Simulation m n ok) {s : m.State} {t : n.State} (h : sim.Rel s t)
    (inputs : List ι) (hok : m.EveryStep ok s inputs) :
    sim.Rel (m.run s inputs) (n.run t inputs) := by
  induction inputs generalizing s t with
  | nil => exact h
  | cons i inputs ih => exact ih (sim.step s t i h hok.1) hok.2

theorem trace_eq (sim : Simulation m n ok) {s : m.State} {t : n.State} (h : sim.Rel s t)
    (inputs : List ι) (hok : m.EveryStep ok s inputs) :
    m.trace s inputs = n.trace t inputs := by
  induction inputs generalizing s t with
  | nil => rfl
  | cons i inputs ih =>
    have hstep := sim.step s t i h hok.1
    rw [Machine.trace, Machine.trace, sim.observe _ _ hstep, ih hstep hok.2]

end Simulation
end SystemcCompiler.Lockstep
