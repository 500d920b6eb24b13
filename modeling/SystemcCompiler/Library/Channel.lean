import Mathlib.Data.List.Basic

/-! Machines that take an input and give an output in every cycle, simulation
between them, and the law of a queue: what is accepted comes out in order. -/
namespace SystemcCompiler.Channel

structure Mealy (ι ω : Type) where
  State : Type
  step : State → ι → State × ω

namespace Mealy
variable {ι ω : Type}

def run (m : Mealy ι ω) (s : m.State) (inputs : List ι) : m.State :=
  inputs.foldl (fun s i => (m.step s i).1) s

theorem run_concat (m : Mealy ι ω) (s : m.State) (inputs : List ι) (last : ι) :
    m.run s (inputs ++ [last]) = (m.step (m.run s inputs) last).1 := by
  simp [run]

/-- What the machine gives out, cycle by cycle. -/
def outputs (m : Mealy ι ω) : m.State → List ι → List ω
  | _, [] => []
  | s, i :: inputs => (m.step s i).2 :: m.outputs (m.step s i).1 inputs

/-- Every cycle of the run meets a condition on its input and the state before it. -/
def EveryStep (m : Mealy ι ω) (ok : m.State → ι → Prop) : m.State → List ι → Prop
  | _, [] => True
  | s, i :: inputs => ok s i ∧ m.EveryStep ok (m.step s i).1 inputs

theorem EveryStep.imp {m : Mealy ι ω} {p q : m.State → ι → Prop} {s : m.State}
    {inputs : List ι} (hp : m.EveryStep p s inputs) (h : ∀ s i, p s i → q s i) :
    m.EveryStep q s inputs := by
  induction inputs generalizing s with
  | nil => trivial
  | cons i inputs ih => exact ⟨h s i hp.1, ih hp.2⟩

theorem EveryStep.of_forall {m : Mealy ι ω} {ok : ι → Prop} {inputs : List ι}
    (h : ∀ i ∈ inputs, ok i) (s : m.State) : m.EveryStep (fun _ i => ok i) s inputs := by
  induction inputs generalizing s with
  | nil => trivial
  | cons i inputs ih =>
    exact ⟨h i List.mem_cons_self, ih (fun j hj => h j (List.mem_cons_of_mem i hj)) _⟩

theorem everyStep_append {m : Mealy ι ω} {ok : m.State → ι → Prop} {s : m.State}
    {first last : List ι} :
    m.EveryStep ok s (first ++ last) ↔
      m.EveryStep ok s first ∧ m.EveryStep ok (m.run s first) last := by
  induction first generalizing s with
  | nil => simp [EveryStep, run]
  | cons i first ih =>
    rw [List.cons_append, EveryStep, EveryStep, ih, and_assoc]
    rfl

theorem everyStep_concat {m : Mealy ι ω} {ok : m.State → ι → Prop} {s : m.State}
    {inputs : List ι} {last : ι} :
    m.EveryStep ok s (inputs ++ [last]) ↔ m.EveryStep ok s inputs ∧ ok (m.run s inputs) last := by
  rw [everyStep_append]
  simp [EveryStep]

end Mealy

variable {ι ω T : Type}

/-- Related states stay related and give the same output, in cycles that meet `ok`. -/
structure Simulation (m n : Mealy ι ω) (ok : m.State → ι → Prop) where
  Rel : m.State → n.State → Prop
  step : ∀ s t i, Rel s t → ok s i → Rel (m.step s i).1 (n.step t i).1
  output : ∀ s t i, Rel s t → ok s i → (m.step s i).2 = (n.step t i).2

namespace Simulation
variable {m n : Mealy ι ω} {ok : m.State → ι → Prop}

theorem run_rel (sim : Simulation m n ok) {s : m.State} {t : n.State} (h : sim.Rel s t)
    {inputs : List ι} (hok : m.EveryStep ok s inputs) :
    sim.Rel (m.run s inputs) (n.run t inputs) := by
  induction inputs generalizing s t with
  | nil => exact h
  | cons i inputs ih => exact ih (sim.step s t i h hok.1) hok.2

theorem outputs_eq (sim : Simulation m n ok) {s : m.State} {t : n.State} (h : sim.Rel s t)
    {inputs : List ι} (hok : m.EveryStep ok s inputs) :
    m.outputs s inputs = n.outputs t inputs := by
  induction inputs generalizing s t with
  | nil => rfl
  | cons i inputs ih =>
    rw [Mealy.outputs, Mealy.outputs, sim.output s t i h hok.1, ih (sim.step s t i h hok.1) hok.2]

/-- A condition on the second machine's steps carries over along the relation. -/
theorem everyStep (sim : Simulation m n ok) {q : n.State → ι → Prop}
    (hq : ∀ s t i, sim.Rel s t → ok s i → q t i) {s : m.State} {t : n.State} (h : sim.Rel s t)
    {inputs : List ι} (hok : m.EveryStep ok s inputs) : n.EveryStep q t inputs := by
  induction inputs generalizing s t with
  | nil => trivial
  | cons i inputs ih => exact ⟨hq s t i h hok.1, ih (sim.step s t i h hok.1) hok.2⟩

end Simulation

/-- Which values an output accepts into a channel and which it delivers from it. -/
structure Ports (ω T : Type) where
  accepted : ω → List T
  delivered : ω → List T

/-- `content` is the queue a state holds: a cycle appends what it accepts and
takes from the front what it delivers. -/
structure QueueLaw (m : Mealy ι ω) (ports : Ports ω T) (ok : m.State → ι → Prop) where
  Inv : m.State → Prop
  content : m.State → List T
  inv : ∀ s i, Inv s → ok s i → Inv (m.step s i).1
  law : ∀ s i, Inv s → ok s i →
    content s ++ ports.accepted (m.step s i).2 =
      ports.delivered (m.step s i).2 ++ content (m.step s i).1

namespace QueueLaw
variable {m : Mealy ι ω} {ports : Ports ω T} {ok : m.State → ι → Prop}

theorem run_inv (q : QueueLaw m ports ok) {s : m.State} (h : q.Inv s) {inputs : List ι}
    (hok : m.EveryStep ok s inputs) : q.Inv (m.run s inputs) := by
  induction inputs generalizing s with
  | nil => exact h
  | cons i inputs ih => exact ih (q.inv s i h hok.1) hok.2

theorem run_law (q : QueueLaw m ports ok) {s : m.State} (h : q.Inv s) {inputs : List ι}
    (hok : m.EveryStep ok s inputs) :
    q.content s ++ (m.outputs s inputs).flatMap ports.accepted =
      (m.outputs s inputs).flatMap ports.delivered ++ q.content (m.run s inputs) := by
  induction inputs generalizing s with
  | nil => simp [Mealy.outputs, Mealy.run]
  | cons i inputs ih =>
    have hrest := ih (q.inv s i h hok.1) hok.2
    rw [Mealy.outputs, List.flatMap_cons, List.flatMap_cons, ← List.append_assoc,
      q.law s i h hok.1, List.append_assoc, hrest, List.append_assoc]
    rfl

/-- From an empty queue on, what was accepted is what was delivered and what is still held. -/
theorem accepted_eq (q : QueueLaw m ports ok) {s : m.State} (h : q.Inv s)
    (hempty : q.content s = []) {inputs : List ι} (hok : m.EveryStep ok s inputs) :
    (m.outputs s inputs).flatMap ports.accepted =
      (m.outputs s inputs).flatMap ports.delivered ++ q.content (m.run s inputs) := by
  rw [← q.run_law h hok, hempty, List.nil_append]

theorem delivered_leads (q : QueueLaw m ports ok) {s : m.State} (h : q.Inv s)
    (hempty : q.content s = []) {inputs : List ι} (hok : m.EveryStep ok s inputs) :
    (m.outputs s inputs).flatMap ports.delivered <+:
      (m.outputs s inputs).flatMap ports.accepted :=
  ⟨_, (q.accepted_eq h hempty hok).symm⟩

theorem accepted_length (q : QueueLaw m ports ok) {s : m.State} (h : q.Inv s)
    (hempty : q.content s = []) {inputs : List ι} (hok : m.EveryStep ok s inputs) :
    ((m.outputs s inputs).flatMap ports.accepted).length =
      ((m.outputs s inputs).flatMap ports.delivered).length +
        (q.content (m.run s inputs)).length := by
  rw [q.accepted_eq h hempty hok, List.length_append]

end QueueLaw
end SystemcCompiler.Channel
