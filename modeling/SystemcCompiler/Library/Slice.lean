import Mathlib.Data.Set.Basic
import SystemcCompiler.Library.Lockstep

/-! A program on a control flow graph and the same program with some of its
statements skipped. Skipping a statement is not seen if it writes nothing that
is observed or read elsewhere. -/
namespace SystemcCompiler.Slice
open Lockstep

/-- One point is executed per step. `reads` and `writes` bound what a statement
depends on and changes, `condReads` what the choice of the next point depends on. -/
structure Program (ι P S V D : Type) where
  stmt : P → Option S
  effect : S → ι → (V → D) → V → D
  next : P → ι → (V → D) → P
  reads : S → Set V
  writes : S → Set V
  condReads : P → Set V
  effect_congr : ∀ s i e f v, (∀ u ∈ reads s, e u = f u) → e v = f v →
    effect s i e v = effect s i f v
  effect_frame : ∀ s i e v, v ∉ writes s → effect s i e v = e v
  next_congr : ∀ p i e f, (∀ u ∈ condReads p, e u = f u) → next p i e = next p i f

namespace Program
variable {ι P S V D : Type}

/-- Values after the statement of a point, if that is kept. -/
def perform (g : Program ι P S V D) (keep : S → Prop) [DecidablePred keep] (p : P) (i : ι)
    (e : V → D) : V → D :=
  match g.stmt p with
  | none => e
  | some s => if keep s then g.effect s i e else e

/-- The program without the statements that are not kept. -/
def machine (g : Program ι P S V D) (keep : S → Prop) [DecidablePred keep] (observed : Set V) :
    Machine ι (observed → D) where
  State := P × (V → D)
  step s i := (g.next s.1 i (g.perform keep s.1 i s.2), g.perform keep s.1 i s.2)
  observe s v := s.2 v

/-- Observed, or read by a kept statement or by a choice of the next point. -/
def Relevant (g : Program ι P S V D) (keep : S → Prop) (observed : Set V) (v : V) : Prop :=
  v ∈ observed ∨ (∃ s, keep s ∧ v ∈ g.reads s) ∨ ∃ p, v ∈ g.condReads p

variable {g : Program ι P S V D} {keep : S → Prop} [DecidablePred keep] {observed : Set V}

/-- A step of the whole and of the sliced program keep the relevant values equal. -/
theorem perform_agree (h : ∀ s, ¬ keep s → ∀ v ∈ g.writes s, ¬ g.Relevant keep observed v)
    (p : P) (i : ι) {e f : V → D} (hef : ∀ v, g.Relevant keep observed v → e v = f v) (v : V)
    (hv : g.Relevant keep observed v) :
    g.perform (fun _ => True) p i e v = g.perform keep p i f v := by
  unfold perform
  cases g.stmt p with
  | none => exact hef v hv
  | some s =>
    by_cases hs : keep s
    · simp only [if_true, if_pos hs]
      apply g.effect_congr
      · intro u hu
        exact hef u (.inr (.inl ⟨s, hs, hu⟩))
      · exact hef v hv
    · simp only [if_true, if_neg hs]
      have hw : v ∉ g.writes s := fun hw => h s hs v hw hv
      rw [g.effect_frame s i e v hw]
      exact hef v hv

/-- Skipping statements that write nothing relevant changes no observation. -/
def slicing (g : Program ι P S V D)
    (h : ∀ s, ¬ keep s → ∀ v ∈ g.writes s, ¬ g.Relevant keep observed v) :
    Simulation (g.machine (fun _ => True) observed) (g.machine keep observed)
      (fun _ _ => True) where
  Rel s t := s.1 = t.1 ∧ ∀ v, g.Relevant keep observed v → s.2 v = t.2 v
  step := by
    intro s t i hrel _
    have hvals := perform_agree h t.1 i hrel.2
    constructor
    · change g.next s.1 i _ = g.next t.1 i _
      rw [hrel.1]
      apply g.next_congr
      intro u hu
      exact hvals u (.inr (.inr ⟨_, hu⟩))
    · intro v hv
      change g.perform _ s.1 i s.2 v = _
      rw [hrel.1]
      exact hvals v hv
  observe := by
    intro s t hrel
    funext v
    exact hrel.2 v (.inl v.2)

theorem slicing_trace (g : Program ι P S V D)
    (h : ∀ s, ¬ keep s → ∀ v ∈ g.writes s, ¬ g.Relevant keep observed v) (p : P) (e : V → D)
    (inputs : List ι) :
    (g.machine (fun _ => True) observed).trace (p, e) inputs =
      (g.machine keep observed).trace (p, e) inputs := by
  have hrel : (g.slicing h).Rel (p, e) (p, e) := ⟨rfl, fun _ _ => rfl⟩
  exact (g.slicing h).trace_eq hrel inputs (Machine.everyStep_of_forall (fun _ _ => trivial) _ _)

end Program
end SystemcCompiler.Slice
