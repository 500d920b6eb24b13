import Mathlib.Data.List.Basic

/-! Registers that are updated at events of signals: a clock, and resets that are
seen at the clock (synchronous) or when they come (asynchronous). A run is a list
of updates of the signals. -/
namespace SystemcCompiler.Clocked

/-- Signals that change their value together, and what else is read then. -/
structure Update (σ ι : Type) where
  changed : List σ
  nodup : changed.Nodup
  inputs : ι

/-- A change of a signal, of the ones to a value if that is given. -/
structure Event (σ : Type) where
  source : σ
  value : Option Bool
  deriving DecidableEq

structure Reset (σ : Type) where
  source : σ
  isAsync : Bool
  level : Bool
  deriving DecidableEq

structure Process (σ : Type) where
  clock : Event σ
  resets : List (Reset σ)
  deriving DecidableEq

/-- What is done in reset and in a cycle without reset. -/
structure Block (R ι : Type) where
  reset : R → ι → R
  step : R → ι → R

/-- Code with waits. Both parts end at a wait for a number of cycles. -/
structure Body (S ι : Type) where
  start : S → ι → S × Nat
  resume : S → ι → S × Nat

/-- The state at a wait with the number of cycles that are left after the next one. -/
def Body.block {S ι : Type} (B : Body S ι) : Block (S × Nat) ι where
  reset r i := ((B.start r.1 i).1, (B.start r.1 i).2 - 1)
  step r i :=
    if 0 < r.2 then (r.1, r.2 - 1) else ((B.resume r.1 i).1, (B.resume r.1 i).2 - 1)

/-- `always_ff @(sensList) if (condition) reset else step`; a term of the condition
is a signal with its level. -/
structure FlipFlops (σ : Type) where
  sensList : List (Event σ)
  condition : List (σ × Bool)
  deriving DecidableEq

variable {σ ι R R' : Type} [DecidableEq σ]

def Update.apply (u : Update σ ι) (values : σ → Bool) (s : σ) : Bool :=
  if s ∈ u.changed then !values s else values s

/-- Values of the signals after a run. -/
def applyAll (values : σ → Bool) (us : List (Update σ ι)) : σ → Bool :=
  us.foldl (fun values u => u.apply values) values

def Event.Occurs (e : Event σ) (values : σ → Bool) (u : Update σ ι) : Prop :=
  e.source ∈ u.changed ∧ ∀ value ∈ e.value, u.apply values e.source = value

instance (e : Event σ) (values : σ → Bool) (u : Update σ ι) : Decidable (e.Occurs values u) :=
  inferInstanceAs (Decidable (_ ∧ ∀ value ∈ e.value, u.apply values e.source = value))

namespace Reset

def Active (r : Reset σ) (values : σ → Bool) : Prop := values r.source = r.level

instance (r : Reset σ) (values : σ → Bool) : Decidable (r.Active values) :=
  inferInstanceAs (Decidable (_ = _))

/-- The reset becomes active. -/
def Asserted (r : Reset σ) (values : σ → Bool) (u : Update σ ι) : Prop :=
  r.source ∈ u.changed ∧ r.Active (u.apply values)

instance (r : Reset σ) (values : σ → Bool) (u : Update σ ι) : Decidable (r.Asserted values u) :=
  inferInstanceAs (Decidable (_ ∧ _))

end Reset

namespace Process
variable (P : Process σ)

def InReset (values : σ → Bool) : Prop := ∃ r ∈ P.resets, r.Active values

instance (values : σ → Bool) : Decidable (P.InReset values) :=
  inferInstanceAs (Decidable (∃ r ∈ P.resets, r.Active values))

/-- A reset of one kind becomes active. -/
def Asserts (isAsync : Bool) (values : σ → Bool) (u : Update σ ι) : Prop :=
  ∃ r ∈ P.resets, r.isAsync = isAsync ∧ r.Asserted values u

instance (isAsync : Bool) (values : σ → Bool) (u : Update σ ι) :
    Decidable (P.Asserts isAsync values u) :=
  inferInstanceAs (Decidable (∃ r ∈ P.resets, r.isAsync = isAsync ∧ r.Asserted values u))

/-- The process is reset in an update. -/
def Restarts (values : σ → Bool) (u : Update σ ι) : Prop :=
  P.Asserts true values u ∨ P.clock.Occurs values u ∧ P.InReset (u.apply values)

instance (values : σ → Bool) (u : Update σ ι) : Decidable (P.Restarts values u) :=
  inferInstanceAs (Decidable (_ ∨ _))

/-- Flip-flops that are sensitive to the clock and to the asynchronous resets. -/
def flipFlops : FlipFlops σ where
  sensList := P.clock :: (P.resets.filter (·.isAsync)).map fun r => ⟨r.source, some r.level⟩
  condition := P.resets.map fun r => (r.source, r.level)

/-- Whether a synchronous reset has come since the process was reset last. -/
def pendingAfter (pending : Bool) (values : σ → Bool) (u : Update σ ι) : Bool :=
  decide (¬ P.Restarts values u ∧ (pending ∨ P.Asserts false values u))

/-- No synchronous reset comes and goes between two clock events. -/
def SeesResets (pending : Bool) (values : σ → Bool) : List (Update σ ι) → Prop
  | [] => True
  | u :: us =>
    (P.clock.Occurs values u → ¬ P.Restarts values u → pending = false) ∧
    SeesResets (P.pendingAfter pending values u) (u.apply values) us

instance decidableSeesResets (pending : Bool) (values : σ → Bool) :
    ∀ us : List (Update σ ι), Decidable (P.SeesResets pending values us)
  | [] => isTrue trivial
  | u :: us =>
    have := decidableSeesResets (P.pendingAfter pending values u) (u.apply values) us
    inferInstanceAs (Decidable (_ ∧ _))

theorem inReset_of_asserts {isAsync : Bool} {values : σ → Bool} {u : Update σ ι}
    (h : P.Asserts isAsync values u) : P.InReset (u.apply values) := by
  obtain ⟨r, hr, -, -, hactive⟩ := h
  exact ⟨r, hr, hactive⟩

end Process

namespace FlipFlops
variable (F : FlipFlops σ) (b : Block R ι)

def Triggered (values : σ → Bool) (u : Update σ ι) : Prop := ∃ e ∈ F.sensList, e.Occurs values u

instance (values : σ → Bool) (u : Update σ ι) : Decidable (F.Triggered values u) :=
  inferInstanceAs (Decidable (∃ e ∈ F.sensList, e.Occurs values u))

def Holds (values : σ → Bool) : Prop := ∃ term ∈ F.condition, values term.1 = term.2

instance (values : σ → Bool) : Decidable (F.Holds values) :=
  inferInstanceAs (Decidable (∃ term ∈ F.condition, values term.1 = term.2))

def step (values : σ → Bool) (r : R) (u : Update σ ι) : R :=
  if F.Triggered values u then
    if F.Holds (u.apply values) then b.reset r u.inputs else b.step r u.inputs
  else r

def run (values : σ → Bool) (r : R) : List (Update σ ι) → R
  | [] => r
  | u :: us => run (u.apply values) (F.step b values r u) us

theorem run_singleton (values : σ → Bool) (r : R) (u : Update σ ι) :
    F.run b values r [u] = F.step b values r u := rfl

/-- What an update does. -/
theorem step_restarts {values : σ → Bool} {u : Update σ ι} (h : F.Triggered values u)
    (hholds : F.Holds (u.apply values)) (r : R) : F.step b values r u = b.reset r u.inputs := by
  rw [step, if_pos h, if_pos hholds]

theorem step_cycle {values : σ → Bool} {u : Update σ ι} (h : F.Triggered values u)
    (hholds : ¬ F.Holds (u.apply values)) (r : R) : F.step b values r u = b.step r u.inputs := by
  rw [step, if_pos h, if_neg hholds]

theorem step_idle {values : σ → Bool} {u : Update σ ι} (h : ¬ F.Triggered values u) (r : R) :
    F.step b values r u = r := by
  rw [step, if_neg h]

/-- Conditions on every reset and on every cycle of a run. -/
def Always (okReset okStep : R → ι → Prop) (values : σ → Bool) (r : R) :
    List (Update σ ι) → Prop
  | [] => True
  | u :: us =>
    (F.Triggered values u →
      if F.Holds (u.apply values) then okReset r u.inputs else okStep r u.inputs) ∧
    Always okReset okStep (u.apply values) (F.step b values r u) us

theorem always_of_forall {okReset okStep : R → ι → Prop} (hreset : ∀ r i, okReset r i)
    (hstep : ∀ r i, okStep r i) (values : σ → Bool) (r : R) (us : List (Update σ ι)) :
    F.Always b okReset okStep values r us := by
  induction us generalizing values r with
  | nil => trivial
  | cons u us ih =>
    refine ⟨fun _ => ?_, ih _ _⟩
    split
    · exact hreset r _
    · exact hstep r _

/-- Blocks with related resets and steps stay related. -/
theorem run_rel (Rel : R → R' → Prop) {b : Block R ι} {b' : Block R' ι}
    {okReset okStep : R → ι → Prop}
    (hreset : ∀ r r' i, Rel r r' → okReset r i → Rel (b.reset r i) (b'.reset r' i))
    (hstep : ∀ r r' i, Rel r r' → okStep r i → Rel (b.step r i) (b'.step r' i))
    (values : σ → Bool) {r : R} {r' : R'} (h : Rel r r') (us : List (Update σ ι))
    (hok : F.Always b okReset okStep values r us) :
    Rel (F.run b values r us) (F.run b' values r' us) := by
  induction us generalizing values r r' with
  | nil => exact h
  | cons u us ih =>
    refine ih _ ?_ hok.2
    by_cases htriggered : F.Triggered values u
    · have hthis := hok.1 htriggered
      by_cases hholds : F.Holds (u.apply values)
      · rw [F.step_restarts b htriggered hholds, F.step_restarts b' htriggered hholds]
        exact hreset r r' _ h (by rwa [if_pos hholds] at hthis)
      · rw [F.step_cycle b htriggered hholds, F.step_cycle b' htriggered hholds]
        exact hstep r r' _ h (by rwa [if_neg hholds] at hthis)
    · rwa [F.step_idle b htriggered, F.step_idle b' htriggered]

end FlipFlops

namespace Process
variable (P : Process σ)

theorem flipFlops_triggered {values : σ → Bool} {u : Update σ ι} :
    P.flipFlops.Triggered values u ↔ P.clock.Occurs values u ∨ P.Asserts true values u := by
  simp only [FlipFlops.Triggered, flipFlops, List.mem_cons, exists_eq_or_imp, List.mem_map,
    List.mem_filter, Asserts]
  refine or_congr_right ⟨?_, ?_⟩
  · rintro ⟨e, ⟨r, ⟨hr, hasync⟩, rfl⟩, hmem, hto⟩
    exact ⟨r, hr, hasync, hmem, hto _ rfl⟩
  · rintro ⟨r, hr, hasync, hmem, hactive⟩
    refine ⟨_, ⟨r, ⟨hr, hasync⟩, rfl⟩, hmem, ?_⟩
    rintro value ⟨⟩
    exact hactive

omit [DecidableEq σ] in
theorem flipFlops_holds {values : σ → Bool} : P.flipFlops.Holds values ↔ P.InReset values := by
  simp [FlipFlops.Holds, flipFlops, InReset, Reset.Active]

theorem restarts_iff {values : σ → Bool} {u : Update σ ι} :
    P.Restarts values u ↔ P.flipFlops.Triggered values u ∧ P.flipFlops.Holds (u.apply values) := by
  rw [flipFlops_triggered, flipFlops_holds, Restarts]
  refine ⟨?_, ?_⟩
  · rintro (hasserts | ⟨hclock, hreset⟩)
    · exact ⟨.inr hasserts, P.inReset_of_asserts hasserts⟩
    · exact ⟨.inl hclock, hreset⟩
  · rintro ⟨hclock | hasserts, hreset⟩
    · exact .inr ⟨hclock, hreset⟩
    · exact .inl hasserts

section Step
variable {P} (b : Block R ι) {values : σ → Bool} {u : Update σ ι} (r : R)

theorem step_of_restarts (h : P.Restarts values u) :
    P.flipFlops.step b values r u = b.reset r u.inputs := by
  obtain ⟨htriggered, hholds⟩ := P.restarts_iff.mp h
  exact P.flipFlops.step_restarts b htriggered hholds r

theorem step_of_clock (h : P.clock.Occurs values u) (hrestarts : ¬ P.Restarts values u) :
    P.flipFlops.step b values r u = b.step r u.inputs := by
  have htriggered := P.flipFlops_triggered.mpr (.inl h)
  apply P.flipFlops.step_cycle b htriggered
  exact fun hholds => hrestarts (P.restarts_iff.mpr ⟨htriggered, hholds⟩)

theorem step_of_idle (h : ¬ P.clock.Occurs values u) (hrestarts : ¬ P.Restarts values u) :
    P.flipFlops.step b values r u = r := by
  apply P.flipFlops.step_idle
  rw [flipFlops_triggered]
  rintro (hclock | hasserts)
  · exact h hclock
  · exact hrestarts (.inl hasserts)

end Step
end Process
end SystemcCompiler.Clocked
