import SystemcCompiler.Library.Channel
import SystemcCompiler.Library.TimedEvent
import Mathlib.Data.List.Induction
import Mathlib.Data.List.Chain

/-! The approximate time `sct_clock`: a flag for enabled and a pending notification of
`m_event`, changed by the calls of the user, the gates and the handler of an edge. -/
namespace SystemcCompiler.Clock
open Channel

/-- Calls that control the clock; a gated clock takes the last one only, and any other the
first two, which the model does not require. -/
inductive Call where
  | enable
  | disable
  | controlAction (gates : List Bool)
  deriving DecidableEq

/-- A step of a simulation: a call, the METHOD of `edge_action`, or the next delta cycle,
which is at the same time or a later one. -/
inductive Action where
  | call (call : Call)
  | edgeAction
  | advance (time : Nat)
  deriving DecidableEq

structure State where
  clockEnable : Bool
  /-- The time of the notification of `m_event` that is pending. -/
  event : Option Nat
  /-- `m_event` has occurred in this delta cycle and `edge_action` is to run. -/
  edgeDue : Bool
  now : Nat
  deriving DecidableEq

/-- After construction, where `enabled` notifies the event for the first delta cycle. -/
def construct (enabled : Bool) : State where
  clockEnable := true
  event := if enabled then some 0 else none
  edgeDue := false
  now := 0

section
variable (period : Nat)

namespace State

/-- `m_event.notify(m_period)`: of two timed notifications the earlier wins. -/
def notify (s : State) : State :=
  { s with event := some (s.event.elim (s.now + period) (min (s.now + period))) }

def enable (s : State) : State :=
  { (if !s.clockEnable then s.notify period else s) with clockEnable := true }

def disable (s : State) : State := { s with clockEnable := false }

def controlAction (gates : List Bool) (s : State) : State :=
  if gates.isEmpty then s
  else
    let enable := gates.foldl (fun enable gate => enable || gate) false
    { (if enable && !s.clockEnable then s.notify period else s) with clockEnable := enable }

def call (s : State) : Call → State
  | .enable => s.enable period
  | .disable => s.disable
  | .controlAction gates => s.controlAction period gates

def edgeAction (s : State) : State :=
  { (if s.clockEnable then s.notify period else s) with edgeDue := false }

def advance (s : State) (time : Nat) : State :=
  if s.event = some time then { s with event := none, edgeDue := true, now := time }
  else { s with now := time }

end State

/-- The clock, giving the time of an edge where one occurs. -/
def machine : Mealy Action (Option Nat) where
  State := State
  step s
    | .call call => (s.call period call, none)
    | .edgeAction => (s.edgeAction period, none)
    | .advance time => (s.advance time, if s.event = some time then some time else none)

/-- What the simulation kernel does: METHODs run in the delta cycle they are triggered in,
and time does not pass by a pending notification. -/
def scheduled (s : State) : Action → Prop
  | .call _ => True
  | .edgeAction => s.edgeDue = true
  | .advance time => s.edgeDue = false ∧ s.now ≤ time ∧ ∀ due ∈ s.event, time ≤ due

/-- The clock after a run, and the times of its edges. -/
def after (s : State) (actions : List Action) : State := (machine period).run s actions

def edges (s : State) (actions : List Action) : List Nat :=
  ((machine period).outputs s actions).filterMap id

end

/-- The value a call gives to the enable flag, if it gives one. -/
def Call.sets : Call → Option Bool
  | .enable => some true
  | .disable => some false
  | .controlAction gates => if gates.isEmpty then none else some (gates.any id)

def Action.sets : Action → Option Bool
  | .call c => c.sets
  | .edgeAction | .advance _ => none

/-- The values given to the enable flag in a run. -/
def controls (actions : List Action) : List Bool := actions.filterMap Action.sets

/-- What a gated clock promises in a run. -/
structure Runs (period : Nat) (enabled : Bool) (actions : List Action) : Prop where
  /-- Enabled and not disabled since, an edge is to come (but for the delta cycle of an
  edge, before its handler has run). -/
  pending : ∀ earlier, earlier <+: actions → (controls earlier).getLast? = some true →
    (after period (construct enabled) earlier).edgeDue = false →
    (after period (construct enabled) earlier).event.isSome = true
  /-- After a disable, until the next enable, only the pending edge occurs. -/
  disabled : ∀ earlier action later, earlier ++ action :: later <+: actions →
    action.sets = some false → true ∉ controls later →
    edges period (after period (construct enabled) (earlier ++ [action])) later <+:
      (after period (construct enabled) (earlier ++ [action])).event.toList
  /-- Two edges are at least one period apart. -/
  spaced : (edges period (construct enabled) actions).IsChain (fun a b => a + period ≤ b)

section
variable {period : Nat}

theorem after_concat (s : State) (actions : List Action) (action : Action) :
    after period s (actions ++ [action]) =
      ((machine period).step (after period s actions) action).1 :=
  Mealy.run_concat _ _ _ _

theorem controls_concat (actions : List Action) (action : Action) :
    controls (actions ++ [action]) = controls actions ++ action.sets.toList := by
  rw [controls, List.filterMap_append]
  cases h : action.sets <;> simp [controls, h]

theorem foldl_or (gates : List Bool) (b : Bool) :
    gates.foldl (fun enable gate => enable || gate) b = (b || gates.any id) := by
  induction gates generalizing b with
  | nil => simp
  | cons gate gates ih => rw [List.foldl_cons, ih, List.any_cons, Bool.or_assoc]; rfl

/-- Every call that gives the enable flag a value leaves it there, with an edge to come
if that is a change to enabled; every other one changes nothing. -/
theorem State.call_cases (period : Nat) (s : State) (call : Call) :
    (call.sets = none ∧ s.call period call = s) ∨
    (call.sets = some false ∧ s.call period call = { s with clockEnable := false }) ∨
    (call.sets = some true ∧ s.call period call =
      { (if s.clockEnable then s else s.notify period) with clockEnable := true }) := by
  cases call with
  | enable => cases h : s.clockEnable <;> simp [State.call, State.enable, Call.sets, h]
  | disable => exact .inr (.inl ⟨rfl, rfl⟩)
  | controlAction gates =>
    have hfold := foldl_or gates false
    rw [Bool.false_or] at hfold
    cases hempty : gates.isEmpty with
    | true => simp [State.call, State.controlAction, Call.sets, hempty]
    | false =>
      cases hany : gates.any id <;> cases h : s.clockEnable <;>
        simp [State.call, State.controlAction, Call.sets, hempty, hfold, hany, h]

/-- The last value given to the enable flag stays. -/
theorem after_clockEnable {s : State} {actions : List Action} {value : Bool}
    (h : (controls actions).getLast? = some value) :
    (after period s actions).clockEnable = value := by
  induction actions using List.reverseRecOn with
  | nil => simp [controls] at h
  | append_singleton actions action ih =>
    rw [controls_concat] at h
    rw [after_concat]
    cases action with
    | edgeAction =>
      have hold := ih (by simpa [Action.sets] using h)
      cases hflag : (after period s actions).clockEnable <;>
        simp [machine, State.edgeAction, State.notify, hflag, ← hold]
    | advance time =>
      have hold := ih (by simpa [Action.sets] using h)
      simp only [machine, State.advance]
      split <;> exact hold
    | call c =>
      rcases State.call_cases period (after period s actions) c with
        ⟨hsets, hcall⟩ | ⟨hsets, hcall⟩ | ⟨hsets, hcall⟩
      · simp only [machine, hcall]
        exact ih (by simpa [Action.sets, hsets] using h)
      · simp [Action.sets, hsets] at h
        simp [machine, hcall, h]
      · simp [Action.sets, hsets] at h
        simp [machine, hcall, h]

/-- An enabled clock has an edge to come. -/
def Live (s : State) : Prop :=
  s.clockEnable = true → s.edgeDue = false → s.event.isSome = true

/-- Constructed as disabled and not controlled yet: the flag says enabled, and there is
no edge to come. -/
def Dead (s : State) : Prop := s.clockEnable = true ∧ s.edgeDue = false ∧ s.event = none

theorem step_live {s : State} (h : Live s) {action : Action} (hok : scheduled s action) :
    Live ((machine period).step s action).1 := by
  cases action with
  | call c =>
    rcases State.call_cases period s c with ⟨-, hcall⟩ | ⟨-, hcall⟩ | ⟨-, hcall⟩
    · simp only [machine, hcall]
      exact h
    · simp [machine, hcall, Live]
    · intro _ hdue
      simp only [machine, hcall] at hdue ⊢
      split at hdue
      · rename_i hflag
        simpa [hflag] using h hflag hdue
      · rename_i hflag
        simp [hflag, State.notify]
  | edgeAction =>
    intro hflag _
    cases hold : s.clockEnable <;> simp [machine, State.edgeAction, State.notify, hold] at hflag ⊢
  | advance time =>
    simp only [machine, State.advance]
    split
    · simp [Live]
    · exact fun hflag _ => h hflag hok.1

/-- Only a control call ends the dead state. -/
theorem step_dead {s : State} (h : Dead s) {action : Action} (hok : scheduled s action) :
    (action.sets = none → Dead ((machine period).step s action).1) ∧
    (action.sets = some false → Live ((machine period).step s action).1) ∧
    (action.sets = some true → Dead ((machine period).step s action).1) := by
  obtain ⟨hflag, hdue, hevent⟩ := h
  cases action with
  | call c =>
    rcases State.call_cases period s c with ⟨hsets, hcall⟩ | ⟨hsets, hcall⟩ | ⟨hsets, hcall⟩
    · simp [Action.sets, hsets, machine, hcall, Dead, hflag, hdue, hevent]
    · simp [Action.sets, hsets, machine, hcall, Live]
    · simp [Action.sets, hsets, machine, hcall, Dead, hflag, hdue, hevent]
  | edgeAction => simp [scheduled, hdue] at hok
  | advance time => simp [Action.sets, machine, State.advance, Dead, hflag, hdue, hevent]

theorem after_dead {actions : List Action}
    (hok : (machine period).EveryStep scheduled (construct false) actions)
    (hnone : controls actions = []) : Dead (after period (construct false) actions) := by
  induction actions using List.reverseRecOn with
  | nil => exact ⟨rfl, rfl, rfl⟩
  | append_singleton actions action ih =>
    obtain ⟨hrun, hlast⟩ := Mealy.everyStep_concat.mp hok
    rw [controls_concat, List.append_eq_nil_iff] at hnone
    rw [after_concat]
    refine (step_dead (ih hrun hnone.1) hlast).1 ?_
    cases hsets : action.sets with
    | none => rfl
    | some value => simp [hsets] at hnone

/-- A run of a clock that is constructed enabled, or is first controlled to be disabled. -/
theorem after_live {enabled : Bool} {actions : List Action}
    (hok : (machine period).EveryStep scheduled (construct enabled) actions)
    (h : enabled = true ∨ (controls actions).head? ≠ some true) :
    Live (after period (construct enabled) actions) ∨
      (enabled = false ∧ controls actions = []) := by
  induction actions using List.reverseRecOn with
  | nil =>
    cases enabled with
    | true => exact .inl fun _ _ => rfl
    | false => exact .inr ⟨rfl, rfl⟩
  | append_singleton actions action ih =>
    obtain ⟨hrun, hlast⟩ := Mealy.everyStep_concat.mp hok
    rw [controls_concat] at h ⊢
    rw [after_concat]
    have hearlierRun : enabled = true ∨ (controls actions).head? ≠ some true := by
      refine h.imp_right fun hne heq => hne ?_
      rw [List.head?_append, heq]
      rfl
    rcases ih hrun hearlierRun with hlive | ⟨rfl, hnone⟩
    · exact .inl (step_live hlive hlast)
    · cases hsets : action.sets with
      | none => exact .inr ⟨rfl, by simp [hnone]⟩
      | some value =>
        cases value with
        | false => exact .inl ((step_dead (after_dead hrun hnone) hlast).2.1 hsets)
        | true => simp [hnone, hsets] at h

theorem edges_cons (s : State) (action : Action) (actions : List Action) :
    edges period s (action :: actions) =
      ((machine period).step s action).2.toList ++
        edges period ((machine period).step s action).1 actions := by
  cases h : ((machine period).step s action).2 with
  | none => simp [edges, Mealy.outputs, h]
  | some time => simp [edges, Mealy.outputs, h]

/-- While the clock is disabled only the pending edge occurs. -/
theorem edges_disabled {s : State} (h : s.clockEnable = false) {actions : List Action}
    (hno : true ∉ controls actions) : edges period s actions <+: s.event.toList := by
  induction actions generalizing s with
  | nil => exact List.nil_prefix
  | cons action actions ih =>
    have hrest : true ∉ controls actions := by
      intro hmem
      apply hno
      rw [controls, List.filterMap_cons]
      split
      · exact hmem
      · exact List.mem_cons_of_mem _ hmem
    have hsets : action.sets ≠ some true := by
      intro hsets
      apply hno
      simp [controls, hsets]
    rw [edges_cons]
    cases action with
    | call c =>
      rcases State.call_cases period s c with ⟨-, hcall⟩ | ⟨-, hcall⟩ | ⟨htrue, -⟩
      · simp only [machine, hcall]
        exact ih h hrest
      · simp only [machine, hcall]
        exact ih (s := { s with clockEnable := false }) rfl hrest
      · exact absurd htrue hsets
    | edgeAction =>
      simp only [machine, State.edgeAction, h]
      exact ih (s := { s with edgeDue := false }) h hrest
    | advance time =>
      simp only [machine, State.advance]
      split
      · rename_i hevent
        have hnil := ih (s := { s with event := none, edgeDue := true, now := time }) h hrest
        rw [List.prefix_nil.mp hnil, hevent]
        exact List.prefix_refl _
      · exact ih (s := { s with now := time }) h hrest

theorem notify_bound {s : State} {bound : Nat} (hevent : ∀ due ∈ s.event, bound ≤ due)
    (hnow : bound ≤ s.now + period) : ∀ due ∈ (s.notify period).event, bound ≤ due :=
  TimedEvent.le_notify hevent hnow

/-- From a state whose next edge is not before `bound`, edges are one period apart. -/
theorem edges_spaced {s : State} {bound : Nat} (hevent : ∀ due ∈ s.event, bound ≤ due)
    (hnow : bound ≤ s.now + period) {actions : List Action}
    (hok : (machine period).EveryStep scheduled s actions) :
    (∀ time ∈ (edges period s actions).head?, bound ≤ time) ∧
      (edges period s actions).IsChain (fun a b => a + period ≤ b) := by
  induction actions generalizing s bound with
  | nil => simp [edges, Mealy.outputs]
  | cons action actions ih =>
    obtain ⟨hfirst, hrest⟩ := hok
    rw [edges_cons]
    cases action with
    | call c =>
      change (machine period).EveryStep scheduled (s.call period c) actions at hrest
      change (∀ time ∈ (edges period (s.call period c) actions).head?, bound ≤ time) ∧
        (edges period (s.call period c) actions).IsChain _
      rcases State.call_cases period s c with ⟨-, hcall⟩ | ⟨-, hcall⟩ | ⟨-, hcall⟩ <;>
        rw [hcall] at hrest ⊢
      · exact ih hevent hnow hrest
      · exact ih (s := { s with clockEnable := false }) hevent hnow hrest
      · cases hflag : s.clockEnable with
        | true =>
          rw [hflag] at hrest
          exact ih (s := { s with clockEnable := true }) hevent hnow hrest
        | false =>
          rw [hflag] at hrest
          exact ih (s := { s.notify period with clockEnable := true })
            (notify_bound hevent hnow) hnow hrest
    | edgeAction =>
      change (machine period).EveryStep scheduled (s.edgeAction period) actions at hrest
      change (∀ time ∈ (edges period (s.edgeAction period) actions).head?, bound ≤ time) ∧
        (edges period (s.edgeAction period) actions).IsChain _
      simp only [State.edgeAction] at hrest ⊢
      cases hflag : s.clockEnable with
      | true =>
        rw [hflag] at hrest
        exact ih (s := { s.notify period with edgeDue := false })
          (notify_bound hevent hnow) hnow hrest
      | false =>
        rw [hflag] at hrest
        exact ih (s := { s with edgeDue := false }) hevent hnow hrest
    | advance time =>
      obtain ⟨-, hle, -⟩ := hfirst
      change (machine period).EveryStep scheduled (s.advance time) actions at hrest
      simp only [machine, State.advance] at hrest ⊢
      split
      · rename_i hdue
        rw [if_pos hdue] at hrest
        -- The edge is at `time`, and the next one not before a period later
        obtain ⟨hhead, hchain⟩ :=
          @ih { s with event := none, edgeDue := true, now := time } (time + period) (by simp)
            (Nat.le_refl _) hrest
        refine ⟨?_, List.isChain_cons.mpr ⟨hhead, hchain⟩⟩
        simpa using hevent time hdue
      · rename_i hdue
        rw [if_neg hdue] at hrest
        exact ih (s := { s with now := time }) hevent
          (Nat.le_trans hnow (Nat.add_le_add_right hle period)) hrest

/-- The clock keeps its promise in every run but those in which it is constructed as
disabled and first enabled. -/
theorem runs_iff (period : Nat) (enabled : Bool) {actions : List Action}
    (hok : (machine period).EveryStep scheduled (construct enabled) actions) :
    Runs period enabled actions ↔
      enabled = true ∨ (controls actions).head? ≠ some true := by
  have hearlierRun {earlier : List Action} (h : earlier <+: actions) :
      (machine period).EveryStep scheduled (construct enabled) earlier := by
    obtain ⟨later, rfl⟩ := h
    exact (Mealy.everyStep_append.mp hok).1
  constructor
  · intro h
    by_contra hnot
    obtain ⟨henabled, hhead⟩ : enabled = false ∧ (controls actions).head? = some true := by
      simpa using hnot
    subst henabled
    obtain ⟨rest, hrest⟩ := List.head?_eq_some_iff.mp hhead
    obtain ⟨idle, action, later, rfl, hidle, hsets, -⟩ := List.filterMap_eq_cons_iff.mp hrest
    have hearlier : idle ++ [action] <+: idle ++ action :: later := ⟨later, by simp⟩
    have hnone : controls idle = [] := List.filterMap_eq_nil_iff.mpr hidle
    obtain ⟨hrun, hlast⟩ := Mealy.everyStep_concat.mp (hearlierRun hearlier)
    obtain ⟨-, hdue, hevent⟩ := (step_dead (after_dead hrun hnone) hlast).2.2 hsets
    rw [← after_concat] at hdue hevent
    have hpending := h.pending _ hearlier (by simp [controls_concat, hnone, hsets]) hdue
    simp [hevent] at hpending
  · intro h
    refine ⟨?_, ?_, ?_⟩
    · intro earlier hearlier hlast hdue
      have hfirst : enabled = true ∨ (controls earlier).head? ≠ some true := by
        refine h.imp_right fun hne heq => hne ?_
        obtain ⟨later, rfl⟩ := hearlier
        rw [controls, List.filterMap_append, List.head?_append]
        exact Option.or_eq_some_iff.mpr (.inl heq)
      rcases after_live (hearlierRun hearlier) hfirst with hlive | ⟨-, hnone⟩
      · exact hlive (after_clockEnable hlast) hdue
      · simp [hnone] at hlast
    · intro earlier action later _ hsets hno
      have hlast : (controls (earlier ++ [action])).getLast? = some false := by
        simp [controls_concat, hsets]
      exact edges_disabled (after_clockEnable hlast) hno
    · cases enabled with
      | true => exact (edges_spaced (fun due _ => Nat.zero_le due) (Nat.zero_le _) hok).2
      | false => exact (edges_spaced (fun due _ => Nat.zero_le due) (Nat.zero_le _) hok).2

end

/-- Disabled during elaboration and enabled later, with the edges of two periods. -/
private def gated : List Action :=
  [.call (.controlAction [false, false]), .advance 3, .call (.controlAction [false, true]),
   .advance 13, .edgeAction, .advance 20, .call (.controlAction [true, true]), .advance 23,
   .edgeAction]

theorem runs_gated :
    edges 10 (construct false) gated = [13, 23] ∧ Runs 10 false gated := by
  have hok : (machine 10).EveryStep scheduled (construct false) gated := by
    simp [gated, Mealy.EveryStep, scheduled, machine, construct, State.call,
      State.controlAction, State.advance, State.edgeAction, State.notify]
  exact ⟨by decide, (runs_iff 10 false hok).mpr (.inr (by decide))⟩

/-- Constructed as disabled, `enable` starts no edge. -/
theorem enable_starts_nothing :
    ¬∀ (enabled : Bool) (actions : List Action),
      (machine 10).EveryStep scheduled (construct enabled) actions → Runs 10 enabled actions := by
  intro h
  have hpending := (h false [.call .enable] ⟨trivial, trivial⟩).pending [.call .enable]
    (List.prefix_refl _) rfl rfl
  revert hpending
  decide

end SystemcCompiler.Clock
