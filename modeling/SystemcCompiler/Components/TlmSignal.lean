import SystemcCompiler.Library.Channel
import SystemcCompiler.Library.TimedEvent
import Mathlib.Data.List.Induction
import Mathlib.Data.List.Chain

/-! The approximate time `sct_signal`: a written value is read after the next update, and
a change wakes methods in the next delta cycle and threads one clock period later. -/
namespace SystemcCompiler.TlmSignal
open Channel

/-- What elaboration leaves: the clock period of the threads, the kinds of processes that
are sensitive to the signal, and the level of `ENABLE_EVENT` if it is not void. -/
structure Config (T : Type) where
  clkPeriod : Nat
  methEvent : Bool
  thrdEvent : Bool
  level : Option T

/-- A step of a simulation: a write of a process, the update the signal requested, the
METHOD `updateProc`, or the next delta cycle, which is at the same time or a later one. -/
inductive Action (T : Type) where
  | write (data : T)
  | update
  | updateProc
  | advance (time : Nat)
  deriving DecidableEq

structure State (T : Type) where
  currVal : T
  nextVal : T
  /-- `request_update` was called in this evaluation phase. -/
  updateRequested : Bool
  /-- The delta notification of `meth_event` is pending. -/
  methEvent : Bool
  /-- The time of the notification of `thrd_event` that is pending. -/
  thrdEvent : Option Nat
  /-- `thrd_event` has occurred in this delta cycle and `updateProc` is to run. -/
  updateProcDue : Bool
  now : Nat
  deriving DecidableEq

def construct {T : Type} (initial : T) : State T where
  currVal := initial
  nextVal := initial
  updateRequested := false
  methEvent := false
  thrdEvent := none
  updateProcDue := false
  now := 0

variable {T : Type}

namespace State

/-- `thrd_event.notify(clk_period)`. -/
def notifyThreads (cfg : Config T) (s : State T) : State T :=
  { s with thrdEvent := TimedEvent.notify s.thrdEvent (s.now + cfg.clkPeriod) }

end State

/-- No notification is for a time that has passed. -/
def NotPast (s : State T) : Prop := ∀ due ∈ s.thrdEvent, s.now ≤ due

theorem NotPast.notifyThreads {cfg : Config T} {s : State T} (h : NotPast s) :
    NotPast (s.notifyThreads cfg) :=
  TimedEvent.le_notify h (Nat.le_add_right _ _)

/-- What is pending by a time stays so where it is notified again. -/
theorem NotPast.notifyThreads_le {cfg : Config T} {bound : Nat} {s : State T} (hpast : NotPast s)
    (h : s.now + cfg.clkPeriod ≤ bound ∨ ∃ due ∈ s.thrdEvent, due ≤ bound) :
    ∃ due ∈ (s.notifyThreads cfg).thrdEvent, s.now ≤ due ∧ due ≤ bound := by
  obtain ⟨due, hdue, hperiod, hold⟩ :=
    TimedEvent.notify_le s.thrdEvent (s.now + cfg.clkPeriod)
  refine ⟨due, hdue, hpast.notifyThreads due hdue, ?_⟩
  rcases h with hnow | ⟨old, hmem, hle⟩
  · exact Nat.le_trans hperiod hnow
  · exact Nat.le_trans (hold old hmem) hle

/-- The threads are not woken before this time. -/
def NotBefore (cfg : Config T) (bound : Nat) (s : State T) : Prop :=
  (∀ due ∈ s.thrdEvent, bound ≤ due) ∧ bound ≤ s.now + cfg.clkPeriod

theorem NotBefore.notifyThreads {cfg : Config T} {bound : Nat} {s : State T}
    (h : NotBefore cfg bound s) :
    ∀ due ∈ (s.notifyThreads cfg).thrdEvent, bound ≤ due :=
  TimedEvent.le_notify h.1 h.2

section
variable [DecidableEq T] (cfg : Config T)

namespace State

def write (s : State T) (data : T) : State T :=
  { s with
    nextVal := data
    updateRequested := s.updateRequested || !decide (s.nextVal = data) }

def update (s : State T) : State T :=
  if s.currVal = s.nextVal then { s with updateRequested := false }
  else
    { (if cfg.thrdEvent then s.notifyThreads cfg else s) with
      currVal := s.nextVal
      updateRequested := false
      methEvent := s.methEvent || cfg.methEvent }

def updateProc (s : State T) : State T :=
  { (if cfg.level = some s.currVal then s.notifyThreads cfg else s) with updateProcDue := false }

def advance (s : State T) (time : Nat) : State T :=
  if s.thrdEvent = some time then
    { s with
      methEvent := false
      thrdEvent := none
      updateProcDue := cfg.level.isSome
      now := time }
  else { s with methEvent := false, now := time }

end State

/-- Which processes a step wakes. -/
structure Woken where
  methods : Bool
  threads : Option Nat
  deriving DecidableEq

/-- The signal, giving the processes that its events wake. -/
def machine : Mealy (Action T) Woken where
  State := State T
  step s
    | .write data => (s.write data, ⟨false, none⟩)
    | .update => (s.update cfg, ⟨false, none⟩)
    | .updateProc => (s.updateProc cfg, ⟨false, none⟩)
    | .advance time =>
      (s.advance cfg time, ⟨s.methEvent, if s.thrdEvent = some time then some time else none⟩)

/-- What the simulation kernel does: METHODs run in the delta cycle they are triggered in,
requested updates follow them, and time does not pass by a pending notification. -/
def scheduled (s : State T) : Action T → Prop
  | .write _ => True
  | .update => s.updateRequested = true ∧ s.updateProcDue = false
  | .updateProc => s.updateProcDue = true
  | .advance time => s.updateRequested = false ∧ s.updateProcDue = false ∧ s.now ≤ time ∧
      (s.methEvent = true → time = s.now) ∧ ∀ due ∈ s.thrdEvent, time ≤ due

/-- The signal after a run, and the times at which `thrd_event` occurs. -/
def after (s : State T) (actions : List (Action T)) : State T := (machine cfg).run s actions

def wakeUps (s : State T) (actions : List (Action T)) : List Nat :=
  ((machine cfg).outputs s actions).filterMap Woken.threads

/-- The threads are to be woken one period after this step: it changes the value, or wakes
them while the value is the one that enables the event. -/
def Cause (s : State T) : Action T → Prop
  | .write _ | .updateProc => False
  | .update => cfg.thrdEvent = true ∧ s.currVal ≠ s.nextVal
  | .advance time => s.thrdEvent = some time ∧ cfg.level = some s.currVal

/-- The value was changed after the last time the kernel went on to a next delta cycle. -/
def ChangedLast (s : State T) (actions : List (Action T)) : Prop :=
  ∃ before later, before ++ .update :: later = actions ∧ (∀ time, .advance time ∉ later) ∧
    (after cfg s before).currVal ≠ (after cfg s before).nextVal

/-- A cause among the steps of a run, and the time of it. -/
def CausedAt (s : State T) (actions : List (Action T)) (cause : Nat) : Prop :=
  ∃ before action later, before ++ action :: later = actions ∧
    Cause cfg (after cfg s before) action ∧ cause = (after cfg s (before ++ [action])).now

end

def Action.written : Action T → Option T
  | .write data => some data
  | .update | .updateProc | .advance _ => none

/-- The values written in a run. -/
def writes (actions : List (Action T)) : List T := actions.filterMap Action.written

theorem writes_concat (actions : List (Action T)) (action : Action T) :
    writes (actions ++ [action]) = writes actions ++ action.written.toList := by
  rw [writes, List.filterMap_append]
  cases h : action.written <;> simp [writes, h]

section
variable [DecidableEq T]

/-- What the signal promises in a run. -/
structure Runs (cfg : Config T) (initial : T) (actions : List (Action T)) : Prop where
  /-- The last value written is read, but for one whose update is still to come. -/
  read : (after cfg (construct initial) actions).updateRequested = false →
    (after cfg (construct initial) actions).currVal = ((writes actions).getLast?).getD initial
  /-- Methods are woken in the delta cycle after a change and in no other. -/
  methods : ∀ earlier time later, earlier ++ .advance time :: later = actions →
    (((machine cfg).step (after cfg (construct initial) earlier) (.advance time)).2.methods = true
      ↔ cfg.methEvent = true ∧ ChangedLast cfg (construct initial) earlier)
  /-- Threads are woken at most one period after each cause, unless the run ends before. -/
  woken : ∀ earlier action later, earlier ++ action :: later = actions →
    Cause cfg (after cfg (construct initial) earlier) action →
    (∃ time ∈ wakeUps cfg (after cfg (construct initial) (earlier ++ [action])) later,
      time ≤ (after cfg (construct initial) (earlier ++ [action])).now + cfg.clkPeriod) ∨
    (after cfg (construct initial) actions).now ≤
      (after cfg (construct initial) (earlier ++ [action])).now + cfg.clkPeriod
  /-- Threads are woken one period after a cause only. -/
  caused : ∀ earlier time later, earlier ++ .advance time :: later = actions →
    (after cfg (construct initial) earlier).thrdEvent = some time →
    ∃ cause, CausedAt cfg (construct initial) earlier cause ∧ time = cause + cfg.clkPeriod
  /-- Threads are not woken twice in one period. -/
  spaced : (wakeUps cfg (construct initial) actions).IsChain
    (fun a b => a + cfg.clkPeriod ≤ b)

variable {cfg : Config T}

theorem after_concat (s : State T) (actions : List (Action T)) (action : Action T) :
    after cfg s (actions ++ [action]) = ((machine cfg).step (after cfg s actions) action).1 :=
  Mealy.run_concat _ _ _ _

theorem after_append (s : State T) (first last : List (Action T)) :
    after cfg s (first ++ last) = after cfg (after cfg s first) last :=
  List.foldl_append

theorem after_cons (s : State T) (action : Action T) (actions : List (Action T)) :
    after cfg s (action :: actions) = after cfg ((machine cfg).step s action).1 actions :=
  rfl

theorem wakeUps_cons (s : State T) (action : Action T) (actions : List (Action T)) :
    wakeUps cfg s (action :: actions) =
      ((machine cfg).step s action).2.threads.toList ++
        wakeUps cfg ((machine cfg).step s action).1 actions := by
  cases h : ((machine cfg).step s action).2.threads with
  | none => simp [wakeUps, Mealy.outputs, h]
  | some time => simp [wakeUps, Mealy.outputs, h]

namespace State

theorem update_eq (cfg : Config T) (s : State T) : s.update cfg =
    { s with
      currVal := s.nextVal
      updateRequested := false
      methEvent := s.methEvent || (cfg.methEvent && !decide (s.currVal = s.nextVal))
      thrdEvent := if cfg.thrdEvent = true ∧ s.currVal ≠ s.nextVal then
        (s.notifyThreads cfg).thrdEvent else s.thrdEvent } := by
  by_cases hsame : s.currVal = s.nextVal
  · simp [update, hsame]
  · cases hthreads : cfg.thrdEvent <;> simp [update, notifyThreads, hsame, hthreads]

theorem updateProc_eq (cfg : Config T) (s : State T) : s.updateProc cfg =
    { s with
      thrdEvent := if cfg.level = some s.currVal then
        (s.notifyThreads cfg).thrdEvent else s.thrdEvent
      updateProcDue := false } := by
  rw [updateProc]
  split <;> rfl

end State

/-- Where no update is requested the value read is the one written. -/
def Settled (s : State T) : Prop := s.updateRequested = false → s.currVal = s.nextVal

theorem step_settled {s : State T} (h : Settled s) (action : Action T) :
    Settled ((machine cfg).step s action).1 := by
  cases action with
  | write data =>
    intro hnone
    simp only [machine, State.write, Bool.or_eq_false_iff] at hnone ⊢
    rw [h hnone.1]
    simpa using hnone.2
  | update =>
    intro _
    simp [machine, State.update_eq]
  | updateProc =>
    simp only [machine, State.updateProc_eq]
    exact h
  | advance time =>
    simp only [machine, State.advance]
    split <;> exact h

theorem after_settled (initial : T) (actions : List (Action T)) :
    Settled (after cfg (construct initial) actions) := by
  induction actions using List.reverseRecOn with
  | nil => exact fun _ => rfl
  | append_singleton actions action ih =>
    rw [after_concat]
    exact step_settled ih action

theorem after_nextVal (s : State T) (actions : List (Action T)) :
    (after cfg s actions).nextVal = ((writes actions).getLast?).getD s.nextVal := by
  induction actions using List.reverseRecOn with
  | nil => rfl
  | append_singleton actions action ih =>
    rw [after_concat, writes_concat]
    cases action with
    | write data => simp [machine, State.write, Action.written]
    | update => simpa [machine, State.update_eq, Action.written] using ih
    | updateProc => simpa [machine, State.updateProc_eq, Action.written] using ih
    | advance time =>
      simp only [machine, State.advance, Action.written, Option.toList_none, List.append_nil]
      split <;> exact ih

theorem step_notPast {s : State T} (h : NotPast s) {action : Action T}
    (hok : scheduled s action) : NotPast ((machine cfg).step s action).1 := by
  cases action with
  | write data => exact h
  | update =>
    simp only [machine, State.update_eq, NotPast]
    split
    · exact h.notifyThreads
    · exact h
  | updateProc =>
    simp only [machine, State.updateProc_eq, NotPast]
    split
    · exact h.notifyThreads
    · exact h
  | advance time =>
    simp only [machine, State.advance, NotPast]
    split
    · simp
    · exact hok.2.2.2.2

theorem after_notPast {s : State T} (h : NotPast s) {actions : List (Action T)}
    (hok : (machine cfg).EveryStep scheduled s actions) : NotPast (after cfg s actions) := by
  induction actions using List.reverseRecOn with
  | nil => exact h
  | append_singleton actions action ih =>
    obtain ⟨hrun, hlast⟩ := Mealy.everyStep_concat.mp hok
    rw [after_concat]
    exact step_notPast (ih hrun) hlast

theorem changedLast_concat {s : State T} {actions : List (Action T)} {action : Action T} :
    ChangedLast cfg s (actions ++ [action]) ↔
      (action = .update ∧ (after cfg s actions).currVal ≠ (after cfg s actions).nextVal) ∨
      ((∀ time, action ≠ .advance time) ∧ ChangedLast cfg s actions) := by
  constructor
  · rintro ⟨before, later, heq, hno, hchange⟩
    rcases List.eq_nil_or_concat later with rfl | ⟨later, last, rfl⟩
    · obtain ⟨rfl, hlast⟩ := List.append_inj' heq rfl
      cases hlast
      exact .inl ⟨rfl, hchange⟩
    · rw [List.concat_eq_append, ← List.cons_append, ← List.append_assoc] at heq
      obtain ⟨rfl, hlast⟩ := List.append_inj' heq rfl
      cases hlast
      refine .inr ⟨?_, before, later, rfl, ?_, hchange⟩
      · rintro time rfl
        exact hno time (by simp)
      · exact fun time hmem => hno time (by simp [hmem])
  · rintro (⟨rfl, hchange⟩ | ⟨hno, before, later, rfl, hnone, hchange⟩)
    · exact ⟨actions, [], rfl, by simp, hchange⟩
    · refine ⟨before, later ++ [action], by simp, ?_, hchange⟩
      intro time hmem
      rcases List.mem_append.mp hmem with hmem | hmem
      · exact hnone time hmem
      · exact hno time (List.mem_singleton.mp hmem).symm

theorem after_methEvent (initial : T) (actions : List (Action T)) :
    (after cfg (construct initial) actions).methEvent = true ↔
      cfg.methEvent = true ∧ ChangedLast cfg (construct initial) actions := by
  induction actions using List.reverseRecOn with
  | nil =>
    have hnone : (after cfg (construct initial) []).methEvent = false := rfl
    simp [hnone, ChangedLast]
  | append_singleton actions action ih =>
    rw [after_concat, changedLast_concat]
    cases action with
    | write data => simpa [machine, State.write] using ih
    | update =>
      by_cases hsame : (after cfg (construct initial) actions).currVal =
          (after cfg (construct initial) actions).nextVal
      · simpa [machine, State.update_eq, hsame] using ih
      · simpa [machine, State.update_eq, hsame] using fun hold => (ih.mp hold).1
    | updateProc => simpa [machine, State.updateProc_eq] using ih
    | advance time =>
      simp only [machine, State.advance]
      split <;> simp

/-- The threads are to be woken by this time: a notification is pending, or `updateProc`
is to give it. -/
def Awaited (cfg : Config T) (bound : Nat) (s : State T) : Prop :=
  (∃ due ∈ s.thrdEvent, s.now ≤ due ∧ due ≤ bound) ∨
  (s.updateProcDue = true ∧ cfg.level = some s.currVal ∧ NotPast s ∧
    s.now + cfg.clkPeriod ≤ bound)

theorem cause_awaited {s : State T} (hpast : NotPast s) {action : Action T}
    (h : Cause cfg s action) :
    Awaited cfg (((machine cfg).step s action).1.now + cfg.clkPeriod)
      ((machine cfg).step s action).1 := by
  cases action with
  | write data => exact h.elim
  | updateProc => exact h.elim
  | update =>
    simp only [Cause] at h
    simp only [machine, State.update_eq, Awaited, if_pos h]
    exact .inl (hpast.notifyThreads_le (.inl (Nat.le_refl _)))
  | advance time =>
    obtain ⟨hevent, hlevel⟩ := h
    simp only [machine, State.advance, if_pos hevent]
    exact .inr ⟨by simp [hlevel], hlevel, by simp [NotPast], Nat.le_refl _⟩

theorem step_awaited {bound : Nat} {s : State T} (h : Awaited cfg bound s) (hpast : NotPast s)
    {action : Action T} (hok : scheduled s action) :
    (∃ time ∈ ((machine cfg).step s action).2.threads, time ≤ bound) ∨
      Awaited cfg bound ((machine cfg).step s action).1 := by
  cases action with
  | write data => exact .inr h
  | update =>
    right
    rcases h with ⟨due, hdue, hnow, hle⟩ | ⟨hproc, -⟩
    · simp only [machine, State.update_eq, Awaited]
      split
      · exact .inl (hpast.notifyThreads_le (.inr ⟨due, hdue, hle⟩))
      · exact .inl ⟨due, hdue, hnow, hle⟩
    · exact absurd hproc (by simp [hok.2])
  | updateProc =>
    right
    simp only [machine, State.updateProc_eq, Awaited]
    rcases h with ⟨due, hdue, hnow, hle⟩ | ⟨-, hlevel, -, hle⟩
    · split
      · exact .inl (hpast.notifyThreads_le (.inr ⟨due, hdue, hle⟩))
      · exact .inl ⟨due, hdue, hnow, hle⟩
    · rw [if_pos hlevel]
      exact .inl (hpast.notifyThreads_le (.inl hle))
  | advance time =>
    obtain ⟨-, hproc, -, -, hbefore⟩ := hok
    rcases h with ⟨due, hdue, hnow, hle⟩ | ⟨hproc', -⟩
    · by_cases hevent : s.thrdEvent = some time
      · refine .inl ⟨time, by simp [machine, hevent], ?_⟩
        exact Nat.le_trans (hbefore due hdue) hle
      · right
        simp only [machine, State.advance, if_neg hevent]
        exact .inl ⟨due, hdue, hbefore due hdue, hle⟩
    · simp [hproc] at hproc'

theorem awaited_occurs {bound : Nat} {s : State T} (h : Awaited cfg bound s) (hpast : NotPast s)
    {actions : List (Action T)} (hok : (machine cfg).EveryStep scheduled s actions) :
    (∃ time ∈ wakeUps cfg s actions, time ≤ bound) ∨ (after cfg s actions).now ≤ bound := by
  induction actions generalizing s with
  | nil =>
    right
    rcases h with ⟨due, -, hnow, hdue⟩ | ⟨-, -, -, hnow⟩
    · exact Nat.le_trans hnow hdue
    · exact Nat.le_trans (Nat.le_add_right _ _) hnow
  | cons action actions ih =>
    obtain ⟨hfirst, hrest⟩ := hok
    rw [wakeUps_cons, after_cons]
    rcases step_awaited h hpast hfirst with ⟨time, htime, hle⟩ | hnext
    · exact .inl ⟨time, List.mem_append_left _ (Option.mem_toList.mpr htime), hle⟩
    · rcases ih hnext (step_notPast hpast hfirst) hrest with ⟨time, htime, hle⟩ | hnow
      · exact .inl ⟨time, List.mem_append_right _ htime, hle⟩
      · exact .inr hnow

theorem CausedAt.concat {s : State T} {actions : List (Action T)} {cause : Nat}
    (h : CausedAt cfg s actions cause) (last : Action T) :
    CausedAt cfg s (actions ++ [last]) cause := by
  obtain ⟨before, action, later, rfl, hcause, hnow⟩ := h
  exact ⟨before, action, later ++ [last], by simp, hcause, hnow⟩

theorem CausedAt.last {s : State T} {actions : List (Action T)} {action : Action T}
    (h : Cause cfg (after cfg s actions) action) :
    CausedAt cfg s (actions ++ [action]) (after cfg s (actions ++ [action])).now :=
  ⟨actions, action, [], rfl, h, rfl⟩

/-- Every notification that is pending, or that `updateProc` is to give, has a cause. -/
structure Explained (cfg : Config T) (s : State T) (actions : List (Action T)) : Prop where
  event : ∀ due ∈ (after cfg s actions).thrdEvent,
    ∃ cause, CausedAt cfg s actions cause ∧ due = cause + cfg.clkPeriod
  updateProc : (after cfg s actions).updateProcDue = true →
    cfg.level = some (after cfg s actions).currVal →
    CausedAt cfg s actions (after cfg s actions).now

theorem Explained.concat {s : State T} {actions : List (Action T)}
    (h : Explained cfg s actions) {action : Action T}
    (hok : scheduled (after cfg s actions) action) :
    Explained cfg s (actions ++ [action]) := by
  have hkept : ∀ due ∈ (after cfg s actions).thrdEvent,
      ∃ cause, CausedAt cfg s (actions ++ [action]) cause ∧ due = cause + cfg.clkPeriod := by
    intro due hdue
    obtain ⟨cause, hcause, heq⟩ := h.event due hdue
    exact ⟨cause, hcause.concat action, heq⟩
  -- A notification now has a cause where the time of the state has one
  have hnotify (hnow : CausedAt cfg s (actions ++ [action]) (after cfg s actions).now) :
      ∀ due ∈ ((after cfg s actions).notifyThreads cfg).thrdEvent,
        ∃ cause, CausedAt cfg s (actions ++ [action]) cause ∧ due = cause + cfg.clkPeriod := by
    intro due hdue
    rcases TimedEvent.notify_cases hdue with heq | hold
    · exact ⟨_, hnow, heq⟩
    · exact hkept due hold
  have hlast (hcause : Cause cfg (after cfg s actions) action) :
      CausedAt cfg s (actions ++ [action])
        ((machine cfg).step (after cfg s actions) action).1.now := by
    rw [← after_concat]
    exact .last hcause
  cases action with
  | write data =>
    refine ⟨?_, ?_⟩
    · rw [after_concat]
      exact hkept
    · rw [after_concat]
      exact fun hproc hlevel => (h.updateProc hproc hlevel).concat _
  | update =>
    refine ⟨?_, ?_⟩
    · rw [after_concat]
      simp only [machine, State.update_eq]
      split
      · rename_i hchange
        refine hnotify ?_
        simpa [machine, State.update_eq] using hlast hchange
      · exact hkept
    · rw [after_concat]
      simp [machine, State.update_eq, hok.2]
  | updateProc =>
    refine ⟨?_, ?_⟩
    · rw [after_concat]
      simp only [machine, State.updateProc_eq]
      split
      · rename_i hlevel
        exact hnotify ((h.updateProc hok hlevel).concat _)
      · exact hkept
    · rw [after_concat]
      simp [machine, State.updateProc_eq]
  | advance time =>
    by_cases hevent : (after cfg s actions).thrdEvent = some time
    · refine ⟨?_, ?_⟩
      · rw [after_concat]
        simp [machine, State.advance, hevent]
      · rw [after_concat]
        intro _ hlevel
        refine hlast ⟨hevent, ?_⟩
        simpa [machine, State.advance, hevent] using hlevel
    · refine ⟨?_, ?_⟩
      · rw [after_concat]
        simp only [machine, State.advance, if_neg hevent]
        exact hkept
      · rw [after_concat]
        simp [machine, State.advance, hevent, hok.2.1]

theorem after_explained {initial : T} {actions : List (Action T)}
    (hok : (machine cfg).EveryStep scheduled (construct initial) actions) :
    Explained cfg (construct initial) actions := by
  induction actions using List.reverseRecOn with
  | nil =>
    refine ⟨?_, ?_⟩
    · intro due hdue
      cases hdue
    · intro hproc
      cases hproc
  | append_singleton actions action ih =>
    obtain ⟨hrun, hlast⟩ := Mealy.everyStep_concat.mp hok
    exact (ih hrun).concat hlast

theorem step_notBefore {bound : Nat} {s : State T} (h : NotBefore cfg bound s)
    {action : Action T} (hok : scheduled s action) :
    (((machine cfg).step s action).2.threads = none ∧
      NotBefore cfg bound ((machine cfg).step s action).1) ∨
    ∃ time, ((machine cfg).step s action).2.threads = some time ∧ bound ≤ time ∧
      NotBefore cfg (time + cfg.clkPeriod) ((machine cfg).step s action).1 := by
  cases action with
  | write data => exact .inl ⟨rfl, h⟩
  | update =>
    refine .inl ⟨rfl, ?_, ?_⟩
    · simp only [machine, State.update_eq]
      split
      · exact h.notifyThreads
      · exact h.1
    · simpa [machine, State.update_eq] using h.2
  | updateProc =>
    refine .inl ⟨rfl, ?_, ?_⟩
    · simp only [machine, State.updateProc_eq]
      split
      · exact h.notifyThreads
      · exact h.1
    · simpa [machine, State.updateProc_eq] using h.2
  | advance time =>
    by_cases hevent : s.thrdEvent = some time
    · exact .inr ⟨time, by simp [machine, hevent], h.1 time hevent,
        by simp [machine, State.advance, hevent, NotBefore]⟩
    · have hlater := hok.2.2.1
      refine .inl ⟨by simp [machine, hevent], ?_, ?_⟩
      · simpa [machine, State.advance, hevent] using h.1
      · have := h.2
        simp only [machine, State.advance, if_neg hevent]
        omega

theorem wakeUps_spaced {bound : Nat} {s : State T} (h : NotBefore cfg bound s)
    {actions : List (Action T)} (hok : (machine cfg).EveryStep scheduled s actions) :
    (∀ time ∈ (wakeUps cfg s actions).head?, bound ≤ time) ∧
      (wakeUps cfg s actions).IsChain (fun a b => a + cfg.clkPeriod ≤ b) := by
  induction actions generalizing s bound with
  | nil => simp [wakeUps, Mealy.outputs]
  | cons action actions ih =>
    obtain ⟨hfirst, hrest⟩ := hok
    rw [wakeUps_cons]
    rcases step_notBefore h hfirst with ⟨hnone, hnext⟩ | ⟨time, hsome, hbound, hnext⟩
    · rw [hnone]
      exact ih hnext hrest
    · obtain ⟨hhead, hchain⟩ := ih hnext hrest
      rw [hsome]
      refine ⟨?_, List.isChain_cons.mpr ⟨hhead, hchain⟩⟩
      simpa using hbound

/-- The signal has this value and is to wake nobody. -/
def Idle (value : T) (s : State T) : Prop :=
  s.currVal = value ∧ s.nextVal = value ∧ s.thrdEvent = none ∧ s.updateProcDue = false

theorem step_idle {value : T} {s : State T} (h : Idle value s) {action : Action T}
    (hok : scheduled s action) (hsame : ∀ data ∈ action.written, data = value) :
    ((machine cfg).step s action).2.threads = none ∧
      Idle value ((machine cfg).step s action).1 := by
  obtain ⟨hcurr, hnext, hevent, hproc⟩ := h
  cases action with
  | write data => exact ⟨rfl, hcurr, hsame data rfl, hevent, hproc⟩
  | update => simp [machine, State.update_eq, Idle, hcurr, hnext, hevent, hproc]
  | updateProc => simp [scheduled, hproc] at hok
  | advance time => simp [machine, State.advance, Idle, hcurr, hnext, hevent, hproc]

/-- Its level wakes no thread before the first change of the value. -/
theorem wakeUps_idle {value : T} {s : State T} (h : Idle value s) {actions : List (Action T)}
    (hok : (machine cfg).EveryStep scheduled s actions)
    (hsame : ∀ data ∈ writes actions, data = value) : wakeUps cfg s actions = [] := by
  induction actions generalizing s with
  | nil => rfl
  | cons action actions ih =>
    obtain ⟨hfirst, hrest⟩ := hok
    have hwritten : writes (action :: actions) = action.written.toList ++ writes actions := by
      cases h : action.written <;> simp [writes, h]
    rw [hwritten] at hsame
    obtain ⟨hnone, hidle⟩ := step_idle h hfirst fun data hdata =>
      hsame data (List.mem_append_left _ (Option.mem_toList.mpr hdata))
    rw [wakeUps_cons, hnone, ih hidle hrest fun data hdata =>
      hsame data (List.mem_append_right _ hdata)]
    rfl

/-- In every run the signal gives the value last written, and wakes threads exactly one
period after what is to wake them. -/
theorem runs_of_scheduled (cfg : Config T) (initial : T) {actions : List (Action T)}
    (hok : (machine cfg).EveryStep scheduled (construct initial) actions) :
    Runs cfg initial actions := by
  have hconstruct : NotPast (construct initial) := by simp [NotPast, construct]
  refine ⟨?_, ?_, ?_, ?_, ?_⟩
  · intro hnone
    rw [after_settled initial actions hnone, after_nextVal]
    rfl
  · exact fun earlier _ _ _ => after_methEvent initial earlier
  · rintro earlier action later rfl hcause
    rw [List.append_cons] at hok
    obtain ⟨hrun, hlater⟩ := Mealy.everyStep_append.mp hok
    have hpast := after_notPast hconstruct (Mealy.everyStep_concat.mp hrun).1
    have hawaited := cause_awaited hpast hcause
    rw [← after_concat] at hawaited
    have hsplit : after cfg (construct initial) (earlier ++ action :: later) =
        after cfg (after cfg (construct initial) (earlier ++ [action])) later := by
      rw [← after_append, ← List.append_cons]
    rw [hsplit]
    exact awaited_occurs hawaited (after_notPast hconstruct hrun) hlater
  · rintro earlier time later rfl hevent
    exact (after_explained (Mealy.everyStep_append.mp hok).1).event time hevent
  · exact (wakeUps_spaced ⟨by simp [construct], Nat.zero_le _⟩ hok).2

end

/-- The enable signal of a thread, raised for some clock periods. -/
private def raised : List (Action Bool) :=
  [.write true, .update, .advance 4, .write true, .advance 10, .updateProc, .write false,
   .write true, .update, .advance 20, .updateProc, .write false, .update, .advance 30,
   .updateProc, .advance 40]

private def enabling : Config Bool := ⟨10, false, true, some true⟩

theorem runs_raised :
    wakeUps enabling (construct false) raised = [10, 20, 30] ∧ Runs enabling false raised := by
  have hok : (machine enabling).EveryStep scheduled (construct false) raised := by
    simp [raised, enabling, Mealy.EveryStep, scheduled, machine, construct, State.write,
      State.update, State.updateProc, State.advance, State.notifyThreads, TimedEvent.notify]
  exact ⟨by decide, runs_of_scheduled enabling false hok⟩

end SystemcCompiler.TlmSignal
