import SystemcCompiler.Library.Lockstep

/-! `sct_register`: the clocked register of the cycle accurate mode and the primitive
channel of the approximate time mode, on the same calls, clock edges and changes of
the reset line. -/
namespace SystemcCompiler.Register
open Lockstep

/-- A clock edge, a new level of the reset line, or a call of the writer process. -/
inductive Step (T : Type) where
  | edge
  | nrst (active : Bool)
  | reset
  | write (data : T)
  deriving DecidableEq

/-- The reset line, with what has happened since it became active. -/
structure Line where
  active : Bool
  /-- There was no clock edge since. -/
  entered : Bool
  /-- The writer process has called `reset` or `write` since. -/
  called : Bool
  deriving DecidableEq

def Line.idle : Line := ⟨false, false, true⟩

def Line.step {T : Type} (line : Line) : Step T → Line
  | .edge => { line with entered := false }
  | .nrst active =>
    if active = line.active then line
    else if active then ⟨true, true, false⟩ else { line with active := false }
  | .reset | .write _ => { line with called := true }

variable {T : Type}

structure Rtl (T : Type) where
  nrst : Line
  regData : T
  regDataD : T

/-- `reg_thread` runs at a clock edge and when the reset becomes active. -/
def Rtl.step (resetVal : T) (s : Rtl T) (step : Step T) : Rtl T :=
  let nrst := s.nrst.step step
  match step with
  | .edge => { s with nrst, regDataD := if s.nrst.active then resetVal else s.regData }
  | .nrst active =>
    { s with nrst, regDataD := if active && !s.nrst.active then resetVal else s.regDataD }
  | .reset => { s with nrst, regData := s.regDataD }
  | .write data => { s with nrst, regData := data }

structure Tlm (T : Type) where
  nrst : Line
  hasReset : Bool
  nextVal : T
  currVal : T
  /-- `update_event` is due at the next clock edge. -/
  updateDue : Bool

def Tlm.updateProc [DecidableEq T] (resetVal : T) (s : Tlm T) : Tlm T :=
  if s.hasReset then { s with currVal := resetVal, hasReset := false }
  else if s.currVal = s.nextVal then s
  else { s with currVal := s.nextVal }

def Tlm.resetCore (reset : Bool) (s : Tlm T) : Tlm T :=
  if reset then { s with hasReset := true, updateDue := true } else s

def Tlm.step [DecidableEq T] (resetVal : T) (s : Tlm T) (step : Step T) : Tlm T :=
  let nrst := s.nrst.step step
  match step with
  | .edge =>
    if s.updateDue then { s.updateProc resetVal with nrst, updateDue := false }
    else { s with nrst }
  | .nrst active =>
    -- `resetProc` is sensitive to the line and runs when it changes
    if active = s.nrst.active then { s with nrst } else { s.resetCore active with nrst }
  | .reset => { s with nrst, nextVal := s.currVal }
  | .write data =>
    { s with nrst, nextVal := data, updateDue := s.updateDue || s.currVal ≠ data }

/-- What `read` returns, but not between the reset becoming active and the next edge. -/
def visible (line : Line) (value : T) : Option T := if line.entered then none else some value

def rtl (resetVal : T) : Machine (Step T) (Option T) where
  State := Rtl T
  step := Rtl.step resetVal
  observe s := visible s.nrst s.regDataD

def tlm [DecidableEq T] (resetVal : T) : Machine (Step T) (Option T) where
  State := Tlm T
  step := Tlm.step resetVal
  observe s := visible s.nrst s.currVal

/-- Both registers as constructed. -/
def Rtl.start [Inhabited T] : Rtl T := ⟨.idle, default, default⟩
def Tlm.start [Inhabited T] : Tlm T := ⟨.idle, false, default, default, false⟩

/-- During reset, and up to the next edge after it became active, the writer process
writes nothing but the reset value; it makes a call before the first edge after the
reset. -/
def Quiet (resetVal : T) (line : Line) : Step T → Prop
  | .write data => line.active = true ∨ line.entered = true → data = resetVal
  | .edge => line.active = true ∨ line.called = true
  | .nrst _ | .reset => True

/-- The value after the next edge outside reset. -/
def Tlm.pending (s : Tlm T) : T := if s.updateDue then s.nextVal else s.currVal

structure Agree (resetVal : T) (s : Rtl T) (t : Tlm T) : Prop where
  line : s.nrst = t.nrst
  entered : s.nrst.entered = true →
    s.regDataD = resetVal ∧ t.hasReset = true ∧ t.updateDue = true ∧
      (s.nrst.called = true → s.regData = resetVal)
  read : s.nrst.entered = false → t.hasReset = false ∧ s.regDataD = t.currVal
  held : s.nrst.entered = false → s.nrst.active = true →
    t.currVal = resetVal ∧ t.updateDue = false ∧ (s.nrst.called = true → s.regData = resetVal)
  next : s.nrst.entered = false → s.nrst.active = false → s.nrst.called = true →
    s.regData = t.pending

namespace Agree
variable [DecidableEq T] {resetVal : T} {s : Rtl T} {t : Tlm T}

/-- After an update outside reset the current value is the pending one. -/
private theorem updateProc_currVal (h : t.hasReset = false) :
    (t.updateProc resetVal).currVal = t.nextVal ∧ (t.updateProc resetVal).hasReset = false := by
  unfold Tlm.updateProc
  rw [h]
  by_cases heq : t.currVal = t.nextVal <;> simp [heq, h]

private theorem edge_of_not_entered (h : Agree resetVal s t) (he : s.nrst.entered = false) :
    (t.step resetVal .edge).hasReset = false ∧
      (t.step resetVal .edge).currVal = t.pending ∧
      (t.step resetVal .edge).updateDue = false := by
  obtain ⟨hreset, -⟩ := h.read he
  have hupdate : (t.updateProc resetVal).currVal = t.nextVal ∧
      (t.updateProc resetVal).hasReset = false := updateProc_currVal hreset
  obtain ⟨hcurr, hkeep⟩ := hupdate
  cases hdue : t.updateDue with
  | true => simp [Tlm.step, Tlm.pending, hdue, hcurr, hkeep]
  | false => simp [Tlm.step, Tlm.pending, hdue, hreset]

private theorem edge_of_entered (h : Agree resetVal s t) (he : s.nrst.entered = true) :
    (t.step resetVal .edge).hasReset = false ∧
      (t.step resetVal .edge).currVal = resetVal ∧
      (t.step resetVal .edge).updateDue = false := by
  obtain ⟨-, hreset, hdue, -⟩ := h.entered he
  simp [Tlm.step, Tlm.updateProc, hreset, hdue]

theorem edge (h : Agree resetVal s t) (hok : Quiet resetVal s.nrst (.edge : Step T)) :
    Agree resetVal (s.step resetVal .edge) (t.step resetVal .edge) := by
  have hline : (t.step resetVal .edge).nrst = t.nrst.step (.edge : Step T) := by
    cases hdue : t.updateDue <;> simp [Tlm.step, hdue]
  have hread : (t.step resetVal .edge).hasReset = false ∧
      (s.step resetVal .edge).regDataD = (t.step resetVal .edge).currVal ∧
      (t.step resetVal .edge).updateDue = false ∧
      (s.nrst.active = true → (t.step resetVal .edge).currVal = resetVal) ∧
      (s.nrst.called = true → s.regData = (t.step resetVal .edge).currVal) := by
    cases he : s.nrst.entered with
    | true =>
      obtain ⟨hreset, hcurr, hdue⟩ := h.edge_of_entered he
      obtain ⟨-, -, -, hcalled⟩ := h.entered he
      refine ⟨hreset, ?_, hdue, fun _ => hcurr, fun hc => ?_⟩
      · rw [hcurr]
        cases ha : s.nrst.active with
        | true => simp [Rtl.step, ha]
        | false =>
          have hc : s.nrst.called = true := by simpa [Quiet, ha] using hok
          simp [Rtl.step, ha, hcalled hc]
      · rw [hcurr, hcalled hc]
    | false =>
      obtain ⟨hreset, hcurr, hdue⟩ := h.edge_of_not_entered he
      cases ha : s.nrst.active with
      | true =>
        obtain ⟨hval, hnot, hcalled⟩ := h.held he ha
        have hpend : t.pending = resetVal := by simp [Tlm.pending, hnot, hval]
        refine ⟨hreset, ?_, hdue, fun _ => by rw [hcurr, hpend], fun hc => ?_⟩
        · rw [hcurr, hpend]
          simp [Rtl.step, ha]
        · rw [hcurr, hpend, hcalled hc]
      | false =>
        have hc : s.nrst.called = true := by simpa [Quiet, ha] using hok
        have hnext := h.next he ha hc
        refine ⟨hreset, ?_, hdue, fun hf => by simp at hf, fun _ => ?_⟩
        · rw [hcurr, ← hnext]
          simp [Rtl.step, ha]
        · rw [hcurr, hnext]
  obtain ⟨hreset, hd, hdue, hactive, hcalled⟩ := hread
  refine ⟨?_, ?_, ?_, ?_, ?_⟩
  · rw [hline, ← h.line]
    rfl
  · intro he
    simp [Rtl.step, Line.step] at he
  · intro _
    exact ⟨hreset, hd⟩
  · intro _ ha
    change s.nrst.active = true at ha
    refine ⟨hactive ha, hdue, fun hc => ?_⟩
    change s.nrst.called = true at hc
    change s.regData = resetVal
    rw [hcalled hc, hactive ha]
  · intro _ _ hc
    change s.nrst.called = true at hc
    change s.regData = _
    rw [Tlm.pending, hdue]
    exact hcalled hc

theorem reset (h : Agree resetVal s t) :
    Agree resetVal (s.step resetVal .reset) (t.step resetVal .reset) := by
  refine ⟨?_, ?_, ?_, ?_, ?_⟩
  · change s.nrst.step (.reset : Step T) = t.nrst.step (.reset : Step T)
    rw [h.line]
  · intro he
    obtain ⟨hd, hreset, hdue, -⟩ := h.entered he
    exact ⟨hd, hreset, hdue, fun _ => hd⟩
  · intro he
    exact h.read he
  · intro he ha
    obtain ⟨hval, hdue, -⟩ := h.held he ha
    refine ⟨hval, hdue, fun _ => ?_⟩
    exact (h.read he).2.trans hval
  · intro he _ _
    change s.regDataD = (t.step resetVal .reset).pending
    rw [(h.read he).2]
    exact (ite_self t.currVal).symm

theorem write {data : T} (h : Agree resetVal s t) (hok : Quiet resetVal s.nrst (.write data)) :
    Agree resetVal (s.step resetVal (.write data)) (t.step resetVal (.write data)) := by
  refine ⟨?_, ?_, ?_, ?_, ?_⟩
  · change s.nrst.step (.write data) = t.nrst.step (.write data)
    rw [h.line]
  · intro he
    change s.nrst.entered = true at he
    obtain ⟨hd, hreset, hdue, -⟩ := h.entered he
    refine ⟨hd, hreset, ?_, fun _ => hok (Or.inr he)⟩
    simp [Tlm.step, hdue]
  · intro he
    exact h.read he
  · intro he ha
    change s.nrst.entered = false at he
    change s.nrst.active = true at ha
    obtain ⟨hval, hdue, -⟩ := h.held he ha
    have hdata := hok (Or.inl ha)
    refine ⟨hval, ?_, fun _ => hdata⟩
    simp [Tlm.step, hdue, hval, hdata]
  · intro _ _ _
    change data = (t.step resetVal (.write data)).pending
    by_cases heq : t.currVal = data
    · simp [Tlm.step, Tlm.pending, heq]
    · simp [Tlm.step, Tlm.pending, heq]

theorem nrst {active : Bool} (h : Agree resetVal s t) :
    Agree resetVal (s.step resetVal (.nrst active)) (t.step resetVal (.nrst active)) := by
  have hline := h.line
  by_cases hsame : active = s.nrst.active
  · -- the line keeps its level
    have hs : s.step resetVal (.nrst active) = s := by
      simp [Rtl.step, Line.step, hsame]
    have ht : t.step resetVal (.nrst active) = t := by
      simp [Tlm.step, Line.step, hsame, hline]
    rw [hs, ht]
    exact h
  · cases active with
    | true =>
      have hoff : s.nrst.active = false := by simpa using hsame
      have hoff' : t.nrst.active = false := by rw [← hline, hoff]
      have hs : s.step resetVal (.nrst true) =
          { s with nrst := ⟨true, true, false⟩, regDataD := resetVal } := by
        simp [Rtl.step, Line.step, hoff]
      have ht : t.step resetVal (.nrst true) =
          { t with nrst := ⟨true, true, false⟩, hasReset := true, updateDue := true } := by
        simp [Tlm.step, Line.step, Tlm.resetCore, hoff']
      rw [hs, ht]
      exact ⟨rfl, fun _ => ⟨rfl, rfl, rfl, nofun⟩, nofun, nofun, nofun⟩
    | false =>
      have hon : s.nrst.active = true := by simpa using hsame
      have hon' : t.nrst.active = true := by rw [← hline, hon]
      have hs : s.step resetVal (.nrst false) =
          { s with nrst := { s.nrst with active := false } } := by
        simp [Rtl.step, Line.step, hon]
      have ht : t.step resetVal (.nrst false) =
          { t with nrst := { t.nrst with active := false } } := by
        simp [Tlm.step, Line.step, Tlm.resetCore, hon']
      rw [hs, ht]
      refine ⟨by simp [hline], h.entered, h.read, ?_, ?_⟩
      · intro _ ha
        cases ha
      · intro he _ hc
        obtain ⟨hval, hdue, hcalled⟩ := h.held he hon
        change s.regData = t.pending
        rw [hcalled hc, Tlm.pending, hdue]
        simp [hval]

end Agree

/-- The two registers in lockstep, for runs that meet the condition. -/
def simulation [DecidableEq T] (resetVal : T) :
    Simulation (rtl resetVal) (tlm resetVal) fun s step => Quiet resetVal s.nrst step where
  Rel := Agree resetVal
  step s t step h hok := by
    cases step with
    | edge => exact h.edge hok
    | nrst active => exact h.nrst
    | reset => exact h.reset
    | write data => exact h.write hok
  observe s t h := by
    change visible s.nrst s.regDataD = visible t.nrst t.currVal
    rw [← h.line, visible, visible]
    cases he : s.nrst.entered with
    | true => rfl
    | false => simp [(h.read he).2]

theorem agree_start [Inhabited T] (resetVal : T) :
    Agree resetVal (Rtl.start : Rtl T) Tlm.start :=
  ⟨rfl, nofun, fun _ => ⟨rfl, rfl⟩, nofun, fun _ _ _ => rfl⟩

/-- What the two registers return at the end of a run. -/
def readAfter (resetVal : Nat) (steps : List (Step Nat)) : Nat × Nat :=
  (Rtl.regDataD ((rtl resetVal).run Rtl.start steps),
   Tlm.currVal ((tlm resetVal).run Tlm.start steps))

end SystemcCompiler.Register
