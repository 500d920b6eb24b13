import Mathlib.Data.List.Nodup
import SystemcCompiler.Kernel.ThreadProcess
import SystemcCompiler.Elab.VerilogModule
import SystemcCompiler.Cthread.WaitN

/-! The register update block of a thread: the sensitivity list and the reset
condition as they are printed, against the thread in the simulator. -/
namespace SystemcCompiler.AlwaysFf
open Elab Clocked Cthread

/-- A variable, or an element of an array. -/
abbrev Signal := String × List Nat

def signal : Source → Option Signal
  | ⟨indices, .vars [var]⟩ => some (var.name, indices)
  | _ => none

def eventValue : Edge → Option Bool
  | .any => none
  | .posedge => some true
  | .negedge => some false

def clockedResets : List Elab.Reset → Option (List (Clocked.Reset Signal))
  | [] => some []
  | reset :: resets => do
    let source ← signal reset.source
    let rest ← clockedResets resets
    some (⟨source, reset.isAsync, reset.level⟩ :: rest)

/-- The clock and the resets of a process as elaborated. -/
def clockedProcess (proc : Elab.Process) : Option (Clocked.Process Signal) :=
  match proc.staticSensitivity with
  | [event] => do
    let clock ← signal event.source
    let resets ← clockedResets proc.resets
    some ⟨⟨clock, eventValue event.kind⟩, resets⟩
  | _ => none

/-- `always_ff @(...) if (...)` as printed outside of arrays of modular interfaces. -/
def printed (proc : Elab.Process) : FlipFlops Signal where
  sensList := (serializeSensList proc).map fun item =>
    ⟨(item.name, item.indices), eventValue item.kind⟩
  condition := (serializeResetCondition proc).map fun term => ((term.2.1, []), term.1)

section Printed
variable {proc : Elab.Process} {P : Clocked.Process Signal}

/-- What is printed for a reset: its source without indices. -/
def withoutIndices (r : Clocked.Reset Signal) : Clocked.Reset Signal :=
  { r with source := (r.source.1, []) }

theorem signal_eq {source : Source} {s : Signal} (h : signal source = some s) :
    ∃ var, source.channel = .vars [var] ∧ s = (var.name, source.indices) := by
  rcases source with ⟨indices, _ | _ | ⟨_ | ⟨var, _ | _⟩⟩⟩
  case vars.cons.nil => exact ⟨var, rfl, (Option.some.inj h).symm⟩
  all_goals cases h

/-- Events and terms that are printed for resets. -/
def resetEvents (resets : List Elab.Reset) : List (Event Signal) :=
  (resets.filter (·.isAsync)).flatMap fun reset =>
    reset.source.channel.verVars.map fun var => ⟨(var.name, []), some reset.level⟩

def resetTerms (resets : List Elab.Reset) : List (Signal × Bool) :=
  resets.flatMap fun reset => reset.source.channel.verVars.map fun var =>
    ((var.name, []), reset.level)

theorem clockedResets_printed {resets : List Elab.Reset} {rs : List (Clocked.Reset Signal)}
    (h : clockedResets resets = some rs) :
    resetEvents resets =
      ((rs.map withoutIndices).filter (·.isAsync)).map (fun r => ⟨r.source, some r.level⟩) ∧
    resetTerms resets = (rs.map withoutIndices).map (fun r => (r.source, r.level)) ∧
    rs.map (·.source.2) = resets.map (·.source.indices) := by
  induction resets generalizing rs with
  | nil =>
    cases h
    exact ⟨rfl, rfl, rfl⟩
  | cons reset resets ih =>
    rw [clockedResets] at h
    obtain ⟨source, hsource, h⟩ := Option.bind_eq_some_iff.mp h
    obtain ⟨rest, hrest, h⟩ := Option.bind_eq_some_iff.mp h
    obtain rfl := Option.some.inj h
    obtain ⟨var, hchannel, rfl⟩ := signal_eq hsource
    obtain ⟨hasync, hall, hindices⟩ := ih hrest
    rw [resetEvents] at hasync ⊢
    rw [resetTerms] at hall ⊢
    have hvars : reset.source.channel.verVars = [var] := by
      rw [hchannel]
      rfl
    refine ⟨?_, ?_, ?_⟩
    · cases hkind : reset.isAsync <;>
        simp only [List.filter_cons, hkind, List.map_cons, withoutIndices, List.flatMap_cons, hvars,
          hasync, if_true, Bool.false_eq_true, if_false, List.map_nil, List.cons_append,
          List.nil_append]
    · simp only [List.flatMap_cons, hvars, List.map_cons, List.map_nil, withoutIndices, hall,
        List.cons_append, List.nil_append]
    · simp only [List.map_cons, hindices]

theorem printed_sensList {event : SensEvent} {var : VerilogVar}
    (hsens : proc.staticSensitivity = [event]) (hvar : event.source.channel.verVars = [var])
    (hmif : proc.code.mifArrDims = []) :
    (printed proc).sensList =
      ⟨(var.name, event.source.indices), eventValue event.kind⟩ :: resetEvents proc.resets := by
  have hreset : ∀ reset : Elab.Reset,
      (reset.source.channel.verVars.map fun var => (⟨if reset.level then .posedge else .negedge,
          var.name, [], 0⟩ : SensItem)).map
        (fun item => (⟨(item.name, item.indices), eventValue item.kind⟩ : Event Signal)) =
      reset.source.channel.verVars.map fun var => ⟨(var.name, []), some reset.level⟩ := by
    intro reset
    cases hlevel : reset.level <;> simp [eventValue, Function.comp_def]
  simp only [printed, serializeSensList, hsens, hmif, resetEvents, List.length_nil,
    List.map_flatMap, hreset, List.take_succ_cons, List.take_zero, List.flatMap_cons, hvar,
    List.map_cons, List.map_nil, List.flatMap_nil, List.append_nil, List.cons_append,
    List.nil_append]
  by_cases hindices : event.source.indices = [] <;> simp [hindices]

theorem printed_condition (proc : Elab.Process) :
    (printed proc).condition = resetTerms proc.resets := by
  simp only [printed, serializeResetCondition, resetTerms, List.map_flatMap, List.map_map,
    Function.comp_def]

/-- The printed block is that of the process with its resets printed without indices. -/
theorem printed_eq (h : clockedProcess proc = some P) (hmif : proc.code.mifArrDims = []) :
    printed proc = ({ P with resets := P.resets.map withoutIndices } :
      Clocked.Process Signal).flipFlops ∧
    P.resets.map (·.source.2) = proc.resets.map (·.source.indices) := by
  rw [clockedProcess] at h
  split at h
  case h_2 => cases h
  case h_1 event hsens =>
    obtain ⟨clock, hclock, h⟩ := Option.bind_eq_some_iff.mp h
    obtain ⟨rs, hrs, h⟩ := Option.bind_eq_some_iff.mp h
    obtain rfl := Option.some.inj h
    obtain ⟨var, hchannel, rfl⟩ := signal_eq hclock
    obtain ⟨hasync, hall, hindices⟩ := clockedResets_printed hrs
    have hvar : event.source.channel.verVars = [var] := by
      rw [hchannel]
      rfl
    refine ⟨?_, hindices⟩
    have hsensList := printed_sensList hsens hvar hmif
    have hcondition := printed_condition proc
    rw [hasync] at hsensList
    rw [hall] at hcondition
    calc printed proc = ⟨(printed proc).sensList, (printed proc).condition⟩ := rfl
      _ = _ := by rw [hsensList, hcondition]; rfl

/-- Every signal has one role, and a name is that of a scalar or of an array. -/
structure DistinctSources (P : Clocked.Process Signal) : Prop where
  nodup : (P.clock.source :: P.resets.map (·.source)).Nodup
  scalar : ∀ s ∈ P.clock.source :: P.resets.map (·.source),
    ∀ t ∈ P.clock.source :: P.resets.map (·.source), s.1 = t.1 → s.2 = [] → t.2 = []

/-- No reset is active but this one if its indices are left out, and the clock has had its
event. -/
def indexedActive (P : Clocked.Process Signal) (r : Clocked.Reset Signal) (s : Signal) : Bool :=
  if s = P.clock.source then P.clock.value.getD true
  else if s = (r.source.1, []) then r.level
  else !P.resets.any fun r' => r'.source = s && r'.level

theorem not_inReset_indexedActive (h : DistinctSources P) {r : Clocked.Reset Signal}
    (hr : r ∈ P.resets) (hindices : r.source.2 ≠ []) : ¬ P.InReset (indexedActive P r) := by
  rintro ⟨r', hr', hactive⟩
  obtain ⟨hclock, hnodup⟩ := List.nodup_cons.mp h.nodup
  have hmem : r'.source ∈ P.resets.map (·.source) := List.mem_map_of_mem hr'
  have hne : r'.source ≠ P.clock.source := fun heq => hclock (heq ▸ hmem)
  have hne' : r'.source ≠ (r.source.1, []) := by
    intro heq
    apply hindices
    exact h.scalar r'.source (List.mem_cons_of_mem _ hmem) r.source
      (List.mem_cons_of_mem _ (List.mem_map_of_mem hr)) (by rw [heq]) (by rw [heq])
  rw [Clocked.Reset.Active, indexedActive, if_neg hne, if_neg hne'] at hactive
  cases hlevel : r'.level with
  | true =>
    have hany : (P.resets.any fun r'' => r''.source = r'.source && r''.level) = true := by
      simpa using ⟨r', hr', rfl, hlevel⟩
    simp [hany, hlevel] at hactive
  | false =>
    have hany : (P.resets.any fun r'' => r''.source = r'.source && r''.level) = false := by
      simp only [List.any_eq_false, Bool.and_eq_true, decide_eq_true_eq, not_and]
      intro r'' hr'' heq
      rw [List.inj_on_of_nodup_map hnodup hr'' hr' heq, hlevel]
      simp
    simp [hany, hlevel] at hactive

theorem map_withoutIndices (h : ∀ r ∈ P.resets, r.source.2 = []) :
    P.resets.map withoutIndices = P.resets := by
  refine (List.map_congr_left fun r hr => ?_).trans (List.map_id _)
  rw [withoutIndices, ← h r hr]
  rfl

/-- One cycle with the clock in which only the printed condition holds. -/
theorem indices_of_follows (h : DistinctSources P) {F : FlipFlops Signal}
    (hF : F = ({ P with resets := P.resets.map withoutIndices } : Clocked.Process Signal).flipFlops)
    (hrun : ∀ (b : Block Bool Unit) (values : Signal → Bool) (r : Bool)
      (us : List (Update Signal Unit)),
      F.run b values r us = P.flipFlops.run b values r us)
    (r : Clocked.Reset Signal) (hr : r ∈ P.resets) : r.source.2 = [] := by
  by_contra hindices
  let u : Update Signal Unit := ⟨[P.clock.source], List.nodup_singleton _, ()⟩
  let values := u.apply (indexedActive P r)
  have hafter : u.apply values = indexedActive P r := by
    funext s
    by_cases hs : s = P.clock.source <;> simp [values, u, Update.apply, hs]
  have hclock : P.clock.Occurs values u := by
    refine ⟨List.mem_singleton_self _, ?_⟩
    rw [hafter]
    intro value hvalue
    simp [indexedActive, Option.mem_def.mp hvalue]
  have hreset : ¬ P.InReset (u.apply values) := hafter ▸ not_inReset_indexedActive h hr hindices
  have hne : (r.source.1, ([] : List Nat)) ≠ P.clock.source := by
    intro heq
    apply hindices
    exact h.scalar P.clock.source List.mem_cons_self r.source
      (List.mem_cons_of_mem _ (List.mem_map_of_mem hr)) (by rw [← heq]) (by rw [← heq])
  have hprinted : ({ P with resets := P.resets.map withoutIndices } :
      Clocked.Process Signal).Restarts values u := by
    refine .inr ⟨hclock, withoutIndices r, List.mem_map_of_mem hr, ?_⟩
    rw [hafter, Clocked.Reset.Active, withoutIndices, indexedActive, if_neg hne, if_pos rfl]
  have hone := hrun ⟨fun _ _ => true, fun _ _ => false⟩ values true [u]
  have hno : ¬ P.Restarts values u := by
    intro hrestarts
    exact hreset (P.flipFlops_holds.mp (P.restarts_iff.mp hrestarts).2)
  rw [hF, FlipFlops.run_singleton, FlipFlops.run_singleton, Process.step_of_restarts _ _ hprinted,
    Process.step_of_clock _ _ hclock hno] at hone
  cases hone

theorem printed_eq_flipFlops (hP : clockedProcess proc = some P)
    (hmif : proc.code.mifArrDims = [])
    (hscalar : ∀ reset ∈ proc.resets, reset.source.indices = []) : printed proc = P.flipFlops := by
  obtain ⟨hprinted, hindices⟩ := printed_eq hP hmif
  have hall : ∀ indices ∈ P.resets.map (·.source.2), indices = [] := by
    rw [hindices, List.forall_mem_map]
    exact hscalar
  rw [hprinted, map_withoutIndices (List.forall_mem_map.mp hall)]

end Printed

/-- The printed block follows the process in every run, whatever is done in reset and in a cycle,
exactly if no reset is an element of an array: the indices of resets are not printed. -/
theorem alwaysFf_follows_iff (proc : Elab.Process) (P : Clocked.Process Signal)
    (hP : clockedProcess proc = some P) (hmif : proc.code.mifArrDims = [])
    (hsources : DistinctSources P) :
    (∀ (R ι : Type) (b : Block R ι) (values : Signal → Bool) (r : R)
      (us : List (Update Signal ι)),
      (printed proc).run b values r us = P.flipFlops.run b values r us) ↔
      ∀ reset ∈ proc.resets, reset.source.indices = [] := by
  refine ⟨fun hrun => ?_, fun hscalar R ι b values r us => ?_⟩
  · obtain ⟨hprinted, hindices⟩ := printed_eq hP hmif
    have hall : ∀ indices ∈ P.resets.map (·.source.2), indices = [] := by
      rw [List.forall_mem_map]
      exact indices_of_follows hsources hprinted fun b values r us => hrun Bool Unit b values r us
    rw [hindices, List.forall_mem_map] at hall
    exact hall
  · rw [printed_eq_flipFlops hP hmif hscalar]

/-- A thread with a reset that may be an element of an array. -/
def resetThread (indices : List Nat) : Elab.Process where
  location := 0
  isThread := true
  procName := "thread"
  hasLatch := false
  staticSensitivity := [⟨.posedge, ⟨[], .vars [⟨0, "clk", 1, [], [], false, false⟩]⟩⟩]
  resets := [⟨true, false, ⟨indices, .vars [⟨1, "rst", 1, [], [], false, false⟩]⟩⟩]
  code := ⟨false, false, "", "", "", "", "", []⟩
  procVars := []
  procConsts := []
  procRegNextPairs := []

def resetProcess (indices : List Nat) : Clocked.Process Signal :=
  ⟨⟨("clk", []), some true⟩, [⟨("rst", indices), false, true⟩]⟩

theorem distinctSources_resetProcess : DistinctSources (resetProcess [1]) :=
  ⟨by decide, by decide⟩

/-- The second reset of an array: `if ( rst )` is printed. -/
theorem resetElement_not_followed : ¬ ∀ (R ι : Type) (b : Block R ι) (values : Signal → Bool)
    (r : R) (us : List (Update Signal ι)),
    (printed (resetThread [1])).run b values r us =
      (resetProcess [1]).flipFlops.run b values r us :=
  (not_congr (alwaysFf_follows_iff (resetThread [1]) (resetProcess [1]) rfl rfl
    distinctSources_resetProcess)).mpr (by decide)

section Thread
variable {τ ι ρ ε κ : Type} [DecidableEq τ] [DecidableEq κ] (T : WaitThread τ)
  (I J : Interp τ ι ρ ε) (st : CThreadStates κ)

/-- The source of a thread between its waits. -/
def threadBody : Body (ρ × Nat) ι where
  start s i :=
    let r := T.sourceAfterReset J ⟨s.1, 0, s.2⟩ i
    ((r.regs, r.procState), r.waitN)
  resume s i :=
    let r := T.sourceStep I ⟨s.1, 0, s.2⟩ i
    ((r.regs, r.procState), r.waitN)

/-- The generated reset section and next state function. -/
def registers : Block (Regs ρ) ι where
  reset s i := T.generatedAfterReset J st st.counterWidth s i
  step s i := T.unmerged.step I (.ofWidth st.counterWidth) s i

/-- The first wait is counted as generated, for all values of the counter before. -/
def ResetFits (r : (ρ × Nat) × Nat) (i : ι) : Prop :=
  (∀ n, T.ResetKeepsCounter J st ⟨r.1.1, n, r.1.2⟩ i) ∧
    ∀ n, T.resetN J ⟨r.1.1, 0, r.1.2⟩ i = some n → 0 < n ∧ n < 2 ^ st.counterWidth

/-- The argument of a wait that is reached is positive and fits. -/
def CycleFits (r : (ρ × Nat) × Nat) (i : ι) : Prop :=
  r.2 = 0 → T.StepFits I st.counterWidth ⟨r.1.1, 0, r.1.2⟩ i

/-- The registers are those of the thread, and the counter that of its wait. -/
def Rel (r : (ρ × Nat) × Nat) (t : Regs ρ) : Prop :=
  ∃ waitN, waitN - 1 = r.2 ∧ T.InStep st.counterWidth ⟨r.1.1, waitN, r.1.2⟩ t

variable {T I J st}

omit [DecidableEq τ] [DecidableEq κ] in
theorem rel_reset {r : (ρ × Nat) × Nat} {t : Regs ρ} {i : ι} (hregs : t.regs = r.1.1)
    (hprocState : t.procState = r.1.2) (hfits : ResetFits T J st r i) :
    Rel T st ((threadBody T I J).block.reset r i) ((registers T I J st).reset t i) := by
  obtain ⟨⟨store, procState⟩, left⟩ := r
  obtain ⟨regs, waitN, procState'⟩ := t
  subst hregs hprocState
  exact ⟨_, rfl, T.inStep_afterReset J st (hfits.1 waitN) hfits.2⟩

omit [DecidableEq τ] [DecidableEq κ] in
theorem rel_step {r : (ρ × Nat) × Nat} {t : Regs ρ} {i : ι} (h : Rel T st r t)
    (hfits : CycleFits T I st r i) :
    Rel T st ((threadBody T I J).block.step r i) ((registers T I J st).step t i) := by
  obtain ⟨⟨store, procState⟩, left⟩ := r
  obtain ⟨waitN, rfl, hin⟩ := h
  have hstep (hfits : T.StepFits I st.counterWidth ⟨store, waitN, procState⟩ i) :=
    T.inStep_step I (Nat.succ_pos _) hin hfits
  by_cases hmore : 1 < waitN
  · have hnone : T.stepN I ⟨store, waitN, procState⟩ i = none := if_pos hmore
    have hwait := hstep fun n hn => by simp [hnone] at hn
    rw [WaitThread.sourceStep, if_pos hmore] at hwait
    have hblock : (threadBody T I J).block.step ((store, procState), waitN - 1) i =
        ((store, procState), waitN - 1 - 1) := if_pos (Nat.sub_pos_of_lt hmore)
    rw [hblock]
    exact ⟨waitN - 1, rfl, hwait⟩
  · have hdone : waitN - 1 = 0 := by omega
    have hsame : T.sourceStep I ⟨store, 0, procState⟩ i =
        T.sourceStep I ⟨store, waitN, procState⟩ i := by
      rw [WaitThread.sourceStep, WaitThread.sourceStep, if_neg hmore, if_neg (by simp)]
    have hresume := hstep fun n hn => hfits hdone n (by
      rw [WaitThread.stepN, if_neg (by simp)]
      rwa [WaitThread.stepN, if_neg hmore] at hn)
    have hblock : (threadBody T I J).block.step ((store, procState), waitN - 1) i =
        (((threadBody T I J).resume (store, procState) i).1,
          ((threadBody T I J).resume (store, procState) i).2 - 1) := if_neg (by omega)
    rw [hblock]
    simp only [threadBody, hsame]
    exact ⟨_, rfl, hresume⟩

end Thread

def tripleWaitBody : List (Line String) :=
  [.stmt "n = n + 1", .waitNAssign "3", .stateAssign 1 "8:17"]

theorem tripleWaitBody_target (id : Nat) (loc : String)
    (h : Line.stateAssign id loc ∈ tripleWaitBody) : id < 2 := by
  simp [tripleWaitBody] at h
  omega

theorem tripleWaitReset_target (id : Nat) (loc : String)
    (h : Line.stateAssign id loc ∈ [Line.stateAssign 0 "5:9"]) : id < 2 := by
  simp at h
  omega

theorem tripleWaitBody_noCheck : Line.waitNCheck ∉ tripleWaitBody := by
  simp [tripleWaitBody]

def tripleWaitLoc (id : Nat) : Option String :=
  if id = 1 then some "8:17" else none

theorem tripleWait_bodyLoads :
    loadsAtWaits (fun id => (tripleWaitLoc id).isSome) tripleWaitBody = true :=
  rfl

theorem tripleWait_resetLoads :
    loadsAtWaits (fun id => (tripleWaitLoc id).isSome) [.stateAssign 0 "5:9"] = true :=
  rfl

/-- `wait(); while (true) { n = n + 1; wait(3); }` -/
def tripleWait : WaitThread String where
  numStates := 2
  numStates_pos := Nat.two_pos
  waitNLoc := tripleWaitLoc
  body _ := tripleWaitBody
  reset := [.stateAssign 0 "5:9"]
  body_targets _ _ := tripleWaitBody_target
  reset_targets := tripleWaitReset_target
  body_noCheck _ := tripleWaitBody_noCheck
  body_loads _ := tripleWait_bodyLoads
  reset_loads := tripleWait_resetLoads

def tripleWaitInterp : Interp String Unit Nat Nat where
  load r _ := r
  store e := e
  store_load _ _ := rfl
  stmt _ e := e + 1
  cond _ _ := false
  arm _ _ _ := false
  arg _ _ := 3

def tripleWaitStates : CThreadStates String :=
  CThreadStates.register [("5:9", 1), ("8:17", 3)]

theorem resetFits_tripleWait (r : (Nat × Nat) × Nat) (i : Unit) :
    ResetFits tripleWait tripleWaitInterp tripleWaitStates r i :=
  ⟨fun _ => ⟨Option.some_ne_none 0, rfl, fun h => absurd rfl h⟩, fun n hn => by cases hn⟩

theorem cycleFits_tripleWait (r : (Nat × Nat) × Nat) (i : Unit) :
    CycleFits tripleWait tripleWaitInterp tripleWaitStates r i := by
  intro _ n hn
  have hthree : tripleWait.stepN tripleWaitInterp ⟨r.1.1, 0, r.1.2⟩ i = some 3 := rfl
  obtain rfl := Option.some.inj (hn.symm.trans hthree)
  decide

def toggle (name : String) : Update Signal Unit := ⟨[(name, [])], List.nodup_singleton _, ()⟩

end SystemcCompiler.AlwaysFf
