import Mathlib.Data.List.Induction
import SystemcCompiler.Cthread.StateMerge

/-! The counter of `wait(N)`. A wait state is registered at the first visit of
its call stack; the counter gets the width of the largest N seen there. A state
that starts at a `wait(N)` counts down before it executes its code. -/
namespace SystemcCompiler.Cthread
open Lockstep

variable {τ ι ρ ε κ : Type}

/-! ## Registration -/

/-- `κ` are the call stacks of `wait` calls. -/
structure CThreadStates (κ : Type) where
  statesVec : List κ
  maxWaitN : Nat
  waitNSet : List Nat
  firstWaitN : Bool

namespace CThreadStates

def empty : CThreadStates κ :=
  ⟨[], 1, [], false⟩

def hasWaitNState (st : CThreadStates κ) : Bool :=
  !st.waitNSet.isEmpty

variable [DecidableEq κ]

def getOrInsertStateID (st : CThreadStates κ) (waitState : κ) (maxWaitCycles : Nat) :
    CThreadStates κ × Nat :=
  if waitState ∈ st.statesVec then (st, st.statesVec.idxOf waitState)
  else
    let waitID := st.statesVec.length
    ({ statesVec := st.statesVec ++ [waitState]
       maxWaitN := if 1 < maxWaitCycles then max st.maxWaitN maxWaitCycles else st.maxWaitN
       waitNSet := if 1 < maxWaitCycles then waitID :: st.waitNSet else st.waitNSet
       -- First wait() is wait(N)
       firstWaitN := st.firstWaitN || (st.statesVec.isEmpty && decide (1 < maxWaitCycles)) },
      waitID)

/-- All visits of waits by constant propagation, each with its evaluated argument. -/
def register (visits : List (κ × Nat)) : CThreadStates κ :=
  visits.foldl (fun st visit => (st.getOrInsertStateID visit.1 visit.2).1) empty

end CThreadStates

/-- The loop of `bitsInNumber` shifts until nothing is left and runs at least once. -/
def bitsInNumber (n : Nat) : Nat :=
  n.log2 + 1

theorem lt_two_pow_bitsInNumber (n : Nat) : n < 2 ^ bitsInNumber n :=
  Nat.lt_log2_self

namespace CThreadStates
variable [DecidableEq κ]

/-- Width of the declared counter. -/
def counterWidth (st : CThreadStates κ) : Nat :=
  bitsInNumber st.maxWaitN

/-- What a visit does to the registered states. -/
theorem getOrInsertStateID_cases (st : CThreadStates κ) (k : κ) (n : Nat) :
    (k ∈ st.statesVec ∧ (st.getOrInsertStateID k n).1 = st) ∨
    (k ∉ st.statesVec ∧ (st.getOrInsertStateID k n).1.statesVec = st.statesVec ++ [k] ∧
      (st.getOrInsertStateID k n).1.maxWaitN = if 1 < n then max st.maxWaitN n else st.maxWaitN)
    := by
  unfold getOrInsertStateID
  by_cases hk : k ∈ st.statesVec
  · exact Or.inl ⟨hk, by rw [if_pos hk]⟩
  · exact Or.inr ⟨hk, by rw [if_neg hk], by rw [if_neg hk]⟩

/-- A call stack that is always visited with the same argument is counted in the
maximum. -/
theorem register_constant {visits : List (κ × Nat)}
    (hc : ∀ v ∈ visits, ∀ w ∈ visits, v.1 = w.1 → v.2 = w.2) :
    1 ≤ (register visits).maxWaitN ∧ (∀ v ∈ visits, v.2 ≤ (register visits).maxWaitN) ∧
    ∀ k ∈ (register visits).statesVec, ∃ v ∈ visits, v.1 = k := by
  induction visits using List.reverseRecOn with
  | nil => exact ⟨Nat.le_refl 1, by simp, by simp [register, empty]⟩
  | append_singleton l v ih =>
    obtain ⟨hone, hle, hstates⟩ := ih fun x hx y hy =>
      hc x (List.mem_append_left _ hx) y (List.mem_append_left _ hy)
    have hreg : register (l ++ [v]) = ((register l).getOrInsertStateID v.1 v.2).1 := by
      simp [register]
    rw [hreg]
    rcases (register l).getOrInsertStateID_cases v.1 v.2 with ⟨hk, heq⟩ | ⟨-, hvec, hmax⟩
    · rw [heq]
      refine ⟨hone, fun w hw => ?_, fun k hk => ?_⟩
      · rcases List.mem_append.mp hw with hw | hw
        · exact hle w hw
        · obtain rfl := List.mem_singleton.mp hw
          obtain ⟨x, hx, hxw⟩ := hstates w.1 hk
          rw [← hc x (List.mem_append_left _ hx) w (by simp) hxw]
          exact hle x hx
      · obtain ⟨x, hx, hxk⟩ := hstates k hk
        exact ⟨x, List.mem_append_left _ hx, hxk⟩
    · rw [hvec, hmax]
      have hgrow : (register l).maxWaitN ≤
          if 1 < v.2 then max (register l).maxWaitN v.2 else (register l).maxWaitN := by
        split <;> omega
      refine ⟨Nat.le_trans hone hgrow, fun w hw => ?_, fun k hk => ?_⟩
      · rcases List.mem_append.mp hw with hw | hw
        · exact Nat.le_trans (hle w hw) hgrow
        · obtain rfl := List.mem_singleton.mp hw
          split <;> omega
      · rcases List.mem_append.mp hk with hk | hk
        · obtain ⟨x, hx, hxk⟩ := hstates k hk
          exact ⟨x, List.mem_append_left _ hx, hxk⟩
        · exact ⟨v, by simp, (List.mem_singleton.mp hk).symm⟩

/-- With one argument for each call stack the counter holds every argument. -/
theorem fits_of_constant {visits : List (κ × Nat)}
    (hc : ∀ v ∈ visits, ∀ w ∈ visits, v.1 = w.1 → v.2 = w.2) (v : κ × Nat) (hv : v ∈ visits) :
    v.2 < 2 ^ (register visits).counterWidth :=
  Nat.lt_of_le_of_lt ((register_constant hc).2.1 v hv) (lt_two_pow_bitsInNumber _)

end CThreadStates

/-! ## Code of threads with wait(N) -/

/-- `wait(N)` assigns the counter right before the state, a plain `wait()` does
not; the counter is used nowhere else. -/
def loadsAtWaits (isWaitN : Nat → Bool) : List (Line τ) → Bool
  | [] => true
  | .waitNAssign _ :: .stateAssign id _ :: rest => isWaitN id && loadsAtWaits isWaitN rest
  | .waitNAssign _ :: _ | .waitNCheck :: _ | .waitNDecr :: _ => false
  | .stateAssign id _ :: rest => !isWaitN id && loadsAtWaits isWaitN rest
  | _ :: rest => loadsAtWaits isWaitN rest

structure WaitThread (τ : Type) extends ThreadCode τ where
  body_loads : ∀ i, loadsAtWaits (fun id => (waitNLoc id).isSome) (body i) = true
  reset_loads : loadsAtWaits (fun id => (waitNLoc id).isSome) reset = true

/-- The argument itself, as the source program sees it. -/
def Counter.exact : Counter where
  load n := n
  decr n := n - 1

namespace WaitThread
variable (T : WaitThread τ)

def isWaitNStmt (id : Nat) : Bool :=
  (T.waitNLoc id).isSome

/-- Cycles spent in the wait that a path ends at. -/
def waitCycles (r : Result ε) : Nat :=
  match r.target with
  | some id => if T.isWaitNStmt id then r.vars.waitNNext else 1
  | none => 1

/-- The thread as its source prescribes: after `wait(N)` it does nothing for N
cycles. `waitN` is the number of cycles left. -/
def sourceStep (I : Interp τ ι ρ ε) (s : Regs ρ) (i : ι) : Regs ρ :=
  if 1 < s.waitN then ⟨s.regs, s.waitN - 1, s.procState⟩
  else
    let r := exec I .exact true (T.body s.procState) .start ⟨I.load s.regs i, 0, 0⟩
    ⟨I.store r.vars.env, T.waitCycles r, r.target.getD s.procState⟩

def source (I : Interp τ ι ρ ε) : Machine ι (ρ × Nat) where
  State := Regs ρ
  step := T.sourceStep I
  observe s := (s.regs, s.procState)

def sourceAfterReset (J : Interp τ ι ρ ε) (s : Regs ρ) (i : ι) : Regs ρ :=
  let r := exec J .exact true T.reset .start ⟨J.load s.regs i, 0, 0⟩
  ⟨J.store r.vars.env, T.waitCycles r, r.target.getD 0⟩

/-- The generated state machine with a counter of `width` bits. -/
def generated (I : Interp τ ι ρ ε) (width : Nat) : Machine ι (ρ × Nat) where
  State := Regs ρ
  step := T.unmerged.step I (.ofWidth width)
  observe s := (s.regs, s.procState)

/-- Reset section. The counter is cleared behind the reset code unless the first
registered wait is a `wait(N)`. -/
def generatedAfterReset (J : Interp τ ι ρ ε) (st : CThreadStates κ) (width : Nat) (s : Regs ρ)
    (i : ι) : Regs ρ :=
  let r := exec J (.ofWidth width) false T.reset .start ⟨J.load s.regs i, s.waitN, s.waitN⟩
  ⟨J.store r.vars.env, if st.hasWaitNState && !st.firstWaitN then 0 else r.vars.waitNNext,
    r.target.getD 0⟩

end WaitThread
/-! ## Execution with two counters -/

section TwoCounters
variable (I : Interp τ ι ρ ε) (C C' : Counter)

/-- Lines that neither use the counter nor the state. -/
def Line.isPlain : Line τ → Bool
  | .waitNCheck | .waitNDecr | .waitNAssign _ | .stateAssign _ _ => false
  | _ => true

theorem advance_isPlain {line : Line τ} (h : line.isPlain = true) (cur : Cursor τ)
    {v v' : Vars ε} (he : v.env = v'.env) :
    (line.advance I C cur v).1 = (line.advance I C' cur v').1 ∧
    (line.advance I C cur v).2.env = (line.advance I C' cur v').2.env ∧
    (line.advance I C cur v).2.waitNNext = v.waitNNext := by
  obtain ⟨mode, bs⟩ := cur
  cases mode with
  | run =>
    cases line with
    | waitNCheck | waitNDecr | waitNAssign | stateAssign => cases h
    | _ => simp [Line.advance, Line.execute, he]
  | skip depth toElse => exact ⟨rfl, he, rfl⟩
  | seek depth sel => simp [Line.advance, he]
  | leave depth => exact ⟨rfl, he, rfl⟩

theorem advance_waitNAssign_skipped {cur : Cursor τ} (h : cur.mode ≠ .run) (a : τ) (v : Vars ε) :
    (Line.waitNAssign a).advance I C cur v = (cur, v) := by
  obtain ⟨mode, bs⟩ := cur
  cases mode with
  | run => exact absurd rfl h
  | skip depth toElse => cases depth <;> rfl
  | seek depth sel => cases depth <;> rfl
  | leave depth => cases depth <;> rfl

/-- What two executions of the same code that differ only in the counter agree on. -/
structure Agree (isWaitN : Nat → Bool) (v : Vars ε) (r r' : Result ε) : Prop where
  env : r.vars.env = r'.vars.env
  target : r.target = r'.target
  loaded : ∀ id, r.target = some id → isWaitN id = true →
    ∃ n, r.vars.waitNNext = C.load n ∧ r'.vars.waitNNext = C'.load n
  kept : r.target = none → r.vars.waitNNext = v.waitNNext

theorem exec_agree (isWaitN : Nat → Bool) (lines : List (Line τ)) (cur : Cursor τ)
    (v v' : Vars ε) (he : v.env = v'.env) (h : loadsAtWaits isWaitN lines = true) :
    Agree C C' isWaitN v (exec I C true lines cur v) (exec I C' true lines cur v') := by
  fun_induction loadsAtWaits isWaitN lines generalizing cur v v' with
  | case1 => exact ⟨he, rfl, fun id hid => absurd hid (by simp [exec]), fun _ => rfl⟩
  | case2 a id loc rest ih =>
    rw [Bool.and_eq_true] at h
    by_cases hm : cur.mode = .run
    · obtain ⟨mode, bs⟩ := cur
      cases hm
      refine ⟨he, rfl, fun id hid _ => ⟨I.arg a v.env, rfl, ?_⟩, fun hid => by cases hid⟩
      rw [he]
      rfl
    · rw [exec_cons_of_ne I C (Or.inr hm), exec_cons_of_ne I C' (Or.inr hm),
        advance_waitNAssign_skipped I C hm, advance_waitNAssign_skipped I C' hm,
        exec_stateAssign_skipped I C hm, exec_stateAssign_skipped I C' hm]
      exact ih cur v v' he h.2
  | case3 => cases h
  | case4 => cases h
  | case5 => cases h
  | case6 id loc rest ih =>
    rw [Bool.and_eq_true] at h
    by_cases hm : cur.mode = .run
    · rw [exec_stateAssign_run I C hm, exec_stateAssign_run I C' hm]
      refine ⟨he, rfl, fun id' hid hw => ?_, fun hid => by cases hid⟩
      cases hid
      simp [hw] at h
    · rw [exec_stateAssign_skipped I C hm, exec_stateAssign_skipped I C' hm]
      exact ih cur v v' he h.2
  | case7 line rest hna hnc hnd hns hnp ih =>
    have hplain : line.isPlain = true := by
      cases line <;> first | rfl | simp_all
    have hne : ∀ id loc, line ≠ .stateAssign id loc := fun id loc hl => hnp id loc hl
    obtain ⟨hcur, henv, hnext⟩ := advance_isPlain I C C' hplain cur he
    rw [exec_cons_of_ne I C (Or.inl hne), exec_cons_of_ne I C' (Or.inl hne), hcur]
    have hag := ih (line.advance I C' cur v').1 _ _ henv h
    exact ⟨hag.env, hag.target, hag.loaded, fun hn => (hag.kept hn).trans hnext⟩

end TwoCounters
section Reset
variable (J : Interp τ ι ρ ε) (C : Counter)

theorem quiet_exec_reset {lines : List (Line τ)} {cur : Cursor τ} {v : Vars ε}
    (h : quiet J C false lines cur v = true) : exec J C false lines cur v = ⟨v, none⟩ := by
  induction lines generalizing cur with
  | nil => rfl
  | cons line rest ih =>
    obtain ⟨hv, hrest⟩ := quiet_advance J C h
    have hline : (∀ id loc, line ≠ .stateAssign id loc) ∨ cur.mode ≠ .run := by
      by_cases hm : cur.mode = .run
      · left
        rintro id loc rfl
        simp [quiet, hm, Line.closes] at h
      · exact Or.inr hm
    rw [exec_cons_of_ne J C hline, hv]
    exact ih hrest

/-- In the reset section nothing stops the execution at a wait, which makes no
difference where nothing follows it. -/
theorem exec_reset_eq {lines : List (Line τ)} {cur : Cursor τ} {v : Vars ε}
    (h : waitEndsPath J C false lines cur v = true) :
    exec J C false lines cur v = exec J C true lines cur v := by
  induction lines generalizing cur v with
  | nil => rfl
  | cons line rest ih =>
    by_cases hline : ∃ id loc, line = .stateAssign id loc ∧ cur.mode = .run
    · obtain ⟨id, loc, rfl, hm⟩ := hline
      have hq : quiet J C false rest cur v = true := by simpa only [waitEndsPath, hm] using h
      rw [exec_stateAssign_run J C hm, exec_stateAssign_run J C hm, quiet_exec_reset J C hq]
      rfl
    · have hne : (∀ id loc, line ≠ .stateAssign id loc) ∨ cur.mode ≠ .run := by
        by_cases hm : cur.mode = .run
        · exact Or.inl fun id loc hl => hline ⟨id, loc, hl, hm⟩
        · exact Or.inr hm
      rw [exec_cons_of_ne J C hne, exec_cons_of_ne J C hne]
      apply ih
      unfold waitEndsPath at h
      split at h
      · rename_i id loc hm
        exact absurd ⟨id, loc, rfl, hm⟩ hline
      · exact h

end Reset

/-- The entrance of a `wait(N)` state. -/
theorem exec_putWaitNScopeGraph (I : Interp τ ι ρ ε) (C : Counter) (id : Nat) (loc : τ)
    (rest : List (Line τ)) (v : Vars ε) :
    exec I C true (putWaitNScopeGraph id loc ++ rest) .start v =
      if v.waitN ≠ 1 then ⟨{ v with waitNNext := C.decr v.waitN }, some id⟩
      else exec I C true rest .start v := by
  by_cases h : v.waitN = 1
  · simp [putWaitNScopeGraph, exec, Cursor.start, Line.advance, Line.execute, Line.passBranch,
      Line.opens, h]
  · simp [putWaitNScopeGraph, exec, Cursor.start, Line.advance, Line.execute, h]

theorem ofWidth_load {width n : Nat} (h : n < 2 ^ width) : (Counter.ofWidth width).load n = n :=
  Nat.mod_eq_of_lt h

theorem ofWidth_decr {width n : Nat} (hpos : 0 < n) (h : n < 2 ^ width) :
    (Counter.ofWidth width).decr n = n - 1 := by
  change (n + 2 ^ width - 1) % 2 ^ width = n - 1
  have hsplit : n + 2 ^ width - 1 = (n - 1) + 2 ^ width := by omega
  rw [hsplit, Nat.add_mod_right, Nat.mod_eq_of_lt (by omega)]

namespace WaitThread
variable (T : WaitThread τ)

/-- Argument of the `wait(N)` a path ends at. -/
def loadedN (r : Result ε) : Option Nat :=
  match r.target with
  | some id => if T.isWaitNStmt id then some r.vars.waitNNext else none
  | none => none

/-- Argument of the `wait(N)` executed in a step, if one is. -/
def stepN (I : Interp τ ι ρ ε) (s : Regs ρ) (i : ι) : Option Nat :=
  if 1 < s.waitN then none
  else T.loadedN (exec I .exact true (T.body s.procState) .start ⟨I.load s.regs i, 0, 0⟩)

def resetN (J : Interp τ ι ρ ε) (s : Regs ρ) (i : ι) : Option Nat :=
  T.loadedN (exec J .exact true T.reset .start ⟨J.load s.regs i, 0, 0⟩)

/-- Both machines are in the same wait with the same number of cycles left. A
plain wait leaves the counter as it was. -/
structure InStep (width : Nat) (s t : Regs ρ) : Prop where
  regs : t.regs = s.regs
  procState : t.procState = s.procState
  counting : T.isWaitNStmt s.procState = true →
    t.waitN = s.waitN ∧ 0 < s.waitN ∧ s.waitN < 2 ^ width
  plain : T.isWaitNStmt s.procState = false → s.waitN = 1

theorem inStep_of_agree {width : Nat} {v : Vars ε} {r r' : Result ε}
    (hag : Agree (.ofWidth width) .exact T.isWaitNStmt v r r') (store : ε → ρ) (old : Nat)
    (hold : r.target = none → T.isWaitNStmt old = true → v.waitNNext = 1 ∧ 0 < width)
    (hfits : ∀ n, T.loadedN r' = some n → 0 < n ∧ n < 2 ^ width) :
    T.InStep width ⟨store r'.vars.env, T.waitCycles r', r'.target.getD old⟩
      ⟨store r.vars.env, r.vars.waitNNext, r.target.getD old⟩ := by
  refine ⟨by rw [hag.env], by rw [hag.target], ?_, ?_⟩
  · cases ht : r'.target with
    | none =>
      intro hw
      have htr : r.target = none := hag.target.trans ht
      obtain ⟨hone, hwidth⟩ := hold htr hw
      have hlt : 1 < 2 ^ width := Nat.one_lt_two_pow (Nat.ne_of_gt hwidth)
      simpa [waitCycles, ht, hag.kept htr, hone] using hlt
    | some id =>
      intro hw
      obtain ⟨n, hn, hn'⟩ := hag.loaded id (hag.target.trans ht) hw
      have harg : r'.vars.waitNNext = n := hn'
      have hw' : T.isWaitNStmt id = true := hw
      have hload : T.loadedN r' = some n := by simp [loadedN, ht, hw', harg]
      obtain ⟨hpos, hlt⟩ := hfits n hload
      have hcycles : T.waitCycles r' = n := by simp [waitCycles, ht, hw', harg]
      change r.vars.waitNNext = T.waitCycles r' ∧ 0 < T.waitCycles r' ∧ T.waitCycles r' < 2 ^ width
      rw [hcycles, hn, ofWidth_load hlt]
      exact ⟨rfl, hpos, hlt⟩
  · cases ht : r'.target with
    | none =>
      intro _
      simp [waitCycles, ht]
    | some id =>
      intro hw
      simp [waitCycles, ht, show T.isWaitNStmt id = false from hw]

/-- Condition on a step: the argument of its `wait(N)` is positive and fits. -/
def StepFits (I : Interp τ ι ρ ε) (width : Nat) (s : Regs ρ) (i : ι) : Prop :=
  ∀ n, T.stepN I s i = some n → 0 < n ∧ n < 2 ^ width

theorem exec_firstStage (I : Interp τ ι ρ ε) (C : Counter) (id : Nat) (v : Vars ε) :
    exec I C true (T.firstStage id) .start v =
      if T.isWaitNStmt id = true ∧ v.waitN ≠ 1 then
        ⟨{ v with waitNNext := C.decr v.waitN }, some id⟩
      else exec I C true (T.body id) .start v := by
  rw [T.firstStage_eq, ThreadCode.entry, isWaitNStmt]
  cases T.waitNLoc id with
  | none => simp
  | some loc => simp [exec_putWaitNScopeGraph]

theorem unmerged_step (I : Interp τ ι ρ ε) (width : Nat) (t : Regs ρ) (i : ι) :
    T.unmerged.step I (.ofWidth width) t i =
      if T.isWaitNStmt t.procState = true ∧ t.waitN ≠ 1 then
        ⟨t.regs, (Counter.ofWidth width).decr t.waitN, t.procState⟩
      else
        let r := exec I (.ofWidth width) true (T.body t.procState) .start
          ⟨I.load t.regs i, t.waitN, t.waitN⟩
        ⟨I.store r.vars.env, r.vars.waitNNext, r.target.getD t.procState⟩ := by
  have hexec := T.exec_firstStage I (.ofWidth width) t.procState
    ⟨I.load t.regs i, t.waitN, t.waitN⟩
  rw [Fsm.step, show T.unmerged.code t.procState = T.firstStage t.procState from rfl, hexec]
  by_cases hcount : T.isWaitNStmt t.procState = true ∧ t.waitN ≠ 1
  · rw [if_pos hcount, if_pos hcount]
    simp only [I.store_load, Option.getD_some]
  · rw [if_neg hcount, if_neg hcount]

theorem inStep_step (I : Interp τ ι ρ ε) {width : Nat} (hwidth : 0 < width) {s t : Regs ρ}
    {i : ι} (h : T.InStep width s t) (hfits : T.StepFits I width s i) :
    T.InStep width (T.sourceStep I s i) (T.unmerged.step I (.ofWidth width) t i) := by
  rw [unmerged_step, h.procState, h.regs, sourceStep]
  by_cases hmore : 1 < s.waitN
  · have hw : T.isWaitNStmt s.procState = true := by
      by_contra hw
      have := h.plain (by simpa using hw)
      omega
    obtain ⟨hcnt, hpos, hlt⟩ := h.counting hw
    rw [if_pos hmore, if_pos ⟨hw, by omega⟩, hcnt, ofWidth_decr hpos hlt]
    refine ⟨rfl, rfl, fun _ => ⟨rfl, ?_, ?_⟩, fun hp => absurd hw (by simp [hp])⟩
    · change 0 < s.waitN - 1
      omega
    · change s.waitN - 1 < 2 ^ width
      omega
  · have hready : ¬ (T.isWaitNStmt s.procState = true ∧ t.waitN ≠ 1) := by
      rintro ⟨hw, hne⟩
      obtain ⟨hcnt, hpos, -⟩ := h.counting hw
      omega
    rw [if_neg hmore, if_neg hready]
    have hag := exec_agree I (.ofWidth width) .exact T.isWaitNStmt (T.body s.procState) .start
      ⟨I.load s.regs i, t.waitN, t.waitN⟩ ⟨I.load s.regs i, 0, 0⟩ rfl (T.body_loads s.procState)
    refine T.inStep_of_agree hag I.store s.procState (fun _ hw => ⟨?_, hwidth⟩) ?_
    · obtain ⟨hcnt, hpos, -⟩ := h.counting hw
      change t.waitN = 1
      omega
    · intro n hn
      exact hfits n (by rw [stepN, if_neg hmore]; exact hn)

/-- The generated machine follows the source cycle by cycle. -/
def followsSource (I : Interp τ ι ρ ε) {width : Nat} (hwidth : 0 < width) :
    Simulation (T.source I) (T.generated I width) (T.StepFits I width) where
  Rel := T.InStep width
  step _ _ _ h hfits := T.inStep_step I hwidth h hfits
  observe _ _ h := Prod.ext h.regs.symm h.procState.symm

/-- The reset section executes nothing behind the wait it reaches, and if that is
a `wait(N)` then so is the wait registered first. -/
structure ResetKeepsCounter (J : Interp τ ι ρ ε) (st : CThreadStates κ) (s : Regs ρ) (i : ι) :
    Prop where
  reaches : (exec J .exact true T.reset .start ⟨J.load s.regs i, 0, 0⟩).target ≠ none
  endsPath : waitEndsPath J (.ofWidth st.counterWidth) false T.reset .start
    ⟨J.load s.regs i, s.waitN, s.waitN⟩ = true
  first : T.resetN J s i ≠ none → st.firstWaitN = true

theorem inStep_afterReset (J : Interp τ ι ρ ε) (st : CThreadStates κ) {s : Regs ρ} {i : ι}
    (h : T.ResetKeepsCounter J st s i)
    (hfits : ∀ n, T.resetN J s i = some n → 0 < n ∧ n < 2 ^ st.counterWidth) :
    T.InStep st.counterWidth (T.sourceAfterReset J s i)
      (T.generatedAfterReset J st st.counterWidth s i) := by
  have hag := exec_agree J (.ofWidth st.counterWidth) .exact T.isWaitNStmt T.reset .start
    ⟨J.load s.regs i, s.waitN, s.waitN⟩ ⟨J.load s.regs i, 0, 0⟩ rfl T.reset_loads
  have hin := T.inStep_of_agree hag J.store 0
    (fun hn => absurd (hag.target.symm.trans hn) h.reaches) hfits
  rw [sourceAfterReset, generatedAfterReset, exec_reset_eq J _ h.endsPath]
  refine ⟨hin.regs, hin.procState, fun hw => ?_, hin.plain⟩
  obtain ⟨hcnt, hpos, hlt⟩ := hin.counting hw
  have hload : T.resetN J s i ≠ none := by
    intro hnone
    cases ht : (exec J .exact true T.reset .start ⟨J.load s.regs i, 0, 0⟩).target with
    | none => exact h.reaches ht
    | some id =>
      rw [ht] at hw
      have hw' : T.isWaitNStmt id = true := hw
      simp [resetN, loadedN, ht, hw'] at hnone
  have hno : (st.hasWaitNState && !st.firstWaitN) = false := by simp [h.first hload]
  refine ⟨?_, hpos, hlt⟩
  change (if (st.hasWaitNState && !st.firstWaitN) = true then 0 else _) = _
  rw [hno]
  exact hcnt

theorem source_waits (I : Interp τ ι ρ ε) (s : Regs ρ) (inputs : List ι)
    (h : inputs.length < s.waitN) :
    (T.source I).run s inputs = ⟨s.regs, s.waitN - inputs.length, s.procState⟩ := by
  induction inputs generalizing s with
  | nil => rfl
  | cons i inputs ih =>
    have hmore : 1 < s.waitN := by
      rw [List.length_cons] at h
      omega
    have hstep : T.sourceStep I s i = ⟨s.regs, s.waitN - 1, s.procState⟩ := if_pos hmore
    have hrest : inputs.length < s.waitN - 1 := by
      rw [List.length_cons] at h
      omega
    change (T.source I).run (T.sourceStep I s i) inputs = _
    rw [hstep, ih ⟨s.regs, s.waitN - 1, s.procState⟩ hrest, List.length_cons]
    congr 1
    change s.waitN - 1 - inputs.length = _
    omega

/-- The arguments of all waits executed are among those constant propagation has
evaluated. -/
def RunVisited (I J : Interp τ ι ρ ε) (visits : List (κ × Nat)) (s : Regs ρ)
    (rst : ι) (inputs : List ι) : Prop :=
  (∀ n, T.resetN J s rst = some n → ∃ k, (k, n) ∈ visits) ∧
  (T.source I).EveryStep (fun s i => ∀ n, T.stepN I s i = some n → ∃ k, (k, n) ∈ visits)
    (T.sourceAfterReset J s rst) inputs

end WaitThread

/-- `wait(); while (true) for (int i = 2; i < 6; i++) wait(i);` -/
def countingLoop : WaitThread String where
  numStates := 2
  numStates_pos := Nat.two_pos
  waitNLoc id := if id = 1 then some "8:17" else none
  body id := if id = 0 then [.stmt "i = 2", .waitNAssign "i", .stateAssign 1 "8:17"]
    else [.stmt "i = i + 1", .ifBegin "i < 6", .waitNAssign "i", .stateAssign 1 "8:17", .close,
      .stmt "i = 2", .waitNAssign "i", .stateAssign 1 "8:17"]
  reset := [.stateAssign 0 "5:9"]
  body_targets i hi id loc h := by
    split at h <;> simp at h <;> omega
  reset_targets id loc h := by
    simp at h
    omega
  body_noCheck i := by split <;> simp
  body_loads i := by split <;> rfl
  reset_loads := rfl

def countingLoopInterp : Interp String Unit Nat Nat where
  load r _ := r
  store e := e
  store_load _ _ := rfl
  stmt text e := if text = "i = 2" then 2 else e + 1
  cond _ e := e < 6
  arm _ _ _ := false
  arg _ e := e

end SystemcCompiler.Cthread
