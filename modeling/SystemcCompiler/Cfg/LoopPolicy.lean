import SystemcCompiler.Library.Passes
import Mathlib.Data.UInt

/-! How often constant propagation runs through the body of a loop: the iterations counted
in the loop stack, with the comparisons of states that end them. -/
namespace SystemcCompiler.LoopPolicy
open Passes

/-- `ConstLoopStackInfo`. -/
structure Frame (S : Type) where
  stmt : Nat
  state : S
  iterNumber : UInt32
  counter : UInt8
  stableState : Bool

inductive Cond where
  | holds | fails | unknown
  deriving DecidableEq

/-- What the analysis of blocks does to states, and what the evaluation of terminators
finds. All of it is left open, as are joins and comparisons of states. -/
structure Analysis (S : Type) where
  LOOP_MAX_ITER : UInt32
  simple : Nat → S → S
  enterCall : Nat → S → S
  leaveCall : Nat → S → S
  forInit : Nat → S → S
  forInc : Nat → S → S
  cond : Nat → Bool → S → Cond
  evaluateIterNumber : Nat → S → Option UInt32
  fallthrough : Nat → S → Bool
  hasBody : Nat → Bool
  hasExit : Nat → Bool
  join : S → S → S
  compare : S → S → Bool
  compareAndSetNovalue : S → S → S

def DEEP_LOOP_DEPTH : Nat := 2
def DEEP_LOOP_MAX_ITER : UInt32 := 3
def COMPARE_STATE_ITER : UInt32 := 2
def UNROLL_ERROR_ITER : UInt32 := 20

/-- The state and the loop stack of a block, the current loop first. -/
structure Scope (S : Type) where
  state : S
  loopStack : List (Frame S)

/-- What ends the analysis: a loop of a thread passed without `wait()`, a loop found in the
loop stack below another one, `break` and `continue` with an empty loop stack. -/
inductive Fatal where
  | loopFallthrough | duplicateLoop | emptyLoopStack

inductive Stmt where
  | simple (id : Nat)
  | seq (first second : Stmt)
  | ite (id : Nat) (thenStmt elseStmt : Stmt)
  | loop (id : Nat) (isDo : Bool) (body : Stmt)
  | brk
  | cont
  | ret
  | call (id : Nat) (body : Stmt)

variable {S : Type}

def isCurrLoop (id : Nat) (loopStack : List (Frame S)) : Bool :=
  match loopStack with
  | [] => false
  | f :: _ => f.stmt = id

namespace Analysis

/-- What a visit of the terminator of the current loop decides. -/
structure Iteration (S : Type) where
  frame : Frame S
  state : S
  stableState : Bool
  unrollMax : Bool

def loopMaxIter (a : Analysis S) (depth : Nat) : UInt32 :=
  if depth ≤ DEEP_LOOP_DEPTH then a.LOOP_MAX_ITER else DEEP_LOOP_MAX_ITER

/-- The states are compared at the last iterations, and once before: at the last one of a
loop with few iterations, at the second one of any other. -/
def compareState (loopMaxIter iterNumber iterCntr : UInt32) : Bool :=
  let fixedLoop := iterNumber ≠ 0 ∧ iterNumber < loopMaxIter - 1
  iterCntr ≥ loopMaxIter - 1 ∨
    if fixedLoop then iterCntr = iterNumber else iterCntr = COMPARE_STATE_ITER

/-- A further visit of a loop. The state has to be stable twice. -/
def iterate (a : Analysis S) (loopMaxIter : UInt32) (f : Frame S) (state : S) :
    Iteration S :=
  let iterCntr := f.counter.toUInt32
  let compareState := compareState loopMaxIter f.iterNumber iterCntr
  if compareState && a.compare state f.state then
    if f.stableState then ⟨f, state, true, false⟩
    else
      let counter := if iterCntr < loopMaxIter then loopMaxIter.toUInt8 else f.counter + 1
      ⟨{ f with counter, stableState := true }, state, false, false⟩
  else
    let f := { f with stableState := false }
    if iterCntr < loopMaxIter then
      ⟨{ f with
          counter := f.counter + 1
          state := if compareState then state else f.state },
        state, false, false⟩
    else if iterCntr < UNROLL_ERROR_ITER then
      let state := a.compareAndSetNovalue state f.state
      ⟨{ f with counter := f.counter + 1, state }, state, false, false⟩
    else ⟨f, state, true, true⟩

/-- `pushLoop` of a loop that is not the current one. -/
def pushLoop (a : Analysis S) (id : Nat) (s : Scope S) : Except (Stop Fatal) (Scope S) :=
  if s.loopStack.any (·.stmt = id) then throw (.fatal .duplicateLoop)
  else
    let f : Frame S := {
      stmt := id
      state := s.state
      iterNumber := (a.evaluateIterNumber id s.state).getD 0
      counter := 1
      stableState := false }
    pure { s with loopStack := f :: s.loopStack }

/-- The successors that a visit of a loop terminator pushes, and whether it reports
`SC_ERROR_CPROP_UNROLL_MAX`. -/
structure Visit (S : Type) where
  body : Option (Scope S)
  exit : Option (Scope S)
  unrollMax : Bool

/-- The loop stack for the next iteration, whether the loop is left, and whether that is
an error. -/
def advance (a : Analysis S) (id : Nat) (s : Scope S) :
    Except (Stop Fatal) (Scope S × Bool × Bool) :=
  match isCurrLoop id s.loopStack, s.loopStack with
  | true, f :: rest =>
    let next := a.iterate (a.loopMaxIter s.loopStack.length) f s.state
    pure (⟨next.state, next.frame :: rest⟩, next.stableState, next.unrollMax)
  | _, _ => do
    let s ← a.pushLoop id s
    pure (s, false, false)

def visitLoop (a : Analysis S) (id : Nat) (s : Scope S) :
    Except (Stop Fatal) (Visit S) := do
  let loopVisited := isCurrLoop id s.loopStack
  let state := if loopVisited then a.forInc id s.state else a.forInit id s.state
  let cond := a.cond id (!loopVisited) state
  if a.fallthrough id state then throw (.fatal .loopFallthrough)
  let (s, stableState, unrollMax) ← a.advance id { s with state }
  pure {
    body := if !stableState && a.hasBody id && cond ≠ .fails then some s else none
    exit := if (stableState || cond ≠ .holds) && a.hasExit id then
      some { s with loopStack := s.loopStack.tail } else none
    unrollMax }

/-- The scopes with which a statement is left. -/
structure Out (S : Type) where
  norm : Option (Scope S) := none
  brk : Option (Scope S) := none
  cont : Option (Scope S) := none
  ret : Option (Scope S) := none

/-- Paths that meet: the states are joined, the loop stack is that of the first one. -/
def joinScopes (a : Analysis S) : Option (Scope S) → Option (Scope S) → Option (Scope S)
  | some s, some t => some { s with state := a.join s.state t.state }
  | some s, none => some s
  | none, t => t

def joinOut (a : Analysis S) (x y : Out S) : Out S where
  norm := a.joinScopes x.norm y.norm
  brk := a.joinScopes x.brk y.brk
  cont := a.joinScopes x.cont y.cont
  ret := a.joinScopes x.ret y.ret

/-- The terminator of a loop; `out` has the paths that have left the loop so far. -/
def terminator (a : Analysis S) (id : Nat) :
    Scope S × Out S → Except (Stop Fatal) (Scope S × Out S ⊕ Out S)
  | (s, out) => do
    let visit ← a.visitLoop id s
    let out := { out with norm := a.joinScopes out.norm visit.exit }
    match visit.body with
    | some s => pure (.inl (s, out))
    | none => pure (.inr out)

/-- A pass through the body of a loop. -/
def pass (a : Analysis S) (body : Scope S → Except (Stop Fatal) (Out S)) :
    Scope S × Out S → Except (Stop Fatal) (Scope S × Out S ⊕ Out S)
  | (s, out) => do
    let b ← body s
    let out := { out with norm := a.joinScopes out.norm b.brk, ret := a.joinScopes out.ret b.ret }
    match a.joinScopes b.norm b.cont with
    | some s => pure (.inl (s, out))
    | none => pure (.inr out)

/-- A `do` loop is pushed where its body starts, and runs through that first. -/
def enterLoop (a : Analysis S) (id : Nat) (isDo : Bool)
    (body : Scope S → Except (Stop Fatal) (Out S)) (s : Scope S) :
    Except (Stop Fatal) (Scope S × Out S ⊕ Out S) :=
  if isDo then do
    let s ← (if isCurrLoop id s.loopStack then pure s else a.pushLoop id s)
    a.pass body (s, {})
  else pure (.inl (s, {}))

/-- The analysis of a statement, where each entry of a loop may push the body `limit` times.
Blocks are taken in the order of the code, so a statement starts when all paths to it are
there; a called function starts with an empty loop stack. -/
def run (a : Analysis S) (limit : Nat) : Stmt → Scope S → Except (Stop Fatal) (Out S)
  | .simple id, s => pure { norm := some { s with state := a.simple id s.state } }
  | .seq first second, s => do
    let x ← a.run limit first s
    match x.norm with
    | none => pure x
    | some s => do
      let y ← a.run limit second s
      pure (a.joinOut { x with norm := none } y)
  | .ite id thenStmt elseStmt, s => do
    let cond := a.cond id false s.state
    let x ← (if cond ≠ .fails then a.run limit thenStmt s else pure {})
    let y ← (if cond ≠ .holds then a.run limit elseStmt s else pure {})
    pure (a.joinOut x y)
  | .loop id isDo body, s => do
    match ← a.enterLoop id isDo (a.run limit body) s with
    | .inr out => pure out
    | .inl s => Passes.iterate (a.terminator id) (a.pass (a.run limit body)) limit s
  | .brk, s =>
    match s.loopStack with
    | [] => throw (.fatal .emptyLoopStack)
    | _ :: rest => pure { brk := some { s with loopStack := rest } }
  | .cont, s =>
    match s.loopStack with
    | [] => throw (.fatal .emptyLoopStack)
    | _ :: _ => pure { cont := some s }
  | .ret, s => pure { ret := some s }
  | .call id body, s => do
    let out ← a.run limit body ⟨a.enterCall id s.state, []⟩
    pure { norm := (a.joinScopes out.norm out.ret).map fun t =>
      ⟨a.leaveCall id t.state, s.loopStack⟩ }

end Analysis

/-- A loop is not nested in itself: each loop statement has a pointer of its own. -/
def Stmt.Nested : Stmt → List Nat → Prop
  | .seq first second, outer => first.Nested outer ∧ second.Nested outer
  | .ite _ thenStmt elseStmt, outer => thenStmt.Nested outer ∧ elseStmt.Nested outer
  | .loop id _ body, outer => id ∉ outer ∧ body.Nested (id :: outer)
  | .call _ body, _ => body.Nested []
  | _, _ => True

structure Process where
  body : Stmt
  nested : body.Nested []

namespace Analysis
variable {a : Analysis S} {m : UInt32} {f : Frame S} {limit id : Nat} {state : S}
  {loopStack : List (Frame S)}

/-- The visits of a loop that the counter leaves, if it counts without overflow. -/
def maxVisits (m : UInt32) : Nat := max m.toNat 20 + 1

/-- The counter of a loop, which is at its last value only when the state was stable. -/
structure Counted (m : UInt32) (f : Frame S) : Prop where
  le : f.counter.toNat ≤ maxVisits m
  last : f.counter.toNat = maxVisits m → f.stableState = true

theorem toNat_increment {c : UInt8} (h : c.toNat < 255) : (c + 1).toNat = c.toNat + 1 := by
  rw [UInt8.toNat_add]
  change (c.toNat + 1) % 256 = _
  omega

/-- Every visit that stays in the loop raises the counter. -/
theorem iterate_counted (hm : m.toNat ≤ 254) (h : Counted m f)
    (hnext : (a.iterate m f state).stableState = false) :
    (a.iterate m f state).frame.stmt = f.stmt ∧
      f.counter.toNat < (a.iterate m f state).frame.counter.toNat ∧
      Counted m (a.iterate m f state).frame := by
  obtain ⟨hle, hlast⟩ := h
  unfold maxVisits at hle hlast
  have hjump : m.toUInt8.toNat = m.toNat := by
    rw [UInt32.toNat_toUInt8]
    omega
  have hlt : f.counter.toUInt32 < m ↔ f.counter.toNat < m.toNat := by
    rw [UInt32.lt_iff_toNat_lt, UInt8.toNat_toUInt32]
  have herror : f.counter.toUInt32 < UNROLL_ERROR_ITER ↔ f.counter.toNat < 20 := by
    rw [UInt32.lt_iff_toNat_lt, UInt8.toNat_toUInt32]
    rfl
  have hincrement : f.counter.toNat < 255 → (f.counter + 1).toNat = f.counter.toNat + 1 :=
    toNat_increment
  unfold iterate at hnext ⊢
  dsimp only at hnext ⊢
  split at hnext
  · split at hnext
    · cases hnext
    · rename_i hstable hflag
      rw [if_pos hstable, if_neg hflag]
      have hbelow : f.counter.toNat ≤ max m.toNat 20 := by
        by_contra hover
        exact hflag (hlast (by omega))
      refine ⟨rfl, ?_, ?_, fun _ => rfl⟩ <;> dsimp only <;> split
      · rw [hlt] at *
        omega
      · rw [hincrement (by omega)]
        omega
      · unfold maxVisits
        omega
      · rw [hincrement (by omega)]
        unfold maxVisits
        omega
  · rename_i hunstable
    rw [if_neg hunstable]
    split at hnext
    · rename_i hmax
      rw [if_pos hmax]
      rw [hlt] at hmax
      have hnext := hincrement (by omega)
      refine ⟨rfl, by dsimp only; omega, ⟨?_, ?_⟩⟩ <;> unfold maxVisits <;> dsimp only <;> omega
    · rename_i hmax
      rw [if_neg hmax]
      split at hnext
      · rename_i hunroll
        rw [if_pos hunroll]
        rw [herror] at hunroll
        have hnext := hincrement (by omega)
        refine ⟨rfl, by dsimp only; omega, ⟨?_, ?_⟩⟩ <;> unfold maxVisits <;> dsimp only <;> omega
      · cases hnext

/-- All scopes found have this loop stack. -/
def HasStack (loopStack : List (Frame S)) (s : Option (Scope S)) : Prop :=
  ∀ t ∈ s, t.loopStack = loopStack

theorem HasStack.none : HasStack loopStack none := nofun

theorem HasStack.some {s : Scope S} (h : s.loopStack = loopStack) :
    HasStack loopStack (some s) := by
  intro t ht
  rwa [← Option.mem_some_iff.mp ht]

theorem HasStack.join {s t : Option (Scope S)} (hs : HasStack loopStack s)
    (ht : HasStack loopStack t) : HasStack loopStack (a.joinScopes s t) := by
  cases s with
  | none => exact ht
  | some s =>
    cases t with
    | none => exact hs
    | some t => exact HasStack.some (hs s rfl)

/-- A statement leaves the loop stack as it is; only `break` takes the current loop from it. -/
structure Keeps (loopStack : List (Frame S)) (out : Out S) : Prop where
  norm : HasStack loopStack out.norm
  brk : HasStack loopStack.tail out.brk
  cont : HasStack loopStack out.cont

/-- The paths that have left a loop. -/
structure Leaves (loopStack : List (Frame S)) (out : Out S) : Prop where
  norm : HasStack loopStack out.norm
  brk : out.brk = none
  cont : out.cont = none

theorem Leaves.keeps {out : Out S} (h : Leaves loopStack out) : Keeps loopStack out where
  norm := h.norm
  brk := h.brk ▸ HasStack.none
  cont := h.cont ▸ HasStack.none

theorem Keeps.join {x y : Out S} (hx : Keeps loopStack x) (hy : Keeps loopStack y) :
    Keeps loopStack (a.joinOut x y) where
  norm := hx.norm.join hy.norm
  brk := hx.brk.join hy.brk
  cont := hx.cont.join hy.cont

/-- A loop that is the current one, above the loops it is nested in. -/
structure Current (m : UInt32) (id : Nat) (outer : List (Frame S)) (f : Frame S)
    (loopStack : List (Frame S)) : Prop where
  stack : loopStack = f :: outer
  stmt : f.stmt = id
  counted : Counted m f

theorem Current.isCurrLoop {outer : List (Frame S)} (h : Current m id outer f loopStack) :
    isCurrLoop id loopStack = true := by
  rw [h.stack]
  exact decide_eq_true h.stmt

theorem not_isCurrLoop (h : id ∉ loopStack.map Frame.stmt) :
    isCurrLoop id loopStack = false := by
  cases loopStack with
  | nil => rfl
  | cons f rest =>
    simp only [List.map_cons, List.mem_cons, not_or] at h
    exact decide_eq_false fun hstmt => h.1 hstmt.symm

theorem pushLoop_ends (m : UInt32) (s : Scope S) :
    Ends (a.pushLoop id s) fun t =>
      ∃ f, Current m id s.loopStack f t.loopStack ∧ f.counter.toNat = 1 := by
  unfold pushLoop
  split
  · exact Ends.fatal _
  · refine Ends.pure ⟨_, ⟨rfl, rfl, ?_, ?_⟩, rfl⟩ <;> unfold maxVisits <;> simp

/-- The visits that are left. -/
def remaining (m : UInt32) (id : Nat) (loopStack : List (Frame S)) : Nat :=
  match loopStack with
  | [] => maxVisits m
  | f :: _ => if f.stmt = id then maxVisits m - f.counter.toNat else maxVisits m

theorem Current.remaining_eq {outer : List (Frame S)} (h : Current m id outer f loopStack) :
    remaining m id loopStack = maxVisits m - f.counter.toNat := by
  rw [h.stack]
  exact if_pos h.stmt

theorem remaining_first (h : id ∉ loopStack.map Frame.stmt) :
    remaining m id loopStack = maxVisits m := by
  cases loopStack with
  | nil => rfl
  | cons f rest =>
    simp only [List.map_cons, List.mem_cons, not_or] at h
    exact if_neg fun hstmt => h.1 hstmt.symm

/-- A scope at the terminator of a loop, before its first or a further iteration. -/
def AtLoop (m : UInt32) (id : Nat) (outer loopStack : List (Frame S)) : Prop :=
  loopStack = outer ∨ ∃ f, Current m id outer f loopStack

theorem advance_ends {outer : List (Frame S)} {s : Scope S}
    (hm : a.loopMaxIter (outer.length + 1) = m) (hle : m.toNat ≤ 254)
    (hfresh : id ∉ outer.map Frame.stmt) (hs : AtLoop m id outer s.loopStack) :
    Ends (a.advance id s) fun (t, stableState, _) => t.loopStack.tail = outer ∧
      (stableState = false → (∃ f, Current m id outer f t.loopStack) ∧
        remaining m id t.loopStack < remaining m id s.loopStack) := by
  unfold advance
  rcases hs with hfirst | ⟨f, hf⟩
  · rw [hfirst, not_isCurrLoop hfresh]
    refine (pushLoop_ends m s).bind fun t ht => ?_
    obtain ⟨f, hf, hcounter⟩ := ht
    rw [hfirst] at hf
    refine Ends.pure ⟨by rw [hf.stack]; rfl, fun _ => ⟨⟨f, hf⟩, ?_⟩⟩
    rw [hf.remaining_eq, remaining_first hfresh, hcounter]
    unfold maxVisits
    omega
  · rw [hf.isCurrLoop, hf.stack, List.length_cons, hm]
    refine Ends.pure ⟨rfl, fun hstable => ?_⟩
    obtain ⟨hstmt, hlt, hcounted⟩ := iterate_counted hle hf.counted hstable
    have hnext : Current m id outer (a.iterate m f s.state).frame
        ((a.iterate m f s.state).frame :: outer) := ⟨rfl, hstmt.trans hf.stmt, hcounted⟩
    refine ⟨⟨_, hnext⟩, ?_⟩
    rw [hnext.remaining_eq, ← hf.stack, hf.remaining_eq]
    have := hcounted.le
    omega

theorem visitLoop_ends {outer : List (Frame S)} {s : Scope S}
    (hm : a.loopMaxIter (outer.length + 1) = m) (hle : m.toNat ≤ 254)
    (hfresh : id ∉ outer.map Frame.stmt) (hs : AtLoop m id outer s.loopStack) :
    Ends (a.visitLoop id s) fun visit => HasStack outer visit.exit ∧
      ∀ t ∈ visit.body, (∃ f, Current m id outer f t.loopStack) ∧
        remaining m id t.loopStack < remaining m id s.loopStack := by
  unfold visitLoop
  dsimp only
  generalize (if isCurrLoop id s.loopStack then a.forInc id s.state else _) = state
  split
  · exact Ends.fatal _
  · refine (advance_ends (s := { s with state }) hm hle hfresh hs).bind
      fun ⟨t, stableState, unrollMax⟩ ⟨htail, hnext⟩ => ?_
    refine Ends.pure ⟨?_, fun b hb => ?_⟩
    · dsimp only
      split
      · exact HasStack.some htail
      · exact HasStack.none
    · dsimp only at hb
      split at hb
      · rename_i hpush
        obtain rfl := Option.mem_some_iff.mp hb
        cases stableState with
        | false => exact hnext rfl
        | true => cases hpush
      · cases hb

theorem terminator_ends {outer : List (Frame S)} {s : Scope S} {out : Out S}
    (hm : a.loopMaxIter (outer.length + 1) = m) (hle : m.toNat ≤ 254)
    (hfresh : id ∉ outer.map Frame.stmt) (hs : AtLoop m id outer s.loopStack)
    (hout : Leaves outer out) :
    Ends (a.terminator id (s, out)) fun
      | .inl (t, out) => ((∃ f, Current m id outer f t.loopStack) ∧ Leaves outer out ∧
          remaining m id t.loopStack < remaining m id s.loopStack)
      | .inr out => Leaves outer out := by
  unfold terminator
  refine (visitLoop_ends hm hle hfresh hs).bind fun visit ⟨hexit, hbody⟩ => ?_
  have hout : Leaves outer { out with norm := a.joinScopes out.norm visit.exit } :=
    { hout with norm := hout.norm.join hexit }
  cases h : visit.body with
  | none => exact Ends.pure hout
  | some t =>
    obtain ⟨hcurrent, hremaining⟩ := hbody t h
    exact Ends.pure ⟨hcurrent, hout, hremaining⟩

theorem pass_ends {outer : List (Frame S)} {s : Scope S} {out : Out S}
    {body : Scope S → Except (Stop Fatal) (Out S)} (hs : Current m id outer f s.loopStack)
    (hout : Leaves outer out) (hbody : Ends (body s) (Keeps s.loopStack)) :
    Ends (a.pass body (s, out)) fun
      | .inl (t, out) => t.loopStack = s.loopStack ∧ Leaves outer out
      | .inr out => Leaves outer out := by
  unfold pass
  refine hbody.bind fun b hb => ?_
  have hbrk : HasStack outer b.brk := by
    have := hb.brk
    rwa [hs.stack] at this
  have hout : Leaves outer
      { out with norm := a.joinScopes out.norm b.brk, ret := a.joinScopes out.ret b.ret } :=
    { hout with norm := hout.norm.join hbrk }
  have hback := hb.norm.join (a := a) hb.cont
  cases h : a.joinScopes b.norm b.cont with
  | none => exact Ends.pure hout
  | some t =>
    rw [h] at hback
    exact Ends.pure ⟨hback t rfl, hout⟩

/-- The visits of a loop whose body stays within the limits. -/
theorem iterate_ends {outer : List (Frame S)} {s : Scope S} {out : Out S}
    {body : Scope S → Except (Stop Fatal) (Out S)}
    (hm : a.loopMaxIter (outer.length + 1) = m) (hle : m.toNat ≤ 254)
    (hfresh : id ∉ outer.map Frame.stmt) (hs : AtLoop m id outer s.loopStack)
    (hout : Leaves outer out) (hlimit : maxVisits m ≤ limit)
    (hbody : ∀ f t, Current m id outer f t.loopStack → Ends (body t) (Keeps t.loopStack)) :
    Ends (Passes.iterate (a.terminator id) (a.pass body) limit (s, out)) (Leaves outer) := by
  have hremaining : remaining m id s.loopStack ≤ maxVisits m := by
    rcases hs with hfirst | ⟨f, hf⟩
    · rw [hfirst, remaining_first hfresh]
    · rw [hf.remaining_eq]
      omega
  refine Ends.iterate (fun x => AtLoop m id outer x.1.loopStack ∧ Leaves outer x.2)
    (fun x y => (∃ f, Current m id outer f y.1.loopStack) ∧ Leaves outer y.2 ∧
      remaining m id y.1.loopStack < remaining m id x.1.loopStack)
    (fun x => remaining m id x.1.loopStack) (fun x hx => ?_) (fun x y hxy => ?_)
    ⟨hs, hout⟩ (Nat.le_trans hremaining hlimit)
  · refine (terminator_ends hm hle hfresh hx.1 hx.2).mono fun next hnext => ?_
    cases next with
    | inl t => exact ⟨hnext, Nat.zero_lt_of_lt hnext.2.2⟩
    | inr out => exact hnext
  · obtain ⟨⟨f, hf⟩, hout, hremaining⟩ := hxy
    refine (pass_ends hf hout (hbody f y.1 hf)).mono fun next hnext => ?_
    cases next with
    | inl t =>
      obtain ⟨hstack, hout⟩ := hnext
      rw [← hstack] at hf hremaining
      exact ⟨⟨Or.inr ⟨f, hf⟩, hout⟩, hremaining⟩
    | inr out => exact hnext

theorem loopMaxIter_le (h : a.LOOP_MAX_ITER.toNat ≤ 254) (depth : Nat) :
    (a.loopMaxIter depth).toNat ≤ 254 ∧
      maxVisits (a.loopMaxIter depth) ≤ maxVisits a.LOOP_MAX_ITER := by
  unfold loopMaxIter
  split
  · exact ⟨h, Nat.le_refl _⟩
  · have hdeep : DEEP_LOOP_MAX_ITER.toNat = 3 := rfl
    unfold maxVisits
    omega

/-- The analysis ends when the counter of loops cannot overflow. -/
theorem run_ends (h : a.LOOP_MAX_ITER.toNat ≤ 254) (hlimit : maxVisits a.LOOP_MAX_ITER ≤ limit)
    (stmt : Stmt) (s : Scope S) (hstmt : stmt.Nested (s.loopStack.map Frame.stmt)) :
    Ends (a.run limit stmt s) (Keeps s.loopStack) := by
  induction stmt generalizing s with
  | simple id => exact Ends.pure ⟨HasStack.some rfl, HasStack.none, HasStack.none⟩
  | seq first second ihFirst ihSecond =>
    refine (ihFirst s hstmt.1).bind fun x hx => ?_
    cases hnorm : x.norm with
    | none => exact Ends.pure hx
    | some t =>
      have ht : t.loopStack = s.loopStack := hx.norm t hnorm
      have hsecond := ihSecond t (ht ▸ hstmt.2)
      rw [ht] at hsecond
      exact hsecond.bind fun y hy =>
        Ends.pure (Keeps.join { hx with norm := HasStack.none } hy)
  | ite id thenStmt elseStmt ihThen ihElse =>
    have hnone : Keeps s.loopStack ({} : Out S) :=
      ⟨HasStack.none, HasStack.none, HasStack.none⟩
    have hthen : Ends (if a.cond id false s.state ≠ .fails then a.run limit thenStmt s
        else pure {}) (Keeps s.loopStack) := by
      split
      · exact ihThen s hstmt.1
      · exact Ends.pure hnone
    have helse : Ends (if a.cond id false s.state ≠ .holds then a.run limit elseStmt s
        else pure {}) (Keeps s.loopStack) := by
      split
      · exact ihElse s hstmt.2
      · exact Ends.pure hnone
    exact hthen.bind fun x hx => helse.bind fun y hy => Ends.pure (hx.join hy)
  | loop id isDo body ih =>
    obtain ⟨hfresh, hbody⟩ := hstmt
    obtain ⟨hle, hvisits⟩ := loopMaxIter_le h (s.loopStack.length + 1)
    have hpass : ∀ f t, Current (a.loopMaxIter (s.loopStack.length + 1)) id s.loopStack f
        t.loopStack → Ends (a.run limit body t) (Keeps t.loopStack) := by
      intro f t ht
      refine ih t ?_
      rw [ht.stack, List.map_cons, ht.stmt]
      exact hbody
    have henter : Ends (a.enterLoop id isDo (a.run limit body) s) fun
        | .inl (t, out) => AtLoop (a.loopMaxIter (s.loopStack.length + 1)) id s.loopStack
            t.loopStack ∧ Leaves s.loopStack out
        | .inr out => Leaves s.loopStack out := by
      have hnone : Leaves s.loopStack ({} : Out S) := ⟨HasStack.none, rfl, rfl⟩
      unfold enterLoop
      split
      · rw [not_isCurrLoop hfresh]
        refine (pushLoop_ends (a.loopMaxIter (s.loopStack.length + 1)) s).bind fun t ht => ?_
        obtain ⟨f, hf, -⟩ := ht
        refine (pass_ends hf hnone (hpass f t hf)).mono fun next hnext => ?_
        cases next with
        | inl u => exact ⟨Or.inr ⟨f, hnext.1 ▸ hf⟩, hnext.2⟩
        | inr out => exact hnext
      · exact Ends.pure ⟨Or.inl rfl, hnone⟩
    refine henter.bind fun start hstart => ?_
    cases start with
    | inr out => exact Ends.pure hstart.keeps
    | inl t =>
      exact (iterate_ends rfl hle hfresh hstart.1 hstart.2 (Nat.le_trans hvisits hlimit)
        hpass).mono fun out hout => hout.keeps
  | brk =>
    rw [run]
    split
    · exact Ends.fatal _
    · rename_i f rest hrest
      exact Ends.pure ⟨HasStack.none, HasStack.some (by rw [hrest]; rfl), HasStack.none⟩
  | cont =>
    rw [run]
    split
    · exact Ends.fatal _
    · exact Ends.pure ⟨HasStack.none, HasStack.none, HasStack.some rfl⟩
  | ret => exact Ends.pure ⟨HasStack.none, HasStack.none, HasStack.none⟩
  | call id body ih =>
    refine (ih ⟨a.enterCall id s.state, []⟩ hstmt).bind fun out _ => ?_
    refine Ends.pure ⟨fun t ht => ?_, HasStack.none, HasStack.none⟩
    obtain ⟨u, -, rfl⟩ := Option.mem_map.mp ht
    rfl

end Analysis

def Process.run (p : Process) (a : Analysis S) (limit : Nat) (s : S) :
    Except (Stop Fatal) (Analysis.Out S) :=
  a.run limit p.body ⟨s, []⟩

/-- A loop on a condition that is not known. -/
def whileUnknown : Process := ⟨.loop 0 false (.simple 0), by simp [Stmt.Nested]⟩

/-- States count the iterations. A comparison finds them equal where the counter is 255. -/
def counting (value : UInt32) : Analysis UInt8 where
  LOOP_MAX_ITER := value
  simple _ s := s
  enterCall _ s := s
  leaveCall _ s := s
  forInit _ _ := 0
  forInc _ s := s + 1
  cond _ _ _ := .unknown
  evaluateIterNumber _ _ := none
  fallthrough _ _ := false
  hasBody _ := true
  hasExit _ := true
  join _ t := t
  compare s _ := s = 255
  compareAndSetNovalue s _ := s

namespace Analysis

/-- From 255 the counter starts again at zero, whether the states are found equal or not. -/
theorem counting_iterate {value : UInt32} (h : 255 ≤ value.toNat) {f : Frame UInt8}
    (hiter : f.iterNumber = 0) (hflag : f.stableState = true → f.counter = 0) :
    ∃ g, (counting value).iterate value f f.counter = ⟨g, f.counter, false, false⟩ ∧
      g.stmt = f.stmt ∧ g.iterNumber = 0 ∧ g.counter = f.counter + 1 ∧
      (g.stableState = true → g.counter = 0) := by
  have hrange : f.counter.toNat < 256 := f.counter.toNat_lt
  have hlt : f.counter.toUInt32 < value ↔ f.counter.toNat < value.toNat := by
    rw [UInt32.lt_iff_toNat_lt, UInt8.toNat_toUInt32]
  have hcompare : (value - 1 ≤ f.counter.toUInt32) ↔ value.toNat - 1 ≤ f.counter.toNat := by
    rw [UInt32.le_iff_toNat_le, UInt8.toNat_toUInt32, UInt32.toNat_sub_of_le]
    · rfl
    · rw [UInt32.le_iff_toNat_le]
      exact Nat.le_trans (by decide) h
  unfold iterate
  dsimp only
  split
  · rename_i hstable
    obtain ⟨hcompared, heq⟩ := Bool.and_eq_true_iff.mp hstable
    have heq : f.counter = 255 := of_decide_eq_true heq
    have hnat : f.counter.toNat = 255 := congrArg UInt8.toNat heq
    have hwrap : (if f.counter.toUInt32 < value then value.toUInt8 else f.counter + 1) =
        f.counter + 1 := by
      split
      · rename_i hjump
        rw [compareState, hiter, heq] at hcompared
        have hlast : value - 1 ≤ f.counter.toUInt32 := by
          rw [heq]
          simpa [COMPARE_STATE_ITER] using hcompared
        rw [hcompare] at hlast
        rw [hlt] at hjump
        rw [← UInt8.toNat_inj, UInt32.toNat_toUInt8, heq]
        change value.toNat % 256 = 0
        omega
      · rfl
    have hzero : f.counter + 1 = 0 := by
      rw [heq]
      rfl
    have hunset : f.stableState ≠ true := by
      intro hset
      rw [hflag hset] at heq
      exact absurd heq (by decide)
    rw [if_neg hunset]
    exact ⟨_, rfl, rfl, hiter, hwrap, fun _ => hwrap.trans hzero⟩
  · rename_i hunstable
    have hbelow : f.counter.toUInt32 < value := by
      rw [hlt]
      by_contra hover
      have heq : f.counter = 255 := UInt8.toNat_inj.mp (by change _ = 255; omega)
      have hlast : value - 1 ≤ f.counter.toUInt32 := hcompare.mpr (by omega)
      refine hunstable (Bool.and_eq_true_iff.mpr ⟨?_, decide_eq_true heq⟩)
      exact decide_eq_true (Or.inl hlast)
    rw [if_pos hbelow]
    exact ⟨_, rfl, rfl, hiter, rfl, nofun⟩

end Analysis

theorem counting_terminator {value : UInt32} {s t : Scope UInt8} (out : Analysis.Out UInt8)
    (h : (counting value).advance 0 { s with
      state := if isCurrLoop 0 s.loopStack then s.state + 1 else 0 } = .ok (t, false, false)) :
    ∃ out', (counting value).terminator 0 (s, out) = .ok (.inl (t, out')) := by
  have hvisit : (counting value).visitLoop 0 s =
      .ok ⟨some t, some { t with loopStack := t.loopStack.tail }, false⟩ := by
    unfold Analysis.visitLoop
    change ((counting value).advance 0 { s with
      state := if isCurrLoop 0 s.loopStack then s.state + 1 else 0 } >>= _) = _
    rw [h]
    rfl
  unfold Analysis.terminator
  dsimp only
  rw [hvisit]
  exact ⟨_, rfl⟩

/-- Iterations of the loop: the state is one behind the counter. -/
def Behind (s : Scope UInt8) : Prop :=
  ∃ f, s.loopStack = [f] ∧ f.stmt = 0 ∧ f.iterNumber = 0 ∧ f.counter = s.state + 1 ∧
    (f.stableState = true → f.counter = 0)

theorem counting_advance {value : UInt32} (h : 255 ≤ value.toNat) {s : Scope UInt8}
    (hs : s.loopStack = [] ∨ Behind s) :
    ∃ t, Behind t ∧ (counting value).advance 0 { s with
      state := if isCurrLoop 0 s.loopStack then s.state + 1 else 0 } = .ok (t, false, false) := by
  obtain ⟨state, loopStack⟩ := s
  rcases hs with rfl | ⟨f, rfl, hstmt, hiter, hcounter, hflag⟩
  · exact ⟨⟨0, [⟨0, 0, 0, 1, false⟩]⟩, ⟨_, rfl, rfl, rfl, rfl, nofun⟩, rfl⟩
  · obtain ⟨g, hg, hgstmt, hgiter, hgcounter, hgflag⟩ := Analysis.counting_iterate h hiter hflag
    have hcurrent : isCurrLoop 0 [f] = true := decide_eq_true hstmt
    refine ⟨⟨f.counter, [g]⟩, ⟨g, rfl, hgstmt.trans hstmt, hgiter, hgcounter, hgflag⟩, ?_⟩
    dsimp only at hcounter ⊢
    rw [if_pos hcurrent, ← hcounter]
    unfold Analysis.advance
    dsimp only
    have hmax : (counting value).loopMaxIter [f].length = value := rfl
    rw [hcurrent]
    dsimp only
    rw [hmax, hg]
    rfl

theorem whileUnknown_more {value : UInt32} (h : 255 ≤ value.toNat) (limit : Nat) :
    whileUnknown.run (counting value) limit 0 = .error .more := by
  refine Passes.iterate_more (fun x => x.1.loopStack = [] ∨ Behind x.1) ?_ (Or.inl rfl) limit
  rintro ⟨s, out⟩ hs
  obtain ⟨t, ht, hadvance⟩ := counting_advance h hs
  obtain ⟨out', hterminator⟩ := counting_terminator out hadvance
  exact ⟨_, _, hterminator, rfl, Or.inr ht⟩

/-- Every entry of a loop pushes the body a bounded number of times, and a visit that does
not push it leaves the loop. -/
structure LoopsEnd (value : UInt32) : Prop where
  bounded : ∃ limit, ∀ (S : Type) (a : Analysis S) (p : Process) (s : S),
    a.LOOP_MAX_ITER = value → p.run a limit s ≠ .error .more
  left : ∀ (S : Type) (a : Analysis S) (id : Nat) (s : Scope S) (visit : Analysis.Visit S),
    a.LOOP_MAX_ITER = value → a.visitLoop id s = .ok visit → a.hasBody id → a.hasExit id →
      visit.body.isSome ∨ visit.exit.isSome

theorem visitLoop_left {a : Analysis S} {id : Nat} {s : Scope S} {visit : Analysis.Visit S}
    (h : a.visitLoop id s = .ok visit) (hbody : a.hasBody id) (hexit : a.hasExit id) :
    visit.body.isSome ∨ visit.exit.isSome := by
  unfold Analysis.visitLoop at h
  dsimp only at h
  generalize (if isCurrLoop id s.loopStack then a.forInc id s.state else _) = state at h
  split at h
  · cases h
  · cases hnext : a.advance id { s with state } with
    | error e =>
      rw [hnext] at h
      cases h
    | ok next =>
      rw [hnext] at h
      obtain rfl := Except.ok.inj h
      dsimp only
      rw [hbody, hexit]
      cases next.2.1 <;> cases a.cond id (!isCurrLoop id s.loopStack) state <;> simp

/-- The analysis of loops ends in all processes exactly if the maximum number of iterations
stays below the range of the counter. It then bounds the passes through a body. -/
theorem loops_end_iff (value : UInt32) :
    (LoopsEnd value ↔ value.toNat ≤ 254) ∧
    (value.toNat ≤ 254 → ∀ (S : Type) (a : Analysis S) (p : Process) (s : S),
      a.LOOP_MAX_ITER = value → p.run a (max value.toNat 20 + 1) s ≠ .error .more) := by
  have hends : value.toNat ≤ 254 → ∀ (S : Type) (a : Analysis S) (p : Process) (s : S),
      a.LOOP_MAX_ITER = value → p.run a (max value.toNat 20 + 1) s ≠ .error .more := by
    rintro h S a p s rfl
    exact (Analysis.run_ends h (Nat.le_refl _) p.body ⟨s, []⟩ p.nested).ne_more
  refine ⟨⟨fun ⟨⟨limit, hlimit⟩, _⟩ => ?_, fun h => ⟨⟨_, hends h⟩, ?_⟩⟩, hends⟩
  · by_contra hover
    exact hlimit _ _ whileUnknown 0 rfl (whileUnknown_more (by omega) limit)
  · intro S a id s visit _ hvisit hbody hexit
    exact visitLoop_left hvisit hbody hexit

/-- With a maximum of 256 a loop is analyzed without end. -/
theorem loops_unbounded :
    (∀ limit, whileUnknown.run (counting 256) limit 0 = .error .more) ∧ ¬ LoopsEnd 256 := by
  have hmore : ∀ limit, whileUnknown.run (counting 256) limit 0 = .error .more :=
    whileUnknown_more (by decide)
  exact ⟨hmore, fun ⟨⟨limit, hlimit⟩, _⟩ => hlimit _ _ whileUnknown 0 rfl (hmore limit)⟩

end SystemcCompiler.LoopPolicy
