import Mathlib.Algebra.Group.Nat.Defs
import SystemcCompiler.Library.Lockstep

/-! Code of one thread state as it is printed. The text is kept as a list of
lines; equal lists are equal texts. A loop without wait is one statement. -/
namespace SystemcCompiler.Cthread

/-- Lines of the printed function body, `τ` being the texts of user code. -/
inductive Line (τ : Type) where
  | stmt (text : τ)
  | ifBegin (cond : τ)
  | elseBegin
  | close
  | caseBegin (sel : τ)
  | armBegin (label : τ)
  | endcase
  /-- `if (WAIT_N != 1) begin` -/
  | waitNCheck
  /-- `WAIT_N_next = WAIT_N - 1` -/
  | waitNDecr
  /-- `WAIT_N_next = arg` -/
  | waitNAssign (arg : τ)
  /-- `PROC_STATE_next = id; return;    // loc` -/
  | stateAssign (id : Nat) (loc : τ)
  deriving DecidableEq

/-- What the user texts mean. `load` samples inputs and registers into the
variables of the function, `store` reads the next values of the registers. A
register that is not assigned keeps its value. -/
structure Interp (τ ι ρ ε : Type) where
  load : ρ → ι → ε
  store : ε → ρ
  store_load : ∀ r i, store (load r i) = r
  stmt : τ → ε → ε
  cond : τ → ε → Bool
  arm : τ → τ → ε → Bool
  arg : τ → ε → Nat

/-- How the counter of `wait(N)` takes a value and counts down. -/
structure Counter where
  load : Nat → Nat
  decr : Nat → Nat

/-- A counter register of `width` bits. -/
def Counter.ofWidth (width : Nat) : Counter where
  load n := n % 2 ^ width
  decr n := (n + 2 ^ width - 1) % 2 ^ width

inductive Block where
  | branch
  | arm
  deriving DecidableEq

/-- Which lines are executed. A skipped region counts the blocks opened in it. -/
inductive Mode (τ : Type) where
  | run
  | skip (depth : Nat) (toElse : Bool)
  | seek (depth : Nat) (sel : τ)
  | leave (depth : Nat)
  deriving DecidableEq

structure Cursor (τ : Type) where
  mode : Mode τ
  blocks : List Block
  deriving DecidableEq

/-- Variables of the function, the counter and its next value. -/
structure Vars (ε : Type) where
  env : ε
  waitN : Nat
  waitNNext : Nat

structure Result (ε : Type) where
  vars : Vars ε
  target : Option Nat

variable {τ ι ρ ε : Type}

def Cursor.start : Cursor τ :=
  ⟨.run, []⟩

/-- Lines that open a `begin` block. -/
def Line.opens : Line τ → Bool
  | .ifBegin _ | .waitNCheck | .armBegin _ => true
  | _ => false

/-- A line that is executed. -/
def Line.execute (I : Interp τ ι ρ ε) (C : Counter) (line : Line τ) (bs : List Block)
    (v : Vars ε) : Cursor τ × Vars ε :=
  match line with
  | .stmt text => (⟨.run, bs⟩, { v with env := I.stmt text v.env })
  | .ifBegin c => (if I.cond c v.env then ⟨.run, .branch :: bs⟩ else ⟨.skip 0 true, bs⟩, v)
  | .waitNCheck => (if v.waitN ≠ 1 then ⟨.run, .branch :: bs⟩ else ⟨.skip 0 true, bs⟩, v)
  | .waitNDecr => (⟨.run, bs⟩, { v with waitNNext := C.decr v.waitN })
  | .waitNAssign a => (⟨.run, bs⟩, { v with waitNNext := C.load (I.arg a v.env) })
  | .elseBegin => (⟨.skip 0 false, bs.tail⟩, v)
  | .close => (if bs.head? = some .arm then ⟨.leave 0, bs.tail⟩ else ⟨.run, bs.tail⟩, v)
  | .caseBegin sel => (⟨.seek 0 sel, bs⟩, v)
  | .armBegin _ | .endcase | .stateAssign _ _ => (⟨.run, bs⟩, v)

/-- A line of a branch that is not taken. The branch ends at its `end`, or at
its `else` if that is entered. -/
def Line.passBranch (line : Line τ) (depth : Nat) (toElse : Bool) (bs : List Block) : Cursor τ :=
  match line, depth with
  | .elseBegin, 0 => if toElse then ⟨.run, .branch :: bs⟩ else ⟨.skip 0 toElse, bs⟩
  | .close, 0 => ⟨.run, bs⟩
  | .close, d + 1 => ⟨.skip d toElse, bs⟩
  | line, d => ⟨.skip (if line.opens then d + 1 else d) toElse, bs⟩

/-- A line of a `case` before the arm that is taken. -/
def Line.seekArm (I : Interp τ ι ρ ε) (line : Line τ) (depth : Nat) (sel : τ) (bs : List Block)
    (env : ε) : Cursor τ :=
  match line, depth with
  | .armBegin label, 0 => if I.arm sel label env then ⟨.run, .arm :: bs⟩ else ⟨.seek 1 sel, bs⟩
  | .endcase, 0 => ⟨.run, bs⟩
  | .close, d + 1 => ⟨.seek d sel, bs⟩
  | line, d => ⟨.seek (if line.opens then d + 1 else d) sel, bs⟩

/-- A line of a `case` after the arm that was taken. -/
def Line.leaveCase (line : Line τ) (depth : Nat) (bs : List Block) : Cursor τ :=
  match line, depth with
  | .endcase, 0 => ⟨.run, bs⟩
  | .close, d + 1 => ⟨.leave d, bs⟩
  | line, d => ⟨.leave (if line.opens then d + 1 else d), bs⟩

def Line.advance (I : Interp τ ι ρ ε) (C : Counter) (line : Line τ) (cur : Cursor τ)
    (v : Vars ε) : Cursor τ × Vars ε :=
  match cur.mode with
  | .run => line.execute I C cur.blocks v
  | .skip depth toElse => (line.passBranch depth toElse cur.blocks, v)
  | .seek depth sel => (line.seekArm I depth sel cur.blocks v.env, v)
  | .leave depth => (line.leaveCase depth cur.blocks, v)

/-- `returns` is false in the reset section, where a state assignment is
non-blocking and the last one counts. -/
def exec (I : Interp τ ι ρ ε) (C : Counter) (returns : Bool) :
    List (Line τ) → Cursor τ → Vars ε → Result ε
  | [], _, v => ⟨v, none⟩
  | line :: rest, cur, v =>
    match line, cur.mode with
    | .stateAssign id _, .run =>
      if returns then ⟨v, some id⟩
      else
        let r := exec I C returns rest cur v
        ⟨r.vars, some (r.target.getD id)⟩
    | line, _ =>
      let next := line.advance I C cur v
      exec I C returns rest next.1 next.2

/-- Counter check and decrement at the entrance of a `wait(N)` state. -/
def putWaitNScopeGraph (id : Nat) (loc : τ) : List (Line τ) :=
  [.waitNCheck, .waitNDecr, .stateAssign id loc, .close]

end SystemcCompiler.Cthread
