import SystemcCompiler.Scope.PrintsCode

/-! The scope graph of a process as `ScTraverseProc::run` builds it, block by block of the
control flow graph. -/
namespace SystemcCompiler.ScopeGraph
open StmtInfo (Ptr Info)

abbrev BlockId := Nat

/-- Terminators of blocks. -/
inductive Term where
  /-- and whether `checkIfBranchEmpty` holds for its `else` -/
  | ifStmt (ptr : Ptr) (elseEmpty : Bool)
  /-- `for`, `while` and `do` -/
  | loop (ptr : Ptr) (doWhile : Bool)
  | breakStmt (ptr : Ptr)
  | continueStmt (ptr : Ptr)
  deriving DecidableEq

def Term.ptr : Term → Ptr
  | ifStmt ptr _ | loop ptr _ | breakStmt ptr | continueStmt ptr => ptr

/-- The loop that a block goes back to the start of. -/
structure LoopTarget where
  ptr : Ptr
  doWhile : Bool
  /-- `isDoWhileEmpty` -/
  bodyEmpty : Bool
  deriving DecidableEq

/-- A block of the control flow graph; a successor is null where the condition of a loop is a
constant. -/
structure CfgBlock where
  elems : List Ptr := []
  term : Option Term := none
  succs : List (Option BlockId) := []
  preds : List BlockId := []
  loopTarget : Option LoopTarget := none
  deriving DecidableEq

structure Cfg where
  block : BlockId → CfgBlock
  entry : BlockId
  exitBlockId : BlockId

/-- What is stored of a predecessor until its block is analyzed. -/
structure ScopeInfo where
  prevScope : ScopeId
  currScope : ScopeId
  loopStack : List Ptr
  deriving DecidableEq

/-- `delayed` by increasing block number, the innermost loop first in `loopStack`. -/
structure Traverse where
  graph : Graph
  idGen : ScopeId
  delayed : List (BlockId × List ScopeInfo)
  loopStack : List Ptr
  level : Nat
  currScope : ScopeId

namespace Graph

def modify (g : Graph) (scope : ScopeId) (f : CodeScope → CodeScope) : Graph :=
  Function.update g scope (f (g scope))

def addScopeSucc (g : Graph) (scope succ : ScopeId) : Graph :=
  g.modify scope fun c => { c with succs := c.succs ++ [succ] }

def addScopePred (g : Graph) (scope pred : ScopeId) : Graph :=
  g.modify scope fun c => { c with preds := c.preds ++ [pred] }

end Graph

namespace Traverse

def createScope (st : Traverse) (level : Nat) : ScopeId × Traverse :=
  (st.idGen, { st with
    graph := Function.update st.graph st.idGen { level := level }
    idGen := st.idGen + 1 })

/-- The scope a block is delayed with, or a new one. -/
def getScopeForBlock (st : Traverse) (block : BlockId) (level : Nat) : ScopeId × Traverse :=
  match st.delayed.find? (·.1 == block) with
  | some (_, info :: _) => (info.currScope, st)
  | _ => st.createScope level

def addScopeSucc (st : Traverse) (succ : ScopeId) : Traverse :=
  { st with graph := st.graph.addScopeSucc st.currScope succ }

/-- A scope between the current one and a successor. -/
def addEmptyScope (st : Traverse) (level : Nat) (succ : ScopeId) : Traverse :=
  let created := st.createScope level
  let st := created.2.addScopeSucc created.1
  { st with graph := (st.graph.addScopePred created.1 st.currScope).addScopeSucc created.1 succ }

def storeItems (st : Traverse) (items : List Item) : Traverse :=
  { st with graph := st.graph.modify st.currScope fun c => { c with items := c.items ++ items } }

def setCurrLevel (st : Traverse) (level : Nat) : Traverse :=
  { st with
    level := level
    graph := st.graph.modify st.currScope fun c => { c with level := level } }

def scopeInfo (st : Traverse) (scope : ScopeId) : ScopeInfo := ⟨st.currScope, scope, st.loopStack⟩

/-- The state with the successors of the block that are to be stored. -/
abbrev Succs := Traverse × List (BlockId × ScopeInfo)

/-- The scope of a block is a successor of the current one. -/
def succeed (st : Traverse) (block : BlockId) (level : Nat) : Succs :=
  let scope := st.getScopeForBlock block level
  (scope.2.addScopeSucc scope.1, [(block, scope.2.scopeInfo scope.1)])

/-- The same with an empty scope in between. -/
def succeedEmpty (st : Traverse) (block : BlockId) (level emptyLevel : Nat) : Succs :=
  let scope := st.getScopeForBlock block level
  let st := scope.2.addEmptyScope emptyLevel scope.1
  (st, [(block, st.scopeInfo scope.1)])

def pushLoop (st : Traverse) (ptr : Ptr) : Option Traverse :=
  if st.loopStack.head? = some ptr then some st
  else if ptr ∈ st.loopStack then none
  else some { st with loopStack := ptr :: st.loopStack }

def popLoop (st : Traverse) (ptr : Ptr) : Traverse :=
  if st.loopStack.head? = some ptr then { st with loopStack := st.loopStack.tail } else st

section
variable (cfg : Cfg) (info : Info) (E : Env)

def getDoWhileTerm (block : BlockId) : Option LoopTarget :=
  ((cfg.block block).preds.head?.bind fun pred => (cfg.block pred).loopTarget).filter
    (·.doWhile)

def termLevel (ptr : Ptr) : Option Nat :=
  info.getLevel ptr <|> info.getSubStmtLevel ptr

/-- The `do` part of a loop whose body the block starts. -/
def enterDo (st : Traverse) (block : BlockId) : Option Traverse :=
  match getDoWhileTerm cfg block with
  | some ⟨ptr, _, false⟩ => (info.getLevel ptr).bind fun level =>
    let st := (st.storeItems [⟨.doStmt, E.termStr ptr⟩]).setCurrLevel level
    let body := st.createScope (level + 1)
    let st := body.2.addScopeSucc body.1
    ({ st with
      graph := st.graph.addScopePred body.1 st.currScope
      currScope := body.1 } : Traverse).pushLoop ptr
  | _ => some st

/-- The level of a statement, with whether it is one of its own and not part of another. -/
def stmtLevel (level : Nat) (ptr : Ptr) : Option (Nat × Bool) :=
  match info.getLevel ptr <|> (info.declGroups ptr).bind info.getLevel with
  | some level => some (level, true)
  | none => (info.getSuperStmt ptr).map fun superStmt => ((info.getLevel superStmt).getD level, false)

def visitElem (st : Traverse) (ptr : Ptr) : Option Traverse :=
  (stmtLevel info st.level ptr).map fun level =>
    let st := st.setCurrLevel level.1
    if level.2 then st.storeItems (stmtItems E ptr) else st

def visitIf (st : Traverse) (ptr : Ptr) (elseEmpty : Bool) (thenBlock elseBlock : BlockId) :
    Option Succs :=
  if thenBlock = elseBlock then none
  else
    let t : Succs := if E.termCond ptr = some false then (st.addScopeSucc deadScope, [])
      else st.succeed thenBlock (st.level + 1)
    let e : Succs := if E.termCond ptr = some true then (t.1.addScopeSucc deadScope, [])
      else if elseEmpty then t.1.succeedEmpty elseBlock (st.level + 1) (st.level + 1)
      else t.1.succeed elseBlock (st.level + 1)
    some (e.1.storeItems [⟨.ifStmt, E.termStr ptr⟩], t.2 ++ e.2)

def visitLoop (st : Traverse) (ptr : Ptr) (doWhile : Bool)
    (bodyBlock exitBlock : Option BlockId) : Option Succs :=
  let loopVisited := doWhile || st.loopStack.head? == some ptr
  match loopVisited || E.termCond ptr == some false, bodyBlock with
  | false, some body =>
    -- the loop is entered with an empty scope before its body
    let scope := st.getScopeForBlock body (st.level + 1)
    let st := (scope.2.addEmptyScope (st.level + 1) scope.1).storeItems
      [⟨.loop (E.forExtrCntr ptr), E.termStr ptr⟩]
    (st.pushLoop ptr).map fun st => (st.storeItems [nullItem], [(body, st.scopeInfo scope.1)])
  | _, _ =>
    let st := (if loopVisited then st else st.storeItems (initItems E ptr)).popLoop ptr
    match exitBlock with
    | none => some (st.storeItems [nullItem], [])
    | some block =>
      let s := st.succeed block st.level
      some (s.1.storeItems [nullItem], s.2)

/-- `break` and `continue`. -/
def visitJump (st : Traverse) (item : List Item) (loopStack : List Ptr) (block : BlockId) :
    Succs :=
  ({ st.storeItems item with loopStack := loopStack } : Traverse).succeed block (st.level - 1)

def visitTerm (st : Traverse) (block : BlockId) : Option Succs :=
  let b := cfg.block block
  match b.term with
  | none =>
    match b.succs with
    | [] => if block = cfg.exitBlockId then some (st, []) else none
    | [some succ] => some (st.succeed succ st.level)
    | _ => none
  | some term => (termLevel info term.ptr).bind fun level =>
    let st := st.setCurrLevel level
    match term, b.succs with
    | .ifStmt ptr elseEmpty, [some thenBlock, some elseBlock] =>
      visitIf E st ptr elseEmpty thenBlock elseBlock
    | .loop ptr doWhile, [bodyBlock, exitBlock] => visitLoop E st ptr doWhile bodyBlock exitBlock
    | .breakStmt ptr, [some succ] =>
      if info.isSwitchBreak ptr then some (st.visitJump [] st.loopStack succ)
      else if st.loopStack = [] then none
      else some (st.visitJump [⟨.other, E.termStr ptr⟩] st.loopStack.tail succ)
    | .continueStmt ptr, [some succ] =>
      if st.loopStack = [] then none
      else some (st.visitJump [⟨.other, E.termStr ptr⟩] st.loopStack succ)
    | _, _ => none

/-- A predecessor is added to the entry of its block. -/
def addInfo (succ : BlockId × ScopeInfo) :
    List (BlockId × List ScopeInfo) → List (BlockId × List ScopeInfo)
  | [] => []
  | d :: ds => if d.1 = succ.1 then (d.1, d.2 ++ [succ.2]) :: ds else d :: addInfo succ ds

/-- A predecessor is stored with its block, or with a new entry before the first of a higher
number. -/
def delay (delayed : List (BlockId × List ScopeInfo)) (succ : BlockId × ScopeInfo) :
    List (BlockId × List ScopeInfo) :=
  if delayed.any (·.1 == succ.1) then addInfo succ delayed
  else delayed.orderedInsert (fun a b => a.1 < b.1) (succ.1, [succ.2])

def storeSuccs (s : Succs) : Traverse :=
  { s.1 with delayed := s.2.foldl delay s.1.delayed }

/-- The analysis of a block. -/
def visitBlock (st : Traverse) (block : BlockId) : Option Traverse :=
  (enterDo cfg info E st block).bind fun st =>
    ((cfg.block block).elems.foldlM (visitElem info E) st).bind fun st =>
      (visitTerm cfg info E st block).map storeSuccs

/-- The block with the highest number is next, in the scope of all its predecessors. -/
def prepareNextBlock (st : Traverse) : Option (BlockId × Traverse) :=
  match st.delayed.getLast? with
  | some (block, first :: rest) =>
    if rest.all fun i => i.currScope == first.currScope && i.loopStack == first.loopStack then
      some (block, { st with
        delayed := st.delayed.dropLast
        loopStack := first.loopStack
        currScope := first.currScope
        graph := st.graph.modify first.currScope fun c =>
          { c with preds := c.preds ++ (first :: rest).map (·.prevScope) } })
    else none
  | _ => none

/-- Blocks are analyzed until none is delayed. -/
def runBlocks : Nat → Traverse → Option Traverse
  | 0, _ => none
  | fuel + 1, st =>
    if st.delayed = [] then some st
    else (prepareNextBlock st).bind fun next =>
      (visitBlock cfg info E next.2 next.1).bind (runBlocks fuel)

/-- `initContext`: the first scope is the current one. -/
def initContext : Traverse where
  graph := Function.update (fun _ => {}) 1 {}
  idGen := 2
  delayed := []
  loopStack := []
  level := 0
  currScope := 1

def run (fuel : Nat) : Option Traverse :=
  (visitBlock cfg info E initContext cfg.entry).bind (runBlocks cfg info E fuel)

end

end Traverse

end SystemcCompiler.ScopeGraph
