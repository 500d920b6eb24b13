import SystemcCompiler.Library.InsertionOrderSet

/-! Use/def sets of `ScState`. Constant propagation records every access of a
variable here; the sets are cleared at each `wait()` and joined where paths meet. -/
namespace SystemcCompiler.Cfg
open InsertionOrderSet

/-- An access after `getDerefVariable`, `getVariableForValue` and
`getTopAndFirstArrayElementForAny` have resolved it. `tracked` is false for a
temporary, a field of a temporary record and a non-constant reference, which
take no part in the analysis. -/
structure Access (α : Type) where
  tracked : Bool
  lval : α
  llval : α
  topVal : α
  zeroVal : α
  hasArray : Bool
  unknownIndex : Bool
  deriving DecidableEq

structure UseDef (α : Type) where
  defined : List α
  declared : List α
  readndef : List α
  readninit : List α
  readsva : List α
  read : List α
  defallpath : List α
  defsomepath : List α
  arraydefined : List α
  loopCntrVars : List α
  deriving DecidableEq

namespace UseDef
variable {α : Type} [DecidableEq α]

/-- The sets after `clearReadAndDefinedVals`. -/
def empty : UseDef α :=
  ⟨[], [], [], [], [], [], [], [], [], []⟩

def declareValue (s : UseDef α) (lval : α) : UseDef α :=
  { s with declared := insert s.declared lval }

def writeToArrElmValue (s : UseDef α) (lval : α) : UseDef α :=
  { s with defined := insert s.defined lval }

def regForLoopCounter (s : UseDef α) (val : α) : UseDef α :=
  { s with loopCntrVars := insert s.loopCntrVars val }

def writeToValue (s : UseDef α) (a : Access α) (isDefined : Bool) : UseDef α :=
  if !a.tracked then s
  else
    let s := { s with arraydefined := insert s.arraydefined a.zeroVal }
    if isDefined then
      { s with
        defined := insert s.defined a.lval
        defallpath := insert s.defallpath a.zeroVal
        defsomepath := s.defsomepath.erase a.zeroVal }
    else if !a.unknownIndex then
      let s := { s with defined := insert s.defined a.lval }
      -- Some/all path sets are kept for values that are not array elements
      if !a.hasArray then
        { s with
          defallpath := insert s.defallpath a.zeroVal
          defsomepath := s.defsomepath.erase a.zeroVal }
      else s
    else s

/-- SVA arguments other than for-loop counters count as not defined. -/
def checksDefined (s : UseDef α) (a : Access α) (parseSvaArg : Bool) : Bool :=
  !parseSvaArg || decide (a.llval ∈ s.loopCntrVars)

def isDefined (s : UseDef α) (a : Access α) (parseSvaArg : Bool) : Bool :=
  s.checksDefined a parseSvaArg && (decide (a.lval ∈ s.defined) || decide (a.llval ∈ s.defined))

def isDeclared (s : UseDef α) (a : Access α) (parseSvaArg : Bool) : Bool :=
  s.checksDefined a parseSvaArg && (decide (a.lval ∈ s.declared) ||
    decide (a.llval ∈ s.declared) || decide (a.topVal ∈ s.declared))

def readFromValue (s : UseDef α) (a : Access α) (parseSvaArg : Bool) : UseDef α :=
  if !a.tracked then s
  else
    let isDefined := s.isDefined a parseSvaArg
    let isDeclared := s.isDeclared a parseSvaArg
    { s with
      readsva := if !isDefined && !isDeclared && parseSvaArg then
        insert s.readsva a.zeroVal else s.readsva
      readndef := if !isDefined && !isDeclared && !parseSvaArg then
        insert s.readndef a.zeroVal else s.readndef
      readninit := if isDeclared && !isDefined && !parseSvaArg then
        insert s.readninit a.zeroVal else s.readninit
      read := insert s.read a.zeroVal }

/-- `ScState::join` of two states that are not dead. A value defined on all
paths of one side only moves to `defsomepath`. -/
def join (s t : UseDef α) : UseDef α where
  defined := retain s.defined t.defined
  declared := retain s.declared t.declared
  readndef := insertAll s.readndef t.readndef
  readninit := insertAll s.readninit t.readninit
  readsva := insertAll s.readsva t.readsva
  read := insertAll s.read t.read
  defallpath := retain s.defallpath t.defallpath
  defsomepath :=
    insertAll
      (insertAll (insertAll s.defsomepath (s.defallpath.filter (· ∉ t.defallpath)))
        (t.defallpath.filter (· ∉ s.defallpath)))
      t.defsomepath
  arraydefined := insertAll s.arraydefined t.arraydefined
  loopCntrVars := insertAll s.loopCntrVars t.loopCntrVars

/-- `getReadNotDefinedValues` with its default argument. -/
def getReadNotDefinedValues (s : UseDef α) : List α :=
  insertAll s.readndef s.readsva

end UseDef

/-- The recording calls statement parsing makes between two waits. -/
inductive Event (α : Type) where
  | read (a : Access α) (parseSvaArg : Bool)
  | write (a : Access α) (isDefined : Bool)
  | writeArrElm (v : α)
  | declare (v : α)
  | loopCounter (v : α)

namespace UseDef
variable {α : Type} [DecidableEq α]

def record (s : UseDef α) : Event α → UseDef α
  | .read a sva => s.readFromValue a sva
  | .write a isDefined => s.writeToValue a isDefined
  | .writeArrElm v => s.writeToArrElmValue v
  | .declare v => s.declareValue v
  | .loopCounter v => s.regForLoopCounter v

end UseDef
end SystemcCompiler.Cfg
