import SystemcCompiler.Library.ApsInt
import SystemcCompiler.Library.Reachable

/-! The state of a module before its processes are analyzed: the values of all member variables
as elaborated, without those that differ between the elements of a modular interface array. -/
namespace SystemcCompiler.ProcBuilder
open Reachable

abbrev ClassId := Nat

/-- Declared types. A modular interface is told by its class, `std::array` and `std::vector`
are one kind. -/
inductive Ty where
  | int (width : Nat) (isUnsigned : Bool)
  | bool
  | channel
  | scPort
  | pointer (pointee : Ty)
  | record (cls : ClassId)
  | modularInterface (cls : ClassId)
  | array (elem : Ty)
  | stdArray (elem : Ty)
  | scVector (elem : Ty)
  | other
  deriving DecidableEq

namespace Ty

def isArray : Ty → Bool
  | .array _ | .stdArray _ => true
  | _ => false

def isScVector : Ty → Bool
  | .scVector _ => true
  | _ => false

def isPointer : Ty → Bool
  | .pointer _ => true
  | _ => false

def isScModularInterface : Ty → Bool
  | .modularInterface _ => true
  | _ => false

def stripStdArray : Ty → Ty
  | .stdArray t | .scVector t => t.stripStdArray
  | t => t

/-- First the C arrays, then the library ones: a C array in a library one stays. -/
def getArrayElementType : Ty → Ty
  | .array t => t.getArrayElementType
  | t => t.stripStdArray

def isScChannel : Ty → Bool
  | .channel => true
  | .pointer t => t.isScChannel
  | _ => false

def isScChannelArray (t : Ty) : Bool :=
  match t.getArrayElementType with
  | .pointer t => t == .channel
  | t => t == .channel

end Ty

structure Decl where
  id : Nat
  type : Ty
  isStatic : Bool
  deriving DecidableEq

/-- The fields of a class, without the static ones and those of its bases. -/
structure Class where
  fields : List Decl
  bases : List ClassId

/-- The way to an object from the one that contains it, and to an object outside the module. -/
inductive Step where
  | field (i : Nat)
  | base (i : Nat)
  | elem (i : Nat)
  | pointee
  | outside (id : Nat)
  deriving DecidableEq

abbrev Path := List Step

/-- Objects of the state carry the elaborated object they are made for. -/
inductive SValue where
  | unknown
  | integer (v : ApsInt)
  | channel (id : Path)
  | var (decl : Decl) (parent : SValue)
  | object (id : Path) (type : Ty)
  | array (id : Path) (type : Ty) (size offset : Nat)
  | record (id : Path) (cls : ClassId)
  deriving DecidableEq

namespace SValue

def isInteger : SValue → Bool
  | .integer _ => true
  | _ => false

def isVariable : SValue → Bool
  | .var .. => true
  | _ => false

def isArray : SValue → Bool
  | .array .. => true
  | _ => false

def isScChannel : SValue → Bool
  | .channel _ => true
  | _ => false

def isPointer : SValue → Bool
  | .var d _ => d.type.isPointer
  | _ => false

/-- `isVariable() || isTmpVariable() || isObject()` -/
def isLValue : SValue → Bool
  | .var .. | .object .. | .array .. | .record .. => true
  | _ => false

/-- Of an array the type of its elements. -/
def getType : SValue → Ty
  | .var d _ => d.type
  | .object _ t => t
  | .array _ t _ _ => t
  | .record _ c => .record c
  | _ => .other

end SValue

/-- An elaborated object that a pointer or port refers to, the array if it is the first
element of one. -/
structure Pointee where
  path : Path
  cls : ClassId
  isDynamic : Bool
  isModuleOrMif : Bool

inductive RecordKind where
  | plain | modularInterface | module
  deriving DecidableEq

/-- Elaborated objects with those they contain. A dynamic object stands at the pointer it is
first met at. -/
inductive Obj where
  | value (v : ApsInt)
  /-- Strings, values of more than 64 bits, dangling pointers, pointers into arrays without
  elements, and types that are not supported. -/
  | noValue
  | channel
  | port (pointee : Pointee)
  | null
  | pointer (pointee : Pointee)
  | new (type : Ty) (obj : Obj)
  | array (type : Ty) (elems : List Obj)
  /-- An array of integers whose elements are not saved: its sizes and element types. -/
  | optimizedArray (dims : List (Nat × Ty))
  | record (kind : RecordKind) (cls : ClassId) (bases : List Obj) (fields : List (Decl × Obj))

structure Builder where
  moduleState : SValue → SValue
  objSValMap : Path → Option SValue
  /-- The variables under their context, one after another. -/
  mifArrayVars : List (List Decl × SValue)
  unresolvedPointers : List (Path × Pointee)
  arrayPointers : List SValue

/-- The cast of an integer to the type of the left side. -/
def castTo : Ty → SValue → SValue
  | .bool, .integer v => .integer (.ofBool v.getBoolValue)
  | .int width isUnsigned, .integer v => .integer ((v.extOrTrunc width).setSigned !isUnsigned)
  | _, v => v

namespace Builder

def empty : Builder := ⟨fun _ => .unknown, fun _ => none, [], [], []⟩

/-- No reference is dereferenced here, and no index unknown. -/
def putValue (b : Builder) (lval rval : SValue) : Builder :=
  if lval.isLValue then
    { b with moduleState := Function.update b.moduleState lval (castTo lval.getType rval) }
  else b

def setSVal (b : Builder) (path : Path) (v : SValue) : Builder :=
  { b with objSValMap := Function.update b.objSValMap path (some v) }

def addMifArrayVar (b : Builder) (mifArrayCtx : List Decl) (lval : SValue) : Builder :=
  { b with mifArrayVars := b.mifArrayVars ++ [(mifArrayCtx, lval)] }

def resolvePointer (b : Builder) (unresolvedPtr : Path × Pointee) : Builder :=
  let pointerSVal := (b.objSValMap unresolvedPtr.1).getD .unknown
  let pointee := unresolvedPtr.2
  match b.objSValMap pointee.path with
  | some pointeeSVal => b.putValue pointerSVal pointeeSVal
  | none =>
    if pointee.isModuleOrMif then b.putValue pointerSVal (.record pointee.path pointee.cls)
    else b

/-- Objects met after the pointers to them. -/
def resolvePointers (b : Builder) : Builder :=
  { b.unresolvedPointers.foldl resolvePointer b with unresolvedPointers := [] }

/-- The array object in place of the array variable that is pointed to. -/
def replaceArrayPointer (b : Builder) (arrayPtr : SValue) : Builder :=
  let aval := b.moduleState (b.moduleState arrayPtr)
  if aval.isArray then b.putValue arrayPtr aval else b

def replaceArrayPointers (b : Builder) : Builder :=
  { b.arrayPointers.foldl replaceArrayPointer b with arrayPointers := [] }

/-- The end of the traversal of a record. -/
def closeRecord (b : Builder) (path : Path) (record : SValue) : Builder :=
  b.resolvePointers.replaceArrayPointers.setSVal path record

def createArrayInState (path : Path) : List (Nat × Ty) → Builder → SValue × Builder
  | [], b => (.unknown, b)
  | (size, type) :: dims, b =>
    let b := (List.range size).foldl (fun b i =>
      let (eval, b) := createArrayInState (path ++ [.elem i]) dims b
      b.putValue (.array path type size i) eval) b
    (.array path type size 0, b)

end Builder

/-- A null pointer. -/
def nullValue : SValue := .integer (.of 64 false 0)

def Decl.isMifArrayVar (d : Decl) : Bool :=
  !d.isStatic && d.type.getArrayElementType.isScModularInterface

/-- A member that has a value of its own, no channel and no modular interface. -/
def Decl.isMemberVar (d : Decl) : Bool :=
  let T := d.type.getArrayElementType
  !d.isStatic && !d.isMifArrayVar && !T.isScChannel && !T.isScChannelArray && !T.isScVector

/-- The context inside of a field. -/
def Decl.push (d : Decl) (mifArrayCtx : List Decl) : List Decl :=
  if d.isMifArrayVar then mifArrayCtx ++ [d] else mifArrayCtx

def Decl.lval (d : Decl) (record : SValue) : SValue :=
  .var d (if d.isStatic then .unknown else record)

/-- `traverseField` before the object is traversed. -/
def Builder.openField (b : Builder) (mifArrayCtx : List Decl) (record : SValue) (d : Decl) :
    Builder :=
  if mifArrayCtx ≠ [] ∧ d.isMemberVar then b.addMifArrayVar mifArrayCtx (d.lval record) else b

/-- `traverseField` after the object is traversed. -/
def Builder.closeField (b : Builder) (path : Path) (lval rval : SValue) : Builder :=
  let b := b.setSVal path lval
  let b :=
    if lval.isPointer && rval.isVariable && rval.getType.isArray then
      { b with arrayPointers := lval :: b.arrayPointers }
    else b
  b.putValue lval rval

mutual

/-- The value of an object. There is none if a dynamic object is pointed to from inside, then
the traversal does not end. -/
def traverse (mifArrayCtx : List Decl) (path : Path) (obj : Obj) (b : Builder) :
    Option (SValue × Builder) :=
  match b.objSValMap path with
  | some v => some (v, b)
  | none =>
    match obj with
    | .value v => some (.integer v, b)
    | .noValue => some (.unknown, b)
    | .channel => some (.channel path, b)
    | .port pointee => some (.record pointee.path pointee.cls, b)
    | .null => some (nullValue, b)
    | .pointer pointee =>
      match b.objSValMap pointee.path with
      | some v => some (v, b)
      | none =>
        if pointee.isDynamic then none
        else
          some (.unknown,
            { b with unresolvedPointers := b.unresolvedPointers ++ [(path, pointee)] })
    | .new type obj =>
      match b.objSValMap (path ++ [.pointee]) with
      | some v => some (v, b)
      | none =>
        (traverse mifArrayCtx (path ++ [.pointee]) obj b).map fun (rval, b) =>
          let b := b.setSVal (path ++ [.pointee]) rval
          if rval.isArray then (rval, b)
          else
            let object := .object (path ++ [.pointee]) type
            (object, b.putValue object rval)
    | .array type elems =>
      (traverseElems mifArrayCtx path type elems.length 0 elems b).map fun b =>
        (.array path type elems.length 0, b)
    | .optimizedArray dims => some (Builder.createArrayInState path dims b)
    | .record kind cls bases fields =>
      if kind = .module then some (.unknown, b)
      else do
        let record := .record path cls
        let b ← traverseBases mifArrayCtx path 0 bases b
        let b ← traverseFields mifArrayCtx path record 0 fields b
        some (record, b.closeRecord path record)

def traverseElems (mifArrayCtx : List Decl) (path : Path) (type : Ty) (size i : Nat)
    (elems : List Obj) (b : Builder) : Option Builder :=
  match elems with
  | [] => some b
  | elem :: elems => do
    let (elemSVal, b) ← traverse mifArrayCtx (path ++ [.elem i]) elem b
    let aval := .array path type size i
    let b := if i = 0 || !elemSVal.isScChannel then b.putValue aval elemSVal else b
    traverseElems mifArrayCtx path type size (i + 1) elems (b.setSVal (path ++ [.elem i]) aval)

def traverseBases (mifArrayCtx : List Decl) (path : Path) (i : Nat) (bases : List Obj)
    (b : Builder) : Option Builder :=
  match bases with
  | [] => some b
  | base :: bases => do
    let (_, b) ← traverse mifArrayCtx (path ++ [.base i]) base b
    traverseBases mifArrayCtx path (i + 1) bases b

/-- Each field by `traverseField`. Static ones, which are among them, are met a second time
after the fields, when they are already there. -/
def traverseFields (mifArrayCtx : List Decl) (path : Path) (record : SValue) (i : Nat)
    (fields : List (Decl × Obj)) (b : Builder) : Option Builder :=
  match fields with
  | [] => some b
  | (d, obj) :: fields =>
    match b.objSValMap (path ++ [.field i]) with
    | some _ => traverseFields mifArrayCtx path record (i + 1) fields b
    | none => do
      let ctx := d.push mifArrayCtx
      let (rval, b) ← traverse ctx (path ++ [.field i]) obj (b.openField ctx record d)
      let b := b.closeField (path ++ [.field i]) (d.lval record) rval
      traverseFields mifArrayCtx path record (i + 1) fields b

end

/-- A module with what it contains. -/
structure Module where
  cls : ClassId
  bases : List Obj
  fields : List (Decl × Obj)

/-- `traverseRecord(moduleView, true)` -/
def traverseModule (m : Module) : Option Builder := do
  let record := .record [] m.cls
  let object := .object [] (.record m.cls)
  let b := (Builder.empty.putValue object record).setSVal [] object
  let b ← traverseBases [] [] 0 m.bases b
  let b ← traverseFields [] [] record 0 m.fields b
  some (b.closeRecord [] record)

section
variable (classes : ClassId → Class)

/-- `getRecordFields` -/
def getRecordFields (record : SValue) : List SValue :=
  match record with
  | .record id cls => (classes cls).fields.map fun d => .var d (.record id cls)
  | _ => []

def removeIntSubValues : Nat → Bool → (SValue → SValue) → SValue → Option (SValue → SValue)
  | 0, _, _, _ => none
  | fuel + 1, doGetValue, s, lval =>
    let rval := if doGetValue then s lval else lval
    match rval with
    | .integer _ => some (Function.update s lval .unknown)
    | .array id type size _ =>
      ((List.range size).map fun i => .array id type size i).foldlM
        (removeIntSubValues fuel true) s
    | .record .. => (getRecordFields classes rval).foldlM (removeIntSubValues fuel true) s
    | .object .. | .var .. => removeIntSubValues fuel true s rval
    | _ => some s

/-- The value of a variable for its declaration, no value if another variable differs. -/
def collectValue (s : SValue → SValue) (values : Decl → Option SValue) (lval : SValue) :
    Decl → Option SValue :=
  match lval with
  | .var d _ =>
    match values d with
    | none => Function.update values d (some (s lval))
    | some v => if v = s lval then values else Function.update values d (some .unknown)
  | _ => values

def varValues (s : SValue → SValue) (lvals : List SValue) : Decl → Option SValue :=
  lvals.foldl (collectValue s) fun _ => none

/-- A variable whose declaration has no value is removed. -/
def removeVar (fuel : Nat) (values : Decl → Option SValue) (s : SValue → SValue)
    (lval : SValue) : Option (SValue → SValue) :=
  match lval with
  | .var d _ =>
    if values d = some .unknown then removeIntSubValues classes fuel false s lval else some s
  | _ => some s

/-- The variables of one context. -/
def removeVars (fuel : Nat) (s : SValue → SValue) (lvals : List SValue) :
    Option (SValue → SValue) :=
  lvals.foldlM (removeVar classes fuel (varValues s lvals)) s

def mifArrayVarsOf (b : Builder) (mifArrayCtx : List Decl) : List SValue :=
  (b.mifArrayVars.filter (·.1 = mifArrayCtx)).map (·.2)

/-- The contexts in the order in which the map runs over them. -/
def IsOrder (b : Builder) (order : List (List Decl)) : Prop :=
  order.Nodup ∧ ∀ ctx, ctx ∈ order ↔ ∃ lval, (ctx, lval) ∈ b.mifArrayVars

def removeDifferent (fuel : Nat) (b : Builder) (order : List (List Decl)) :
    Option (SValue → SValue) :=
  order.foldlM (fun s ctx => removeVars classes fuel s (mifArrayVarsOf b ctx)) b.moduleState

end
end SystemcCompiler.ProcBuilder
