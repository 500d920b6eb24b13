import Mathlib.Data.List.AList
import SystemcCompiler.Library.ApsInt
import SystemcCompiler.Library.RowMajor

/-! Values of `ScState`: what constant propagation knows of the local variables, arrays,
records and references. A tuple gives a variable, an array element or a record field its
value: an integer, the array or record it owns, or what a reference is bound to. -/
namespace SystemcCompiler.StateValues
open RowMajor

abbrev Decl := Nat

inductive Scalar where
  | bool
  | int (width : Nat) (isUnsigned : Bool)
  deriving DecidableEq

inductive Ty where
  | scalar (t : Scalar)
  | array (size : Nat) (elem : Ty)
  | record (count : Nat) (field : Nat → Ty)

/-- `extrOrTrunc` to the width and sign of the type; a boolean is zero or one. -/
def Scalar.cast : Scalar → Int → Int
  | .bool, v => if v = 0 then 0 else 1
  | .int width isUnsigned, v => (ApsInt.of width (!isUnsigned) v).val

namespace Ty

def scalar? : Ty → Option Scalar
  | .scalar t => some t
  | _ => none

/-- The sizes of a multi-dimensional array, none for another type. -/
def sizes : Ty → List Nat
  | .array n t => n :: t.sizes
  | _ => []

/-- `getArrayElementType`: the type below all dimensions. -/
def elementType : Ty → Ty
  | .array _ t => t.elementType
  | t => t

def fieldNum : Ty → Nat
  | .record n _ => n
  | _ => 0

def fieldType (f : Nat) : Ty → Option Ty
  | .record n field => if f < n then some (field f) else none
  | _ => none

def directElementType : Ty → Option Ty
  | .array _ t => some t
  | _ => none

def height : Ty → Nat
  | .scalar _ => 0
  | .array _ t => t.height + 1
  | .record n field => ((List.range n).map fun f => (field f).height).foldr max 0 + 1

def isRecord : Ty → Bool
  | .record .. => true
  | _ => false

/-- Some record has a field that is itself a record, which is reported as an error. -/
def hasInnerRecord : Ty → Bool
  | .scalar _ => false
  | .array _ t => t.hasInnerRecord
  | .record n field => (List.range n).any fun f => (field f).isRecord || (field f).hasInnerRecord

end Ty

/-- The value of a declaration as the parser sees it; the type of a reference is the type
of what it refers to. -/
structure VarDecl where
  type : Ty
  isReference : Bool
  isConst : Bool

/-- An array object is named by the number of the declaration that created it and by the
variable or element that owns it; without an offset it is accessed at an unknown index.
A local record is named by the variable that owns it and its number in the array. -/
inductive SValue where
  | noValue
  | integer (v : Int)
  | var (decl : Decl)
  | field (decl : Nat) (parent : SValue)
  | array (id : Nat) (owner : SValue) (size : Nat) (offset : Option Nat)
  | record (var : SValue) (index : Nat)
  deriving DecidableEq

inductive ArrayUnkwnMode where
  | amNoValue
  | amArrayUnknown

structure State where
  tuples : AList fun _ : SValue => SValue
  levels : List (Nat × SValue)
  idGen : Nat

namespace SValue

def isVariable : SValue → Bool
  | .var _ => true
  | .field .. => true
  | _ => false

def isArray : SValue → Bool
  | .array .. => true
  | _ => false

/-- The array is accessed at an unknown index. -/
def isUnknownElement : SValue → Bool
  | .array _ _ _ none => true
  | _ => false

def setOffset (i : Nat) : SValue → SValue
  | .array id owner size _ => .array id owner size (some i)
  | v => v

def fieldDecl? : SValue → Option Nat
  | .field d _ => some d
  | _ => none

/-- The number of parents above the value. -/
def depth : SValue → Nat
  | .field _ parent => parent.depth + 1
  | _ => 1

/-- `getType`: of an array the type of its elements, of a record its class. -/
def type (D : Decl → VarDecl) : SValue → Option Ty
  | .var x => some (D x).type
  | .field f parent => (parent.type D).bind fun t => t.elementType.fieldType f
  | .array _ owner _ _ => (owner.type D).bind Ty.directElementType
  | .record owner _ => (owner.type D).map Ty.elementType
  | _ => none

def scalarType (D : Decl → VarDecl) (v : SValue) : Option Scalar := (v.type D).bind Ty.scalar?

def typeHeight (D : Decl → VarDecl) (v : SValue) : Nat := ((v.type D).map Ty.height).getD 0

def isReference (D : Decl → VarDecl) : SValue → Bool
  | .var x => (D x).isReference
  | _ => false

/-- References own nothing. -/
def isObjectOwner (D : Decl → VarDecl) : SValue → Bool
  | .array .. => true
  | .var x => !(D x).isReference
  | .field .. => true
  | _ => false

end SValue

namespace State
open SValue
variable (D : Decl → VarDecl)

def empty : State := ⟨∅, [], 0⟩

def find (s : State) (v : SValue) : SValue := (s.tuples.lookup v).getD .noValue

def put (s : State) (v r : SValue) : State := { s with tuples := s.tuples.insert v r }

def erase (s : State) (v : SValue) : State := { s with tuples := s.tuples.erase v }

def setValueLevel (s : State) (v : SValue) (level : Nat) : State :=
  { s with levels := (level, v) :: s.levels }

/-- References stay, they are needed after constant propagation. -/
def removeValuesByLevel (s : State) (level : Nat) : State :=
  let above := s.levels.filter fun e => decide (level < e.1)
  let s := above.foldl (fun s e => if e.2.isReference D then s else s.erase e.2) s
  { s with levels := s.levels.filter fun e => !decide (level < e.1) }

def getDerefVariable (s : State) (lval : SValue) : SValue :=
  if lval.isReference D then
    match s.find lval with
    | .noValue => lval
    | .integer _ => lval
    | rval => rval
  else lval

/-- `isArray`: an element at an unknown index among the array and the arrays below it. -/
def isArrayUnknown : Nat → State → SValue → Bool
  | fuel + 1, s, .array id owner size offset =>
    offset.isNone || isArrayUnknown fuel s (s.find (.array id owner size offset))
  | _, _, _ => false

def findOwner (s : State) (v : SValue) : Option SValue :=
  (s.tuples.entries.find? fun e => decide (e.2 = v) && e.1.isObjectOwner D).map (·.1)

def parseValueHierarchy : Nat → State → SValue → List SValue
  | 0, _, _ => []
  | _ + 1, _, .var x => [.var x]
  | fuel + 1, s, .field f parent => .field f parent :: parseValueHierarchy fuel s parent
  | fuel + 1, s, .array id owner size offset =>
    .array id owner size offset ::
      match findOwner D s (.array id owner size (some 0)) with
      | some v => parseValueHierarchy fuel s v
      | none => []
  | fuel + 1, s, .record owner index =>
    .record owner index ::
      match findOwner D s (.record owner index) with
      | some v => parseValueHierarchy fuel s v
      | none => []
  | _ + 1, _, _ => []

def hierarchy (s : State) (v : SValue) : List SValue :=
  parseValueHierarchy D (s.tuples.entries.length + v.depth) s v

/-- `getBottomArrayForAny`: some array above the value is accessed at an unknown index. -/
def hasUnknownArray (s : State) (v : SValue) : Bool :=
  (hierarchy D s v).any isUnknownElement

def arrayFuel (s : State) : Nat := s.tuples.entries.length + 1

def isUnknownIndex (s : State) (v : SValue) : Bool :=
  if v.isArray then isArrayUnknown s.arrayFuel s v else hasUnknownArray D s v

/-- The value, and whether it is an array or field at an unknown index. -/
def getValue (s : State) (lval : SValue) (deReference : Bool) (mode : ArrayUnkwnMode) :
    SValue × Bool :=
  let llval := if deReference then s.getDerefVariable D lval else lval
  if isUnknownIndex D s llval then
    match mode with
    | .amNoValue => (.noValue, false)
    | .amArrayUnknown => (llval, true)
  else (s.find llval, false)

/-- No offset is unknown on the way down, so the first element stands for none here. -/
def removeIntSubValues : Nat → State → SValue → State
  | 0, s, _ => s
  | fuel + 1, s, lval =>
    match (getValue D s lval true .amNoValue).1 with
    | .noValue => s
    | .integer _ => s.erase lval
    | .array id owner size _ =>
      (List.range size).foldl
        (fun s i => removeIntSubValues fuel s (.array id owner size (some i))) s
    | .record owner index =>
      let fields := (((SValue.record owner index).type D).map Ty.fieldNum).getD 0
      (List.range fields).foldl
        (fun s f => removeIntSubValues fuel s (.field f (.record owner index))) s
    | rval => removeIntSubValues fuel s rval

def setArrayNoValue (s : State) (v : SValue) : State :=
  match v with
  | .array id owner size _ =>
    (List.range size).foldl
      (fun s i => removeIntSubValues D (v.typeHeight D + 1) s (.array id owner size (some i))) s
  | _ => s

/-- The elements, and whether the value is no lvalue itself: nothing is stored below it. -/
def getRecordArrayElements : Nat → State → SValue → List Nat → List SValue × Bool
  | 0, _, _, _ => ([], false)
  | fuel + 1, s, .array id owner size _, decls =>
    ((List.range size).flatMap fun i =>
      let aval := SValue.array id owner size (some i)
      let below := getRecordArrayElements fuel s (getValue D s aval false .amNoValue).1 decls
      if below.2 then below.1 ++ [aval] else below.1, false)
  | fuel + 1, s, .record owner index, decls =>
    match decls with
    | [] => ([], true)
    | decl :: decls =>
      ((getRecordArrayElements fuel s (.field decl (.record owner index)) decls).1, false)
  | fuel + 1, s, .var x, decls =>
    let below := getRecordArrayElements fuel s (getValue D s (.var x) false .amNoValue).1 decls
    (if below.2 then below.1 ++ [.var x] else below.1, false)
  | fuel + 1, s, .field f parent, decls =>
    let val := SValue.field f parent
    let below := getRecordArrayElements fuel s (getValue D s val false .amNoValue).1 decls
    (if below.2 then below.1 ++ [val] else below.1, false)
  | _ + 1, _, _, _ => ([], true)

/-- The topmost array accessed at an unknown index, and the elements it has under the
fields the value is reached by. -/
def getAllRecordArrayElementsForAny (s : State) (v : SValue) : List SValue :=
  let valStack := hierarchy D s v
  match (valStack.filter isUnknownElement).getLast? with
  | some mval =>
    let decls := (valStack.takeWhile (· ≠ mval)).filterMap fieldDecl?
    (getRecordArrayElements D (2 * mval.typeHeight D + 3) s mval decls.reverse).1
  | none => []

def setArrayRecordNoValue (s : State) (v : SValue) : State :=
  (getAllRecordArrayElementsForAny D s v).foldl
    (fun s v => removeIntSubValues D (v.typeHeight D + 1) s v) s

/-- The cast to the type of the left side. -/
def castValue (lval rval : SValue) : SValue :=
  match rval with
  | .integer v => ((lval.scalarType D).map fun t => SValue.integer (t.cast v)).getD .noValue
  | rval => rval

def putValue (s : State) (lval rval : SValue) (deReference : Bool) : State :=
  let llval := if deReference then s.getDerefVariable D lval else lval
  if llval.isArray && isArrayUnknown s.arrayFuel s llval then setArrayNoValue D s llval
  else if hasUnknownArray D s llval then setArrayRecordNoValue D s llval
  else
    let rrval := castValue D lval (if deReference then s.getDerefVariable D rval else rval)
    if rrval = .noValue then s.erase llval
    else if deReference && lval.isReference D && decide (s.find lval ≠ .noValue) then
      s.put (s.find lval) rrval
    else s.put lval rrval

end State
end SystemcCompiler.StateValues
