import SystemcCompiler.Cfg.StateValues

/-! How the statements of a process change the values of `ScState`: declarations, bindings
of references and assignments, as `ScParseExprValue` evaluates them. -/
namespace SystemcCompiler.StateValues
open RowMajor

mutual
inductive LExpr where
  | var (x : Decl)
  | index (base : LExpr) (i : RExpr)
  | field (base : LExpr) (f : Nat)

/-- An `input` is read from outside the process, its value is not known. -/
inductive RExpr where
  | lit (v : Int)
  | input (n : Nat)
  | read (l : LExpr)
  | op (f : Int → Int → Int) (a b : RExpr)
end

inductive Init where
  | none
  | values (es : List RExpr)
  | refer (l : LExpr)

/-- The declarations of a process. `constValue` is what Clang makes of the initializer of a
constant where that is a constant expression. -/
structure Program where
  type : Decl → Ty
  isConst : Decl → Bool
  init : Decl → Init
  constValue : Decl → Option Int

namespace Program
variable (P : Program)

def isReference (x : Decl) : Bool :=
  match P.init x with
  | .refer _ => true
  | _ => false

def decl (x : Decl) : VarDecl := ⟨P.type x, P.isReference x, P.isConst x⟩

/-- The initializer of element `i`, zero where the list is shorter. -/
def initExpr (x : Decl) (i : Nat) : Option RExpr :=
  match P.init x with
  | .values es => some (es.getD i (.lit 0))
  | _ => none

end Program

namespace State
open SValue
variable (P : Program)

/-- A constant without a value is evaluated from its declaration again. -/
def getValueFromState (again : Decl → SValue) (s : State) (lval : SValue)
    (mode : ArrayUnkwnMode) : SValue :=
  match lval with
  | .var x =>
    let llval := s.getDerefVariable P.decl (.var x)
    let rval := (getValue P.decl s llval false mode).1
    match rval, llval with
    | .noValue, .var k => if P.isConst k && !P.isReference k then again x else .noValue
    | rval, _ => rval
  | .field .. => (getValue P.decl s lval false mode).1
  | .array .. => (getValue P.decl s lval true mode).1
  | lval => lval

def getRecordFromState : Nat → State → SValue → SValue
  | 0, _, lval => lval
  | _ + 1, _, .noValue => .noValue
  | _ + 1, _, .record owner index => .record owner index
  | fuel + 1, s, lval =>
    let value := getValue P.decl s lval true .amArrayUnknown
    if value.2 then value.1 else getRecordFromState fuel s value.1

/-- `MemberExpr`, whose parent is a record or has an unknown index. -/
def parseMember (s : State) (base : SValue) (f : Nat) : SValue :=
  match getRecordFromState P s.arrayFuel s base with
  | .noValue => .noValue
  | .integer _ => .noValue
  | parent => .field f parent

def parseArraySubscript (again : Decl → SValue) (s : State) (bval ival : SValue) : SValue :=
  let bbval := s.getDerefVariable P.decl bval
  if bbval.isVariable || bbval.isArray then
    let eval := getValueFromState P again s bbval .amArrayUnknown
    match getValueFromState P again s ival .amNoValue with
    | .integer i =>
      match eval with
      | .array id owner size (some offset) =>
        if 0 ≤ i ∧ offset + i.toNat < size then .array id owner size (some (offset + i.toNat))
        else eval
      | .array .. => eval
      | .var _ => eval
      | .field .. => eval
      | _ => .noValue
    | .noValue =>
      match eval with
      | .array id owner size _ => .array id owner size none
      | .var _ => eval
      | .field .. => eval
      | _ => .noValue
    | _ => .noValue
  else .noValue

mutual
def evalL (again : Decl → SValue) (s : State) : LExpr → SValue
  | .var x => .var x
  | .index base i => parseArraySubscript P again s (evalL again s base) (evalR again s i)
  | .field base f => parseMember P s (evalL again s base) f

def evalR (again : Decl → SValue) (s : State) : RExpr → SValue
  | .lit v => .integer v
  | .input _ => .noValue
  | .read l => evalL again s l
  | .op f a b =>
    match getValueFromState P again s (evalR again s a) .amNoValue,
      getValueFromState P again s (evalR again s b) .amNoValue with
    | .integer v, .integer w => .integer (f v w)
    | _, _ => .noValue
end

/-- The value of a declaration evaluated again, in the state of now: `getConstASTValue`,
then `parseValueDecl`. -/
def declValue (s : State) : Nat → Decl → SValue
  | 0, _ => .noValue
  | fuel + 1, x =>
    match P.init x, P.constValue x with
    | .refer l, _ => s.getDerefVariable P.decl (evalL P (declValue s fuel) s l)
    | _, some v => .integer v
    | .values [e], none =>
      let ival := evalR P (declValue s fuel) s e
      match getValueFromState P (declValue s fuel) s ival .amNoValue with
      | .integer v => castValue P.decl (.var x) (.integer v)
      | _ => .noValue
    | _, none => .noValue

def assignValueInState (s : State) (lval rval : SValue) : State :=
  match rval with
  | .var _ | .field .. | .array .. =>
    if !lval.isReference P.decl ∨ (getValue P.decl s lval false .amNoValue).1 ≠ .noValue then
      putValue P.decl s lval (getValue P.decl s rval true .amNoValue).1 true
    else putValue P.decl s lval (s.getDerefVariable P.decl rval) false
  | rval => putValue P.decl s lval rval true

/-- Sub-arrays are created with the array; its elements have no value yet. -/
def createArrayInState (level : Nat) : Ty → SValue → State → SValue × State
  | .array n t, owner, s =>
    let elem := fun i => SValue.array s.idGen owner n (some i)
    (elem 0, (List.range n).foldl (fun s i =>
      let sub := createArrayInState level t (elem i) s
      (putValue P.decl sub.2 (elem i) sub.1 false).setValueLevel (elem i) level) s)
  | _, _, s => (.noValue, s)

def getArrElmByIndx (s : State) : SValue → List Nat → SValue
  | aval, [] => aval
  | aval, [i] => aval.setOffset i
  | aval, i :: j :: rest =>
    getArrElmByIndx s (getValue P.decl s (aval.setOffset i) true .amNoValue).1 (j :: rest)

def setArrayElement (s : State) (type : Ty) (i : Nat) (aval ival : SValue) : State :=
  assignValueInState P s (getArrElmByIndx P s aval (indices type.sizes i)) ival

mutual
/-- `parseValueDecl` without the initializer. -/
def parseValueDecl (level : Nat) : Ty → SValue → State → State
  | .scalar _, val, s => s.setValueLevel val level
  | .array n t, val, s =>
    let created := createArrayInState P level (.array n t) val (s.setValueLevel val level)
    let s := putValue P.decl created.2 val created.1 false
    if t.elementType.isRecord then
      (List.range (n * t.sizes.prod)).foldl (fun s i =>
        setArrayElement P (createRecValue level t (.record val i) s) (.array n t) i created.1
          (.record val i)) s
    else s
  | .record n fields, val, s =>
    let s := putValue P.decl (s.setValueLevel val level) val (.record val 0) true
    (List.range n).foldl
      (fun s f => parseValueDecl level (fields f) (.field f (.record val 0)) s) s

/-- The fields of a record in an array of the given element type. -/
def createRecValue (level : Nat) : Ty → SValue → State → State
  | .scalar _, _, s => s
  | .array _ t, rec, s => createRecValue level t rec s
  | .record n fields, rec, s =>
    (List.range n).foldl (fun s f => parseValueDecl level (fields f) (.field f rec) s) s
end

end State

/-- `init x i` stores the initial value of element `i` of a declared variable; `leave` ends
the scopes above a level. -/
inductive Op where
  | declare (level : Nat) (x : Decl)
  | init (x : Decl) (i : Nat)
  | write (l : LExpr) (e : RExpr)
  | leave (level : Nat)

namespace State
variable (P : Program)

def bindReference (fuel : Nat) (s : State) (level : Nat) (x : Decl) (l : LExpr) : Option State :=
  let ival := evalL P (declValue P s fuel) s l
  if ival.isVariable || ival.isArray then
    let irval := s.getDerefVariable P.decl ival
    some (putValue P.decl (s.setValueLevel (.var x) level) (.var x) irval false)
  else none

def declareVariable (s : State) (level : Nat) (x : Decl) : Option State :=
  if (P.type x).hasInnerRecord then none
  else
    let s' := parseValueDecl P level (P.type x) (.var x) s
    some { s' with idGen := s'.idGen + 1 }

/-- The variable itself, or its element number `i`. -/
def elementOf (s : State) (x : Decl) (i : Nat) : SValue :=
  if (P.type x).sizes = [] then .var x
  else getArrElmByIndx P s (getValue P.decl s (.var x) false .amNoValue).1
    (indices (P.type x).sizes i)

/-- Nothing where an error is reported. -/
def step (fuel : Nat) (s : State) : Op → Option State
  | .declare level x =>
    match P.init x with
    | .refer l => bindReference P fuel s level x l
    | _ => declareVariable P s level x
  | .init x i =>
    (P.initExpr x i).map fun e =>
      let ival := evalR P (declValue P s fuel) s e
      assignValueInState P s (elementOf P s x i)
        (getValueFromState P (declValue P s fuel) s ival .amNoValue)
  | .write l e =>
    let lval := evalL P (declValue P s fuel) s l
    if lval = .noValue then none
    else some (assignValueInState P s lval (evalR P (declValue P s fuel) s e))
  | .leave level => some (removeValuesByLevel P.decl s level)

end State
end SystemcCompiler.StateValues
