import Mathlib.Data.Nat.Basic

/-! Declarations of the variables of a thread: member variables and channels as the module
has them, registers and constants of the process, and what is declared in its body. -/
namespace SystemcCompiler.Declarations

/-- Integer types. Of an enumeration Clang gives the bits that its enumerators need, and
whether it counts as a signed integer type. -/
inductive IntType where
  | builtin (isInt : Bool) (width : Nat) (isUnsigned : Bool) (hwidth : 0 < width)
      (hint : isInt = true → width = 32)
  | enumeration (numPositiveBits numNegativeBits : Nat) (isSignedIntegerType : Bool)
      (hbits : 0 < numPositiveBits + numNegativeBits)
  | scUint (width : Nat) (hwidth : 0 < width)
  | scBiguint (width : Nat) (hwidth : 0 < width)
  | scBv (width : Nat) (hwidth : 0 < width)
  | scInt (width : Nat) (hwidth : 0 < width)
  | scBigint (width : Nat) (hwidth : 0 < width)

namespace IntType

/-- The width of the type. An enumeration has the bits of its enumerators. -/
def width : IntType → Nat
  | builtin _ width _ _ _ => width
  | enumeration numPositiveBits numNegativeBits _ _ => numPositiveBits + numNegativeBits
  | scUint width _ | scBiguint width _ | scBv width _ | scInt width _ | scBigint width _ => width

/-- The type has negative numbers. -/
def signed : IntType → Bool
  | builtin _ _ isUnsigned _ _ => !isUnsigned
  | enumeration _ numNegativeBits _ _ => numNegativeBits ≠ 0
  | scInt _ _ | scBigint _ _ => true
  | _ => false

theorem width_pos : ∀ t : IntType, 0 < t.width
  | builtin _ _ _ h _ => h
  | enumeration _ _ _ h => h
  | scUint _ h | scBiguint _ h | scBv _ h | scInt _ h | scBigint _ h => h

/-- Clang's answer for types other than SystemC's. -/
def isSignedIntegerType : IntType → Bool
  | builtin _ _ isUnsigned _ _ => !isUnsigned
  | enumeration _ _ isSignedIntegerType _ => isSignedIntegerType
  | _ => false

end IntType

/-- Types of variables. -/
inductive CppType where
  | scalar (isConst : Bool) (t : IntType)
  | array (element : CppType)
  | stdArray (isConst : Bool) (element : CppType)

structure VarType where
  isReference : Bool
  type : CppType

/-- The integer type of the elements. -/
def CppType.element : CppType → IntType
  | scalar _ t => t
  | array element | stdArray _ element => element.element

def getScUintBiguintBitVec : IntType → Option Nat
  | .scUint width _ | .scBiguint width _ | .scBv width _ => some width
  | _ => none

def getScIntBigint : IntType → Option Nat
  | .scInt width _ | .scBigint width _ => some width
  | _ => none

/-- The width and whether the type is unsigned. -/
def getIntTraits : CppType → Option (Nat × Bool)
  | .scalar _ t =>
    match t with
    | .enumeration numPositiveBits numNegativeBits _ _ =>
      some (numPositiveBits + numNegativeBits, numNegativeBits = 0)
    | .builtin _ width isUnsigned _ _ => some (width, isUnsigned)
    | t =>
      match getScUintBiguintBitVec t with
      | some width => some (width, true)
      | none => (getScIntBigint t).map fun width => (width, false)
  | _ => none

def isAnyInteger : CppType → Bool
  | .scalar _ _ => true
  | _ => false

def stripArrays : CppType → CppType
  | .array element => stripArrays element
  | t => t

def stripStdArrays : CppType → CppType
  | .stdArray _ element => stripStdArrays element
  | t => t

/-- C arrays first, then `std::array`. A reference is no C array. -/
def getArrayElementType (v : VarType) : CppType :=
  stripStdArrays (if v.isReference then v.type else stripArrays v.type)

def getAnyTypeWidth (v : VarType) : Option Nat :=
  (getIntTraits (getArrayElementType v)).map (·.1)

def isSignedOrArrayOfSigned (v : VarType) : Bool :=
  match getArrayElementType v with
  | .scalar _ t => t.isSignedIntegerType || (getScIntBigint t).isSome
  | _ => false

structure VerilogVar where
  bitwidth : Nat
  isSigned : Bool

inductive VerilogType where
  | logic (isSigned : Bool) (msb : Option Nat)
  | integer (isSigned : Bool)

namespace VerilogType

def width : VerilogType → Nat
  | logic _ none => 1
  | logic _ (some msb) => msb + 1
  | integer _ => 32

def signed : VerilogType → Bool
  | logic isSigned _ | integer isSigned => isSigned

end VerilogType

def serializeVerVar (v : VerilogVar) : VerilogType :=
  .logic v.isSigned (if v.bitwidth > 1 then some (v.bitwidth - 1) else none)

/-- The declaration of a variable in the process body. Without width there is none. -/
def getVarDeclVerilog (v : VarType) : Option VerilogType := do
  let (width, isUnsigned) ← getIntTraits (getArrayElementType v)
  match getArrayElementType v with
  | .scalar _ (.builtin true _ _ _ _) => some (.integer !isUnsigned)
  | _ =>
    if width > 1 then some (.logic (!isUnsigned) (some (width - 1)))
    else if width = 1 then some (.logic (!isUnsigned) none)
    else none

/-- Member variables and values of channels are declared for the module. -/
def createMember (v : VarType) : Option VerilogVar :=
  (getAnyTypeWidth v).map fun width => ⟨width, isSignedOrArrayOfSigned v⟩

/-- The type after `getLocalArrayDims`. Other types are reported. -/
def createLocal (v : VarType) : Option VerilogVar := do
  let type := if v.isReference then v.type else stripArrays v.type
  if !isAnyInteger type then none
  else
    let (width, isUnsigned) ← getIntTraits type
    some ⟨width, !isUnsigned⟩

/-- A constant of another module that a called function of a modular interface reads. An
array has no integer value, which is reported. -/
def createMifConstant (v : VarType) : Option VerilogVar :=
  let (bitwidth, isSigned) := (getIntTraits v.type).getD (64, false)
  if isAnyInteger v.type then some ⟨bitwidth, isSigned⟩ else none

/-- The ways in which a thread declares a variable. -/
inductive Path where
  | registerMember | registerLocal
  | combMember | combLocal
  | readOnlyMember | readOnlyMifConstant | readOnlyReset | readOnlyLocal
  deriving DecidableEq

def Path.isMember : Path → Bool
  | registerMember | combMember | readOnlyMember => true
  | _ => false

/-- The current and the next variable of a register, or the one variable. -/
def declare (path : Path) (v : VarType) : Option (List VerilogType) :=
  match path with
  | .registerMember =>
    (createMember v).map fun verVar =>
      let nextVar : VerilogVar := ⟨verVar.bitwidth, verVar.isSigned⟩
      [serializeVerVar verVar, serializeVerVar nextVar]
  | .registerLocal =>
    (createLocal v).map fun verVar => [serializeVerVar verVar, serializeVerVar verVar]
  | .combMember | .readOnlyMember => (createMember v).map fun verVar => [serializeVerVar verVar]
  | .combLocal | .readOnlyLocal => (getVarDeclVerilog v).map fun type => [type]
  | .readOnlyMifConstant =>
    (createMifConstant v).map fun verVar => [serializeVerVar verVar]
  | .readOnlyReset => (createLocal v).map fun verVar => [serializeVerVar verVar]

/-- The declaration has the width and the sign of the type. -/
def Declares (d : VerilogType) (t : IntType) : Prop :=
  d.width = t.width ∧ d.signed = t.signed

/-- An enumeration counts as signed just if it has a negative enumerator. -/
def IntType.SignsAgree : IntType → Prop
  | .enumeration _ numNegativeBits isSignedIntegerType _ =>
    isSignedIntegerType = true ↔ numNegativeBits ≠ 0
  | _ => True

variable {v : VarType} {t : CppType} {c : Bool} {i : IntType} {d : VerilogType}
  {ds : List VerilogType}

/-- The traits are the width and the sign, turned round. -/
theorem getIntTraits_scalar : getIntTraits (.scalar c i) = some (i.width, !i.signed) := by
  cases i with
  | builtin _ _ isUnsigned _ _ => simp [getIntTraits, IntType.width, IntType.signed]
  | enumeration _ numNegativeBits _ _ => simp [getIntTraits, IntType.width, IntType.signed]
  | _ => rfl

theorem isSigned_scalar : (i.isSignedIntegerType || (getScIntBigint i).isSome) = i.signed ↔
    i.SignsAgree := by
  cases i with
  | enumeration _ numNegativeBits isSigned _ =>
    change (isSigned || false) = decide (numNegativeBits ≠ 0) ↔ _
    rw [Bool.or_false, Bool.eq_iff_iff, decide_eq_true_iff]
    exact Iff.rfl
  | builtin _ _ _ _ _ =>
    simp [IntType.isSignedIntegerType, getScIntBigint, IntType.signed, IntType.SignsAgree]
  | _ =>
    simp [IntType.isSignedIntegerType, getScIntBigint, IntType.signed, IntType.SignsAgree]

theorem element_stripArrays (t : CppType) : (stripArrays t).element = t.element := by
  induction t with
  | array element ih => exact ih
  | _ => rfl

theorem element_stripStdArrays (t : CppType) : (stripStdArrays t).element = t.element := by
  induction t with
  | stdArray _ element ih => exact ih
  | _ => rfl

theorem element_getArrayElementType (v : VarType) :
    (getArrayElementType v).element = v.type.element := by
  unfold getArrayElementType
  rw [element_stripStdArrays]
  split
  · rfl
  · exact element_stripArrays v.type

theorem serializeVerVar_declares {isSigned : Bool} :
    Declares (serializeVerVar ⟨i.width, isSigned⟩) i ↔ isSigned = i.signed := by
  have hpos := i.width_pos
  have hwidth : (serializeVerVar ⟨i.width, isSigned⟩).width = i.width := by
    unfold serializeVerVar
    dsimp only
    split
    · exact Nat.sub_add_cancel hpos
    · change 1 = i.width
      omega
  exact ⟨fun h => h.2, fun h => ⟨hwidth, h⟩⟩

theorem getVarDeclVerilog_declares (h : getVarDeclVerilog v = some d) :
    Declares d v.type.element := by
  rw [← element_getArrayElementType v]
  unfold getVarDeclVerilog at h
  cases he : getArrayElementType v with
  | scalar c i =>
    rw [he, getIntTraits_scalar] at h
    simp only [Option.bind_eq_bind, Option.bind_some] at h
    have hpos := i.width_pos
    split at h
    · rename_i hint heq
      obtain ⟨-, rfl⟩ := CppType.scalar.inj heq
      obtain rfl := Option.some.inj h
      exact ⟨(hint rfl).symm, Bool.not_not _⟩
    · have hsign : (!!i.signed) = i.signed := Bool.not_not _
      split at h
      · obtain rfl := Option.some.inj h
        exact ⟨Nat.sub_add_cancel hpos, hsign⟩
      · split at h
        · rename_i hone
          obtain rfl := Option.some.inj h
          exact ⟨hone.symm, hsign⟩
        · cases h
  | array _ | stdArray _ _ =>
    rw [he] at h
    cases h

/-- Member variables take the sign from a type predicate of their own. -/
theorem createMember_declares {verVar : VerilogVar} (h : createMember v = some verVar) :
    Declares (serializeVerVar verVar) v.type.element ↔ v.type.element.SignsAgree := by
  rw [← element_getArrayElementType v]
  unfold createMember getAnyTypeWidth isSignedOrArrayOfSigned at h
  cases he : getArrayElementType v with
  | scalar c i =>
    rw [he, getIntTraits_scalar] at h
    obtain rfl := Option.some.inj h
    exact serializeVerVar_declares.trans isSigned_scalar
  | array _ | stdArray _ _ =>
    rw [he] at h
    cases h

theorem createLocal_declares {verVar : VerilogVar} (h : createLocal v = some verVar) :
    Declares (serializeVerVar verVar) v.type.element := by
  have helement : (if v.isReference then v.type else stripArrays v.type).element =
      v.type.element := by
    split
    · rfl
    · exact element_stripArrays v.type
  rw [← helement]
  unfold createLocal at h
  cases he : (if v.isReference then v.type else stripArrays v.type) with
  | scalar c i =>
    rw [he] at h
    dsimp only at h
    rw [getIntTraits_scalar] at h
    obtain rfl := Option.some.inj h
    exact serializeVerVar_declares.mpr (Bool.not_not _)
  | array _ | stdArray _ _ =>
    rw [he] at h
    cases h

/-- The sign of such a constant is turned round. -/
theorem createMifConstant_differs {verVar : VerilogVar}
    (h : createMifConstant v = some verVar) :
    ¬ Declares (serializeVerVar verVar) v.type.element := by
  unfold createMifConstant at h
  cases he : v.type with
  | scalar c i =>
    rw [he, getIntTraits_scalar] at h
    obtain rfl := Option.some.inj h
    intro hdeclares
    exact (Bool.not_eq_self i.signed).mp (serializeVerVar_declares.mp hdeclares)
  | array _ | stdArray _ _ =>
    rw [he] at h
    cases h

/-- The declarations of a thread variable have the width and the sign of its type exactly
if it is no constant declared for a modular interface and, where it is a member variable or
a channel, no enumeration whose sign Clang sees differently. -/
theorem declare_iff (path : Path) (v : VarType) (ds : List VerilogType)
    (h : declare path v = some ds) :
    (∀ d ∈ ds, Declares d v.type.element) ↔
      path ≠ .readOnlyMifConstant ∧ (path.isMember = true → v.type.element.SignsAgree) := by
  cases path with
  | registerMember | combMember | readOnlyMember =>
    obtain ⟨verVar, hmember, rfl⟩ := Option.map_eq_some_iff.mp h
    simp [Path.isMember, createMember_declares hmember]
  | registerLocal | readOnlyReset =>
    obtain ⟨verVar, hlocal, rfl⟩ := Option.map_eq_some_iff.mp h
    simp [Path.isMember, createLocal_declares hlocal]
  | combLocal | readOnlyLocal =>
    obtain ⟨d, hlocal, rfl⟩ := Option.map_eq_some_iff.mp h
    simp [Path.isMember, getVarDeclVerilog_declares hlocal]
  | readOnlyMifConstant =>
    obtain ⟨verVar, hmif, rfl⟩ := Option.map_eq_some_iff.mp h
    simp [Path.isMember, createMifConstant_differs hmif]

/-- A member variable of type `sc_int<5>`. -/
theorem declare_iff_register :
    declare .registerMember ⟨false, .array (.scalar false (.scInt 5 (by decide)))⟩ =
        some [.logic true (some 4), .logic true (some 4)] ∧
      ∀ d ∈ [VerilogType.logic true (some 4), .logic true (some 4)],
        Declares d (.scInt 5 (by decide)) :=
  ⟨rfl, (declare_iff .registerMember ⟨false, .array (.scalar false (.scInt 5 (by decide)))⟩ _
    rfl).mpr ⟨nofun, fun _ => trivial⟩⟩

/-- An `int` constant of a modular interface is declared without sign, and an enumeration
with the type `int` and no negative enumerator with sign, if it is a member. -/
theorem declare_differs :
    let int : IntType := .builtin true 32 false (by decide) (fun _ => rfl)
    let enum : IntType := .enumeration 2 0 true (by decide)
    declare .readOnlyMifConstant ⟨false, .scalar true int⟩ = some [.logic false (some 31)] ∧
      ¬ Declares (.logic false (some 31)) int ∧
      declare .readOnlyReset ⟨false, .scalar true int⟩ = some [.logic true (some 31)] ∧
      declare .combMember ⟨false, .scalar false enum⟩ = some [.logic true (some 1)] ∧
      ¬ Declares (.logic true (some 1)) enum ∧
      declare .combLocal ⟨false, .scalar false enum⟩ = some [.logic false (some 1)] :=
  ⟨rfl, nofun, rfl, rfl, nofun, rfl⟩

end SystemcCompiler.Declarations
