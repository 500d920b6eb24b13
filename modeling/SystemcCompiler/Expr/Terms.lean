import SystemcCompiler.Library.SvExpr

/-! Integer expressions as Clang types them, their C++ values, and the terms that
`ScGenerateExpr` and `ScVerilogWriter` build for them. A term keeps the text
apart from the casts that are put around it when it is printed. Brackets are
those of the source and of the casts, so that the text is kept as a tree. -/
namespace SystemcCompiler.Terms
open Verilog

structure CType where
  width : Nat
  signed : Bool
  isBool : Bool
  deriving DecidableEq

def CType.bool : CType := ⟨1, false, true⟩

/-- Value after conversion to the type. -/
def CType.conv (t : CType) (v : Int) : Int :=
  if t.isBool then (if v = 0 then 0 else 1) else valueOf t.signed (BitVec.ofInt t.width v)

/-- Conversions are explicit. A variable has the width and sign of its
declaration; an `sc_uint<W>` is converted to `type` where it is used.
`explicit` casts to an unsigned type of `width` bits, used at `type`. -/
inductive Expr (V : Type) where
  | var (x : V) (width : Nat) (signed : Bool) (type : CType)
  | lit (n radix : Nat) (type : CType)
  | implicit (type : CType) (e : Expr V)
  | explicit (width : Nat) (type : CType) (e : Expr V)
  | bin (op : BinOp) (type : CType) (l r : Expr V)

variable {V : Type}

namespace Expr

@[simp] def type : Expr V → CType
  | .var _ _ _ t | .lit _ _ t | .implicit t _ | .explicit _ t _ | .bin _ t _ _ => t

end Expr

/-- Result of an operation before it is wrapped to its type. -/
def binRaw (op : BinOp) (t : CType) (a b : Int) : Int :=
  match op with
  | .add => a + b
  | .sub => a - b
  | .mul => a * b
  | .div => a.tdiv b
  | .rem => a.tmod b
  | .shl => a * 2 ^ b.toNat
  | .shr => a / 2 ^ b.toNat
  | .and | .or | .xor =>
    valueOf t.signed (arith op t.signed (BitVec.ofInt t.width a) (BitVec.ofInt t.width b))
  | op => (compare op a b).toNat

namespace Expr

/-- Value in C++. -/
def eval (ρ : V → Int) : Expr V → Int
  | .var x _ _ _ => ρ x
  | .lit n _ _ => n
  | .implicit t e => t.conv (e.eval ρ)
  | .explicit w _ e => e.eval ρ % 2 ^ w
  | .bin op t l r => t.conv (binRaw op t (l.eval ρ) (r.eval ρ))

/-- Variables hold values of their declared width. -/
def Ranged (ρ : V → Int) : Expr V → Prop
  | .var x w s _ => Fits s w (ρ x)
  | .lit .. => True
  | .implicit _ e | .explicit _ _ e => e.Ranged ρ
  | .bin _ _ l r => l.Ranged ρ ∧ r.Ranged ρ

/-- C++ defines the value: no zero divisor, shift amounts below the width of the
operand, no signed overflow. -/
def Defined (ρ : V → Int) : Expr V → Prop
  | .var .. | .lit .. => True
  | .implicit _ e | .explicit _ _ e => e.Defined ρ
  | .bin op t l r => l.Defined ρ ∧ r.Defined ρ ∧
    ((op = .div ∨ op = .rem) → r.eval ρ ≠ 0) ∧
    (op.isShift = true → 0 ≤ r.eval ρ ∧ r.eval ρ < l.type.width) ∧
    (t.signed = true → Fits true t.width (binRaw op t (l.eval ρ) (r.eval ρ)))

end Expr

inductive CastSign where
  | nocast | ucast | scast | sacast | bcast
  deriving DecidableEq

/-- `TermInfo`. `literal` has value and radix of a literal. -/
structure Term (V : Type) where
  str : Sv V
  literal : Option (Nat × Nat)
  exprWidth : Nat
  minCastWidth : Nat
  lastCastWidth : Nat
  castSign : CastSign
  signedExpr : Bool
  explCast : Bool
  incrWidth : Bool

def getBitsNeeded (n : Nat) : Nat := Nat.log2 n + 1

def makeLiteralStr (n radix minCastWidth lastCastWidth : Nat) (castSign : CastSign)
    (useZeroAprh : Bool) : Sv V :=
  let bits := getBitsNeeded n
  let isBigWidth := 32 ≤ bits
  let radix := if isBigWidth then 16 else if n ≤ 1 then (if radix = 2 then 2 else 10) else radix
  let isUnsignCast := (n ≠ 0 ∨ useZeroAprh = false) ∧ castSign = .ucast
  let isSignCast := n ≠ 0 ∧ castSign = .scast
  let isCast := minCastWidth ≠ 0 ∨ lastCastWidth ≠ 0 ∨ isSignCast ∨ isUnsignCast
  let minCast := if (isSignCast ∨ isUnsignCast) ∧ minCastWidth = 0 then
    bits + (if isSignCast then 1 else 0) else minCastWidth
  let s : Sv V :=
    -- `'0` takes the width of its context
    if useZeroAprh ∧ n = 0 ∧ ¬ isCast ∧ radix = 10 then .lit 1 false 0
    else if minCast ≠ 0 then .lit minCast (decide isSignCast) n
    else if isBigWidth then .lit bits false n
    else .lit 32 (decide (radix = 10)) n
  if lastCastWidth ≠ 0 ∧ lastCastWidth ≠ minCast then .size lastCastWidth s else s

def makeTermStr (termStr : Sv V) (minCastWidth lastCastWidth : Nat) (castSign : CastSign) : Sv V :=
  let s := if minCastWidth ≠ 0 then .size minCastWidth termStr else termStr
  let s := if lastCastWidth ≠ 0 ∧ lastCastWidth ≠ minCastWidth then .size lastCastWidth s else s
  match castSign with
  | .scast => if minCastWidth ≠ 0 ∨ lastCastWidth ≠ 0 then .signed s else .signedZero s
  | .sacast => .signedZero s
  | _ => s

namespace Term

def getTermAsRValue (t : Term V) (doSignCast useZeroAprh : Bool) : Sv V :=
  match t.literal with
  | some (n, radix) =>
    makeLiteralStr n radix t.minCastWidth (if t.explCast then t.lastCastWidth else 0) t.castSign
      useZeroAprh
  | none =>
    makeTermStr t.str t.minCastWidth t.lastCastWidth (if doSignCast then t.castSign else .nocast)

def putString (s : Sv V) (width : Nat) : Term V :=
  ⟨s, none, width, 0, 0, .nocast, false, false, false⟩

def putLiteral (n radix : Nat) (castSign : CastSign) : Term V :=
  { putString (.lit (getBitsNeeded n) false n) (getBitsNeeded n) with
    literal := some (n, radix), castSign }

def putSignCast (t : Term V) (castSign : CastSign) : Term V :=
  if t.signedExpr then t
  else { t with castSign := if t.explCast ∧ castSign = .scast then .sacast else castSign }

/-- Explicit cast. -/
def putTypeCast (t : Term V) (width : Nat) : Term V :=
  { t with
    minCastWidth := if t.minCastWidth ≠ 0 then min t.minCastWidth width else width
    lastCastWidth := width
    explCast := true }

/-- Narrowing cast of an operation whose data width exceeds its type. -/
def putNarrowCast (t : Term V) (width : Nat) : Term V :=
  if t.exprWidth > width then t.putTypeCast width else t

def extendTypeWidth (t : Term V) (width : Nat) : Term V :=
  { t with
    minCastWidth := if t.minCastWidth ≠ 0 then t.minCastWidth else width
    lastCastWidth := if t.lastCastWidth ≠ 0 then t.lastCastWidth else width
    explCast := true }

def getExprWidth (t : Term V) : Nat :=
  if t.explCast ∧ t.lastCastWidth ≠ 0 then t.lastCastWidth else t.exprWidth

def getExprTypeWidth (t : Term V) (type : CType) : Nat :=
  if t.getExprWidth = 0 then type.width else t.getExprWidth

/-- Literals are signed in a signed operation, unsigned operands get a bit. -/
def setExprSCast (t : Term V) (type : CType) : Term V :=
  if t.literal.isSome then { t with castSign := .scast }
  else if type.signed = false ∧ t.signedExpr = false then { t with castSign := .sacast }
  else t

end Term

/-- Data width of an operation, 0 if unknown. -/
def binWidth (op : BinOp) (l r : Term V) : Nat :=
  let lwidth := l.getExprWidth
  let rwidth := r.getExprWidth
  if op.isCompare then 1
  else if lwidth = 0 then 0
  else match op with
    | .div | .rem | .shr => lwidth
    | .add | .sub => if rwidth = 0 then 0 else max lwidth rwidth + 1
    | .mul => if rwidth = 0 then 0 else lwidth + rwidth
    | .shl =>
      if rwidth = 0 then 0
      else match r.literal with
        | some (n, _) => lwidth + n
        | none =>
          if rwidth < 7 then
            (if lwidth + 2 ^ rwidth - 1 > 64 then 0 else lwidth + 2 ^ rwidth - 1)
          else 0
    | _ => if rwidth = 0 then 0 else max lwidth rwidth

def BinOp.incrWidth : BinOp → Bool
  | .add | .sub | .mul | .shl => true
  | _ => false

/-- Left operand as it is extended before the operator is put. -/
def extendLeft (op : BinOp) (l : Term V) (type : CType) : Term V :=
  if l.incrWidth = false then l
  else match op with
    | .shr | .div | .rem => l.extendTypeWidth (l.getExprTypeWidth type)
    | .add | .sub | .mul | .shl => l
    | _ => l.extendTypeWidth (min (l.getExprTypeWidth type) type.width)

def extendRight (op : BinOp) (r : Term V) (type : CType) : Term V :=
  if r.incrWidth = false then r
  else match op with
    | .shr | .shl => r.extendTypeWidth (min (r.getExprTypeWidth type) 32)
    | .add | .sub | .mul | .div | .rem => r
    | _ => r.extendTypeWidth (min (r.getExprTypeWidth type) type.width)

/-- Operands as they are printed by `putBinary`. -/
def signOperand (op : BinOp) (type : CType) (t : Term V) (operandType : CType) : Term V :=
  if type.signed ∧ op.isShift = false ∧ op.isCompare = false then t.setExprSCast operandType else t

def putBinary (op : BinOp) (type : CType) (l r : Term V) (ltype rtype : CType) : Term V :=
  let doSignCast := !op.isShift
  let lhs := signOperand op type l ltype
  let rhs := signOperand op type r rtype
  { Term.putString (.bin op (lhs.getTermAsRValue doSignCast false)
      (rhs.getTermAsRValue doSignCast false)) (binWidth op l r) with
    signedExpr := !type.signed && (op == .sub || l.signedExpr || r.signedExpr)
    incrWidth := BinOp.incrWidth op }

namespace Expr

/-- The term of an expression. -/
def term : Expr V → Term V
  | .var x w s _ => Term.putString (.var x w s) w
  | .lit n radix t => Term.putLiteral n radix (if t.signed then .nocast else .ucast)
  | .implicit t e =>
    match e.term.literal with
    | some (n, radix) =>
      Term.putLiteral (n % 2 ^ t.width) radix (if t.signed then .scast else .ucast)
    | none =>
      if e.type.signed = t.signed then e.term
      else if e.type.isBool then { e.term with castSign := .bcast }
      else e.term.putSignCast (if t.signed then .scast else .ucast)
  | .explicit w t e =>
    let cast := e.term.putTypeCast w
    if e.type.isBool = false ∧ e.type.signed ≠ t.signed then cast.putSignCast .ucast else cast
  | .bin op t l r =>
    let put := putBinary op t (extendLeft op l.term l.type) (extendRight op r.term r.type)
      l.type r.type
    if op.isCompare then put else put.putNarrowCast t.width

/-- A warning or an error about signs is reported for the operation. -/
def reportedBin (op : BinOp) (t : CType) (l r : Term V) (ltype rtype : CType) : Bool :=
  let nonLiteral (x : Term V) (c : CastSign) : Bool := x.literal.isNone && x.castSign == c
  let arithmetic := !op.isShift && !op.isCompare
  (arithmetic && (nonLiteral l .ucast || nonLiteral r .ucast)) ||
  (!op.isCompare && (nonLiteral l .bcast || nonLiteral r .bcast)) ||
  (op.isShift && t.signed) ||
  (t.signed && arithmetic &&
    ((l.literal.isNone && !ltype.signed && l.signedExpr) ||
      (r.literal.isNone && !rtype.signed && r.signedExpr)))

def reported : Expr V → Bool
  | .var .. | .lit .. => false
  | .implicit _ e | .explicit _ _ e => e.reported
  | .bin op t l r => l.reported || r.reported ||
    reportedBin op t (extendLeft op l.term l.type) (extendRight op r.term r.type) l.type r.type

/-- Right side of an assignment, converted to the type of the target. -/
def assign (t : CType) (e : Expr V) : Expr V := if e.type = t then e else .implicit t e

/-- Text of the right side of an assignment. -/
def text (e : Expr V) : Sv V := e.term.getTermAsRValue false true

/-- Operands of an operation as they are printed. -/
def leftTerm (op : BinOp) (type : CType) (e : Expr V) : Term V :=
  signOperand op type (extendLeft op e.term e.type) e.type

def rightTerm (op : BinOp) (type : CType) (e : Expr V) : Term V :=
  signOperand op type (extendRight op e.term e.type) e.type

/-- Fields of the term of an operation. -/
theorem term_bin (op : BinOp) (t : CType) (l r : Expr V) :
    (Expr.bin op t l r).term.str = .bin op ((leftTerm op t l).getTermAsRValue (!op.isShift) false)
        ((rightTerm op t r).getTermAsRValue (!op.isShift) false) ∧
      (Expr.bin op t l r).term.literal = none ∧ (Expr.bin op t l r).term.castSign = .nocast ∧
      (Expr.bin op t l r).term.incrWidth = BinOp.incrWidth op ∧
      ((Expr.bin op t l r).term.minCastWidth = 0 ∧ (Expr.bin op t l r).term.lastCastWidth = 0 ∧
          ((Expr.bin op t l r).term.exprWidth ≤ t.width ∨
            (op.isCompare = true ∧ (Expr.bin op t l r).term.exprWidth = 1)) ∨
        op.isCompare = false ∧ (Expr.bin op t l r).term.minCastWidth = t.width ∧
          (Expr.bin op t l r).term.lastCastWidth = t.width) := by
  simp only [term]
  by_cases hc : op.isCompare = true
  · simp only [hc, if_true, putBinary, Term.putString, leftTerm, rightTerm, true_and]
    refine .inl (.inr ?_)
    simp [binWidth, hc]
  · simp only [hc, Bool.false_eq_true, if_false, Term.putNarrowCast]
    split
    · simp [putBinary, Term.putString, leftTerm, rightTerm, Term.putTypeCast]
    · rename_i hw
      simp only [putBinary, Term.putString, leftTerm, rightTerm, true_and] at hw ⊢
      exact .inl (.inl (by omega))

/-- The term of an operand as it is, or widened to its data width or less. -/
def Adjusted (e : Expr V) (t : Term V) : Prop :=
  t = e.term ∨ e.term.incrWidth = true ∧
    ∃ k, 0 < k ∧ t = e.term.extendTypeWidth (min (e.term.getExprTypeWidth e.type) k)

theorem Adjusted.incrWidth {e : Expr V} {t : Term V} (h : Adjusted e t) :
    t.incrWidth = e.term.incrWidth := by
  rcases h with rfl | ⟨-, k, -, rfl⟩ <;> rfl

theorem extendLeft_adjusted (op : BinOp) {e : Expr V} (hw : 0 < e.type.width) :
    Adjusted e (extendLeft op e.term e.type) := by
  unfold extendLeft
  split
  · exact .inl rfl
  · rename_i hi
    have hi' : e.term.incrWidth = true := by simpa using hi
    have hself : e.term.extendTypeWidth (e.term.getExprTypeWidth e.type) =
        e.term.extendTypeWidth (min (e.term.getExprTypeWidth e.type)
          (e.term.getExprTypeWidth e.type)) := by
      rw [Nat.min_self]
    have hpos : 0 < e.term.getExprTypeWidth e.type := by
      unfold Term.getExprTypeWidth
      split <;> omega
    cases op <;> first
      | exact .inl rfl
      | exact .inr ⟨hi', _, hpos, hself⟩
      | exact .inr ⟨hi', _, hw, rfl⟩

theorem extendRight_adjusted (op : BinOp) {e : Expr V} (hw : 0 < e.type.width) :
    Adjusted e (extendRight op e.term e.type) := by
  unfold extendRight
  split
  · exact .inl rfl
  · rename_i hi
    have hi' : e.term.incrWidth = true := by simpa using hi
    cases op <;> first
      | exact .inl rfl
      | exact .inr ⟨hi', _, hw, rfl⟩
      | exact .inr ⟨hi', 32, by omega, rfl⟩

end Expr

theorem lt_getBitsNeeded (n : Nat) : n < 2 ^ getBitsNeeded n := by
  unfold getBitsNeeded
  exact Nat.lt_log2_self

theorem getBitsNeeded_le {n k : Nat} (h : n < 2 ^ k) (hk : 0 < k) : getBitsNeeded n ≤ k := by
  unfold getBitsNeeded
  by_cases hn : n = 0
  · subst hn
    simp only [Nat.log2_zero]
    omega
  · have := (Nat.log2_lt hn).mpr h
    omega

theorem CType.conv_bool (b : Bool) : CType.bool.conv b.toNat = b.toNat := by
  cases b <;> rfl

/-- Conversions keep the bits they have room for. -/
theorem CType.ofInt_conv {t : CType} {w : Nat} {v : Int} (hb : t.isBool = false)
    (hw : w ≤ t.width) : BitVec.ofInt w (t.conv v) = BitVec.ofInt w v := by
  rw [CType.conv, hb, if_neg Bool.false_ne_true]
  exact ofInt_valueOf_extend fun h => absurd h (Nat.not_lt.mpr hw)

theorem binRaw_compare {op : BinOp} (h : op.isCompare = true) (t : CType) (a b : Int) :
    binRaw op t a b = (compare op a b).toNat := by
  cases op <;> first | rfl | cases h

end SystemcCompiler.Terms
