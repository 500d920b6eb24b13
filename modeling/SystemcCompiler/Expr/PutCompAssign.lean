import SystemcCompiler.Expr.CompoundAssign
import SystemcCompiler.Expr.Literals
import SystemcCompiler.Expr.Promoted
import SystemcCompiler.Expr.Unsigned

/-! Code of a compound assignment `x op= e`. `parseCompoundAssignStmt` handles built-in
types, the compound branch of `parseOperatorCall` the SystemC ones, and both put the
assignment `x = x op e` by `putCompAssign`. -/
namespace SystemcCompiler.CompAssign
open Verilog Terms ConstFold

variable {V : Type}

inductive Family where
  | builtin
  /-- `sc_int` and `sc_uint` -/
  | scInt
  /-- `sc_bigint` and `sc_biguint` -/
  | scBigInt
  deriving DecidableEq

/-- The variable on the left. -/
structure Variable (V : Type) where
  name : V
  family : Family
  width : Nat
  signed : Bool
  width_pos : 0 < width
  width_le : family ≠ .scBigInt → width ≤ 64

namespace Variable

def ctype (x : Variable V) : CType := ⟨x.width, x.signed, false⟩

/-- The type it has as an operand. -/
def operandType (x : Variable V) : CType :=
  match x.family with
  | .builtin | .scBigInt => x.ctype
  | .scInt => ⟨64, x.signed, false⟩

/-- Type of `x op e` in C++. Operations of `sc_bigint` are exact, and the type is one that has
all operands. -/
def computationType (x : Variable V) (op : AssignOp) (etype : CType) : CType :=
  match x.family with
  | .builtin | .scInt => op.computationType x.operandType etype
  | .scBigInt => ⟨max x.width etype.width + 1, true, false⟩

/-- Type of the right operand: what Clang converts it to for a built-in variable, and the
parameter of the operator for a SystemC one. -/
def rightType (x : Variable V) (op : AssignOp) (etype : CType) : CType :=
  match x.family with
  | .builtin => op.rightType x.ctype etype
  | .scInt => x.operandType
  | .scBigInt => etype

/-- Number that `x = x op e` stores in C++, `a` and `b` being the operands. -/
def expanded (x : Variable V) (op : AssignOp) (etype : CType) (a b : Int) : Int :=
  let type := x.computationType op etype
  match x.family with
  | .builtin | .scInt =>
    type.conv (binRaw op.op type (type.conv a) (if op.op.isShift then b else type.conv b))
  | .scBigInt => binRaw op.op type a b

/-- C++ defines the result. Where a signed operation overflows it may be any, and its bits are
those of the number. -/
def Defined (x : Variable V) (op : AssignOp) (etype : CType) (a b : Int) : Prop :=
  Fits x.signed x.width a ∧ Fits etype.signed etype.width b ∧
    (op.op = .div ∨ op.op = .rem → b ≠ 0) ∧
    (op.op.isShift = true → 0 ≤ b ∧
      (x.family ≠ .scBigInt → b < (x.computationType op etype).width))

end Variable

/-- An operator in the text. `bin .shl` and `bin .shr` are `<<<` and `>>>`. -/
inductive VerilogOp where
  | bin (op : BinOp)
  /-- `<<` -/
  | shl
  /-- `>>` -/
  | shr
  deriving DecidableEq

/-- Operators with sign casts of their operands. -/
def VerilogOp.isArithm : VerilogOp → Bool
  | .bin op => !op.isShift && !op.isCompare
  | .shl | .shr => false

/-- The right side as it is printed. -/
inductive RText (V : Type) where
  | expr (s : Sv V)
  | literal (t : Literals.Text)

namespace RText

def width : RText V → Nat
  | .expr s => s.width
  | .literal t => t.str.width

def isSigned : RText V → Bool
  | .expr s => s.isSigned
  | .literal t => t.str.isSigned

def eval (ρ : V → Int) (t : RText V) (W : Nat) (S : Bool) : BitVec W :=
  match t with
  | .expr s => s.eval ρ W S
  | .literal t => t.eval W S

end RText

/-- `lhs = lhs op rhs` -/
structure AssignText (V : Type) where
  lhs : Sv V
  op : VerilogOp
  rhs : RText V

namespace AssignText

/-- Width in which the operands of an arithmetic operator are read for a variable of width `w`. -/
def contextWidth (t : AssignText V) (w : Nat) : Nat := max w (max t.lhs.width t.rhs.width)

def contextSign (t : AssignText V) : Bool := t.lhs.isSigned && t.rhs.isSigned

/-- Bits the assignment stores to a variable of width `w`. The right operand of a shift is
self-determined. -/
def stored (ρ : V → Int) (t : AssignText V) (w : Nat) : BitVec w :=
  let a (S : Bool) := t.lhs.eval ρ (max w t.lhs.width) S
  let n := (t.rhs.eval ρ t.rhs.width t.rhs.isSigned).toNat
  match t.op with
  | .bin op =>
    if op.isShift then (shift op t.lhs.isSigned (a t.lhs.isSigned) n).setWidth w
    else
      let W := t.contextWidth w
      let S := t.contextSign
      (arith op S (t.lhs.eval ρ W S) (t.rhs.eval ρ W S)).setWidth w
  | .shl => (a t.lhs.isSigned <<< n).setWidth w
  | .shr => (a t.lhs.isSigned >>> n).setWidth w

end AssignText

/-! ## The text of an operand -/

/-- Printed with a mark of the sign. -/
def marked {ρ : V → Int} {v : Int} (castSign : CastSign) (isCast : Bool) (r : Reading V ρ v) :
    Reading V ρ v :=
  match castSign with
  | .scast => if isCast then r.signed else r.signedZero
  | .sacast => r.signedZero
  | .nocast | .ucast | .bcast => r

/-- Text of a term without the mark of its sign. -/
def unmarked (t : Term V) : Sv V := makeTermStr t.str t.minCastWidth t.lastCastWidth .nocast

/-- A right operand that is no literal, as it was generated: its term, its value, and the
contexts in which the text of the term has the value. -/
structure Operand (V : Type) where
  term : Term V
  value : (V → Int) → Int
  Reads : (V → Int) → Nat → Bool → Prop
  literal : term.literal = none
  casts : term.minCastWidth = 0 ↔ term.lastCastWidth = 0
  shows : ∀ ρ W S, Reads ρ W S → Shows ρ (unmarked term) W S (value ρ)

inductive Right (V : Type) where
  | expr (e : Operand V)
  | literal (info : Literals.TermInfo) (value : Int)

def Right.value (ρ : V → Int) : Right V → Int
  | .expr e => e.value ρ
  | .literal _ v => v

/-- `x op= e`, with the type that `e` has before it is converted for the operator. -/
structure Statement (V : Type) where
  x : Variable V
  op : AssignOp
  etype : CType
  right : Right V
  width_pos : 0 < etype.width
  isBool : etype.isBool = true → etype = CType.bool
  width_le : x.family ≠ .scBigInt → etype.width ≤ 64

/-! ## Generation -/

/-- Term of the right operand. -/
inductive RTerm (V : Type) where
  | expr (term : Term V)
  | literal (info : Literals.TermInfo)

def Right.term : Right V → RTerm V
  | .expr e => .expr e.term
  | .literal info _ => .literal info

/-- `opcodeStr` in `parseCompoundAssignStmt` -/
def opcodeStr : AssignOp → VerilogOp
  | .shlAssign => .shl
  | .shrAssign => .shr
  | op => .bin op.op

/-- `opStr` in `parseOperatorCall` -/
def opStr (op : AssignOp) : VerilogOp := .bin op.op

/-- Right operand in `parseOperatorCall`. A bitwise operator takes the width of the data alone. -/
def extendCallRight (op : BinOp) (r : Term V) (type : CType) : Term V :=
  if r.incrWidth = false then r
  else match op with
    | .shr | .shl => r.extendTypeWidth (min (r.getExprTypeWidth type) 32)
    | .and | .or | .xor => r.extendTypeWidth (r.getExprTypeWidth type)
    | _ => r

/-- A literal on the right as `putCompAssign` prints it. -/
def literalText (x : Variable V) (opcode : VerilogOp) (info : Literals.TermInfo) :
    Literals.Text :=
  let info := if opcode.isArithm ∧ x.signed then { info with castSign := .scast } else info
  info.getTermAsRValue false

/-- The right operand as `putCompAssign` prints it. -/
def rvalue (x : Variable V) (opcode : VerilogOp) (rtype : CType) : RTerm V → RText V
  | .expr t =>
    let t := if opcode.isArithm ∧ x.signed then t.setExprSCast rtype else t
    .expr (t.getTermAsRValue opcode.isArithm false)
  | .literal info => .literal (literalText x opcode info)

def putCompAssign (x : Variable V) (opcode : VerilogOp) (rtype : CType) (r : RTerm V) :
    AssignText V :=
  ⟨(Term.putString (.var x.name x.width x.signed) x.width).getTermAsRValue opcode.isArithm false,
    opcode, rvalue x opcode rtype r⟩

/-- What `putCompAssign` reports, none of it an error. -/
inductive Diagnostic where
  | signUnsignMix
  | boolBitwiseBinary
  | negLiterUCast
  | sexprUnsigned
  deriving DecidableEq

def diagnostics (x : Variable V) (opcode : VerilogOp) (rtype : CType) : RTerm V → List Diagnostic
  | .expr t =>
    (if opcode.isArithm ∧ (t.castSign = .ucast ∨
      x.signed = false ∧ rtype.signed ∧ t.castSign ≠ .bcast) then [.signUnsignMix] else []) ++
    (if t.castSign = .bcast then [.boolBitwiseBinary] else []) ++
    (if opcode.isArithm ∧ x.signed ∧ rtype.signed = false ∧ t.signedExpr then [.sexprUnsigned]
      else [])
  | .literal info =>
    if (opcode = .bin .div ∨ opcode = .bin .rem) ∧ info.castSign = .ucast ∧ info.str < 0 then
      [.negLiterUCast] else []

namespace Statement
variable (s : Statement V)

def rtype : CType := s.x.rightType s.op s.etype

/-- `parseCompoundAssignStmt` for a built-in variable, `parseOperatorCall` for the others. -/
def opcode : VerilogOp := if s.x.family = .builtin then opcodeStr s.op else opStr s.op

/-- A right operand whose width grows is widened. -/
def extend (t : Term V) : Term V :=
  if s.x.family = .builtin then extendRight s.op.op t s.rtype
  else extendCallRight s.op.op t s.rtype

def rterm : RTerm V :=
  match s.right.term with
  | .expr t => .expr (s.extend t)
  | .literal info => .literal info

def text : AssignText V := putCompAssign s.x s.opcode s.rtype s.rterm

/-- The text on the right of the operator. -/
def rightText : RText V := rvalue s.x s.opcode s.rtype s.rterm

/-- Number that C++ stores. -/
def value (ρ : V → Int) : Int := s.x.expanded s.op s.etype (ρ s.x.name) (s.right.value ρ)

def Defined (ρ : V → Int) : Prop := s.x.Defined s.op s.etype (ρ s.x.name) (s.right.value ρ)

end Statement

/-! ## What is asked of the operands -/

namespace Operand
variable (e : Operand V) (ρ : V → Int)

def reading : Reading V ρ (e.value ρ) := ⟨unmarked e.term, e.Reads ρ, e.shows ρ⟩

/-- The operand printed as `t`, its term with the width it is widened to. -/
def printed (t : Term V) (castSign : CastSign) : Reading V ρ (e.value ρ) :=
  let r := if e.term.minCastWidth = 0 ∧ t.minCastWidth ≠ 0 then
    (e.reading ρ).size t.minCastWidth else e.reading ρ
  marked castSign (t.minCastWidth ≠ 0) r

end Operand

namespace Statement
variable (s : Statement V) (ρ : V → Int)

def castSign (t : Term V) : CastSign :=
  if s.opcode.isArithm then (if s.x.signed then t.setExprSCast s.rtype else t).castSign
  else .nocast

/-- The right operand, as it is printed, has its value in a context. A literal has it in all
contexts, if at all. -/
def RightRead (W : Nat) (S : Bool) : Prop :=
  match s.right with
  | .expr e => (e.printed ρ (s.extend e.term) (s.castSign (s.extend e.term))).Reads W S
  | .literal info v => (literalText s.x s.opcode info).Denotes v ∧ s.rightText.width ≤ W ∧
      (S = true → s.rightText.isSigned = true)

/-- The bits of a number, converted for the operation in C++, stand for it in the text. -/
def Converted (W : Nat) (S : Bool) (v : Int) : Prop :=
  let type := s.x.computationType s.op s.etype
  type.conv v % 2 ^ W = v % 2 ^ W ∧ Fits S W (type.conv v)

/-- The operands are read with their values: the right one in the width and the sign of the
assignment, or by itself where it is a shift amount, and for a division both as C++ converts
them. -/
def Read : Prop :=
  let width := s.rightText.width
  let signed := s.rightText.isSigned
  if s.op.op.isShift then s.RightRead ρ width signed ∧ Fits false width (s.right.value ρ)
  else
    let W := max s.x.width width
    let S := s.x.signed && signed
    s.RightRead ρ W S ∧ (s.op.op = .div ∨ s.op.op = .rem →
      (s.x.width < W → Fits S s.x.width (ρ s.x.name)) ∧
        s.Converted W S (ρ s.x.name) ∧ s.Converted W S (s.right.value ρ))

/-- A negative built-in variable that is shifted to the right, by a bit or more. -/
def ShiftsSign : Prop :=
  s.x.family = .builtin ∧ s.op = .shrAssign ∧ ρ s.x.name < 0 ∧ 0 < s.right.value ρ

end Statement

/-! ## C++ -/

section Bits
variable {w : Nat} {s : Bool} {c : CType} {a b v : Int} {op : BinOp}

theorem ofInt_binRaw (hc : op.isCompare = false) (hs : op.isShift = false)
    (hop : op ≠ .div ∧ op ≠ .rem) (hw : w ≤ c.width) :
    BitVec.ofInt w (binRaw op c a b) = arith op s (BitVec.ofInt w a) (BitVec.ofInt w b) := by
  have hbits : ∀ {x : BitVec c.width}, BitVec.ofInt w (valueOf c.signed x) = x.setWidth w := by
    intro x
    rw [← setWidth_ofInt _ hw, ofInt_valueOf]
  cases op with
  | add => exact BitVec.ofInt_add a b
  | sub => exact ofInt_sub a b
  | mul => exact BitVec.ofInt_mul a b
  | div => exact absurd rfl hop.1
  | rem => exact absurd rfl hop.2
  | and | or | xor =>
    rw [binRaw, hbits, setWidth_arith (by decide) _ s hw, setWidth_ofInt a hw, setWidth_ofInt b hw]
  | shl | shr => cases hs
  | lt | gt | le | ge | eq | ne => cases hc

end Bits

namespace Variable
variable {x : Variable V} {op : AssignOp} {etype : CType} {a b : Int}

theorem isInteger_operandType (hx : x.family ≠ .scBigInt) : IsInteger x.operandType := by
  have hpos := x.width_pos
  have hle := x.width_le hx
  unfold operandType
  split
  · exact ⟨hpos, by simp only [ctype]; omega, fun h => by cases h⟩
  · exact ⟨hpos, by simp only [ctype]; omega, fun h => by cases h⟩
  · exact ⟨Nat.succ_pos 63, Nat.le_add_right 64 64, fun h => by cases h⟩

theorem width_le_operandType : x.width ≤ x.operandType.width := by
  unfold operandType
  split
  · exact Nat.le_refl _
  · exact Nat.le_refl _
  · next hx => exact x.width_le (by rw [hx]; decide)

/-- The type of the operation is no `bool` and not narrower than the variable. -/
theorem computationType_spec (op : AssignOp) (hx : x.family ≠ .scBigInt → IsInteger etype) :
    (x.computationType op etype).isBool = false ∧
      x.width ≤ (x.computationType op etype).width := by
  by_cases hbig : x.family = .scBigInt
  · rw [computationType, hbig]
    exact ⟨rfl, (Nat.le_max_left _ _).trans (Nat.le_succ _)⟩
  · have htype : x.computationType op etype = op.computationType x.operandType etype := by
      unfold computationType
      split
      · rfl
      · rfl
      · next h => exact absurd h hbig
    have hoperand := isInteger_operandType hbig
    rw [htype]
    exact ⟨(isPromoted_computationType op hoperand (hx hbig)).1,
      width_le_operandType.trans width_le_computationType⟩

theorem expanded_bits (hx : x.family ≠ .scBigInt → IsInteger etype)
    (ha : Fits x.signed x.width a) (hb : Fits etype.signed etype.width b) :
    let type := x.computationType op etype
    BitVec.ofInt x.width (x.expanded op etype a b) =
      BitVec.ofInt x.width
        (binRaw op.op type (type.conv a) (if op.op.isShift then b else type.conv b)) := by
  intro type
  obtain ⟨hbool, hw⟩ : type.isBool = false ∧ x.width ≤ type.width := computationType_spec op hx
  unfold expanded
  split
  · exact CType.ofInt_conv hbool hw
  · exact CType.ofInt_conv hbool hw
  · next hbig =>
    have htype : type = ⟨max x.width etype.width + 1, true, false⟩ := by
      simp only [type, computationType, hbig]
    have hconv : ∀ {s w v}, Fits s w v → w ≤ max x.width etype.width → type.conv v = v := by
      intro s w v hv hle
      rw [htype]
      exact valueOf_ofInt (hv.signed_succ.mono (Nat.succ_le_succ hle))
    rw [hconv ha (Nat.le_max_left _ _), hconv hb (Nat.le_max_right _ _), ite_self]

/-- All operations but divisions and shifts are those of the bits. -/
theorem expanded_arith (hx : x.family ≠ .scBigInt → IsInteger etype)
    (ha : Fits x.signed x.width a) (hb : Fits etype.signed etype.width b)
    (hs : op.op.isShift = false) (hop : op.op ≠ .div ∧ op.op ≠ .rem) (s : Bool) :
    BitVec.ofInt x.width (x.expanded op etype a b) =
      arith op.op s (BitVec.ofInt x.width a) (BitVec.ofInt x.width b) := by
  obtain ⟨hbool, hw⟩ := computationType_spec op hx
  rw [expanded_bits hx ha hb, if_neg (by simp [hs]),
    ofInt_binRaw op.isCompare_op hs hop hw, CType.ofInt_conv hbool hw, CType.ofInt_conv hbool hw]

theorem expanded_shl (hx : x.family ≠ .scBigInt → IsInteger etype)
    (ha : Fits x.signed x.width a) (hb : Fits etype.signed etype.width b) :
    BitVec.ofInt x.width (x.expanded .shlAssign etype a b) =
      BitVec.ofInt x.width (a * 2 ^ b.toNat) := by
  obtain ⟨hbool, hw⟩ := computationType_spec .shlAssign hx
  rw [expanded_bits hx ha hb]
  simp only [AssignOp.op, BinOp.isShift, if_true, binRaw]
  rw [BitVec.ofInt_mul, CType.ofInt_conv hbool hw, ← BitVec.ofInt_mul]

/-- The type of a shift has the variable. -/
theorem expanded_shr (hx : x.family ≠ .scBigInt → IsInteger etype)
    (ha : Fits x.signed x.width a) (hb : Fits etype.signed etype.width b) :
    BitVec.ofInt x.width (x.expanded .shrAssign etype a b) =
      BitVec.ofInt x.width (a / 2 ^ b.toNat) := by
  have hconv : (x.computationType .shrAssign etype).conv a = a := by
    obtain ⟨hbool, -⟩ := computationType_spec .shrAssign hx
    have hfits : Fits (x.computationType .shrAssign etype).signed
        (x.computationType .shrAssign etype).width a := by
      unfold computationType
      split
      · next h =>
        rw [operandType, h]
        exact fits_promote (l := x.ctype) ha
      · next h =>
        rw [operandType, h]
        exact fits_promote (l := ⟨64, x.signed, false⟩)
          (ha.mono (x.width_le (by rw [h]; decide)))
      · exact ha.signed_succ.mono (Nat.succ_le_succ (Nat.le_max_left _ _))
    rw [CType.conv, hbool, if_neg Bool.false_ne_true, valueOf_ofInt hfits]
  rw [expanded_bits hx ha hb, hconv]
  rfl

end Variable

/-! ## The text -/

/-- A mark of the sign goes around the text without it. -/
theorem makeTermStr_marked (t : Term V) (hcasts : t.minCastWidth = 0 ↔ t.lastCastWidth = 0)
    (castSign : CastSign) :
    makeTermStr t.str t.minCastWidth t.lastCastWidth castSign =
      match castSign with
      | .scast => if t.minCastWidth ≠ 0 then .signed (unmarked t) else .signedZero (unmarked t)
      | .sacast => .signedZero (unmarked t)
      | .nocast | .ucast | .bcast => unmarked t := by
  cases castSign with
  | scast =>
    have hor : (t.minCastWidth ≠ 0 ∨ t.lastCastWidth ≠ 0) ↔ t.minCastWidth ≠ 0 := by
      rw [ne_eq, ne_eq, ← hcasts, or_self]
    simp only [makeTermStr, unmarked, hor]
  | nocast | ucast | sacast | bcast => rfl

theorem getTermAsRValue_eq {t : Term V} (hlit : t.literal = none) (d z : Bool) :
    t.getTermAsRValue d z =
      makeTermStr t.str t.minCastWidth t.lastCastWidth (if d then t.castSign else .nocast) := by
  rw [Term.getTermAsRValue, hlit]

/-- Only the mark of the sign changes. -/
theorem getTermAsRValue_setExprSCast {t : Term V} (hlit : t.literal = none) (type : CType)
    (d z : Bool) : (t.setExprSCast type).getTermAsRValue d z =
      makeTermStr t.str t.minCastWidth t.lastCastWidth
        (if d then (t.setExprSCast type).castSign else .nocast) := by
  unfold Term.setExprSCast
  rw [hlit, if_neg (by simp), getTermAsRValue_eq]
  · split <;> rfl
  · split
    · rfl
    · exact hlit

/-- A term is widened when it has no casts of its own. -/
theorem unmarked_extendTypeWidth {t : Term V} (hcasts : t.minCastWidth = 0 ↔ t.lastCastWidth = 0)
    (n : Nat) : unmarked (t.extendTypeWidth n) =
      if t.minCastWidth = 0 ∧ n ≠ 0 then .size n (unmarked t) else unmarked t := by
  by_cases hm : t.minCastWidth = 0
  · have hl := hcasts.mp hm
    by_cases hn : n = 0
    · simp [unmarked, Term.extendTypeWidth, makeTermStr, hm, hl, hn]
    · simp [unmarked, Term.extendTypeWidth, makeTermStr, hm, hl, hn]
  · have hl : t.lastCastWidth ≠ 0 := fun h => hm (hcasts.mpr h)
    simp [unmarked, Term.extendTypeWidth, hm, hl]

namespace Operand
variable {e : Operand V} {ρ : V → Int} {t : Term V}

/-- The term of the operand, or the term with a width it is widened to. -/
def Extended (e : Operand V) (t : Term V) : Prop :=
  t = e.term ∨ ∃ n, t = e.term.extendTypeWidth n

theorem Extended.casts (h : e.Extended t) : t.minCastWidth = 0 ↔ t.lastCastWidth = 0 := by
  have hcasts := e.casts
  rcases h with rfl | ⟨n, rfl⟩
  · exact hcasts
  · by_cases hm : e.term.minCastWidth = 0
    · simp [Term.extendTypeWidth, hm, hcasts.mp hm]
    · have hl : e.term.lastCastWidth ≠ 0 := fun h => hm (hcasts.mpr h)
      simp [Term.extendTypeWidth, hm, hl]

theorem Extended.literal (h : e.Extended t) : t.literal = none := by
  rcases h with rfl | ⟨n, rfl⟩
  · exact e.literal
  · exact e.literal

theorem printed_text (h : e.Extended t) (castSign : CastSign) :
    (e.printed ρ t castSign).text =
      makeTermStr t.str t.minCastWidth t.lastCastWidth castSign := by
  have hinner : (if e.term.minCastWidth = 0 ∧ t.minCastWidth ≠ 0 then
      (e.reading ρ).size t.minCastWidth else e.reading ρ).text = unmarked t := by
    rcases h with rfl | ⟨n, rfl⟩
    · rw [if_neg fun h => h.2 h.1]
      rfl
    · rw [unmarked_extendTypeWidth e.casts]
      by_cases hm : e.term.minCastWidth = 0
      · have hn : (e.term.extendTypeWidth n).minCastWidth = n := by
          simp [Term.extendTypeWidth, hm]
        rw [hn]
        split <;> rfl
      · rw [if_neg fun h => hm h.1, if_neg fun h => hm h.1]
        rfl
  rw [makeTermStr_marked t h.casts]
  unfold printed
  cases castSign with
  | scast =>
    simp only [marked, decide_eq_true_eq]
    split
    · exact congrArg Sv.signed hinner
    · exact congrArg Sv.signedZero hinner
  | sacast => exact congrArg Sv.signedZero hinner
  | nocast => exact hinner
  | ucast => exact hinner
  | bcast => exact hinner

/-! Operands that the other modules translate. -/

/-- A variable of `k` bits. -/
def ofVar (y : V) (k : Nat) (signed : Bool) : Operand V where
  term := Term.putString (.var y k signed) k
  value ρ := ρ y
  Reads ρ W S := k < W → Fits S k (ρ y)
  literal := rfl
  casts := Iff.rfl
  shows _ _ _ h := shows_var h

/-- A conversion for a built-in operator leaves a mark of the sign. -/
def convert (etype rtype : CType) (t : Term V) : Term V :=
  if etype.signed = rtype.signed then t
  else if etype.isBool then { t with castSign := .bcast }
  else t.putSignCast (if rtype.signed then .scast else .ucast)

theorem convert_eq (etype rtype : CType) (t : Term V) :
    ∃ castSign, convert etype rtype t = { t with castSign } := by
  unfold convert Term.putSignCast
  split
  · exact ⟨t.castSign, rfl⟩
  · split
    · exact ⟨.bcast, rfl⟩
    · split
      · exact ⟨t.castSign, rfl⟩
      · exact ⟨_, rfl⟩

def converted (e : Operand V) (etype rtype : CType) : Operand V where
  term := convert etype rtype e.term
  value := e.value
  Reads := e.Reads
  literal := by
    obtain ⟨c, hc⟩ := convert_eq etype rtype e.term
    rw [hc]
    exact e.literal
  casts := by
    obtain ⟨c, hc⟩ := convert_eq etype rtype e.term
    rw [hc]
    exact e.casts
  shows ρ W S h := by
    obtain ⟨c, hc⟩ := convert_eq etype rtype e.term
    rw [hc]
    exact e.shows ρ W S h

theorem casts_bin (op : BinOp) (t : CType) (l r : Expr V) :
    (Expr.bin op t l r).term.minCastWidth = 0 ↔ (Expr.bin op t l r).term.lastCastWidth = 0 := by
  obtain ⟨-, -, -, -, ⟨hm, hl, -⟩ | ⟨-, hm, hl⟩⟩ := Expr.term_bin op t l r
  · rw [hm, hl]
  · rw [hm, hl]

/-- An unsigned operation. -/
def ofUnsigned (op : BinOp) (t : CType) (l r : Expr V) (hu : (Expr.bin op t l r).IsUnsigned) :
    Operand V where
  term := (Expr.bin op t l r).term
  value ρ := (Expr.bin op t l r).eval ρ
  Reads ρ W S :=
    let e := Expr.bin op t l r
    S = false ∧ e.Ranged ρ ∧ (unmarked e.term).width ≤ W ∧ W ≤ 64 ∧
      Expr.PrintKept ρ e e.term (e.Kept ρ) W
  literal := (Expr.term_bin op t l r).2.1
  casts := casts_bin op t l r
  shows ρ W S h := by
    obtain ⟨rfl, hr, hw, h64, hk⟩ := h
    have hlit := (Expr.term_bin op t l r).2.1
    rcases Expr.sound hu hr with hs | ⟨n, radix, hs⟩
    · have hprinted := hs.printed (Expr.eval_bounds hu hr).1 false false W hk
      rw [getTermAsRValue_eq hlit] at hprinted
      exact hprinted.shows hw h64
    · exact absurd (hlit.symm.trans hs.literal.literal) (by simp)

/-- An operation of type `int`, or a comparison. -/
def ofPromoted (op : BinOp) (t : CType) (l r : Expr V) (hp : (Expr.bin op t l r).IsPromoted) :
    Operand V where
  term := (Expr.bin op t l r).term
  value ρ := (Expr.bin op t l r).eval ρ
  Reads ρ W S :=
    let e := Expr.bin op t l r
    e.Ranged ρ ∧ e.Defined ρ ∧ Expr.PrintHeld ρ e e.term (e.Held ρ) W S
  literal := (Expr.term_bin op t l r).2.1
  casts := casts_bin op t l r
  shows ρ W S h := by
    obtain ⟨hr, hd, hk⟩ := h
    obtain ⟨-, -, -, -, hl, hr'⟩ := id hp
    have hplain := Expr.plainText_bin hp hr hd (Expr.translated hl hr.1 hd.1)
      (Expr.translated hr' hr.2 hd.2.1)
    have hshow := hplain.shows_printed (d := false) (.inl rfl) false hk
    rw [getTermAsRValue_eq hplain.literal] at hshow
    exact hshow

end Operand

namespace Statement
variable {s : Statement V} {ρ : V → Int} {W : Nat} {S : Bool}

theorem extend_extended (e : Operand V) : e.Extended (s.extend e.term) := by
  unfold extend extendRight extendCallRight
  split
  · split
    · exact .inl rfl
    · split
      all_goals first
        | exact .inl rfl
        | exact .inr ⟨_, rfl⟩
  · split
    · exact .inl rfl
    · split
      all_goals first
        | exact .inl rfl
        | exact .inr ⟨_, rfl⟩

theorem rightText_expr {e : Operand V} (h : s.right = .expr e) : s.rightText =
    .expr (e.printed ρ (s.extend e.term) (s.castSign (s.extend e.term))).text := by
  have hext : e.Extended (s.extend e.term) := extend_extended e
  have hlit := hext.literal
  have hterm : s.rterm = .expr (s.extend e.term) := by rw [rterm, h]; rfl
  rw [Operand.printed_text hext, rightText, hterm, rvalue, castSign]
  apply congrArg RText.expr
  by_cases harith : s.opcode.isArithm = true
  · by_cases hx : s.x.signed = true
    · rw [if_pos ⟨harith, hx⟩, if_pos harith, if_pos hx, getTermAsRValue_setExprSCast hlit,
        if_pos harith]
    · rw [if_neg fun h => hx h.2, if_pos harith, if_neg hx, getTermAsRValue_eq hlit, if_pos harith]
  · rw [if_neg fun h => harith h.1, if_neg harith, getTermAsRValue_eq hlit, if_neg harith]

/-- A right operand that is read has the bits of its value. -/
theorem RightRead.eval (h : s.RightRead ρ W S) :
    s.rightText.eval ρ W S = BitVec.ofInt W (s.right.value ρ) := by
  unfold RightRead at h
  cases hr : s.right with
  | expr e =>
    rw [hr] at h
    rw [rightText_expr hr (ρ := ρ)]
    exact Reading.shows _ W S h
  | literal info v =>
    rw [hr] at h
    have hterm : s.rterm = .literal info := by rw [rterm, hr]; rfl
    have htext : s.rightText = .literal (literalText s.x s.opcode info) := by
      rw [rightText, hterm, rvalue]
    obtain ⟨hdenotes, hwidth, hsign⟩ := h
    rw [htext] at hwidth hsign ⊢
    exact hdenotes W S hwidth hsign

theorem lhs_eq (s : Statement V) : s.text.lhs = .var s.x.name s.x.width s.x.signed := by
  rw [text, putCompAssign, getTermAsRValue_eq rfl]
  cases s.opcode.isArithm <;> rfl

theorem opcode_of_shift (hs : s.op.op.isShift = false) : s.opcode = .bin s.op.op := by
  unfold opcode opcodeStr opStr
  split
  · split
    · next h => exact absurd hs (by simp [h, AssignOp.op, BinOp.isShift])
    · next h => exact absurd hs (by simp [h, AssignOp.op, BinOp.isShift])
    · rfl
  · rfl

theorem isInteger_etype (s : Statement V) (hx : s.x.family ≠ .scBigInt) : IsInteger s.etype :=
  ⟨s.width_pos, (s.width_le hx).trans (Nat.le_add_right 64 64), s.isBool⟩

theorem stored_arith (hs : s.op.op.isShift = false) : s.text.stored ρ s.x.width =
    let W := max s.x.width s.rightText.width
    let S := s.x.signed && s.rightText.isSigned
    (arith s.op.op S ((Sv.var s.x.name s.x.width s.x.signed).eval ρ W S)
      (s.rightText.eval ρ W S)).setWidth s.x.width := by
  have hop : s.text.op = .bin s.op.op := opcode_of_shift hs
  have hwidth : s.text.contextWidth s.x.width = max s.x.width s.rightText.width := by
    rw [AssignText.contextWidth, lhs_eq]
    exact Nat.max_eq_right (Nat.le_max_left _ _)
  have hsign : s.text.contextSign = (s.x.signed && s.rightText.isSigned) := by
    rw [AssignText.contextSign, lhs_eq]
    rfl
  rw [AssignText.stored, hop]
  simp only [hs, Bool.false_eq_true, if_false]
  rw [hwidth, hsign, lhs_eq]
  rfl

/-- All operators but divisions and shifts store what C++ stores. -/
theorem stored_of_arith (hd : s.Defined ρ) (hs : s.op.op.isShift = false)
    (hop : s.op.op ≠ .div ∧ s.op.op ≠ .rem) (hr : s.Read ρ) :
    s.text.stored ρ s.x.width = BitVec.ofInt s.x.width (s.value ρ) := by
  have hw : s.x.width ≤ max s.x.width s.rightText.width := Nat.le_max_left _ _
  rw [Read, if_neg (by simp [hs])] at hr
  rw [stored_arith hs, value, Variable.expanded_arith s.isInteger_etype hd.1 hd.2.1 hs hop
    (s.x.signed && s.rightText.isSigned)]
  dsimp only
  rw [setWidth_arith hop _ _ hw, hr.1.eval, setWidth_ofInt _ hw, Sv.eval, setWidth_ofInt _ hw,
    ofInt_valueOf]

/-- A division whose operands are read as C++ converts them. -/
theorem stored_of_division (hd : s.Defined ρ) (hop : s.op.op = .div ∨ s.op.op = .rem)
    (hr : s.Read ρ) : s.text.stored ρ s.x.width = BitVec.ofInt s.x.width (s.value ρ) := by
  have hw : s.x.width ≤ max s.x.width s.rightText.width := Nat.le_max_left _ _
  have hs : s.op.op.isShift = false := by rcases hop with h | h <;> rw [h] <;> rfl
  rw [Read, if_neg (by simp [hs])] at hr
  obtain ⟨hright, hdiv⟩ := hr
  obtain ⟨hvar, hleft, hdivisor⟩ := hdiv hop
  have hlhs := (shows_var (s := s.x.signed) hvar).trans (ofInt_eq_of_emod hleft.1.symm)
  have hrhs := hright.eval.trans (ofInt_eq_of_emod hdivisor.1.symm)
  rw [stored_arith hs, value, Variable.expanded_bits s.isInteger_etype hd.1 hd.2.1,
    if_neg (by simp [hs])]
  dsimp only
  rw [hlhs, hrhs]
  rcases hop with h | h
  · rw [h, arith_div hleft.2 hdivisor.2, setWidth_ofInt _ hw]
    rfl
  · rw [h, arith_rem hleft.2 hdivisor.2, setWidth_ofInt _ hw]
    rfl

theorem stored_shift (hs : s.op.op.isShift = true) (hr : s.Read ρ) :
    s.text.stored ρ s.x.width =
      let a := BitVec.ofInt s.x.width (ρ s.x.name)
      let n := (s.right.value ρ).toNat
      match s.opcode with
      | .bin op => shift op s.x.signed a n
      | .shl => a <<< n
      | .shr => a >>> n := by
  rw [Read, if_pos hs] at hr
  have hamount : (s.rightText.eval ρ s.rightText.width s.rightText.isSigned).toNat =
      (s.right.value ρ).toNat := by
    have hvalue := valueOf_ofInt hr.2
    simp only [valueOf, Bool.false_eq_true, if_false] at hvalue
    rw [hr.1.eval]
    omega
  have hcut : ∀ (f : ∀ {W : Nat}, BitVec W → BitVec W) (W : Nat), W = s.x.width →
      (f (BitVec.ofInt W (valueOf s.x.signed (BitVec.ofInt s.x.width (ρ s.x.name))))).setWidth
        s.x.width = f (BitVec.ofInt s.x.width (ρ s.x.name)) := by
    rintro f _ rfl
    rw [ofInt_valueOf, BitVec.setWidth_eq]
  have hop : s.text.op = s.opcode := rfl
  have hrhs : s.text.rhs = s.rightText := rfl
  have hself : max s.x.width (Sv.var s.x.name s.x.width s.x.signed).width = s.x.width :=
    Nat.max_self _
  rw [AssignText.stored, hop, hrhs, hamount, lhs_eq]
  cases hcode : s.opcode with
  | bin op =>
    have hshift : op.isShift = true := by
      have hbin : op = s.op.op := by
        unfold opcode opcodeStr opStr at hcode
        split at hcode
        · cases hop : s.op <;> rw [hop] at hcode <;> cases hcode <;> rfl
        · cases hcode
          rfl
      rw [hbin, hs]
    simp only [hshift, if_true]
    exact hcut (fun b => shift op s.x.signed b _) _ hself
  | shl => exact hcut (fun b => b <<< _) _ hself
  | shr => exact hcut (fun b => b >>> _) _ hself

theorem stored_shl (hd : s.Defined ρ) (hop : s.op = .shlAssign) (hr : s.Read ρ) :
    s.text.stored ρ s.x.width = BitVec.ofInt s.x.width (s.value ρ) := by
  have hcode : s.opcode = .bin .shl ∨ s.opcode = .shl := by
    rw [opcode, hop]
    split
    · exact .inr rfl
    · exact .inl rfl
  rw [stored_shift (by rw [hop]; rfl) hr, value, hop,
    Variable.expanded_shl s.isInteger_etype hd.1 hd.2.1]
  rcases hcode with h | h
  · rw [h]
    exact shift_shl _ _ _
  · rw [h]
    exact shift_shl true _ _

/-- The built-in `>>=` drops the sign. -/
theorem stored_shr (hd : s.Defined ρ) (hop : s.op = .shrAssign) (hr : s.Read ρ) :
    s.text.stored ρ s.x.width = BitVec.ofInt s.x.width (s.value ρ) ↔ ¬s.ShiftsSign ρ := by
  rw [stored_shift (by rw [hop]; rfl) hr, value, hop,
    Variable.expanded_shr s.isInteger_etype hd.1 hd.2.1, ShiftsSign, opcode, hop]
  by_cases hx : s.x.family = .builtin
  · rw [if_pos hx]
    refine (ushiftRight_ofInt_iff hd.1).trans ?_
    simp only [hx, true_and, Int.lt_toNat, Nat.cast_zero]
  · rw [if_neg hx]
    exact iff_of_true (shift_shr hd.1 _) (fun h => hx h.1)

end Statement

/-! `x /= a`, `x &= a + b`, `x -= a * b` and `x >>= 1`. -/
namespace Samples

inductive Name where
  | x | a | b
  deriving DecidableEq

def store (x a b : Int) : Name → Int
  | .x => x
  | .a => a
  | .b => b

def uchar : CType := ⟨8, false, false⟩

def ull : CType := ⟨64, false, false⟩

def int : Variable Name where
  name := .x
  family := .builtin
  width := 32
  signed := true
  width_pos := Literals.IntType.int.width_pos
  width_le := by decide

/-- `int x; unsigned char a; x /= a;` -/
def quotient : Statement Name where
  x := int
  op := .divAssign
  etype := uchar
  right := .expr ((Operand.ofVar .a 8 false).converted uchar CType.int)
  width_pos := by decide
  isBool := by decide
  width_le := by decide

theorem sum_isUnsigned : (Expr.bin .add ull (.var Name.a 8 false ull)
    (.var .b 8 false ull)).IsUnsigned := by
  simp [Expr.IsUnsigned, BinOp.isCompare, BinOp.isShift, CType.IsUnsigned, ull]

/-- `unsigned long long x; sc_uint<8> a, b; x &= a + b;` -/
def masked : Statement Name where
  x := ⟨.x, .builtin, 64, false, by decide, by decide⟩
  op := .andAssign
  etype := ull
  right := .expr (.ofUnsigned _ _ _ _ sum_isUnsigned)
  width_pos := by decide
  isBool := by decide
  width_le := by decide

def promoted (y : Name) : Expr Name := .implicit CType.int (.var y 8 false uchar)

theorem product_isPromoted :
    (Expr.bin .mul CType.int (promoted .a) (promoted .b)).IsPromoted :=
  ⟨rfl, rfl, rfl, rfl, ⟨rfl, .inl ⟨.inl rfl, rfl⟩⟩, ⟨rfl, .inl ⟨.inl rfl, rfl⟩⟩⟩

/-- `int x; unsigned char a, b; x -= a * b;` -/
def reduced : Statement Name where
  x := int
  op := .subAssign
  etype := CType.int
  right := .expr (.ofPromoted _ _ _ _ product_isPromoted)
  width_pos := by decide
  isBool := by decide
  width_le := by decide

/-- `short x; x >>= 1;` -/
def shifted : Statement Name where
  x := ⟨.x, .builtin, 16, true, by decide, by decide⟩
  op := .shrAssign
  etype := CType.int
  right := .literal (Literals.TermInfo.putLiteral 1 10 false Literals.IntType.int) 1
  width_pos := by decide
  isBool := by decide
  width_le := by decide

example : quotient.rightText = .expr (.signedZero (.var .a 8 false)) := rfl
example : masked.rightText = .expr (.size 9 (.bin .add (.var .a 8 false) (.var .b 8 false))) := rfl

theorem read_quotient : quotient.Read (store (-7) 2 0) := by
  refine ⟨⟨fun _ => by decide, by decide⟩, fun _ => ⟨?_, ?_, ?_⟩⟩
  · decide
  · exact ⟨by decide, by decide⟩
  · exact ⟨by decide, by decide⟩

theorem read_masked : masked.Read (store 511 200 100) := by
  refine ⟨⟨⟨rfl, ?_, by decide, by decide, ?_⟩, fun _ => by decide⟩, fun h => ?_⟩
  · have ha : Fits false 8 200 := by decide
    have hb : Fits false 8 100 := by decide
    exact ⟨ha, hb⟩
  · simp [Expr.PrintKept, Expr.Kept, Expr.NoCarry, Expr.term, extendLeft, extendRight, putBinary,
      Term.putString, Term.putNarrowCast, binWidth, Term.getExprWidth, BinOp.isCompare,
      BinOp.isShift, BinOp.incrWidth, ull, Expr.opWidth, Expr.raw, Expr.eval, binRaw, store]
  · simp [masked, AssignOp.op] at h

theorem read_reduced : reduced.Read (store 5 200 100) := by
  refine ⟨⟨?_, ?_, ?_⟩, fun h => ?_⟩
  · have ha : Fits false 8 200 := by decide
    have hb : Fits false 8 100 := by decide
    exact ⟨ha, hb⟩
  · refine ⟨trivial, trivial, ?_, ?_, ?_⟩
    · exact fun h => by cases h <;> contradiction
    · exact fun h => by cases h
    · intro _
      change Fits true 32 20000
      decide
  · exact ⟨.inl ⟨rfl, rfl⟩, .inl ⟨rfl, rfl⟩, fun h => by cases h <;> contradiction⟩
  · simp [reduced, AssignOp.op] at h

end Samples
end SystemcCompiler.CompAssign
