import SystemcCompiler.Library.ApsInt
import SystemcCompiler.Expr.Terms

/-! Folding of expressions over C++ integers in `ScParseExprValue`, against their C++
values. Clang has put in the casts, so that operands are of one promoted type. -/
namespace SystemcCompiler.ConstFold
open Verilog Terms

inductive CExpr (V : Type) where
  | var (x : V) (type : CType)
  | lit (n : Nat) (type : CType)
  /-- Implicit or explicit, `IntegralCast` or, to `bool`, `IntegralToBoolean`. -/
  | cast (type : CType) (e : CExpr V)
  | bin (op : BinOp) (l r : CExpr V)
  | land (l r : CExpr V)
  | lor (l r : CExpr V)
  | neg (e : CExpr V)
  | plus (e : CExpr V)
  | bnot (e : CExpr V)
  | lnot (e : CExpr V)

variable {V : Type}

/-- A built-in integer type, up to `__int128`. -/
def IsInteger (t : CType) : Prop :=
  0 < t.width ∧ t.width ≤ 128 ∧ (t.isBool = true → t = CType.bool)

def IsPromoted (t : CType) : Prop := t.isBool = false ∧ 32 ≤ t.width

namespace CExpr

@[simp] def type : CExpr V → CType
  | .var _ t | .lit _ t | .cast t _ => t
  | .bin op l _ => if op.isCompare then CType.bool else l.type
  | .land .. | .lor .. | .lnot _ => CType.bool
  | .neg e | .plus e | .bnot e => e.type

/-- As Clang types it: only the operands of a shift may differ in type. -/
def WellTyped : CExpr V → Prop
  | .var _ t => IsInteger t
  | .lit n t => IsInteger t ∧ Fits t.signed t.width n
  | .cast t e => IsInteger t ∧ e.WellTyped
  | .bin op l r => l.WellTyped ∧ r.WellTyped ∧ IsPromoted l.type ∧ IsPromoted r.type ∧
    (op.isShift = false → l.type = r.type)
  | .land l r | .lor l r =>
    l.WellTyped ∧ r.WellTyped ∧ l.type = CType.bool ∧ r.type = CType.bool
  | .neg e | .plus e | .bnot e => e.WellTyped ∧ IsPromoted e.type
  | .lnot e => e.WellTyped ∧ e.type = CType.bool

/-- Variables hold values of their type. -/
def Ranged (ρ : V → Int) : CExpr V → Prop
  | .var x t => Fits t.signed t.width (ρ x)
  | .lit .. => True
  | .cast _ e | .neg e | .plus e | .bnot e | .lnot e => e.Ranged ρ
  | .bin _ l r | .land l r | .lor l r => l.Ranged ρ ∧ r.Ranged ρ

/-- Value in C++, with wrap-around where C++ defines none. -/
def eval (ρ : V → Int) : CExpr V → Int
  | .var x _ => ρ x
  | .lit n _ => n
  | .cast t e => t.conv (e.eval ρ)
  | .bin op l r =>
    (CExpr.bin op l r).type.conv (binRaw op l.type (l.eval ρ) (r.eval ρ))
  | .land l r => if l.eval ρ = 0 then 0 else r.eval ρ
  | .lor l r => if l.eval ρ = 0 then r.eval ρ else 1
  | .neg e => e.type.conv (-e.eval ρ)
  | .plus e => e.eval ρ
  | .bnot e => e.type.conv (-e.eval ρ - 1)
  | .lnot e => if e.eval ρ = 0 then 1 else 0

/-- Divisors are not zero and shift amounts are below the width of the operand. -/
def InRange (ρ : V → Int) : CExpr V → Prop
  | .bin op l r => ((op = .div ∨ op = .rem) → r.eval ρ ≠ 0) ∧
    (op.isShift = true → 0 ≤ r.eval ρ ∧ r.eval ρ < l.type.width)
  | _ => True

/-- C++ defines the operation on the values of its operands. -/
def OperationDefined (ρ : V → Int) (e : CExpr V) : Prop :=
  e.InRange ρ ∧ match e with
    | .bin op l r => l.type.signed = true →
      match op with
      | .add | .sub | .mul | .div => Fits true l.type.width (binRaw op l.type (l.eval ρ) (r.eval ρ))
      | .rem => Fits true l.type.width (binRaw .div l.type (l.eval ρ) (r.eval ρ))
      | _ => True
    | .neg e => e.type.signed = true → Fits true e.type.width (-e.eval ρ)
    | _ => True

/-- All sub-expressions that are evaluated, with `sva` also the right operands that
the left one has decided. -/
def Everywhere (sva : Bool) (ρ : V → Int) (p : CExpr V → Prop) : CExpr V → Prop
  | .var x t => p (.var x t)
  | .lit n t => p (.lit n t)
  | .cast t e => e.Everywhere sva ρ p ∧ p (.cast t e)
  | .bin op l r => l.Everywhere sva ρ p ∧ r.Everywhere sva ρ p ∧ p (.bin op l r)
  | .land l r => l.Everywhere sva ρ p ∧
    (sva = true ∨ l.eval ρ ≠ 0 → r.Everywhere sva ρ p) ∧ p (.land l r)
  | .lor l r => l.Everywhere sva ρ p ∧
    (sva = true ∨ l.eval ρ = 0 → r.Everywhere sva ρ p) ∧ p (.lor l r)
  | .neg e => e.Everywhere sva ρ p ∧ p (.neg e)
  | .plus e => e.Everywhere sva ρ p ∧ p (.plus e)
  | .bnot e => e.Everywhere sva ρ p ∧ p (.bnot e)
  | .lnot e => e.Everywhere sva ρ p ∧ p (.lnot e)

/-- All evaluated sub-expressions but the expression itself. -/
def Below (sva : Bool) (ρ : V → Int) (p : CExpr V → Prop) : CExpr V → Prop
  | .var .. | .lit .. => True
  | .cast _ e | .neg e | .plus e | .bnot e | .lnot e => e.Everywhere sva ρ p
  | .bin _ l r => l.Everywhere sva ρ p ∧ r.Everywhere sva ρ p
  | .land l r => l.Everywhere sva ρ p ∧ (sva = true ∨ l.eval ρ ≠ 0 → r.Everywhere sva ρ p)
  | .lor l r => l.Everywhere sva ρ p ∧ (sva = true ∨ l.eval ρ = 0 → r.Everywhere sva ρ p)

/-- C++ defines the value. -/
def Defined (ρ : V → Int) (e : CExpr V) : Prop := e.Everywhere false ρ (OperationDefined ρ)

end CExpr

/-- What the operations of `APInt` do not accept. -/
inductive Fault where
  | zeroDivisor
  | shiftAmount
  deriving DecidableEq

/-- Extend an operand to the width of its type. -/
def extendBitWidthBO (val : ApsInt) (width : Nat) : ApsInt :=
  if val.width < width then val.extOrTrunc width else val

/-- The narrower one of two integers in the width of the other. -/
def maxWidth (res1 res2 : ApsInt) : ApsInt × ApsInt :=
  if res2.width < res1.width then (res1, res2.extOrTrunc res1.width)
  else if res1.width < res2.width then (res1.extOrTrunc res2.width, res2)
  else (res1, res2)

def adjustIntegers (val1 val2 : ApsInt) (promoteSigned : Bool) : ApsInt × ApsInt :=
  if promoteSigned then
    let promote (val : ApsInt) :=
      if val1.signed != val2.signed && !val.signed then
        (val.extOrTrunc (val.width + 1)).setSigned true
      else val
    maxWidth (promote val1) (promote val2)
  else
    let (res1, res2) := maxWidth val1 val2
    if res1.signed && res2.signed then (res1, res2)
    else (res1.setSigned false, res2.setSigned false)

/-- `getExtValue` passed as an `unsigned`. -/
def shiftAmount (val : ApsInt) : Option Nat :=
  if -2 ^ 63 ≤ val.val ∧ val.val < 2 ^ 63 then some (val.val % 2 ^ 32).toNat else none

/-- The amounts that are accepted for an operand of a width. -/
def AcceptedShift (width : Nat) (amount : Int) : Prop :=
  -2 ^ 63 ≤ amount ∧ amount < 2 ^ 63 ∧ amount % 2 ^ 32 ≤ width

def divide (op : BinOp) (val1 val2 : ApsInt) : Except Fault ApsInt :=
  if val2.getBoolValue then .ok (val1.arith op val2) else .error .zeroDivisor

def shiftBy (op : BinOp) (val1 val2 : ApsInt) : Except Fault ApsInt :=
  match shiftAmount val2 with
  | some n => if n ≤ val1.width then .ok (val1.shift op n) else .error .shiftAmount
  | none => .error .shiftAmount

def parseBinaryStmt (op : BinOp) (ltypeWidth rtypeWidth : Nat) (int1 int2 : ApsInt) :
    Except Fault ApsInt :=
  let val1 := extendBitWidthBO int1 ltypeWidth
  let val2 := extendBitWidthBO int2 rtypeWidth
  match op with
  | .shl | .shr => shiftBy op val1 val2
  | .div | .rem =>
    let (val1, val2) := adjustIntegers val1 val2 false
    divide op val1 val2
  | .add | .sub | .mul | .and | .or | .xor =>
    let (val1, val2) := adjustIntegers val1 val2 false
    .ok (val1.arith op val2)
  | .lt | .gt | .le | .ge | .eq | .ne =>
    let (val1, val2) := adjustIntegers int1 int2 false
    .ok (ApsInt.ofBool (val1.compare op val2))

namespace CExpr

/-- The integer `ScParseExprValue` gives to an expression of known variables. In the
arguments of an assertion, `sva`, right operands are parsed in any case. -/
def fold (sva : Bool) (ρ : V → Int) : CExpr V → Except Fault ApsInt
  | .var x t => .ok (ApsInt.of t.width t.signed (ρ x))
  | .lit n t => .ok (ApsInt.of t.width t.signed n)
  | .cast t e => do
    let val ← e.fold sva ρ
    if t.isBool then .ok (ApsInt.ofBool val.getBoolValue)
    else .ok ((val.extOrTrunc t.width).setSigned t.signed)
  | .bin op l r => do
    let lval ← l.fold sva ρ
    let rval ← r.fold sva ρ
    parseBinaryStmt op l.type.width r.type.width lval rval
  | .land l r => do
    let lval ← l.fold sva ρ
    if !sva && !lval.getBoolValue then .ok (ApsInt.ofBool false)
    else
      let rval ← r.fold sva ρ
      .ok (ApsInt.ofBool (lval.getBoolValue && rval.getBoolValue))
  | .lor l r => do
    let lval ← l.fold sva ρ
    if !sva && lval.getBoolValue then .ok (ApsInt.ofBool true)
    else
      let rval ← r.fold sva ρ
      .ok (ApsInt.ofBool (lval.getBoolValue || rval.getBoolValue))
  -- the result of a minus is signed in any type
  | .neg e => do
    let val ← e.fold sva ρ
    .ok (val.setSigned true).neg
  | .plus e => e.fold sva ρ
  | .bnot e => do
    let val ← e.fold sva ρ
    .ok (val.extOrTrunc e.type.width).not
  | .lnot e => do
    let val ← e.fold sva ρ
    .ok (ApsInt.ofBool !val.getBoolValue)

/-- The sign the folding carries for an expression. -/
def carried : CExpr V → Bool
  | .var _ t | .lit _ t | .cast t _ => t.signed
  | .bin op l r =>
    if op.isCompare then false else if op.isShift then l.carried else l.carried && r.carried
  | .land .. | .lor .. | .lnot _ => false
  | .neg _ => true
  | .plus e | .bnot e => e.carried

/-- `APInt` does not accept the operands. -/
def Rejected (ρ : V → Int) : CExpr V → Prop
  | .bin op l r => (op = .div ∨ op = .rem) ∧ r.eval ρ = 0 ∨
    op.isShift = true ∧ ¬AcceptedShift l.type.width (r.eval ρ)
  | _ => False

/-- The operands are in range and the value fits the sign that is carried for it. -/
def Kept (ρ : V → Int) (e : CExpr V) : Prop :=
  e.InRange ρ ∧ Fits e.carried e.type.width (e.eval ρ)

/-- The folding gives an integer, and where C++ defines the value it is the value. -/
def Agrees (sva : Bool) (ρ : V → Int) (e : CExpr V) : Prop :=
  ∃ val, e.fold sva ρ = .ok val ∧ (e.Defined ρ → val.val = e.eval ρ)

section
variable {ρ : V → Int} {sva : Bool} {p q : CExpr V → Prop} {e l r : CExpr V}

theorem everywhere_iff : e.Everywhere sva ρ p ↔ e.Below sva ρ p ∧ p e := by
  cases e <;> simp [Everywhere, Below, and_assoc]

theorem Everywhere.self (h : e.Everywhere sva ρ p) : p e := (everywhere_iff.mp h).2

theorem Everywhere.below (h : e.Everywhere sva ρ p) : e.Below sva ρ p := (everywhere_iff.mp h).1

/-- What holds of an expression when it holds below holds wherever it is evaluated. -/
theorem Everywhere.of_step (hq : ∀ e : CExpr V, e.WellTyped → e.Ranged ρ → p e →
    e.Below sva ρ q → q e) (hwt : e.WellTyped) (hr : e.Ranged ρ) (hp : e.Everywhere sva ρ p) :
    e.Everywhere sva ρ q := by
  have hstep : ∀ e : CExpr V, e.WellTyped → e.Ranged ρ → e.Everywhere sva ρ p →
      e.Below sva ρ q → e.Everywhere sva ρ q := fun e hwt hr hp hbelow =>
    everywhere_iff.mpr ⟨hbelow, hq e hwt hr hp.self hbelow⟩
  induction e with
  | var x t => exact hstep _ hwt hr hp trivial
  | lit n t => exact hstep _ hwt hr hp trivial
  | cast t e ih => exact hstep _ hwt hr hp (ih hwt.2 hr hp.1)
  | bin op l r ihl ihr =>
    exact hstep _ hwt hr hp ⟨ihl hwt.1 hr.1 hp.1, ihr hwt.2.1 hr.2 hp.2.1⟩
  | land l r ihl ihr =>
    exact hstep _ hwt hr hp
      ⟨ihl hwt.1 hr.1 hp.1, fun hparsed => ihr hwt.2.1 hr.2 (hp.2.1 hparsed)⟩
  | lor l r ihl ihr =>
    exact hstep _ hwt hr hp
      ⟨ihl hwt.1 hr.1 hp.1, fun hparsed => ihr hwt.2.1 hr.2 (hp.2.1 hparsed)⟩
  | neg e ih => exact hstep _ hwt hr hp (ih hwt.1 hr hp.1)
  | plus e ih => exact hstep _ hwt hr hp (ih hwt.1 hr hp.1)
  | bnot e ih => exact hstep _ hwt hr hp (ih hwt.1 hr hp.1)
  | lnot e ih => exact hstep _ hwt hr hp (ih hwt.1 hr hp.1)

/-- Without `sva` no more is evaluated. -/
theorem Everywhere.imp {sva' : Bool} (hsva : sva' = true → sva = true)
    (hpq : ∀ e : CExpr V, p e → q e) (hp : e.Everywhere sva ρ p) : e.Everywhere sva' ρ q := by
  induction e with
  | var x t => exact hpq _ hp
  | lit n t => exact hpq _ hp
  | cast t e ih => exact ⟨ih hp.1, hpq _ hp.2⟩
  | bin op l r ihl ihr => exact ⟨ihl hp.1, ihr hp.2.1, hpq _ hp.2.2⟩
  | land l r ihl ihr =>
    exact ⟨ihl hp.1, fun hl => ihr (hp.2.1 (hl.imp_left hsva)), hpq _ hp.2.2⟩
  | lor l r ihl ihr =>
    exact ⟨ihl hp.1, fun hl => ihr (hp.2.1 (hl.imp_left hsva)), hpq _ hp.2.2⟩
  | neg e ih => exact ⟨ih hp.1, hpq _ hp.2⟩
  | plus e ih => exact ⟨ih hp.1, hpq _ hp.2⟩
  | bnot e ih => exact ⟨ih hp.1, hpq _ hp.2⟩
  | lnot e ih => exact ⟨ih hp.1, hpq _ hp.2⟩

theorem Everywhere.and (hp : e.Everywhere sva ρ p) (hq : e.Everywhere sva ρ q) :
    e.Everywhere sva ρ (fun e => p e ∧ q e) := by
  induction e with
  | var x t => exact ⟨hp, hq⟩
  | lit n t => exact ⟨hp, hq⟩
  | cast t e ih => exact ⟨ih hp.1 hq.1, hp.2, hq.2⟩
  | bin op l r ihl ihr => exact ⟨ihl hp.1 hq.1, ihr hp.2.1 hq.2.1, hp.2.2, hq.2.2⟩
  | land l r ihl ihr =>
    exact ⟨ihl hp.1 hq.1, fun hl => ihr (hp.2.1 hl) (hq.2.1 hl), hp.2.2, hq.2.2⟩
  | lor l r ihl ihr =>
    exact ⟨ihl hp.1 hq.1, fun hl => ihr (hp.2.1 hl) (hq.2.1 hl), hp.2.2, hq.2.2⟩
  | neg e ih => exact ⟨ih hp.1 hq.1, hp.2, hq.2⟩
  | plus e ih => exact ⟨ih hp.1 hq.1, hp.2, hq.2⟩
  | bnot e ih => exact ⟨ih hp.1 hq.1, hp.2, hq.2⟩
  | lnot e ih => exact ⟨ih hp.1 hq.1, hp.2, hq.2⟩

theorem Below.imp (hpq : ∀ e : CExpr V, p e → q e) (hp : e.Below sva ρ p) :
    e.Below sva ρ q := by
  cases e with
  | var x t => trivial
  | lit n t => trivial
  | bin op l r => exact ⟨hp.1.imp id hpq, hp.2.imp id hpq⟩
  | land l r => exact ⟨hp.1.imp id hpq, fun hl => (hp.2 hl).imp id hpq⟩
  | lor l r => exact ⟨hp.1.imp id hpq, fun hl => (hp.2 hl).imp id hpq⟩
  | _ => exact Everywhere.imp id hpq hp

theorem isInteger_type (h : e.WellTyped) : IsInteger e.type := by
  have hbool : IsInteger CType.bool := ⟨by decide, by decide, fun _ => rfl⟩
  induction e with
  | var x t => exact h
  | lit n t => exact h.1
  | cast t e => exact h.1
  | bin op l r ihl ihr =>
    rw [type]
    split
    · exact hbool
    · exact ihl h.1
  | land l r => exact hbool
  | lor l r => exact hbool
  | neg e ih => exact ih h.1
  | plus e ih => exact ih h.1
  | bnot e ih => exact ih h.1
  | lnot e => exact hbool

/-- A signed type is never carried as unsigned. -/
theorem carried_of_signed (h : e.WellTyped) (hs : e.type.signed = true) : e.carried = true := by
  induction e with
  | var x t => exact hs
  | lit n t => exact hs
  | cast t e => exact hs
  | bin op l r ihl ihr =>
    obtain ⟨hl, hr, -, -, htypes⟩ := h
    rw [carried]
    cases hc : op.isCompare with
    | true => simp [hc, CType.bool] at hs
    | false =>
      simp only [type, hc, Bool.false_eq_true, if_false] at hs
      cases hshift : op.isShift with
      | true => simpa using ihl hl hs
      | false => simp [ihl hl hs, ihr hr (htypes hshift ▸ hs)]
  | land l r => cases hs
  | lor l r => cases hs
  | neg e => rfl
  | plus e ih => exact ih h.1 hs
  | bnot e ih => exact ih h.1 hs
  | lnot e => cases hs

end
end CExpr

theorem fits_conv {t : CType} (h : IsInteger t) (v : Int) : Fits t.signed t.width (t.conv v) := by
  unfold CType.conv
  split
  · rename_i hb
    rw [h.2.2 hb]
    split <;> decide
  · exact fits_valueOf _ _ h.1

theorem fits_bool (b : Bool) : Fits CType.bool.signed CType.bool.width b.toNat := by
  cases b <;> decide

theorem of_conv {t : CType} (h : t.isBool = false) (s : Bool) (v : Int) :
    ApsInt.of t.width s (t.conv v) = ApsInt.of t.width s v := by
  simp [CType.conv, h, ApsInt.of, ofInt_valueOf]

/-- A value of type `bool` is its truth value. -/
theorem ofBool_of_fits {v : Int} (h : Fits CType.bool.signed CType.bool.width v) :
    ApsInt.ofBool (!decide (v = 0)) = ApsInt.of CType.bool.width false v := by
  have hone : v = 0 ∨ v = 1 := by
    have := fits_unsigned.mp h
    simp only [CType.bool] at this
    omega
  rcases hone with rfl | rfl <;> rfl

section
variable {w : Nat} {s s' : Bool} {a b : Int}

theorem extendBitWidthBO_of : extendBitWidthBO (ApsInt.of w s a) w = ApsInt.of w s a := by
  simp [extendBitWidthBO]

theorem adjustIntegers_of :
    adjustIntegers (ApsInt.of w s a) (ApsInt.of w s' b) false =
      (ApsInt.of w (s && s') a, ApsInt.of w (s && s') b) := by
  cases s <;> cases s' <;> simp [adjustIntegers, maxWidth]

/-- The operators of two integers give the bits of the C++ operation. -/
theorem arith_of_binRaw {op : BinOp} (hc : op.isCompare = false) (hs : op.isShift = false)
    (ha : Fits s w a) (hb : Fits s w b) {t : CType} (ht : t.width = w) :
    (ApsInt.of w s a).arith op (ApsInt.of w s b) = ApsInt.of w s (binRaw op t a b) := by
  subst ht
  rw [ApsInt.arith_of]
  refine congrArg (ApsInt.mk t.width s) ?_
  cases op with
  | add => exact (BitVec.ofInt_add a b).symm
  | sub => exact (ofInt_sub a b).symm
  | mul => exact (BitVec.ofInt_mul a b).symm
  | div => exact arith_div ha hb
  | rem => exact arith_rem ha hb
  | and => exact (ofInt_valueOf t.signed _).symm
  | or => exact (ofInt_valueOf t.signed _).symm
  | xor => exact (ofInt_valueOf t.signed _).symm
  | _ => simp [BinOp.isCompare, BinOp.isShift] at hc hs

theorem divide_of {op : BinOp} (hb : Fits s' w b) (x : ApsInt) :
    divide op x (ApsInt.of w s b) =
      if b = 0 then .error .zeroDivisor else .ok (x.arith op (ApsInt.of w s b)) := by
  rw [divide, ApsInt.getBoolValue_of hb]
  by_cases h : b = 0 <;> simp [h]

/-- Only a zero divisor stops an operation of two integers. -/
theorem parseBinaryStmt_arith {op : BinOp} (hc : op.isCompare = false) (hs : op.isShift = false)
    (hb : Fits (s && s') w b) :
    parseBinaryStmt op w w (ApsInt.of w s a) (ApsInt.of w s' b) =
      if (op = .div ∨ op = .rem) ∧ b = 0 then .error .zeroDivisor
      else .ok ((ApsInt.of w (s && s') a).arith op (ApsInt.of w (s && s') b)) := by
  cases op <;> simp [BinOp.isCompare, BinOp.isShift] at hc hs <;>
    simp [parseBinaryStmt, extendBitWidthBO_of, adjustIntegers_of, divide_of hb]

theorem parseBinaryStmt_compare {op : BinOp} (hc : op.isCompare = true)
    (ha : Fits (s && s') w a) (hb : Fits (s && s') w b) :
    parseBinaryStmt op w w (ApsInt.of w s a) (ApsInt.of w s' b) =
      .ok (ApsInt.ofBool (compare op a b)) := by
  cases op <;> simp [BinOp.isCompare] at hc <;>
    simp only [parseBinaryStmt, adjustIntegers_of, ApsInt.compare_of _ ha hb]

theorem parseBinaryStmt_shift {op : BinOp} (hs : op.isShift = true) {k : Nat} :
    parseBinaryStmt op w k (ApsInt.of w s a) (ApsInt.of k s' b) =
      shiftBy op (ApsInt.of w s a) (ApsInt.of k s' b) := by
  cases op <;> simp [BinOp.isShift] at hs <;> simp only [parseBinaryStmt, extendBitWidthBO_of]

theorem shiftBy_rejected {op : BinOp} {k : Nat} (hb : Fits s' k b) (h : ¬AcceptedShift w b) :
    shiftBy op (ApsInt.of w s a) (ApsInt.of k s' b) = .error .shiftAmount := by
  rw [shiftBy, shiftAmount, ApsInt.val_of hb]
  by_cases hrange : -2 ^ 63 ≤ b ∧ b < 2 ^ 63
  · have hlt : ¬(b % 2 ^ 32).toNat ≤ (ApsInt.of w s a).width := by
      intro hle
      rw [ApsInt.of_width] at hle
      exact h ⟨hrange.1, hrange.2, by omega⟩
    simp only [if_pos hrange, if_neg hlt]
  · simp only [if_neg hrange]

theorem shiftBy_of {op : BinOp} (hop : op.isShift = true) {k : Nat} (ha : Fits s w a)
    (hb : Fits s' k b) (hnonneg : 0 ≤ b) (hle : b ≤ w) (hlt : b < 2 ^ 32) (t : CType) :
    shiftBy op (ApsInt.of w s a) (ApsInt.of k s' b) =
      .ok (ApsInt.of w s (binRaw op t a b)) := by
  have hamount : shiftAmount (ApsInt.of k s' b) = some b.toNat := by
    rw [shiftAmount, ApsInt.val_of hb, if_pos (by omega), Int.emod_eq_of_lt hnonneg hlt]
  have hwidth : b.toNat ≤ (ApsInt.of w s a).width := by
    rw [ApsInt.of_width]
    omega
  simp only [shiftBy, hamount, if_pos hwidth, ApsInt.shift_of]
  cases op with
  | shl => exact congrArg (fun x => Except.ok (ApsInt.mk w s x)) (shift_shl s a b.toNat)
  | shr => exact congrArg (fun x => Except.ok (ApsInt.mk w s x)) (shift_shr ha b.toNat)
  | _ => simp [BinOp.isShift] at hop

end

namespace CExpr
variable {ρ : V → Int} {sva : Bool} {e l r : CExpr V}

theorem fits_eval (h : e.WellTyped) (hr : e.Ranged ρ) :
    Fits e.type.signed e.type.width (e.eval ρ) := by
  induction e with
  | var x t => exact hr
  | lit n t => exact h.2
  | cast t e => exact fits_conv h.1 _
  | bin op l r => exact fits_conv (isInteger_type h) _
  | land l r ihl ihr =>
    rw [eval]
    split
    · exact fits_bool false
    · have := ihr h.2.1 hr.2
      rwa [h.2.2.2] at this
  | lor l r ihl ihr =>
    rw [eval]
    split
    · have := ihr h.2.1 hr.2
      rwa [h.2.2.2] at this
    · exact fits_bool true
  | neg e => exact fits_conv (isInteger_type h.1) _
  | plus e ih => exact ih h.1 hr
  | bnot e => exact fits_conv (isInteger_type h.1) _
  | lnot e =>
    rw [eval]
    split
    · exact fits_bool true
    · exact fits_bool false

theorem fits_eval_bool (h : r.WellTyped ∧ l.type = CType.bool ∧ r.type = CType.bool)
    (hr : r.Ranged ρ) : Fits CType.bool.signed CType.bool.width (r.eval ρ) := by
  have := fits_eval h.1 hr
  rwa [h.2.2] at this

/-- The operands of a binary operation fit the sign that both of them carry. -/
theorem fits_both (hl : l.WellTyped) (hr : r.WellTyped) (htype : l.type = r.type)
    (hrange : l.Ranged ρ) (hkept : Fits l.carried l.type.width (l.eval ρ)) :
    Fits (l.carried && r.carried) l.type.width (l.eval ρ) := by
  cases hc : r.carried with
  | true => rwa [Bool.and_true]
  | false =>
    rw [Bool.and_false]
    have hfits := fits_eval hl hrange
    cases hs : l.type.signed with
    | true =>
      rw [htype] at hs
      simp [carried_of_signed hr hs] at hc
    | false => rwa [hs] at hfits

theorem fold_bin {op : BinOp} (h : (CExpr.bin op l r).WellTyped)
    (hranged : (CExpr.bin op l r).Ranged ρ) (hin : (CExpr.bin op l r).InRange ρ)
    (hl : Fits l.carried l.type.width (l.eval ρ)) (hr : Fits r.carried r.type.width (r.eval ρ)) :
    parseBinaryStmt op l.type.width r.type.width (ApsInt.of l.type.width l.carried (l.eval ρ))
        (ApsInt.of r.type.width r.carried (r.eval ρ)) =
      .ok (ApsInt.of (CExpr.bin op l r).type.width (CExpr.bin op l r).carried
        ((CExpr.bin op l r).eval ρ)) := by
  obtain ⟨hwl, hwr, hpl, hpr, htypes⟩ := h
  obtain ⟨hrl, hrr⟩ := hranged
  cases hshift : op.isShift with
  | true =>
    have hc : op.isCompare = false := by cases op <;> first | rfl | cases hshift
    have hwidth := (isInteger_type hwl).2.1
    obtain ⟨hnonneg, hlt⟩ := hin.2 hshift
    rw [parseBinaryStmt_shift hshift,
      shiftBy_of hshift hl hr hnonneg (by omega) (by omega) l.type]
    simp only [type, carried, eval, hc, hshift, Bool.false_eq_true, if_false, if_true,
      of_conv hpl.1]
  | false =>
    have htype := htypes hshift
    have hfl := fits_both hwl hwr htype hrl hl
    have hfr := fits_both hwr hwl htype.symm hrr hr
    rw [Bool.and_comm, ← htype] at hfr
    rw [← htype]
    cases hc : op.isCompare with
    | true =>
      rw [parseBinaryStmt_compare hc hfl hfr]
      simp only [type, carried, eval, hc, if_true, binRaw_compare hc, CType.conv_bool]
      rfl
    | false =>
      have hnot : ¬((op = .div ∨ op = .rem) ∧ r.eval ρ = 0) := fun hz => hin.1 hz.1 hz.2
      rw [parseBinaryStmt_arith hc hshift hfr, if_neg hnot,
        arith_of_binRaw hc hshift hfl hfr rfl]
      simp only [type, carried, eval, hc, hshift, Bool.false_eq_true, if_false, of_conv hpl.1]

/-- Where everything below is kept and the operands are in range, the folding gives the
bits of the C++ value. -/
theorem fold_eq (h : e.WellTyped) (hranged : e.Ranged ρ) (hkept : e.Below sva ρ (Kept ρ))
    (hin : e.InRange ρ) :
    e.fold sva ρ = .ok (ApsInt.of e.type.width e.carried (e.eval ρ)) := by
  induction e with
  | var x t => rfl
  | lit n t => rfl
  | cast t e ih =>
    have hfits := hkept.self.2
    rw [fold, ih h.2 hranged hkept.below hkept.self.1]
    simp only [bind, Except.bind]
    cases hb : t.isBool with
    | true =>
      rw [if_pos rfl, ApsInt.getBoolValue_of hfits, eval, type, carried, h.1.2.2 hb]
      by_cases hz : e.eval ρ = 0 <;> simp [hz, CType.conv, CType.bool, ApsInt.ofBool]
    | false =>
      simp only [Bool.false_eq_true, if_false, ApsInt.extOrTrunc_of hfits, ApsInt.setSigned_of,
        type, carried, eval, of_conv hb]
  | bin op l r ihl ihr =>
    obtain ⟨hl, hr⟩ := hkept
    rw [fold, ihl h.1 hranged.1 hl.below hl.self.1, ihr h.2.1 hranged.2 hr.below hr.self.1]
    exact fold_bin h hranged hin hl.self.2 hr.self.2
  | land l r ihl ihr =>
    obtain ⟨hl, hkeptr⟩ := hkept
    rw [fold, ihl h.1 hranged.1 hl.below hl.self.1]
    simp only [bind, Except.bind, ApsInt.getBoolValue_of hl.self.2, type, carried, eval]
    by_cases hz : l.eval ρ = 0
    · cases sva with
      | false => simp [hz, ApsInt.ofBool, CType.bool]
      | true =>
        have hr := hkeptr (.inl rfl)
        rw [ihr h.2.1 hranged.2 hr.below hr.self.1]
        simp [hz, ApsInt.ofBool, CType.bool]
    · have hr := hkeptr (.inr hz)
      rw [ihr h.2.1 hranged.2 hr.below hr.self.1]
      simp [hz, ApsInt.getBoolValue_of hr.self.2, ofBool_of_fits (fits_eval_bool h.2 hranged.2)]
  | lor l r ihl ihr =>
    obtain ⟨hl, hkeptr⟩ := hkept
    rw [fold, ihl h.1 hranged.1 hl.below hl.self.1]
    simp only [bind, Except.bind, ApsInt.getBoolValue_of hl.self.2, type, carried, eval]
    by_cases hz : l.eval ρ = 0
    · have hr := hkeptr (.inr hz)
      rw [ihr h.2.1 hranged.2 hr.below hr.self.1]
      simp [hz, ApsInt.getBoolValue_of hr.self.2, ofBool_of_fits (fits_eval_bool h.2 hranged.2)]
    · cases sva with
      | false => simp [hz, ApsInt.ofBool, CType.bool]
      | true =>
        have hr := hkeptr (.inl rfl)
        rw [ihr h.2.1 hranged.2 hr.below hr.self.1]
        simp [hz, ApsInt.ofBool, CType.bool]
  | neg e ih =>
    rw [fold, ih h.1 hranged hkept.below hkept.self.1]
    simp only [bind, Except.bind, ApsInt.setSigned_of, ApsInt.neg_of, type, carried, eval,
      of_conv h.2.1]
  | plus e ih => exact ih h.1 hranged hkept.below hkept.self.1
  | bnot e ih =>
    rw [fold, ih h.1 hranged hkept.below hkept.self.1]
    simp only [bind, Except.bind, ApsInt.extOrTrunc_of hkept.self.2, ApsInt.not_of, type,
      carried, eval, of_conv h.2.1]
  | lnot e ih =>
    rw [fold, ih h.1 hranged hkept.below hkept.self.1]
    simp only [bind, Except.bind, ApsInt.getBoolValue_of hkept.self.2, type, carried, eval]
    by_cases hz : e.eval ρ = 0 <;> simp [hz, ApsInt.ofBool, CType.bool]

/-- An integer is only folded from operands that are accepted. -/
theorem not_rejected (h : e.WellTyped) (hranged : e.Ranged ρ) (hkept : e.Below sva ρ (Kept ρ))
    {val : ApsInt} (hfold : e.fold sva ρ = .ok val) : ¬e.Rejected ρ := by
  cases e with
  | bin op l r =>
    obtain ⟨hl, hr⟩ := hkept
    obtain ⟨hwl, hwr, hpl, hpr, htypes⟩ := h
    rw [fold, fold_eq hwl hranged.1 hl.below hl.self.1,
      fold_eq hwr hranged.2 hr.below hr.self.1] at hfold
    simp only [bind, Except.bind] at hfold
    rintro (⟨hop, hzero⟩ | ⟨hshift, hrejected⟩)
    · have hs : op.isShift = false := by rcases hop with rfl | rfl <;> rfl
      have hc : op.isCompare = false := by rcases hop with rfl | rfl <;> rfl
      have hfr := fits_both hwr hwl (htypes hs).symm hranged.2 hr.self.2
      rw [Bool.and_comm, ← htypes hs] at hfr
      rw [← htypes hs, parseBinaryStmt_arith hc hs hfr, if_pos ⟨hop, hzero⟩] at hfold
      cases hfold
    · rw [parseBinaryStmt_shift hshift, shiftBy_rejected hr.self.2 hrejected] at hfold
      cases hfold
  | _ => exact id

theorem agrees_of_kept (h : e.WellTyped) (hranged : e.Ranged ρ)
    (hkept : e.Everywhere sva ρ (Kept ρ)) : e.Everywhere sva ρ (Agrees sva ρ) := by
  have hboth : e.Everywhere sva ρ (fun e => e.Kept ρ ∧ e.Agrees sva ρ) := by
    refine Everywhere.of_step (fun e hwt hr hself hbelow => ⟨hself, ?_⟩) h hranged hkept
    have hfold := fold_eq hwt hr (hbelow.imp fun _ => And.left) hself.1
    exact ⟨_, hfold, fun _ => ApsInt.val_of hself.2⟩
  exact hboth.imp id fun _ => And.right

theorem kept_of_agrees (h : e.WellTyped) (hranged : e.Ranged ρ)
    (hdefined : e.Everywhere sva ρ (fun e => e.OperationDefined ρ ∨ e.Rejected ρ))
    (hagrees : e.Everywhere sva ρ (Agrees sva ρ)) : e.Everywhere sva ρ (Kept ρ) := by
  have hboth : e.Everywhere sva ρ (fun e => e.Kept ρ ∧ e.OperationDefined ρ) := by
    refine Everywhere.of_step (fun e hwt hr hself hbelow => ?_) h hranged (hdefined.and hagrees)
    obtain ⟨hdefinedOr, val, hfold, hval⟩ := hself
    have hkept := hbelow.imp fun _ => And.left
    have hop := hdefinedOr.resolve_right (not_rejected hwt hr hkept hfold)
    -- the integer is known, and C++ defines the value
    rw [fold_eq hwt hr hkept hop.1] at hfold
    cases hfold
    have hdefined : e.Defined ρ :=
      (everywhere_iff.mpr ⟨hbelow.imp fun _ => And.right, hop⟩).imp nofun fun _ => id
    refine ⟨⟨hop.1, ?_⟩, hop⟩
    have hfits := fits_valueOf e.carried (BitVec.ofInt e.type.width (e.eval ρ))
      (isInteger_type hwt).1
    rwa [show valueOf e.carried (BitVec.ofInt e.type.width (e.eval ρ)) = e.eval ρ from
      hval hdefined] at hfits
  exact hboth.imp id fun _ => And.left

/-- Folding is right in an expression and all it evaluates when these are kept; where C++
leaves no operation open but those that are rejected, only then. -/
theorem fold_agrees_iff (h : e.WellTyped) (hranged : e.Ranged ρ) :
    (e.Everywhere sva ρ (Kept ρ) → e.Everywhere sva ρ (Agrees sva ρ)) ∧
      (e.Everywhere sva ρ (fun e => e.OperationDefined ρ ∨ e.Rejected ρ) →
        e.Everywhere sva ρ (Agrees sva ρ) → e.Everywhere sva ρ (Kept ρ)) :=
  ⟨agrees_of_kept h hranged, kept_of_agrees h hranged⟩

end CExpr

/-- A quotient of unsigned numbers, the divisor a negated `int`. -/
theorem CExpr.fold_agrees_iff_quotient :
    let int : CType := ⟨32, true, false⟩
    let uint : CType := ⟨32, false, false⟩
    let ρ : Bool → Int := fun x => if x then -2 else 4294967295
    let e : CExpr Bool := .bin .div (.var false uint) (.cast uint (.neg (.var true int)))
    e.eval ρ = 2147483647 ∧ e.Everywhere false ρ (CExpr.Agrees false ρ) := by
  intro int uint ρ e
  have hwt : e.WellTyped := by
    simp [e, CExpr.WellTyped, IsInteger, IsPromoted, int, uint]
  have hranged : e.Ranged ρ := by
    simp [e, CExpr.Ranged, Fits, int, uint, ρ]
  have hkept : e.Everywhere false ρ (CExpr.Kept ρ) := by
    refine ⟨⟨trivial, ?_⟩, ⟨⟨⟨trivial, ?_⟩, trivial, ?_⟩, trivial, ?_⟩,
      ⟨fun _ => ?_, by simp [BinOp.isShift]⟩, ?_⟩
    all_goals decide
  exact ⟨by decide, (CExpr.fold_agrees_iff hwt hranged).1 hkept⟩

/-- The minus of an `unsigned` 1 is folded to -1, and `1 / ((long)-x + 1)` divides by zero. -/
theorem CExpr.fold_neg_unsigned :
    let int : CType := ⟨32, true, false⟩
    let uint : CType := ⟨32, false, false⟩
    let long : CType := ⟨64, true, false⟩
    let ρ : Unit → Int := fun _ => 1
    let minus : CExpr Unit := .neg (.var () uint)
    let quotient : CExpr Unit :=
      .bin .div (.cast long (.lit 1 int)) (.bin .add (.cast long minus) (.cast long (.lit 1 int)))
    (minus.WellTyped ∧ minus.Ranged ρ ∧ minus.Defined ρ ∧ minus.eval ρ = 4294967295 ∧
      (minus.fold false ρ).map ApsInt.val = .ok (-1)) ∧
    quotient.WellTyped ∧ quotient.Ranged ρ ∧ quotient.Defined ρ ∧ quotient.eval ρ = 0 ∧
      quotient.fold false ρ = .error .zeroDivisor := by
  intro int uint long ρ minus quotient
  refine ⟨⟨?_, ?_, ?_, by decide, by decide⟩, ?_, ?_, ?_, by decide, by decide⟩
  · simp [minus, CExpr.WellTyped, IsInteger, IsPromoted, uint]
  · simp [minus, CExpr.Ranged, Fits, uint, ρ]
  · exact ⟨⟨trivial, trivial⟩, trivial, by simp [uint]⟩
  · simp [quotient, minus, CExpr.WellTyped, IsInteger, IsPromoted, Fits, BinOp.isCompare, int,
      uint, long]
  · simp [quotient, minus, CExpr.Ranged, Fits, uint, ρ]
  · have hone : (CExpr.cast long (CExpr.lit 1 int)).Defined ρ :=
      ⟨⟨trivial, trivial⟩, trivial, trivial⟩
    have hminus : (CExpr.cast long minus).Defined ρ :=
      ⟨⟨⟨trivial, trivial⟩, trivial, by simp [uint]⟩, trivial, trivial⟩
    exact ⟨hone, ⟨hminus, hone, ⟨by simp, by simp [BinOp.isShift]⟩, fun _ => by decide⟩,
      ⟨fun _ => by decide, by simp [BinOp.isShift]⟩, fun _ => by decide⟩

end SystemcCompiler.ConstFold
