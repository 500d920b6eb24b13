import SystemcCompiler.Expr.ConstFold

/-! Folding of a compound assignment in `ScParseExprValue::parseCompoundAssignStmt`. The left
operand is not cast to the computation type, as Clang leaves this to the statement. -/
namespace SystemcCompiler.Terms

/-- Integral promotion, with an `int` of 32 bits. -/
def CType.promote (t : CType) : CType := if t.width < 32 then ⟨32, true, false⟩ else t

/-- Common type of two promoted types. -/
def CType.common (l r : CType) : CType :=
  if r.width < l.width then l
  else if l.width < r.width then r
  else ⟨l.width, l.signed && r.signed, false⟩

end SystemcCompiler.Terms

namespace SystemcCompiler.ConstFold
open Verilog Terms

inductive AssignOp where
  | addAssign | subAssign | mulAssign | divAssign | remAssign
  | shlAssign | shrAssign | andAssign | orAssign | xorAssign
  deriving DecidableEq

namespace AssignOp

def op : AssignOp → BinOp
  | addAssign => .add
  | subAssign => .sub
  | mulAssign => .mul
  | divAssign => .div
  | remAssign => .rem
  | shlAssign => .shl
  | shrAssign => .shr
  | andAssign => .and
  | orAssign => .or
  | xorAssign => .xor

/-- The type the operation has in C++. -/
def computationType (opcode : AssignOp) (ltype rtype : CType) : CType :=
  if opcode.op.isShift then ltype.promote else ltype.promote.common rtype.promote

/-- The type Clang casts the right operand to. -/
def rightType (opcode : AssignOp) (ltype rtype : CType) : CType :=
  if opcode.op.isShift then rtype.promote else opcode.computationType ltype rtype

end AssignOp

inductive Operand where
  | lhs | rhs
  deriving DecidableEq

/-- Right operand of the statement, with the cast of Clang. -/
def rexpr (opcode : AssignOp) (ltype rtype : CType) : CExpr Operand :=
  .cast (opcode.rightType ltype rtype) (.var .rhs rtype)

/-- `(LhsType)((ComputationType)lhs op rhs)` -/
def expanded (opcode : AssignOp) (ltype rtype : CType) : CExpr Operand :=
  .cast ltype (.bin opcode.op
    (.cast (opcode.computationType ltype rtype) (.var .lhs ltype)) (rexpr opcode ltype rtype))

/-- The integer `ScState::putValue` puts to a variable of the type. -/
def putValue (type : CType) (rval : ApsInt) : ApsInt :=
  if type.isBool then ApsInt.ofBool rval.getBoolValue
  else (rval.extOrTrunc type.width).setSigned type.signed

/-- The integer that is put to the left operand. -/
def parseCompoundAssignStmt (opcode : AssignOp) (ltype rtype : CType) (llval rrval : ApsInt) :
    Except Fault ApsInt := do
  let val1 := extendBitWidthBO llval ltype.width
  let val2 := extendBitWidthBO rrval rtype.width
  let res ← match opcode with
    | .shlAssign | .shrAssign => shiftBy opcode.op val1 val2
    | .divAssign | .remAssign =>
      let (val1, val2) := adjustIntegers val1 val2 false
      divide opcode.op val1 val2
    | .addAssign | .subAssign | .mulAssign | .andAssign | .orAssign | .xorAssign =>
      let (val1, val2) := adjustIntegers val1 val2 false
      .ok (val1.arith opcode.op val2)
  .ok (putValue ltype res)

/-- The integer stored by the statement on known operands. -/
def foldAssign (opcode : AssignOp) (ltype rtype : CType) (ρ : Operand → Int) :
    Except Fault ApsInt := do
  let lval ← (CExpr.var .lhs ltype).fold false ρ
  let rval ← (rexpr opcode ltype rtype).fold false ρ
  parseCompoundAssignStmt opcode ltype (rexpr opcode ltype rtype).type lval rval

/-- The operands on which the statement is folded as C++ computes it: a negative divisor of
an unsigned dividend in a signed computation exceeds the dividend, a shift amount is accepted
by `APInt`, and a `bool` that is set is not shifted. -/
def Preserved (opcode : AssignOp) (ltype rtype : CType) (a b : Int) : Prop :=
  match opcode with
  | .divAssign | .remAssign =>
    ltype.signed = false → (opcode.computationType ltype rtype).signed = true → b < 0 → a < -b
  | .shlAssign => b ≤ ltype.width ∧ (ltype.isBool = true → a = 0 ∨ b = 0)
  | .shrAssign => b ≤ ltype.width
  | .addAssign | .subAssign | .mulAssign | .andAssign | .orAssign | .xorAssign => True

section
variable {opcode : AssignOp} {l r : CType}

theorem isInteger_promote (h : IsInteger l) : IsInteger l.promote := by
  unfold CType.promote
  split
  · exact ⟨by decide, by decide, nofun⟩
  · exact h

theorem isPromoted_promote (h : IsInteger l) : IsPromoted l.promote := by
  unfold CType.promote
  split
  · exact ⟨rfl, by decide⟩
  · rename_i hw
    have hb : l.isBool = false := by
      cases hb : l.isBool with
      | false => rfl
      | true =>
        rw [h.2.2 hb] at hw
        exact absurd (by decide) hw
    exact ⟨hb, by omega⟩

theorem isPromoted_common (hl : IsPromoted l) (hr : IsPromoted r) : IsPromoted (l.common r) := by
  unfold CType.common
  split
  · exact hl
  · split
    · exact hr
    · exact ⟨rfl, hl.2⟩

theorem isInteger_common (hl : IsInteger l) (hr : IsInteger r) : IsInteger (l.common r) := by
  unfold CType.common
  split
  · exact hl
  · split
    · exact hr
    · exact ⟨hl.1, hl.2.1, nofun⟩

theorem width_le_promote : l.width ≤ l.promote.width := by
  unfold CType.promote
  split
  · simp only
    omega
  · exact Nat.le_refl _

theorem width_le_common : l.width ≤ (l.common r).width := by
  unfold CType.common
  split
  · exact Nat.le_refl _
  · split
    · rename_i hlt
      exact Nat.le_of_lt hlt
    · exact Nat.le_refl _

theorem isInteger_computationType (opcode : AssignOp) (hl : IsInteger l) (hr : IsInteger r) :
    IsInteger (opcode.computationType l r) := by
  unfold AssignOp.computationType
  split
  · exact isInteger_promote hl
  · exact isInteger_common (isInteger_promote hl) (isInteger_promote hr)

theorem isPromoted_computationType (opcode : AssignOp) (hl : IsInteger l) (hr : IsInteger r) :
    IsPromoted (opcode.computationType l r) := by
  unfold AssignOp.computationType
  split
  · exact isPromoted_promote hl
  · exact isPromoted_common (isPromoted_promote hl) (isPromoted_promote hr)

theorem isInteger_rightType (hl : IsInteger l) (hr : IsInteger r) :
    IsInteger (opcode.rightType l r) := by
  unfold AssignOp.rightType
  split
  · exact isInteger_promote hr
  · exact isInteger_computationType opcode hl hr

theorem width_le_computationType : l.width ≤ (opcode.computationType l r).width := by
  unfold AssignOp.computationType
  split
  · exact width_le_promote
  · exact width_le_promote.trans width_le_common

/-- An unsigned type is narrower than a signed type it is converted to. -/
theorem width_lt_computationType (hl : l.signed = false)
    (hc : (opcode.computationType l r).signed = true) :
    l.width < (opcode.computationType l r).width := by
  have hpromote : l.promote.signed = true → l.width < l.promote.width := by
    unfold CType.promote
    split
    · exact fun _ => by simpa
    · intro hs
      rw [hl] at hs
      cases hs
  unfold AssignOp.computationType at hc ⊢
  split at hc
  · rename_i hshift
    rw [if_pos hshift]
    exact hpromote hc
  · rename_i hshift
    rw [if_neg hshift]
    unfold CType.common at hc ⊢
    have hle : l.width ≤ l.promote.width := width_le_promote
    split at hc
    · rename_i h1
      rw [if_pos h1]
      exact hpromote hc
    · rename_i h1
      rw [if_neg h1]
      split at hc
      · rename_i h2
        rw [if_pos h2]
        omega
      · rename_i h2
        rw [if_neg h2]
        exact hpromote (by simp_all)

end

section
variable {opcode : AssignOp} {l r c : CType} {a b v : Int} {ρ : Operand → Int}

/-- The promoted type has all values. -/
theorem fits_promote (h : Fits l.signed l.width a) :
    Fits l.promote.signed l.promote.width a := by
  unfold CType.promote
  split
  · rename_i hw
    cases hs : l.signed with
    | true =>
      rw [hs] at h
      exact h.mono (Nat.le_of_lt hw)
    | false =>
      rw [hs, fits_unsigned] at h
      have : (2 : Int) ^ l.width ≤ 2 ^ 31 := pow_le_pow_right₀ (by omega) (by omega)
      exact fits_signed.mpr (show -2 ^ 31 ≤ a ∧ a < 2 ^ 31 ∧ 0 < 32 by omega)
  · exact h

/-- Conversion keeps the values of a type. -/
theorem conv_of_fits (hc : IsInteger c) (h : Fits c.signed c.width v) : c.conv v = v := by
  cases hb : c.isBool with
  | true =>
    have hbool := hc.2.2 hb
    subst hbool
    have hone : v = 0 ∨ v = 1 := by
      have := fits_unsigned.mp h
      simp only [CType.bool] at this
      omega
    rcases hone with rfl | rfl <;> rfl
  | false => rw [CType.conv, hb, if_neg Bool.false_ne_true, valueOf_ofInt h]

/-- A small negative number is not converted to zero. -/
theorem conv_neg_ne_zero (hs : c.signed = false) (hpos : 0 < v) (hlt : v < 2 ^ c.width) :
    c.conv (-v) ≠ 0 := by
  cases hb : c.isBool with
  | true =>
    have hne : ¬-v = 0 := by omega
    simp [CType.conv, hb, hne]
  | false =>
    have hbits : BitVec.ofInt c.width (-v) = BitVec.ofInt c.width (2 ^ c.width - v) := by
      apply ofInt_eq_of_emod
      rw [← Int.add_emod_left, Int.sub_eq_add_neg]
    have hfits : Fits false c.width (2 ^ c.width - v) := fits_unsigned.mpr (by omega)
    rw [CType.conv, hb, if_neg Bool.false_ne_true, hs, hbits, valueOf_ofInt hfits]
    omega

/-- An intermediate conversion to a type that is not narrower drops out. -/
theorem conv_conv (hl : l.isBool = false) (hc : c.isBool = false) (hw : l.width ≤ c.width) :
    l.conv (c.conv v) = l.conv v := by
  simp only [CType.conv, hl, hc, Bool.false_eq_true, if_false]
  rw [ofInt_valueOf_extend fun hlt => absurd hlt (Nat.not_lt.mpr hw)]

theorem conv_zero : l.conv 0 = 0 := by
  cases hb : l.isBool <;> cases hs : l.signed <;> simp [CType.conv, hb, hs, valueOf]

theorem emod_le_dividend {d : Int} (ha : 0 ≤ a) (hd : 0 < d) : a % d ≤ a := by
  have hparts := Int.mul_ediv_add_emod a d
  have hquot := Int.mul_nonneg (Int.le_of_lt hd) (Int.ediv_nonneg ha (Int.le_of_lt hd))
  omega

/-- A quotient of a number that fits is not lost in the conversion of its opposite. -/
theorem conv_neg_quotient_iff {d : Int} (hs : l.signed = false) (ha : Fits l.signed l.width a)
    (hd : 0 < d) : l.conv (-(a / d)) = 0 ↔ a < d := by
  rw [hs, fits_unsigned] at ha
  constructor
  · intro hzero
    by_contra hge
    have hpos : 0 < a / d := by
      have := (Int.le_ediv_iff_mul_le (a := 1) (b := a) hd).mpr (by omega)
      omega
    have hle := Int.ediv_le_self d ha.1
    exact conv_neg_ne_zero hs hpos (by omega) hzero
  · intro hlt
    rw [Int.ediv_eq_zero_of_lt ha.1 hlt]
    exact conv_zero

theorem conv_remainder_iff {d : Int} (hl : IsInteger l) (hs : l.signed = false)
    (ha : Fits l.signed l.width a) (hd : 0 < d) : l.conv (a % d) = a ↔ a < d := by
  have hrange := fits_unsigned.mp (hs ▸ ha)
  have hlt := Int.emod_lt_of_pos a hd
  have hfits : Fits l.signed l.width (a % d) := by
    rw [hs, fits_unsigned]
    exact ⟨Int.emod_nonneg a (Int.ne_of_gt hd), (emod_le_dividend hrange.1 hd).trans_lt hrange.2⟩
  rw [conv_of_fits hl hfits]
  constructor
  · omega
  · exact Int.emod_eq_of_lt hrange.1

theorem putValue_of_fits {s : Bool} (hl : IsInteger l) (h : Fits s c.width v) :
    putValue l (ApsInt.of c.width s v) = ApsInt.of l.width l.signed (l.conv v) := by
  rw [putValue]
  cases hb : l.isBool with
  | true =>
    rw [if_pos rfl, ApsInt.getBoolValue_of h, hl.2.2 hb]
    by_cases hz : v = 0 <;> simp [hz, CType.conv, CType.bool, ApsInt.ofBool]
  | false =>
    rw [if_neg Bool.false_ne_true, ApsInt.extOrTrunc_of h, ApsInt.setSigned_of, of_conv hb]

/-- What is put of bits that are not narrower than the variable, by either sign. -/
theorem putValue_of (hl : IsInteger l) (hc : IsInteger c) (hb : c.isBool = false)
    (hw : l.width ≤ c.width) (s : Bool) (v : Int) :
    putValue l (ApsInt.of c.width s v) = ApsInt.of l.width l.signed (l.conv (c.conv v)) := by
  have hsame : putValue l (ApsInt.of c.width s v) =
      putValue l (ApsInt.of c.width c.signed v) := by
    have hget : (ApsInt.of c.width s v).getBoolValue =
        (ApsInt.of c.width c.signed v).getBoolValue := rfl
    have htrunc : ∀ t, ((ApsInt.of c.width t v).extOrTrunc l.width).setSigned l.signed =
        ApsInt.of l.width l.signed v := by
      intro t
      refine congrArg (ApsInt.mk l.width l.signed) ?_
      exact ofInt_valueOf_extend fun hlt => absurd hlt (Nat.not_lt.mpr hw)
    rw [putValue, putValue, hget, htrunc, htrunc]
  rw [hsame, ← of_conv hb, putValue_of_fits hl (fits_conv hc v)]

theorem foldAssign_eq (hl : IsInteger l) (hr : IsInteger r)
    (hb : Fits r.signed r.width (ρ .rhs)) :
    foldAssign opcode l r ρ =
      parseCompoundAssignStmt opcode l (opcode.rightType l r)
        (ApsInt.of l.width l.signed (ρ .lhs))
        (ApsInt.of (opcode.rightType l r).width (opcode.rightType l r).signed
          ((rexpr opcode l r).eval ρ)) := by
  have hbool : (opcode.rightType l r).isBool = false := by
    unfold AssignOp.rightType
    split
    · exact (isPromoted_promote hr).1
    · exact (isPromoted_computationType opcode hl hr).1
  simp only [foldAssign, rexpr, CExpr.fold, CExpr.type, CExpr.eval, bind, Except.bind, hbool,
    Bool.false_eq_true, if_false, ApsInt.extOrTrunc_of hb, ApsInt.setSigned_of, of_conv hbool]

theorem adjustIntegers_widen {w k : Nat} {s s' : Bool} (hw : w ≤ k) (ha : Fits s w a) :
    adjustIntegers (ApsInt.of w s a) (ApsInt.of k s' b) false =
      (ApsInt.of k (s && s') a, ApsInt.of k (s && s') b) := by
  have hmax : maxWidth (ApsInt.of w s a) (ApsInt.of k s' b) =
      (ApsInt.of k s a, ApsInt.of k s' b) := by
    simp only [maxWidth, ApsInt.of_width, Nat.not_lt.mpr hw, if_false, ApsInt.extOrTrunc_of ha]
    split
    · rfl
    · rw [show w = k by omega]
  simp only [adjustIntegers, hmax, Bool.false_eq_true, if_false]
  cases s <;> cases s' <;> rfl

/-- All but shifts act on both operands in the computation type, signed when both are. -/
theorem parseCompoundAssignStmt_arith (hop : opcode.op.isShift = false)
    (hw : l.width ≤ c.width) (ha : Fits l.signed l.width a) (hb : Fits c.signed c.width b)
    (hz : opcode.op = .div ∨ opcode.op = .rem → b ≠ 0) :
    parseCompoundAssignStmt opcode l c (ApsInt.of l.width l.signed a)
        (ApsInt.of c.width c.signed b) =
      .ok (putValue l ((ApsInt.of c.width (l.signed && c.signed) a).arith opcode.op
        (ApsInt.of c.width (l.signed && c.signed) b))) := by
  cases opcode with
  | shlAssign => cases hop
  | shrAssign => cases hop
  | divAssign =>
    have hnz := hz (.inl rfl)
    simp [parseCompoundAssignStmt, extendBitWidthBO_of, adjustIntegers_widen hw ha,
      divide_of hb, hnz, bind, Except.bind]
  | remAssign =>
    have hnz := hz (.inr rfl)
    simp [parseCompoundAssignStmt, extendBitWidthBO_of, adjustIntegers_widen hw ha,
      divide_of hb, hnz, bind, Except.bind]
  | _ =>
    simp [parseCompoundAssignStmt, extendBitWidthBO_of, adjustIntegers_widen hw ha, bind,
      Except.bind]

theorem parseCompoundAssignStmt_shift (hop : opcode.op.isShift = true) :
    parseCompoundAssignStmt opcode l c (ApsInt.of l.width l.signed a)
        (ApsInt.of c.width c.signed b) =
      (shiftBy opcode.op (ApsInt.of l.width l.signed a) (ApsInt.of c.width c.signed b)).map
        (putValue l) := by
  cases opcode with
  | shlAssign => simp only [parseCompoundAssignStmt, extendBitWidthBO_of]; rfl
  | shrAssign => simp only [parseCompoundAssignStmt, extendBitWidthBO_of]; rfl
  | _ => cases hop

/-- Only division depends on the sign of the operands. -/
theorem arith_setSigned {op : BinOp} (hop : op ≠ .div ∧ op ≠ .rem) {w : Nat} (s s' : Bool) :
    (ApsInt.of w s a).arith op (ApsInt.of w s b) =
      ((ApsInt.of w s' a).arith op (ApsInt.of w s' b)).setSigned s := by
  rw [ApsInt.arith_of, ApsInt.arith_of]
  cases op <;> first | rfl | simp at hop

/-- An unsigned quotient by a negative number is zero, the remainder the dividend. -/
theorem arith_of_negative {op : BinOp} (hop : op = .div ∨ op = .rem) {w : Nat}
    (ha : Fits false w a) (hb : -2 ^ w ≤ b) (hneg : b < 0) (hlt : a < 2 ^ w + b) :
    (ApsInt.of w false a).arith op (ApsInt.of w false b) =
      ApsInt.of w false (if op = .div then 0 else a) := by
  have hwrap : ApsInt.of w false b = ApsInt.of w false (2 ^ w + b) := by
    apply ApsInt.of_congr
    rw [Int.add_emod_left]
  have hfits : Fits false w (2 ^ w + b) := fits_unsigned.mpr (by omega)
  have hnonneg := (fits_unsigned.mp ha).1
  rcases hop with rfl | rfl
  · rw [hwrap, arith_of_binRaw rfl rfl ha hfits (t := ⟨w, false, false⟩) rfl, if_pos rfl]
    exact congrArg _ (Int.tdiv_eq_zero_of_lt hnonneg hlt)
  · rw [hwrap, arith_of_binRaw rfl rfl ha hfits (t := ⟨w, false, false⟩) rfl, if_neg nofun]
    exact congrArg _ (Int.tmod_eq_of_lt hnonneg hlt)

/-- The statement stores the value C++ gives it. -/
def Agrees (opcode : AssignOp) (l r : CType) (ρ : Operand → Int) : Prop :=
  ∃ val, foldAssign opcode l r ρ = .ok val ∧ val.val = (expanded opcode l r).eval ρ

theorem agrees_iff_of_stored (hfold : foldAssign opcode l r ρ = .ok (ApsInt.of l.width l.signed v))
    (hv : Fits l.signed l.width v) : Agrees opcode l r ρ ↔ v = (expanded opcode l r).eval ρ := by
  constructor
  · rintro ⟨val, hval, heq⟩
    rw [hfold] at hval
    cases hval
    rwa [ApsInt.val_of hv] at heq
  · exact fun heq => ⟨_, hfold, (ApsInt.val_of hv).trans heq⟩

end

section
variable {opcode : AssignOp} {l r : CType} {ρ : Operand → Int} (hl : IsInteger l)
  (hr : IsInteger r) (ha : Fits l.signed l.width (ρ .lhs)) (hb : Fits r.signed r.width (ρ .rhs))
  (hdefined : (expanded opcode l r).Defined ρ)

/-- C++ value of the operation in the computation type. -/
theorem eval_expanded (hcompare : opcode.op.isCompare = false) :
    (expanded opcode l r).eval ρ =
      l.conv ((opcode.computationType l r).conv (binRaw opcode.op (opcode.computationType l r)
        ((opcode.computationType l r).conv (ρ .lhs)) ((rexpr opcode l r).eval ρ))) := by
  simp only [expanded, CExpr.eval, CExpr.type, hcompare, Bool.false_eq_true, if_false]

theorem AssignOp.isCompare_op : opcode.op.isCompare = false := by
  cases opcode <;> rfl

include hl hr in
theorem fits_rexpr (opcode : AssignOp) (ρ : Operand → Int) :
    Fits (opcode.rightType l r).signed (opcode.rightType l r).width ((rexpr opcode l r).eval ρ) :=
  fits_conv (isInteger_rightType hl hr) _

theorem rightType_of_arith (hop : opcode.op.isShift = false) :
    opcode.rightType l r = opcode.computationType l r := by
  simp [AssignOp.rightType, hop]

include hdefined in
theorem inRange_of_defined : (opcode.op = .div ∨ opcode.op = .rem → (rexpr opcode l r).eval ρ ≠ 0) ∧
    (opcode.op.isShift = true → 0 ≤ (rexpr opcode l r).eval ρ ∧
      (rexpr opcode l r).eval ρ < (opcode.computationType l r).width) :=
  hdefined.below.self.1

include hl hr ha hb hdefined in
theorem foldAssign_arith (hop : opcode.op.isShift = false) :
    let c := opcode.computationType l r
    foldAssign opcode l r ρ = .ok (putValue l
      ((ApsInt.of c.width (l.signed && c.signed) (c.conv (ρ .lhs))).arith opcode.op
        (ApsInt.of c.width (l.signed && c.signed) ((rexpr opcode l r).eval ρ)))) := by
  intro c
  have hfits := fits_rexpr hl hr opcode ρ
  rw [foldAssign_eq hl hr hb]
  rw [rightType_of_arith hop] at hfits ⊢
  rw [parseCompoundAssignStmt_arith hop width_le_computationType ha hfits
    (inRange_of_defined hdefined).1, of_conv (isPromoted_computationType opcode hl hr).1]

include hl hr ha hb hdefined in
/-- Where both operands fit the sign the tool computes in, or the sign does not matter, the
statement stores the C++ value. -/
theorem agrees_of_arith (hop : opcode.op.isShift = false)
    (harith : let c := opcode.computationType l r
      (ApsInt.of c.width (l.signed && c.signed) (c.conv (ρ .lhs))).arith opcode.op
        (ApsInt.of c.width (l.signed && c.signed) ((rexpr opcode l r).eval ρ)) =
      ApsInt.of c.width (l.signed && c.signed)
        (binRaw opcode.op c (c.conv (ρ .lhs)) ((rexpr opcode l r).eval ρ))) :
    Agrees opcode l r ρ := by
  have hc := isInteger_computationType opcode hl hr
  have hfold := foldAssign_arith hl hr ha hb hdefined hop
  simp only at hfold harith
  rw [harith, putValue_of hl hc (isPromoted_computationType opcode hl hr).1
    width_le_computationType] at hfold
  exact (agrees_iff_of_stored hfold (fits_conv hl _)).mpr (eval_expanded opcode.isCompare_op).symm

include hl hr ha hb hdefined in
theorem agrees_of_wrapping (hop : opcode.op.isShift = false)
    (hdiv : opcode.op ≠ .div ∧ opcode.op ≠ .rem) : Agrees opcode l r ρ := by
  have hc := isInteger_computationType opcode hl hr
  have hfits := fits_rexpr hl hr opcode ρ
  rw [rightType_of_arith hop] at hfits
  refine agrees_of_arith hl hr ha hb hdefined hop ?_
  intro c
  rw [arith_setSigned hdiv _ c.signed, arith_of_binRaw opcode.isCompare_op hop
    (fits_conv hc _) hfits rfl, ApsInt.setSigned_of]

include hl hr ha hb hdefined in
/-- A division in the sign of the computation type. -/
theorem agrees_of_same_sign (hop : opcode.op.isShift = false)
    (hsign : l.signed = true ∨ (opcode.computationType l r).signed = false) :
    Agrees opcode l r ρ := by
  have hc := isInteger_computationType opcode hl hr
  have hfits := fits_rexpr hl hr opcode ρ
  rw [rightType_of_arith hop] at hfits
  refine agrees_of_arith hl hr ha hb hdefined hop ?_
  intro c
  have hs : (l.signed && c.signed) = c.signed := by
    rcases hsign with h | h <;> simp [c, h]
  rw [hs, arith_of_binRaw opcode.isCompare_op hop (fits_conv hc _) hfits rfl]

include ha in
/-- An unsigned operand keeps its value in a signed computation. -/
theorem fits_of_unsigned (hs : l.signed = false)
    (hcs : (opcode.computationType l r).signed = true) :
    0 ≤ ρ .lhs ∧ ρ .lhs < 2 ^ ((opcode.computationType l r).width - 1) := by
  have hw := width_lt_computationType hs hcs
  rw [hs, fits_unsigned] at ha
  have hpow : (2 : Int) ^ l.width ≤ 2 ^ ((opcode.computationType l r).width - 1) :=
    pow_le_pow_right₀ (by omega) (by omega)
  exact ⟨ha.1, by omega⟩

include hl hr ha hb hdefined in
/-- An unsigned dividend and a divisor that is not negative are divided in either sign. -/
theorem agrees_of_nonneg (hop : opcode.op.isShift = false) (hs : l.signed = false)
    (hcs : (opcode.computationType l r).signed = true)
    (hnonneg : 0 ≤ (rexpr opcode l r).eval ρ) : Agrees opcode l r ρ := by
  have hc := isInteger_computationType opcode hl hr
  have hfits := fits_rexpr hl hr opcode ρ
  obtain ⟨ha0, halt⟩ := fits_of_unsigned ha hs hcs
  rw [rightType_of_arith hop, hcs, fits_signed] at hfits
  have hpow : (2 : Int) ^ ((opcode.computationType l r).width - 1) ≤
      2 ^ (opcode.computationType l r).width := pow_le_pow_right₀ (by omega) (by omega)
  refine agrees_of_arith hl hr ha hb hdefined hop ?_
  simp only
  have hca : (opcode.computationType l r).conv (ρ .lhs) = ρ .lhs := by
    apply conv_of_fits hc
    rw [hcs]
    exact fits_signed.mpr ⟨by omega, halt, hfits.2.2⟩
  rw [hca, hs, Bool.false_and]
  exact arith_of_binRaw opcode.isCompare_op hop (fits_unsigned.mpr (by omega))
    (fits_unsigned.mpr (by omega)) rfl

include hl hr ha hb hdefined in
/-- A negative divisor of an unsigned dividend is taken for a large number. -/
theorem agrees_of_negative_iff (hop : opcode.op = .div ∨ opcode.op = .rem)
    (hs : l.signed = false) (hcs : (opcode.computationType l r).signed = true)
    (hneg : (rexpr opcode l r).eval ρ < 0) :
    Agrees opcode l r ρ ↔ ρ .lhs < -(rexpr opcode l r).eval ρ := by
  have hshift : opcode.op.isShift = false := by rcases hop with h | h <;> rw [h] <;> rfl
  have hc := isInteger_computationType opcode hl hr
  have hfits := fits_rexpr hl hr opcode ρ
  obtain ⟨ha0, halt⟩ := fits_of_unsigned ha hs hcs
  have hfold := foldAssign_arith hl hr ha hb hdefined hshift
  have heval : (expanded opcode l r).eval ρ = _ := eval_expanded opcode.isCompare_op
  rw [rightType_of_arith hshift, hcs] at hfits
  generalize (rexpr opcode l r).eval ρ = b at hneg hfits hfold heval ⊢
  have hbfits := fits_signed.mp hfits
  have hsigned : ∀ x, 0 ≤ x → x ≤ ρ .lhs → (opcode.computationType l r).conv x = x ∧
      (opcode.computationType l r).conv (-x) = -x := by
    intro x hx hle
    constructor <;> refine conv_of_fits hc ?_ <;> rw [hcs] <;>
      exact fits_signed.mpr ⟨by omega, by omega, hbfits.2.2⟩
  have hpow : (2 : Int) ^ (opcode.computationType l r).width =
      2 ^ ((opcode.computationType l r).width - 1) +
        2 ^ ((opcode.computationType l r).width - 1) := by
    have := hbfits.2.2
    rw [← two_mul, ← pow_succ']
    congr 1
    omega
  simp only at hfold
  rw [(hsigned _ ha0 (le_refl _)).1, hs, Bool.false_and,
    arith_of_negative hop (fits_unsigned.mpr (by omega)) (by omega) hneg (by omega),
    putValue_of hl hc (isPromoted_computationType opcode hl hr).1 width_le_computationType] at hfold
  rw [agrees_iff_of_stored hfold (fits_conv hl _), heval, (hsigned _ ha0 (le_refl _)).1]
  obtain ⟨d, rfl⟩ : ∃ d, b = -d := ⟨-b, by omega⟩
  have hd : 0 < d := by omega
  rw [neg_neg]
  rcases hop with hop | hop
  · have hquot := Int.ediv_nonneg ha0 (Int.le_of_lt hd)
    rw [hop, if_pos rfl, (hsigned 0 (le_refl 0) ha0).1, conv_zero]
    simp only [binRaw]
    rw [Int.tdiv_neg, Int.tdiv_eq_ediv_of_nonneg ha0, (hsigned _ hquot (Int.ediv_le_self d ha0)).2,
      eq_comm, conv_neg_quotient_iff hs ha hd]
  · have hrem := Int.emod_nonneg (ρ .lhs) (Int.ne_of_gt hd)
    rw [hop, if_neg nofun, (hsigned _ ha0 (le_refl _)).1, conv_of_fits hl ha]
    simp only [binRaw]
    rw [Int.tmod_neg, Int.tmod_eq_emod_of_nonneg ha0,
      (hsigned _ hrem (emod_le_dividend ha0 hd)).1, eq_comm, conv_remainder_iff hl hs ha hd]

include hl hr ha hb hdefined in
theorem foldAssign_shift (hop : opcode.op.isShift = true) :
    foldAssign opcode l r ρ =
      if (rexpr opcode l r).eval ρ ≤ l.width then
        .ok (putValue l (ApsInt.of l.width l.signed
          (binRaw opcode.op (opcode.computationType l r) (ρ .lhs) ((rexpr opcode l r).eval ρ))))
      else .error .shiftAmount := by
  have hfits := fits_rexpr hl hr opcode ρ
  obtain ⟨hnonneg, hlt⟩ := (inRange_of_defined hdefined).2 hop
  have hwidth := (isInteger_computationType opcode hl hr).2.1
  rw [foldAssign_eq hl hr hb, parseCompoundAssignStmt_shift hop]
  by_cases hle : (rexpr opcode l r).eval ρ ≤ l.width
  · rw [if_pos hle, shiftBy_of hop ha hfits hnonneg hle (by omega)]
    rfl
  · have hrejected : ¬AcceptedShift l.width ((rexpr opcode l r).eval ρ) := by
      rintro ⟨-, -, hmod⟩
      omega
    rw [if_neg hle, shiftBy_rejected hfits hrejected]
    rfl

include hl hr ha in
theorem eval_shift (hop : opcode.op.isShift = true) :
    (expanded opcode l r).eval ρ =
      l.conv ((opcode.computationType l r).conv (binRaw opcode.op (opcode.computationType l r)
        (ρ .lhs) ((rexpr opcode l r).eval ρ))) := by
  have hc := isInteger_computationType opcode hl hr
  rw [eval_expanded opcode.isCompare_op]
  have hca : (opcode.computationType l r).conv (ρ .lhs) = ρ .lhs := by
    apply conv_of_fits hc
    simp only [AssignOp.computationType, hop, if_true]
    exact fits_promote ha
  rw [hca]

include hl hr ha hb hdefined in
theorem le_width_of_agrees (hop : opcode.op.isShift = true) (hagrees : Agrees opcode l r ρ) :
    (rexpr opcode l r).eval ρ ≤ l.width := by
  obtain ⟨val, hval, -⟩ := hagrees
  by_contra hle
  rw [foldAssign_shift hl hr ha hb hdefined hop, if_neg hle] at hval
  cases hval

include hl hr ha hb hdefined in
/-- A shift whose result the left operand can hold. -/
theorem agrees_of_fits (hop : opcode.op.isShift = true)
    (hle : (rexpr opcode l r).eval ρ ≤ l.width)
    (hv : Fits l.signed l.width (binRaw opcode.op (opcode.computationType l r) (ρ .lhs)
      ((rexpr opcode l r).eval ρ))) : Agrees opcode l r ρ := by
  have hfold := foldAssign_shift hl hr ha hb hdefined hop
  rw [if_pos hle, putValue_of_fits hl hv] at hfold
  rw [agrees_iff_of_stored hfold (fits_conv hl _), eval_shift hl hr ha hop]
  congr 1
  symm
  apply conv_of_fits (isInteger_computationType opcode hl hr)
  simp only [AssignOp.computationType, hop, if_true] at hv ⊢
  exact fits_promote hv

include hl hr ha hb hdefined in
theorem agrees_of_shl (hop : opcode = .shlAssign) (hle : (rexpr opcode l r).eval ρ ≤ l.width)
    (hbool : l.isBool = false) : Agrees opcode l r ρ := by
  subst hop
  have hfold := foldAssign_shift hl hr ha hb hdefined rfl
  rw [if_pos hle, putValue_of hl hl hbool (le_refl _)] at hfold
  rw [agrees_iff_of_stored hfold (fits_conv hl _), eval_shift hl hr ha rfl,
    conv_conv hbool hbool (le_refl _), conv_conv hbool (isPromoted_computationType _ hl hr).1
      width_le_computationType]

include hl hr ha hb hdefined in
/-- A `bool` that is set loses its bit in any shift to the left. -/
theorem agrees_bool_shl_iff (hop : opcode = .shlAssign)
    (hle : (rexpr opcode l r).eval ρ ≤ l.width) (hbool : l.isBool = true) :
    Agrees opcode l r ρ ↔ ρ .lhs = 0 ∨ (rexpr opcode l r).eval ρ = 0 := by
  subst hop
  have hnonneg := ((inRange_of_defined hdefined).2 rfl).1
  have htype := hl.2.2 hbool
  subst htype
  have hone := fits_unsigned.mp ha
  constructor
  · intro hagrees
    by_contra hnot
    have hlhs : ρ .lhs = 1 := by
      simp only [CType.bool] at hone
      omega
    have hrhs : (rexpr .shlAssign CType.bool r).eval ρ = 1 := by
      have hwidth : (CType.bool.width : Int) = 1 := rfl
      omega
    have hfold := foldAssign_shift hl hr ha hb hdefined rfl
    obtain ⟨val, hval, heq⟩ := hagrees
    rw [if_pos hle, hrhs, hlhs] at hfold
    rw [hfold] at hval
    cases hval
    have hint : AssignOp.computationType .shlAssign CType.bool r = ⟨32, true, false⟩ := rfl
    rw [eval_shift hl hr ha rfl, hrhs, hlhs, hint] at heq
    exact absurd heq (by decide)
  · intro hzero
    refine agrees_of_fits hl hr ha hb hdefined rfl hle ?_
    rcases hzero with hzero | hzero
    · rw [hzero]
      simp only [AssignOp.op, binRaw, zero_mul]
      decide
    · rw [hzero]
      simpa [AssignOp.op, binRaw] using ha

include hl hr ha hb hdefined in
theorem agrees_of_shr (hop : opcode = .shrAssign) (hle : (rexpr opcode l r).eval ρ ≤ l.width) :
    Agrees opcode l r ρ := by
  subst hop
  exact agrees_of_fits hl hr ha hb hdefined rfl hle (fits_shiftRight ha _)

end

/-- On all operands for which C++ defines the result, a compound assignment is folded to the
C++ value exactly on the operands it preserves. -/
theorem compound_assign_agrees_iff (opcode : AssignOp) {l r : CType} (hl : IsInteger l)
    (hr : IsInteger r) {ρ : Operand → Int} (ha : Fits l.signed l.width (ρ .lhs))
    (hb : Fits r.signed r.width (ρ .rhs)) (hdefined : (expanded opcode l r).Defined ρ) :
    Agrees opcode l r ρ ↔ Preserved opcode l r (ρ .lhs) ((opcode.rightType l r).conv (ρ .rhs)) := by
  have heval : (opcode.rightType l r).conv (ρ .rhs) = (rexpr opcode l r).eval ρ := rfl
  rw [heval]
  have hdivision (hop : opcode.op = .div ∨ opcode.op = .rem) : Agrees opcode l r ρ ↔
      (l.signed = false → (opcode.computationType l r).signed = true →
        (rexpr opcode l r).eval ρ < 0 → ρ .lhs < -(rexpr opcode l r).eval ρ) := by
    have hshift : opcode.op.isShift = false := by rcases hop with h | h <;> rw [h] <;> rfl
    by_cases hsign : l.signed = true ∨ (opcode.computationType l r).signed = false
    · refine iff_of_true (agrees_of_same_sign hl hr ha hb hdefined hshift hsign) ?_
      intro hs hcs
      rcases hsign with h | h <;> simp_all
    · simp only [not_or, Bool.not_eq_true, Bool.not_eq_false] at hsign
      obtain ⟨hs, hcs⟩ := hsign
      by_cases hneg : (rexpr opcode l r).eval ρ < 0
      · rw [agrees_of_negative_iff hl hr ha hb hdefined hop hs hcs hneg]
        exact ⟨fun h _ _ _ => h, fun h => h hs hcs hneg⟩
      · exact iff_of_true (agrees_of_nonneg hl hr ha hb hdefined hshift hs hcs (by omega))
          fun _ _ h => absurd h hneg
  cases hop : opcode with
  | divAssign =>
    subst hop
    exact hdivision (.inl rfl)
  | remAssign =>
    subst hop
    exact hdivision (.inr rfl)
  | shlAssign =>
    subst hop
    rw [Preserved]
    refine ⟨fun h => ?_, fun ⟨hle, hbool⟩ => ?_⟩
    · have hle := le_width_of_agrees hl hr ha hb hdefined rfl h
      exact ⟨hle, fun hbool => (agrees_bool_shl_iff hl hr ha hb hdefined rfl hle hbool).mp h⟩
    · cases hb' : l.isBool with
      | false => exact agrees_of_shl hl hr ha hb hdefined rfl hle hb'
      | true => exact (agrees_bool_shl_iff hl hr ha hb hdefined rfl hle hb').mpr (hbool hb')
  | shrAssign =>
    subst hop
    exact ⟨le_width_of_agrees hl hr ha hb hdefined rfl, agrees_of_shr hl hr ha hb hdefined rfl⟩
  | _ =>
    subst hop
    exact iff_of_true (agrees_of_wrapping hl hr ha hb hdefined rfl ⟨nofun, nofun⟩) trivial

def operands (lhs rhs : Int) : Operand → Int
  | .lhs => lhs
  | .rhs => rhs

/-- A `signed char` -7 is divided by an `unsigned` 2 as an `unsigned`. -/
theorem compound_assign_agrees_iff_unsigned :
    let schar : CType := ⟨8, true, false⟩
    let uint : CType := ⟨32, false, false⟩
    (expanded .divAssign schar uint).eval (operands (-7) 2) = -4 ∧
      Agrees .divAssign schar uint (operands (-7) 2) := by
  intro schar uint
  have hdefined : (expanded .divAssign schar uint).Defined (operands (-7) 2) := by
    refine ⟨⟨⟨⟨trivial, trivial⟩, trivial, trivial⟩, ⟨⟨trivial, trivial⟩, trivial, trivial⟩,
      ⟨fun _ => by decide, nofun⟩, nofun⟩, trivial, trivial⟩
  refine ⟨by decide, (compound_assign_agrees_iff .divAssign (l := schar) (r := uint) ?_ ?_ ?_ ?_
    hdefined).mpr nofun⟩
  · exact ⟨by decide, by decide, nofun⟩
  · exact ⟨by decide, by decide, nofun⟩
  · decide
  · decide

/-- An `unsigned char` 200 divided by -1 is folded to 0, and a `bool` that is set loses its
bit when it is shifted by 1. -/
theorem compound_assign_differs :
    let bool : CType := CType.bool
    let uchar : CType := ⟨8, false, false⟩
    let int : CType := ⟨32, true, false⟩
    (IsInteger uchar ∧ IsInteger int ∧ (expanded .divAssign uchar int).Defined (operands 200 (-1)) ∧
      (expanded .divAssign uchar int).eval (operands 200 (-1)) = 56 ∧
      (foldAssign .divAssign uchar int (operands 200 (-1))).map ApsInt.val = .ok 0) ∧
    IsInteger bool ∧ (expanded .shlAssign bool int).Defined (operands 1 1) ∧
      (expanded .shlAssign bool int).eval (operands 1 1) = 1 ∧
      (foldAssign .shlAssign bool int (operands 1 1)).map ApsInt.val = .ok 0 := by
  intro bool uchar int
  have hquotient : Fits true 32 (binRaw .div int (int.conv 200) (int.conv (-1))) := by decide
  refine ⟨⟨⟨by decide, by decide, nofun⟩, ⟨by decide, by decide, nofun⟩, ?_, by decide, by decide⟩,
    ⟨by decide, by decide, fun _ => rfl⟩, ?_, by decide, by decide⟩
  · exact ⟨⟨⟨⟨trivial, trivial⟩, trivial, trivial⟩, ⟨⟨trivial, trivial⟩, trivial, trivial⟩,
      ⟨fun _ => by decide, nofun⟩, fun _ => hquotient⟩, trivial, trivial⟩
  · exact ⟨⟨⟨⟨trivial, trivial⟩, trivial, trivial⟩, ⟨⟨trivial, trivial⟩, trivial, trivial⟩,
      ⟨nofun, fun _ => by decide⟩, fun _ => trivial⟩, trivial, trivial⟩

end SystemcCompiler.ConstFold
