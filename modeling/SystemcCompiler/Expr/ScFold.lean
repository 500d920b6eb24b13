import SystemcCompiler.Expr.ConstFold

/-! Folding of the operators of SystemC integers in `parseOperatorCall`, against the
unbounded numbers that `sc_bigint` and `sc_biguint` compute with. -/
namespace SystemcCompiler.ScFold
open Verilog ConstFold

/-- Operator calls on SC integers. `lwidth` and `rwidth` are the widths of the types of the
arguments, 0 where there is none: in a call with a built-in or another SC integer an
`sc_bigint` is passed as `sc_signed`. -/
inductive ScExpr where
  | leaf (val : ApsInt)
  /-- Construction of an SC integer. -/
  | cast (width : Nat) (signed : Bool) (e : ScExpr)
  | bin (op : BinOp) (lwidth rwidth : Nat) (l r : ScExpr)
  | neg (e : ScExpr)
  /-- With the width of its own type. -/
  | bnot (width : Nat) (e : ScExpr)

/-- The operation on unbounded numbers. -/
def unbounded (op : BinOp) (a b : Int) : Int :=
  match op with
  | .add => a + b
  | .sub => a - b
  | .mul => a * b
  | .div => a.tdiv b
  | .rem => a.tmod b
  | .shl => a * 2 ^ b.toNat
  | .shr => a / 2 ^ b.toNat
  | .and => Int.land a b
  | .or => Int.lor a b
  | .xor => Int.xor a b
  | op => (compare op a b).toNat

def activeBits (n : Nat) : Nat := if n = 0 then 0 else n.log2 + 1

/-- A positive value is counted without a sign bit, also of a signed integer. -/
def getBitsNeeded (val : ApsInt) : Nat :=
  if val.val = 0 then 1
  else if val.val < 0 then activeBits val.neg.bits.toNat + 1
  else activeBits val.bits.toNat

def operationWidth (op : BinOp) (width1 width2 shift : Nat) : Nat :=
  match op with
  | .add | .sub => max width1 width2 + 1
  | .mul => width1 + width2
  | .div | .rem | .shr => width1
  | .shl => width1 + shift
  | .and | .or | .xor => max width1 width2
  | .lt | .gt | .le | .ge | .eq | .ne => 1

/-- Extend values to the result width. -/
def extendBitWidthOO (val1 val2 : ApsInt) (width1 width2 : Nat) (op : BinOp) : ApsInt × ApsInt :=
  let width1 := if width1 = 0 then getBitsNeeded val1 else width1
  let width2 := if width2 = 0 then getBitsNeeded val2 else width2
  let width := operationWidth op width1 width2 (val2.val % 2 ^ 32).toNat
  (extendBitWidthBO val1 width, extendBitWidthBO val2 width)

/-- The operands as they are passed to the `APSInt` operators. -/
def operands (op : BinOp) (lwidth rwidth : Nat) (val1 val2 : ApsInt) : ApsInt × ApsInt :=
  let (val1, val2) := extendBitWidthOO val1 val2 lwidth rwidth op
  if op.isShift then (val1, val2) else adjustIntegers val1 val2 true

/-- Width and sign of the result of an operation. -/
def resultShape (op : BinOp) (lw rw : Nat) (val1 val2 : ApsInt) : Nat × Bool :=
  if op.isCompare then (1, false)
  else ((operands op lw rw val1 val2).1.width, (operands op lw rw val1 val2).1.signed)

/-- A negative shift is reported. -/
def parseOperatorCall (op : BinOp) (lwidth rwidth : Nat) (llval rrval : ApsInt) : Option ApsInt :=
  let (val1, val2) := operands op lwidth rwidth llval rrval
  match op with
  | .shl | .shr => if rrval.val < 0 then none else (shiftBy op val1 val2).toOption
  | .div | .rem => (divide op val1 val2).toOption
  | .add | .sub | .mul | .and | .or | .xor => some (val1.arith op val2)
  | .lt | .gt | .le | .ge | .eq | .ne => some (ApsInt.ofBool (val1.compare op val2))

namespace ScExpr

/-- The integer of an expression, if there is one. -/
def fold : ScExpr → Option ApsInt
  | .leaf val => some val
  | .cast width signed e => e.fold.map fun val => (val.extOrTrunc width).setSigned signed
  | .bin op lwidth rwidth l r => do
    let llval ← l.fold
    let rrval ← r.fold
    parseOperatorCall op lwidth rwidth llval rrval
  -- the result of a minus is signed
  | .neg e => e.fold.map fun val => (val.setSigned true).neg
  -- without a type width there is no value
  | .bnot width e => if width = 0 then none else e.fold.map fun val => (val.extOrTrunc width).not

/-- Value in SystemC. -/
def eval : ScExpr → Int
  | .leaf val => val.val
  | .cast width signed e => valueOf signed (BitVec.ofInt width e.eval)
  | .bin op _ _ l r => unbounded op l.eval r.eval
  | .neg e => -e.eval
  | .bnot _ e => -e.eval - 1

/-- Integers have bits. -/
def WellFormed : ScExpr → Prop
  | .leaf val => 0 < val.width
  | .cast width _ e => 0 < width ∧ e.WellFormed
  | .bin _ _ _ l r => l.WellFormed ∧ r.WellFormed
  | .neg e | .bnot _ e => e.WellFormed

/-- SystemC defines the value: no divisor is zero, and shift amounts are those of an `int`. -/
def Defined : ScExpr → Prop
  | .leaf _ => True
  | .cast _ _ e | .neg e | .bnot _ e => e.Defined
  | .bin op _ _ l r => l.Defined ∧ r.Defined ∧ ((op = .div ∨ op = .rem) → r.eval ≠ 0) ∧
    (op.isShift = true → 0 ≤ r.eval ∧ r.eval < 2 ^ 31)

/-- Width and sign that the folding carries for a value. -/
def carried : ScExpr → Nat × Bool
  | .leaf val => (val.width, val.signed)
  | .cast width signed _ => (width, signed)
  | .bin op lwidth rwidth l r =>
    resultShape op lwidth rwidth (ApsInt.of l.carried.1 l.carried.2 l.eval)
      (ApsInt.of r.carried.1 r.carried.2 r.eval)
  | .neg e => (e.carried.1, true)
  | .bnot width e => (width, e.carried.2)

/-- There is an integer: no value is shifted right by more than its width, and a `~` has a
type with a width. -/
def Folds : ScExpr → Prop
  | .leaf _ => True
  | .cast _ _ e | .neg e => e.Folds
  | .bnot width e => width ≠ 0 ∧ e.Folds
  | .bin op lwidth rwidth l r => l.Folds ∧ r.Folds ∧
    (op = .shr → r.eval ≤ (ScExpr.bin op lwidth rwidth l r).carried.1)

/-- The expression and all its operands. -/
def Everywhere (p : ScExpr → Prop) : ScExpr → Prop
  | .leaf val => p (.leaf val)
  | .cast w s e => e.Everywhere p ∧ p (.cast w s e)
  | .bin op lw rw l r => l.Everywhere p ∧ r.Everywhere p ∧ p (.bin op lw rw l r)
  | .neg e => e.Everywhere p ∧ p (.neg e)
  | .bnot w e => e.Everywhere p ∧ p (.bnot w e)

/-- The integer is the value that SystemC defines. -/
def Agrees (e : ScExpr) : Prop :=
  e.Defined → ∀ val, e.fold = some val → val.val = e.eval

/-- The value fits the width and the sign that are carried for it. -/
def Kept (e : ScExpr) : Prop :=
  e.Defined → e.Folds → Fits e.carried.2 e.carried.1 e.eval

end ScExpr

section
variable {w1 w2 : Nat} {s1 s2 : Bool} {v1 v2 : Int}

theorem extendBitWidthBO_max (h : Fits s1 w1 v1) (k : Nat) :
    extendBitWidthBO (ApsInt.of w1 s1 v1) k = ApsInt.of (max w1 k) s1 v1 := by
  rw [extendBitWidthBO, ApsInt.of_width]
  split
  · rw [ApsInt.extOrTrunc_of h, Nat.max_eq_right (by omega)]
  · rw [Nat.max_eq_left (by omega)]

/-- Integers of one sign get the larger width. -/
theorem maxWidth_of (h1 : Fits s1 w1 v1) (h2 : Fits s1 w2 v2) :
    maxWidth (ApsInt.of w1 s1 v1) (ApsInt.of w2 s1 v2) =
      (ApsInt.of (max w1 w2) s1 v1, ApsInt.of (max w1 w2) s1 v2) := by
  simp only [maxWidth, ApsInt.of_width, ApsInt.extOrTrunc_of h1, ApsInt.extOrTrunc_of h2]
  split
  · rw [Nat.max_eq_left (by omega)]
  · split
    · rw [Nat.max_eq_right (by omega)]
    · rw [Nat.max_eq_left (by omega), show w2 = w1 by omega]

/-- Operands of mixed sign are both signed afterwards, and none loses its value. -/
theorem adjustIntegers_promoted (h1 : Fits s1 w1 v1) (h2 : Fits s2 w2 v2) :
    ∃ w, max w1 w2 ≤ w ∧ Fits (s1 || s2) w v1 ∧ Fits (s1 || s2) w v2 ∧
      adjustIntegers (ApsInt.of w1 s1 v1) (ApsInt.of w2 s2 v2) true =
        (ApsInt.of w (s1 || s2) v1, ApsInt.of w (s1 || s2) v2) := by
  cases s1 <;> cases s2
  · refine ⟨max w1 w2, le_refl _, h1.mono (by omega), h2.mono (by omega), ?_⟩
    simp [adjustIntegers, maxWidth_of h1 h2]
  · have hs := h1.signed_succ
    refine ⟨max (w1 + 1) w2, by omega, hs.mono (by omega), h2.mono (by omega), ?_⟩
    have hext := ApsInt.extOrTrunc_of h1 (w1 + 1)
    simp [adjustIntegers, hext, maxWidth_of hs h2]
  · have hs := h2.signed_succ
    refine ⟨max w1 (w2 + 1), by omega, h1.mono (by omega), hs.mono (by omega), ?_⟩
    have hext := ApsInt.extOrTrunc_of h2 (w2 + 1)
    simp [adjustIntegers, hext, maxWidth_of h1 hs]
  · refine ⟨max w1 w2, le_refl _, h1.mono (by omega), h2.mono (by omega), ?_⟩
    simp [adjustIntegers, maxWidth_of h1 h2]

/-- The operands of an operation other than a shift keep their values. -/
theorem operands_of {op : BinOp} (hop : op.isShift = false) (lw rw : Nat)
    (h1 : Fits s1 w1 v1) (h2 : Fits s2 w2 v2) :
    ∃ w, w1 ≤ w ∧ Fits (s1 || s2) w v1 ∧ Fits (s1 || s2) w v2 ∧
      operands op lw rw (ApsInt.of w1 s1 v1) (ApsInt.of w2 s2 v2) =
        (ApsInt.of w (s1 || s2) v1, ApsInt.of w (s1 || s2) v2) := by
  simp only [operands, extendBitWidthOO, hop, Bool.false_eq_true, if_false,
    extendBitWidthBO_max h1, extendBitWidthBO_max h2]
  obtain ⟨w, hw, hf1, hf2, heq⟩ := adjustIntegers_promoted
    (h1.mono (Nat.le_max_left w1 _)) (h2.mono (Nat.le_max_left w2 _))
  exact ⟨w, by omega, hf1, hf2, heq⟩

/-- The operands of a shift keep their values, and a left shift has room. -/
theorem operands_shift {op : BinOp} (hop : op.isShift = true) (lw rw : Nat)
    (h1 : Fits s1 w1 v1) (h2 : Fits s2 w2 v2) :
    ∃ w w', w1 ≤ w ∧ (op = .shl → (v2 % 2 ^ 32).toNat ≤ w) ∧ Fits s1 w v1 ∧ Fits s2 w' v2 ∧
      operands op lw rw (ApsInt.of w1 s1 v1) (ApsInt.of w2 s2 v2) =
        (ApsInt.of w s1 v1, ApsInt.of w' s2 v2) := by
  simp only [operands, extendBitWidthOO, hop, if_true, extendBitWidthBO_max h1,
    extendBitWidthBO_max h2, ApsInt.val_of h2]
  refine ⟨_, _, Nat.le_max_left _ _, ?_, h1.mono (Nat.le_max_left _ _),
    h2.mono (Nat.le_max_left _ _), rfl⟩
  rintro rfl
  simp only [operationWidth]
  omega

/-- The operators give the bits of the unbounded operation. -/
theorem arith_of_unbounded {op : BinOp} (hc : op.isCompare = false) (hs : op.isShift = false)
    {w : Nat} {s : Bool} (h1 : Fits s w v1) (h2 : Fits s w v2) :
    (ApsInt.of w s v1).arith op (ApsInt.of w s v2) = ApsInt.of w s (unbounded op v1 v2) := by
  rw [ApsInt.arith_of]
  refine congrArg (ApsInt.mk w s) ?_
  cases op with
  | add => exact (BitVec.ofInt_add v1 v2).symm
  | sub => exact (ofInt_sub v1 v2).symm
  | mul => exact (BitVec.ofInt_mul v1 v2).symm
  | div => exact arith_div h1 h2
  | rem => exact arith_rem h1 h2
  | and => exact (ofInt_land v1 v2).symm
  | or => exact (ofInt_lor v1 v2).symm
  | xor => exact (ofInt_xor v1 v2).symm
  | _ => simp [BinOp.isCompare, BinOp.isShift] at hc hs

theorem parseOperatorCall_compare {op : BinOp} (hc : op.isCompare = true) (lw rw : Nat)
    (h1 : Fits s1 w1 v1) (h2 : Fits s2 w2 v2) :
    parseOperatorCall op lw rw (ApsInt.of w1 s1 v1) (ApsInt.of w2 s2 v2) =
      some (ApsInt.of 1 false (unbounded op v1 v2)) := by
  have hs : op.isShift = false := by cases op <;> first | rfl | cases hc
  obtain ⟨w, -, hf1, hf2, heq⟩ := operands_of hs lw rw h1 h2
  cases op <;> simp [BinOp.isCompare] at hc <;>
    simp only [parseOperatorCall, heq, ApsInt.compare_of _ hf1 hf2] <;> rfl

theorem parseOperatorCall_arith {op : BinOp} (hc : op.isCompare = false) (hs : op.isShift = false)
    (lw rw : Nat) (h1 : Fits s1 w1 v1) (h2 : Fits s2 w2 v2)
    (hdiv : (op = .div ∨ op = .rem) → v2 ≠ 0) :
    ∃ w, w1 ≤ w ∧ resultShape op lw rw (ApsInt.of w1 s1 v1) (ApsInt.of w2 s2 v2) =
        (w, s1 || s2) ∧
      parseOperatorCall op lw rw (ApsInt.of w1 s1 v1) (ApsInt.of w2 s2 v2) =
        some (ApsInt.of w (s1 || s2) (unbounded op v1 v2)) := by
  obtain ⟨w, hw, hf1, hf2, heq⟩ := operands_of hs lw rw h1 h2
  refine ⟨w, hw, by simp [resultShape, hc, heq], ?_⟩
  rw [← arith_of_unbounded hc hs hf1 hf2]
  cases op <;> simp [BinOp.isCompare, BinOp.isShift] at hc hs hdiv <;>
    simp [parseOperatorCall, heq, divide_of hf2, hdiv, Except.toOption]

theorem parseOperatorCall_shift {op : BinOp} (hs : op.isShift = true)
    (lw rw : Nat) (h1 : Fits s1 w1 v1) (h2 : Fits s2 w2 v2)
    (hamount : 0 ≤ v2 ∧ v2 < 2 ^ 31) :
    ∃ w, w1 ≤ w ∧ resultShape op lw rw (ApsInt.of w1 s1 v1) (ApsInt.of w2 s2 v2) =
        (w, s1) ∧
      parseOperatorCall op lw rw (ApsInt.of w1 s1 v1) (ApsInt.of w2 s2 v2) =
        if op = .shr ∧ w < v2 then none else some (ApsInt.of w s1 (unbounded op v1 v2)) := by
  obtain ⟨w, w', hw, hroom, hf1, hf2, heq⟩ := operands_shift hs lw rw h1 h2
  have hc : op.isCompare = false := by cases op <;> first | rfl | cases hs
  refine ⟨w, hw, by simp [resultShape, hc, heq], ?_⟩
  have hcall : parseOperatorCall op lw rw (ApsInt.of w1 s1 v1) (ApsInt.of w2 s2 v2) =
      (shiftBy op (ApsInt.of w s1 v1) (ApsInt.of w' s2 v2)).toOption := by
    have hnot : ¬(ApsInt.of w2 s2 v2).val < 0 := by
      rw [ApsInt.val_of h2]
      omega
    cases op <;> simp [BinOp.isShift] at hs <;> simp only [parseOperatorCall, heq, if_neg hnot]
  have hmod : v2 % 2 ^ 32 = v2 := Int.emod_eq_of_lt hamount.1 (by omega)
  rw [hcall]
  by_cases hle : v2 ≤ w
  · rw [if_neg (by omega), shiftBy_of hs hf1 hf2 hamount.1 hle (by omega) Terms.CType.bool]
    cases op <;> simp [BinOp.isShift] at hs <;> rfl
  · have hshr : op = .shr := by
      cases op <;> simp [BinOp.isShift] at hs
      · have := hroom rfl
        omega
      · rfl
    rw [if_pos ⟨hshr, by omega⟩, shiftBy_rejected hf2 (fun h => hle (hmod ▸ h.2.2))]
    rfl

end

namespace ScExpr
variable {e : ScExpr}

/-- All operands, but not the expression itself. -/
def Below (p : ScExpr → Prop) : ScExpr → Prop
  | .leaf _ => True
  | .cast _ _ e | .neg e | .bnot _ e => e.Everywhere p
  | .bin _ _ _ l r => l.Everywhere p ∧ r.Everywhere p

theorem everywhere_iff {p : ScExpr → Prop} : e.Everywhere p ↔ e.Below p ∧ p e := by
  cases e <;> simp [Everywhere, Below, and_assoc]

/-- The integer of an expression whose operands are kept, in the carried shape. -/
structure Folded (e : ScExpr) : Prop where
  pos : e.Folds → 0 < e.carried.1
  some : e.Folds → e.fold = some (ApsInt.of e.carried.1 e.carried.2 e.eval)
  none : ¬e.Folds → e.fold = none

theorem folded_bin {op : BinOp} {lw rw : Nat} {l r : ScExpr} (hl : l.Folded) (hr : r.Folded)
    (hkl : l.Kept) (hkr : r.Kept) (hdef : (ScExpr.bin op lw rw l r).Defined) :
    (ScExpr.bin op lw rw l r).Folded := by
  obtain ⟨hdl, hdr, hdiv, hamount⟩ := hdef
  by_cases hfolds : l.Folds ∧ r.Folds
  · obtain ⟨hfl, hfr⟩ := hfolds
    have hfits := hkl hdl hfl
    have hfits' := hkr hdr hfr
    have hfold : (ScExpr.bin op lw rw l r).fold =
        parseOperatorCall op lw rw (ApsInt.of l.carried.1 l.carried.2 l.eval)
          (ApsInt.of r.carried.1 r.carried.2 r.eval) := by
      rw [fold, hl.some hfl, hr.some hfr]
      rfl
    have hpos := hl.pos hfl
    cases hs : op.isShift with
    | true =>
      obtain ⟨w, hw, hshape, hcall⟩ := parseOperatorCall_shift hs lw rw hfits hfits' (hamount hs)
      have hcarried : (ScExpr.bin op lw rw l r).carried = (w, l.carried.2) := hshape
      refine ⟨fun _ => by rw [hcarried]; omega, fun h => ?_, fun h => ?_⟩
      · have hle := h.2.2
        rw [hcarried] at hle
        rw [hfold, hcall, if_neg (fun hn => absurd (hle hn.1) (by omega)), hcarried]
        rfl
      · have hnot : op = .shr ∧ w < r.eval := by
          by_contra hcontra
          refine h ⟨hfl, hfr, fun hshr => ?_⟩
          rw [hcarried]
          exact not_lt.mp fun hlt => hcontra ⟨hshr, hlt⟩
        rw [hfold, hcall, if_pos hnot]
    | false =>
      have hshr : op ≠ .shr := by
        rintro rfl
        cases hs
      have hnot : ¬¬(ScExpr.bin op lw rw l r).Folds := fun h => h ⟨hfl, hfr, (absurd · hshr)⟩
      cases hc : op.isCompare with
      | true =>
        have hcarried : (ScExpr.bin op lw rw l r).carried = (1, false) := by
          simp [carried, resultShape, hc]
        refine ⟨fun _ => by simp [hcarried], fun _ => ?_, (absurd · hnot)⟩
        rw [hfold, parseOperatorCall_compare hc lw rw hfits hfits', hcarried]
        rfl
      | false =>
        obtain ⟨w, hw, hshape, hcall⟩ :=
          parseOperatorCall_arith hc hs lw rw hfits hfits' hdiv
        have hcarried : (ScExpr.bin op lw rw l r).carried = (w, l.carried.2 || r.carried.2) :=
          hshape
        refine ⟨fun _ => by rw [hcarried]; omega, fun _ => ?_, (absurd · hnot)⟩
        rw [hfold, hcall, hcarried]
        rfl
  · have hnone : (ScExpr.bin op lw rw l r).fold = none := by
      rw [fold]
      by_cases hfl : l.Folds
      · rw [hl.some hfl, hr.none fun hfr => hfolds ⟨hfl, hfr⟩]
        rfl
      · rw [hl.none hfl]
        rfl
    have hnot : ¬(ScExpr.bin op lw rw l r).Folds := fun h => hfolds ⟨h.1, h.2.1⟩
    exact ⟨(absurd · hnot), (absurd · hnot), fun _ => hnone⟩

theorem folded_of_below (hwf : e.WellFormed) (hkept : e.Below Kept) (hdef : e.Defined) :
    e.Folded := by
  induction e with
  | leaf val =>
    refine ⟨fun _ => hwf, fun _ => ?_, (absurd trivial ·)⟩
    rw [fold, carried, eval, ApsInt.val, ApsInt.of_valueOf]
  | cast w s e ih =>
    obtain ⟨hbelow, hself⟩ := everywhere_iff.mp hkept
    have hfolded := ih hwf.2 hbelow hdef
    refine ⟨fun _ => hwf.1, fun h => ?_, fun h => ?_⟩
    · rw [fold, hfolded.some h]
      simp only [Option.map_some, ApsInt.extOrTrunc_of (hself hdef h), ApsInt.setSigned_of, carried,
        eval, ApsInt.of_valueOf]
      rfl
    · rw [fold, hfolded.none h]
      rfl
  | bin op lw rw l r ihl ihr =>
    obtain ⟨hbl, hkl⟩ := everywhere_iff.mp hkept.1
    obtain ⟨hbr, hkr⟩ := everywhere_iff.mp hkept.2
    exact folded_bin (ihl hwf.1 hbl hdef.1) (ihr hwf.2 hbr hdef.2.1) hkl hkr hdef
  | neg e ih =>
    obtain ⟨hbelow, hself⟩ := everywhere_iff.mp hkept
    have hfolded := ih hwf hbelow hdef
    refine ⟨hfolded.pos, fun h => ?_, fun h => ?_⟩
    · rw [fold, hfolded.some h]
      simp only [Option.map_some, ApsInt.setSigned_of, ApsInt.neg_of, carried, eval]
    · rw [fold, hfolded.none h]
      rfl
  | bnot w e ih =>
    obtain ⟨hbelow, hself⟩ := everywhere_iff.mp hkept
    have hfolded := ih hwf hbelow hdef
    refine ⟨fun h => Nat.pos_of_ne_zero h.1, fun h => ?_, fun h => ?_⟩
    · rw [fold, if_neg h.1, hfolded.some h.2]
      simp only [Option.map_some, ApsInt.extOrTrunc_of (hself hdef h.2), ApsInt.not_of, carried,
        eval]
    · rw [fold]
      split
      · rfl
      · rename_i hw
        rw [hfolded.none fun hf => h ⟨hw, hf⟩]
        rfl

theorem agrees_iff_kept (hwf : e.WellFormed) (hkept : e.Below Kept) : e.Agrees ↔ e.Kept := by
  constructor
  · intro h hdef hfolds
    have hfolded := folded_of_below hwf hkept hdef
    have hval := h hdef _ (hfolded.some hfolds)
    have hfits := fits_valueOf e.carried.2 (BitVec.ofInt e.carried.1 e.eval) (hfolded.pos hfolds)
    rwa [show valueOf e.carried.2 (BitVec.ofInt e.carried.1 e.eval) = e.eval from hval] at hfits
  · intro h hdef val hval
    have hfolded := folded_of_below hwf hkept hdef
    by_cases hfolds : e.Folds
    · rw [hfolded.some hfolds] at hval
      cases hval
      exact ApsInt.val_of (h hdef hfolds)
    · rw [hfolded.none hfolds] at hval
      cases hval

end ScExpr
end SystemcCompiler.ScFold
