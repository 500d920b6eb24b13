import SystemcCompiler.Library.ApsInt

/-! Folded concatenations: the value of both operands side by side, ranges selected from it,
and the value it has in a wider variable. -/
namespace SystemcCompiler.Concat
open Verilog

/-- What an argument of `concat` may be. Variables have the value found in the state, which
may be wider or narrower than their type. -/
inductive SValue where
  | unknown
  | zeroWidth
  | variable (width : Nat) (isUnsigned : Bool) (hwidth : 0 < width) (value : Option ApsInt)
  | integer (int : ApsInt) (radix : Nat) (hwidth : 0 < int.width)

structure Info where
  width : Nat
  isUnsigned : Bool
  int : ApsInt

/-- An integer `SValue`. -/
structure IntValue where
  int : ApsInt
  radix : Nat
  deriving DecidableEq

def getIntValueInfo : SValue → Option Info
  | .zeroWidth => some ⟨0, true, .of 1 false 0⟩
  | .variable width isUnsigned _ (some int) => some ⟨width, isUnsigned, int⟩
  | .integer int _ _ => some ⟨int.width, !int.signed, int⟩
  | _ => none

def SValue.getRadix : SValue → Nat
  | .integer _ radix _ => radix
  | _ => 10

def getConcatVal (fval sval : SValue) : Option IntValue := do
  let f ← getIntValueInfo fval
  let s ← getIntValueInfo sval
  let resWidth := f.width + s.width
  let resUnsign := f.isUnsigned && s.isUnsigned
  let fInt := if f.width ≠ 0 then f.int.extOrTrunc f.width else f.int
  let sInt := if s.width ≠ 0 then s.int.extOrTrunc s.width else s.int
  if resWidth = 0 then some ⟨.of 32 false 0, 10⟩
  else
    let resInt := ApsInt.of resWidth (!resUnsign) 0
    let resInt := if s.width ≠ 0 then resInt.insertBits sInt 0 else resInt
    let resInt := if f.width ≠ 0 then resInt.insertBits fInt s.width else resInt
    let radix := if f.width ≠ 0 then fval.getRadix else if s.width ≠ 0 then sval.getRadix else 10
    some ⟨resInt, radix⟩

/-- `none` where the range is reported as an error. -/
def evalRangeSelect (val : IntValue) (hi lo : ApsInt) : Option IntValue :=
  let hiIndx := hi.getExtValue
  let loIndx := lo.getExtValue
  if hiIndx < loIndx ∨ hiIndx < 0 ∨ loIndx < 0 then none
  else if val.int.width ≤ hiIndx then none
  else some ⟨val.int.extractBits (hiIndx - loIndx + 1).toNat loIndx.toNat, val.radix⟩

/-- The type of a variable that an integer is put to. -/
inductive LType where
  | auto
  | bool
  | int (width : Nat) (isUnsigned : Bool)

/-- The cast in `ScState::putValue`. -/
def putValue (type : LType) (rval : IntValue) : IntValue :=
  match type with
  | .auto => rval
  | .bool => ⟨.ofBool rval.int.getBoolValue, 10⟩
  | .int width isUnsigned =>
    ⟨(rval.int.extOrTrunc width).setSigned !isUnsigned, rval.radix⟩

/-- The bits of an operand, in the width of its type. -/
def Info.bits (i : Info) : BitVec i.width := BitVec.ofInt i.width i.int.val

/-- The operand without sign. -/
def Info.nat (i : Info) : Nat := (i.int.val % 2 ^ i.width).toNat

/-- SystemC's concatenation. -/
def concat (f s : Info) : Nat := f.nat * 2 ^ s.width + s.nat

/-- A number without bits is a zero of 32 bits. -/
def valueWidth (width : Nat) : Nat := if width = 0 then 32 else width

/-- Folding agrees with SystemC: on the value, on the parts selected from it, and on the
value of a wider variable that it is assigned to. -/
structure Folds (fval sval : SValue) (f s : Info) (val : IntValue) : Prop where
  folded : getConcatVal fval sval = some val
  width : val.int.width = valueWidth (f.width + s.width)
  value : val.int.val = concat f s
  low : 0 < s.width → ∀ hi lo, hi.getExtValue = (s.width : Int) - 1 → lo.getExtValue = 0 →
    ∃ part, evalRangeSelect val hi lo = some part ∧ part.int.val = s.nat
  high : 0 < f.width → ∀ hi lo, hi.getExtValue = (f.width : Int) + s.width - 1 →
    lo.getExtValue = (s.width : Int) →
      ∃ part, evalRangeSelect val hi lo = some part ∧ part.int.val = f.nat
  extended : ∀ width isUnsigned, f.width + s.width < width →
    (putValue (.int width isUnsigned) val).int.val = concat f s

variable {f s : Info} {fval sval : SValue}

theorem toNat_bits (i : Info) : i.bits.toNat = i.nat := by
  unfold Info.bits Info.nat
  rw [BitVec.toNat_ofInt]
  norm_cast

theorem nat_lt (i : Info) : i.nat < 2 ^ i.width := toNat_bits i ▸ i.bits.isLt

theorem concat_eq (f s : Info) : concat f s = (f.bits ++ s.bits).toNat := by
  rw [ApsInt.toNat_append, toNat_bits, toNat_bits]
  rfl

theorem concat_lt (f s : Info) : concat f s < 2 ^ (f.width + s.width) :=
  concat_eq f s ▸ (f.bits ++ s.bits).isLt

/-- An operand of width zero counts as unsigned. -/
theorem isUnsigned_of_zero (h : getIntValueInfo fval = some f) (hw : f.width = 0) :
    f.isUnsigned = true := by
  cases fval with
  | unknown => cases h
  | zeroWidth =>
    obtain rfl := Option.some.inj h
    rfl
  | «variable» width isUnsigned hwidth value =>
    cases value with
    | none => cases h
    | some int =>
      obtain rfl := Option.some.inj h
      exact absurd hw (Nat.ne_of_gt hwidth)
  | integer int radix hwidth =>
    obtain rfl := Option.some.inj h
    exact absurd hw (Nat.ne_of_gt hwidth)

theorem getConcatVal_eq (hf : getIntValueInfo fval = some f) (hs : getIntValueInfo sval = some s)
    (hw : f.width + s.width ≠ 0) :
    ∃ radix, getConcatVal fval sval = some
      ⟨⟨f.width + s.width, !(f.isUnsigned && s.isUnsigned), f.bits ++ s.bits⟩, radix⟩ := by
  have hinsert : ∀ (i : Info) (x : ApsInt) (pos : Nat), (if i.width ≠ 0 then
      x.insertBits (if i.width ≠ 0 then i.int.extOrTrunc i.width else i.int) pos else x) =
      x.insertBits ⟨i.width, i.int.signed, i.bits⟩ pos := by
    intro i x pos
    by_cases h : i.width = 0
    · rw [if_neg (not_not_intro h), ApsInt.insertBits_empty _ h]
    · rw [if_pos h, if_pos h]
      rfl
  unfold getConcatVal
  rw [hf, hs]
  simp only [Option.bind_eq_bind, Option.bind_some]
  rw [if_neg hw, hinsert, hinsert]
  have hzero : ApsInt.of (f.width + s.width) (!(f.isUnsigned && s.isUnsigned)) 0 =
      ⟨f.width + s.width, !(f.isUnsigned && s.isUnsigned), 0#(f.width + s.width)⟩ :=
    congrArg (ApsInt.mk _ _) (BitVec.ofInt_natCast _ 0)
  rw [hzero, ApsInt.insertBits_append]
  exact ⟨_, rfl⟩

/-- A range of the concatenation. -/
theorem evalRangeSelect_eq {val : IntValue} {hi lo : ApsInt} (n pos : Nat) (hn : 0 < n)
    (hhi : hi.getExtValue = (n : Int) + pos - 1) (hlo : lo.getExtValue = (pos : Int))
    (hval : n + pos ≤ val.int.width) :
    evalRangeSelect val hi lo = some ⟨val.int.extractBits n pos, val.radix⟩ := by
  unfold evalRangeSelect
  dsimp only
  rw [hhi, hlo, if_neg (by omega), if_neg (by omega)]
  congr 3
  all_goals omega

/-- A number with sign has the value of its bits if the top one is not set. -/
theorem toInt_eq_toNat_iff {w : Nat} (x : BitVec w) :
    x.toInt = x.toNat ↔ x.toNat < 2 ^ (w - 1) := by
  rw [BitVec.toInt_eq_toNat_cond]
  cases w with
  | zero => simp [BitVec.eq_nil x]
  | succ w =>
    have hpos : 0 < 2 ^ w := by positivity
    rw [Nat.add_sub_cancel, Nat.pow_succ]
    split
    all_goals omega

/-- The value of the bits with the sign that `getConcatVal` gives them. -/
theorem val_concat_iff (f s : Info) (isUnsigned : Bool) :
    (⟨f.width + s.width, !isUnsigned, f.bits ++ s.bits⟩ : ApsInt).val = concat f s ↔
      isUnsigned = true ∨ concat f s < 2 ^ (f.width + s.width - 1) := by
  cases isUnsigned with
  | true => simp [ApsInt.val, valueOf, concat_eq]
  | false =>
    rw [concat_eq, ← toInt_eq_toNat_iff]
    simp [ApsInt.val, valueOf]

/-- A folded value that is right stays so in a wider variable. -/
theorem putValue_extended {val : IntValue} {w n : Nat} (hval : val.int.val = n) (hn : n < 2 ^ w)
    {width : Nat} (isUnsigned : Bool) (hw : w < width) :
    (putValue (.int width isUnsigned) val).int.val = n := by
  unfold putValue ApsInt.extOrTrunc
  dsimp only
  rw [hval, ApsInt.setSigned_of]
  exact ApsInt.val_of (fits_natCast _ hn hw)

theorem nat_of_zero {i : Info} (h : i.width = 0) : i.nat = 0 := by
  have hlt := nat_lt i
  rw [h] at hlt
  exact Nat.lt_one_iff.mp hlt

theorem getConcatVal_zero (hf : getIntValueInfo fval = some f)
    (hs : getIntValueInfo sval = some s) (hw : f.width + s.width = 0) :
    Folds fval sval f s ⟨.of 32 false 0, 10⟩ := by
  have hf0 : f.width = 0 := by omega
  have hs0 : s.width = 0 := by omega
  have hconcat : concat f s = 0 := by
    rw [concat, nat_of_zero hf0, nat_of_zero hs0, Nat.zero_mul]
  have hval : (ApsInt.of 32 false 0).val = concat f s := by
    rw [hconcat]
    decide
  exact {
    folded := by
      unfold getConcatVal
      rw [hf, hs]
      exact if_pos hw
    width := by
      rw [hw]
      rfl
    value := hval
    low := fun h => absurd hs0 (Nat.ne_of_gt h)
    high := fun h => absurd hf0 (Nat.ne_of_gt h)
    extended := fun _ isUnsigned => putValue_extended hval (concat_lt f s) isUnsigned }

theorem folds_of_val (hf : getIntValueInfo fval = some f) (hs : getIntValueInfo sval = some s)
    (hval : (f.isUnsigned && s.isUnsigned) = true ∨
      concat f s < 2 ^ (f.width + s.width - 1)) :
    ∃ val, Folds fval sval f s val := by
  by_cases hw : f.width + s.width = 0
  · exact ⟨_, getConcatVal_zero hf hs hw⟩
  · obtain ⟨radix, hfold⟩ := getConcatVal_eq hf hs hw
    have hvalue := (val_concat_iff f s (f.isUnsigned && s.isUnsigned)).mpr hval
    exact ⟨_, {
      folded := hfold
      width := (if_neg hw).symm
      value := hvalue
      low := by
        intro hpos hi lo hhi hlo
        refine ⟨_, evalRangeSelect_eq s.width 0 hpos (by omega) hlo
          (Nat.le_add_left _ _), ?_⟩
        rw [← toNat_bits s]
        exact congrArg (fun x : BitVec s.width => (x.toNat : Int))
          BitVec.extractLsb'_append_eq_right
      high := by
        intro hpos hi lo hhi hlo
        refine ⟨_, evalRangeSelect_eq f.width s.width hpos hhi hlo
          (Nat.le_refl _), ?_⟩
        rw [← toNat_bits f]
        exact congrArg (fun x : BitVec f.width => (x.toNat : Int))
          BitVec.extractLsb'_append_eq_left
      extended := fun _ isUnsigned => putValue_extended hvalue (concat_lt f s) isUnsigned }⟩

/-- Folding agrees with SystemC exactly if both operands are unsigned or the top bit of their
concatenation is not set. -/
theorem folds_iff (fval sval : SValue) (f s : Info) (hf : getIntValueInfo fval = some f)
    (hs : getIntValueInfo sval = some s) :
    (∃ val, Folds fval sval f s val) ↔
      (f.isUnsigned && s.isUnsigned) = true ∨
        concat f s < 2 ^ (f.width + s.width - 1) := by
  apply Iff.intro
  · rintro ⟨val, h⟩
    by_cases hw : f.width + s.width = 0
    · have hfu := isUnsigned_of_zero hf (by omega)
      have hsu := isUnsigned_of_zero hs (by omega)
      exact Or.inl (by rw [hfu, hsu]; rfl)
    · obtain ⟨radix, hfold⟩ := getConcatVal_eq hf hs hw
      have hvalue := h.value
      rw [← Option.some.inj (hfold.symm.trans h.folded)] at hvalue
      exact (val_concat_iff f s _).mp hvalue
  · exact folds_of_val hf hs

/-- The operands 0x3 and 0x2, the first one with sign. -/
theorem folds_iff_signed :
    ∃ val, Folds (.variable 4 false (by decide) (some (.of 4 true 3)))
      (.integer (.of 3 false 2) 10 (by decide)) ⟨4, false, .of 4 true 3⟩
      ⟨3, true, .of 3 false 2⟩ val :=
  (folds_iff _ _ _ _ rfl rfl).mpr (Or.inr (by decide))

/-- `concat(sc_int<8>(-1), sc_uint<4>(0))` is -16, and stays so in 16 bits. -/
theorem folds_differs :
    let fval := SValue.variable 8 false (by decide) (some (.of 8 true (-1)))
    let sval := SValue.variable 4 true (by decide) (some (.of 4 false 0))
    let val : IntValue := ⟨.of 12 true (-16), 10⟩
    getConcatVal fval sval = some val ∧ val.int.val = -16 ∧
      (putValue (.int 16 true) val).int.val = 0xfff0 ∧
      concat ⟨8, false, .of 8 true (-1)⟩ ⟨4, true, .of 4 false 0⟩ = 0xff0 ∧
      ¬ ∃ val, Folds fval sval ⟨8, false, .of 8 true (-1)⟩ ⟨4, true, .of 4 false 0⟩ val := by
  intro fval sval val
  have hfold : getConcatVal fval sval = some val := by decide
  refine ⟨hfold, by decide, by decide, by decide, fun ⟨val', h⟩ => ?_⟩
  have hvalue := h.value
  rw [← Option.some.inj (hfold.symm.trans h.folded)] at hvalue
  exact absurd hvalue (by decide)

end SystemcCompiler.Concat
