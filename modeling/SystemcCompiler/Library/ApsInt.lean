import Mathlib.Data.Int.Bitwise
import SystemcCompiler.Library.SvExpr

/-! Integers that carry their width and sign, with operations that wrap around, as
`llvm::APSInt` has them. -/
namespace SystemcCompiler
open Verilog

structure ApsInt where
  width : Nat
  signed : Bool
  bits : BitVec width
  deriving DecidableEq

namespace ApsInt

def of (w : Nat) (s : Bool) (v : Int) : ApsInt := ⟨w, s, BitVec.ofInt w v⟩

/-- The number the bits stand for. -/
def val (a : ApsInt) : Int := valueOf a.signed a.bits

def ofBool (b : Bool) : ApsInt := of 1 false b.toNat

def getBoolValue (a : ApsInt) : Bool := a.bits != 0

/-- The number in another width, by the own sign. -/
def extOrTrunc (a : ApsInt) (w : Nat) : ApsInt := of w a.signed a.val

/-- The bits under another sign. -/
def setSigned (a : ApsInt) (s : Bool) : ApsInt := { a with signed := s }

def neg (a : ApsInt) : ApsInt := { a with bits := -a.bits }

def not (a : ApsInt) : ApsInt := { a with bits := ~~~a.bits }

/-- Operators of two integers of one width and sign. -/
def arith (op : BinOp) (a b : ApsInt) : ApsInt :=
  { a with bits := Verilog.arith op a.signed a.bits (b.bits.setWidth a.width) }

def shift (op : BinOp) (a : ApsInt) (n : Nat) : ApsInt :=
  { a with bits := Verilog.shift op a.signed a.bits n }

def compare (op : BinOp) (a b : ApsInt) : Bool := Verilog.compare op a.val b.val

/-- The bits of another number replace those from a position on. -/
def insertBits (a b : ApsInt) (pos : Nat) : ApsInt :=
  { a with
    bits := a.bits &&& ~~~((BitVec.allOnes b.width).setWidth a.width <<< pos) |||
      b.bits.setWidth a.width <<< pos }

/-- Some bits from a position on, as an unsigned number. -/
def extractBits (a : ApsInt) (n pos : Nat) : ApsInt := ⟨n, false, a.bits.extractLsb' pos n⟩

/-- The 64 bit integer for the number. -/
def getExtValue (a : ApsInt) : Int := (BitVec.ofInt 64 a.val).toInt

variable {w : Nat} {s : Bool} {a b : Int}

@[simp] theorem of_width : (of w s a).width = w := rfl
@[simp] theorem of_signed : (of w s a).signed = s := rfl

theorem val_of (h : Fits s w a) : (of w s a).val = a := valueOf_ofInt h

theorem of_congr (h : a % 2 ^ w = b % 2 ^ w) : of w s a = of w s b := by
  rw [of, of, ofInt_eq_of_emod h]

@[simp] theorem of_valueOf (s' : Bool) (x : BitVec w) : of w s (valueOf s' x) = ⟨w, s, x⟩ := by
  rw [of, ofInt_valueOf]

@[simp] theorem setSigned_of (s' : Bool) : (of w s a).setSigned s' = of w s' a := rfl

theorem extOrTrunc_of (h : Fits s w a) (k : Nat) : (of w s a).extOrTrunc k = of k s a := by
  rw [extOrTrunc, val_of h, of_signed]

theorem getBoolValue_of {s' : Bool} (h : Fits s' w a) :
    (of w s a).getBoolValue = decide (a ≠ 0) := by
  have hzero : Fits s' w 0 := by
    cases s' with
    | false => exact fits_unsigned.mpr ⟨le_refl 0, by positivity⟩
    | true =>
      have hw := (fits_signed.mp h).2.2
      have : (0 : Int) < 2 ^ (w - 1) := by positivity
      exact fits_signed.mpr ⟨by omega, this, hw⟩
  have hzeroBits : BitVec.ofInt w 0 = 0#w := BitVec.ofInt_natCast w 0
  have hiff : BitVec.ofInt w a = 0#w ↔ a = 0 := by
    rw [← hzeroBits]
    exact ⟨ofInt_inj h hzero, congrArg _⟩
  change (BitVec.ofInt w a != 0#w) = decide (a ≠ 0)
  by_cases ha : a = 0
  · simp [ha]
  · have hne := mt hiff.mp ha
    simp [ha, hne]

theorem neg_of : (of w s a).neg = of w s (-a) :=
  congrArg (ApsInt.mk w s) BitVec.ofInt_neg.symm

theorem not_of : (of w s a).not = of w s (-a - 1) := by
  have hbits : BitVec.ofInt w (-a - 1) = ~~~BitVec.ofInt w a := by
    rw [ofInt_sub, BitVec.ofInt_neg, BitVec.not_eq_neg_add]
    rfl
  exact congrArg (ApsInt.mk w s) hbits.symm

theorem arith_of (op : BinOp) :
    (of w s a).arith op (of w s b) =
      ⟨w, s, Verilog.arith op s (BitVec.ofInt w a) (BitVec.ofInt w b)⟩ := by
  simp [arith, of]

theorem shift_of (op : BinOp) (n : Nat) :
    (of w s a).shift op n = ⟨w, s, Verilog.shift op s (BitVec.ofInt w a) n⟩ := rfl

theorem compare_of (op : BinOp) {s' : Bool} {w' : Nat} (ha : Fits s w a) (hb : Fits s' w' b) :
    (of w s a).compare op (of w' s' b) = Verilog.compare op a b := by
  rw [compare, val_of ha, val_of hb]

variable {n m : Nat}

/-- A number without bits changes nothing where it is inserted. -/
theorem insertBits_empty (x : ApsInt) {y : ApsInt} (h : y.width = 0) (pos : Nat) :
    x.insertBits y pos = x := by
  obtain ⟨w, s, bits⟩ := y
  obtain rfl : w = 0 := h
  have hbits : x.bits &&& ~~~((BitVec.allOnes 0).setWidth x.width <<< pos) |||
      bits.setWidth x.width <<< pos = x.bits := by
    refine BitVec.eq_of_getLsbD_eq fun i hi => ?_
    simp [hi]
  exact congrArg (ApsInt.mk x.width x.signed) hbits

/-- Two numbers inserted side by side. -/
theorem insertBits_append (s s' s'' : Bool) (x : BitVec n) (y : BitVec m) :
    ((⟨n + m, s, 0#(n + m)⟩ : ApsInt).insertBits ⟨m, s', y⟩ 0).insertBits ⟨n, s'', x⟩ m =
      ⟨n + m, s, x ++ y⟩ := by
  have hbits : (0#(n + m) &&& ~~~((BitVec.allOnes m).setWidth (n + m) <<< 0) |||
      y.setWidth (n + m) <<< 0) &&& ~~~((BitVec.allOnes n).setWidth (n + m) <<< m) |||
      x.setWidth (n + m) <<< m = x ++ y := by
    refine BitVec.eq_of_getLsbD_eq fun i hi => ?_
    rw [BitVec.getLsbD_append]
    by_cases h : i < m
    · simp [h, hi]
    · have hrange : i - m < n := by omega
      simp [h, hi, hrange]
  exact congrArg (ApsInt.mk (n + m) s) hbits

theorem toNat_append (x : BitVec n) (y : BitVec m) :
    (x ++ y).toNat = x.toNat * 2 ^ m + y.toNat := by
  rw [BitVec.toNat_append, ← Nat.shiftLeft_add_eq_or_of_lt y.isLt, Nat.shiftLeft_eq]

end ApsInt

namespace Verilog
variable {w : Nat}

theorem getLsbD_ofInt (v : Int) (i : Nat) :
    (BitVec.ofInt w v).getLsbD i = (decide (i < w) && v.testBit i) := by
  cases v with
  | ofNat n =>
    have hbits : BitVec.ofInt w (Int.ofNat n) = BitVec.ofNat w n := BitVec.ofInt_natCast w n
    rw [hbits, BitVec.getLsbD_ofNat]
    rfl
  | negSucc n =>
    rw [BitVec.ofInt_negSucc_eq_not_ofNat, BitVec.getLsbD_not, BitVec.getLsbD_ofNat]
    by_cases h : i < w <;> simp [h, Int.testBit]

/-- Bitwise operations act on the bits of any width alike. -/
theorem ofInt_land (a b : Int) :
    BitVec.ofInt w (Int.land a b) = BitVec.ofInt w a &&& BitVec.ofInt w b := by
  apply BitVec.eq_of_getLsbD_eq
  intro i hi
  rw [BitVec.getLsbD_and, getLsbD_ofInt, getLsbD_ofInt, getLsbD_ofInt, Int.testBit_land]
  simp [hi]

theorem ofInt_lor (a b : Int) :
    BitVec.ofInt w (Int.lor a b) = BitVec.ofInt w a ||| BitVec.ofInt w b := by
  apply BitVec.eq_of_getLsbD_eq
  intro i hi
  rw [BitVec.getLsbD_or, getLsbD_ofInt, getLsbD_ofInt, getLsbD_ofInt, Int.testBit_lor]
  simp [hi]

theorem ofInt_xor (a b : Int) :
    BitVec.ofInt w (Int.xor a b) = BitVec.ofInt w a ^^^ BitVec.ofInt w b := by
  apply BitVec.eq_of_getLsbD_eq
  intro i hi
  rw [BitVec.getLsbD_xor, getLsbD_ofInt, getLsbD_ofInt, getLsbD_ofInt, Int.testBit_lxor]
  simp [hi]

end Verilog
end SystemcCompiler
