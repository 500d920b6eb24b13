import Mathlib.Tactic.Positivity
import Mathlib.Tactic.Ring

/-! Evaluation of SystemVerilog expressions. An operand is extended to the width
and the sign of the expression around it, down to casts, shift amounts and
comparisons, which are self-determined. -/
namespace SystemcCompiler.Verilog

inductive BinOp where
  | add | sub | mul | div | rem
  | shl | shr
  | and | or | xor
  | lt | gt | le | ge | eq | ne
  deriving DecidableEq

def BinOp.isShift : BinOp → Bool
  | .shl | .shr => true
  | _ => false

def BinOp.isCompare : BinOp → Bool
  | .lt | .gt | .le | .ge | .eq | .ne => true
  | _ => false

def BinOp.isBitwise : BinOp → Bool
  | .and | .or | .xor => true
  | _ => false

/-- Expressions over variables `V`. -/
inductive Sv (V : Type) where
  | var (x : V) (width : Nat) (signed : Bool)
  | lit (width : Nat) (signed : Bool) (n : Nat)
  /-- `n'(e)` -/
  | size (n : Nat) (e : Sv V)
  /-- `signed'(e)` -/
  | signed (e : Sv V)
  /-- `signed'({1'b0, e})` -/
  | signedZero (e : Sv V)
  | bin (op : BinOp) (l r : Sv V)
  deriving DecidableEq

/-- The number a bit vector stands for. -/
def valueOf (signed : Bool) {w : Nat} (b : BitVec w) : Int :=
  if signed then b.toInt else b.toNat

/-- The number is represented in the width. -/
def Fits (signed : Bool) (w : Nat) (v : Int) : Prop :=
  if signed then -2 ^ (w - 1) ≤ v ∧ v < 2 ^ (w - 1) ∧ 0 < w else 0 ≤ v ∧ v < 2 ^ w

instance (signed : Bool) (w : Nat) (v : Int) : Decidable (Fits signed w v) := by
  unfold Fits
  exact inferInstance

def arith (op : BinOp) (signed : Bool) {w : Nat} (a b : BitVec w) : BitVec w :=
  match op with
  | .add => a + b
  | .sub => a - b
  | .mul => a * b
  | .div => if signed then a.sdiv b else a / b
  | .rem => if signed then a.srem b else a % b
  | .and => a &&& b
  | .or => a ||| b
  | .xor => a ^^^ b
  | _ => a

def shift (op : BinOp) (signed : Bool) {w : Nat} (a : BitVec w) (n : Nat) : BitVec w :=
  match op with
  | .shl => a <<< n
  | _ => if signed then a.sshiftRight n else a >>> n

def compare (op : BinOp) (a b : Int) : Bool :=
  match op with
  | .lt => a < b
  | .gt => a > b
  | .le => a ≤ b
  | .ge => a ≥ b
  | .eq => a = b
  | _ => a ≠ b

namespace Sv
variable {V : Type}

/-- Self-determined width. -/
@[simp] def width : Sv V → Nat
  | .var _ w _ => w
  | .lit w _ _ => w
  | .size n _ => n
  | .signed e => e.width
  | .signedZero e => e.width + 1
  | .bin op l r =>
    if op.isCompare then 1 else if op.isShift then l.width else max l.width r.width

/-- Sign of an expression by itself. A size cast keeps it. -/
@[simp] def isSigned : Sv V → Bool
  | .var _ _ s => s
  | .lit _ s _ => s
  | .size _ e => e.isSigned
  | .signed _ | .signedZero _ => true
  | .bin op l r =>
    if op.isCompare then false else if op.isShift then l.isSigned else l.isSigned && r.isSigned

/-- Bits of an expression in a context of width `W` and sign `S`. -/
@[simp] def eval (ρ : V → Int) : Sv V → (W : Nat) → (S : Bool) → BitVec W
  | .var x w _, W, S => .ofInt W (valueOf S (BitVec.ofInt w (ρ x)))
  | .lit w _ n, W, S => .ofInt W (valueOf S (BitVec.ofNat w n))
  | .size n e, W, S =>
    .ofInt W (valueOf S ((e.eval ρ (max n e.width) e.isSigned).setWidth n))
  | .signed e, W, S => .ofInt W (valueOf S (e.eval ρ e.width e.isSigned))
  | .signedZero e, W, S =>
    .ofInt W (valueOf S ((e.eval ρ e.width e.isSigned).setWidth (e.width + 1)))
  | .bin op l r, W, S =>
    if op.isCompare then
      let w := max l.width r.width
      let s := l.isSigned && r.isSigned
      .ofNat W (compare op (valueOf s (l.eval ρ w s)) (valueOf s (r.eval ρ w s))).toNat
    else if op.isShift then
      shift op S (l.eval ρ W S) (r.eval ρ r.width r.isSigned).toNat
    else
      arith op S (l.eval ρ W S) (r.eval ρ W S)

/-- Bits stored by an assignment to a variable of this width. -/
def assigned (ρ : V → Int) (e : Sv V) (w : Nat) : BitVec w :=
  (e.eval ρ (max w e.width) e.isSigned).setWidth w

end Sv

theorem fits_unsigned {w : Nat} {v : Int} : Fits false w v ↔ 0 ≤ v ∧ v < 2 ^ w := by
  simp [Fits]

theorem fits_signed {w : Nat} {v : Int} :
    Fits true w v ↔ -2 ^ (w - 1) ≤ v ∧ v < 2 ^ (w - 1) ∧ 0 < w := by
  simp [Fits]

theorem Fits.mono {s : Bool} {w k : Nat} {v : Int} (h : Fits s w v) (hk : w ≤ k) : Fits s k v := by
  cases s with
  | false =>
    rw [fits_unsigned] at h ⊢
    have : (2 : Int) ^ w ≤ 2 ^ k := pow_le_pow_right₀ (by omega) hk
    omega
  | true =>
    rw [fits_signed] at h ⊢
    have : (2 : Int) ^ (w - 1) ≤ 2 ^ (k - 1) := pow_le_pow_right₀ (by omega) (by omega)
    omega

/-- With a sign bit more a number fits in either sign. -/
theorem Fits.signed_succ {s : Bool} {w : Nat} {v : Int} (h : Fits s w v) :
    Fits true (w + 1) v := by
  cases s with
  | true => exact h.mono (Nat.le_succ w)
  | false =>
    have hv := fits_unsigned.mp h
    have hpos : (0 : Int) < 2 ^ w := by positivity
    rw [fits_signed, Nat.add_sub_cancel]
    omega

/-- Bits fit a wider context of either sign. -/
theorem fits_natCast (s : Bool) {w k n : Nat} (h : n < 2 ^ w) (hw : w < k) : Fits s k n := by
  have hfits : Fits false w n :=
    fits_unsigned.mpr ⟨Int.natCast_nonneg n, by exact_mod_cast h⟩
  cases s with
  | false => exact hfits.mono (Nat.le_of_lt hw)
  | true => exact hfits.signed_succ.mono hw

/-- Bits of a number that fits stand for it. -/
theorem valueOf_ofInt {s : Bool} {w : Nat} {v : Int} (h : Fits s w v) :
    valueOf s (BitVec.ofInt w v) = v := by
  cases s with
  | false =>
    rw [fits_unsigned] at h
    simp only [valueOf, Bool.false_eq_true, if_false, BitVec.toNat_ofInt]
    have hmod : v % ((2 ^ w : Nat) : Int) = v := by
      apply Int.emod_eq_of_lt h.1
      push_cast
      exact h.2
    rw [hmod]
    omega
  | true =>
    rw [fits_signed] at h
    simp only [valueOf, if_true]
    exact BitVec.toInt_ofInt_eq_self h.2.2 h.1 h.2.1

theorem fits_valueOf (s : Bool) {w : Nat} (b : BitVec w) (hw : 0 < w) : Fits s w (valueOf s b) := by
  cases s with
  | false =>
    rw [fits_unsigned]
    simp only [valueOf, Bool.false_eq_true, if_false]
    have := b.isLt
    constructor
    · omega
    · exact_mod_cast this
  | true =>
    rw [fits_signed]
    simp only [valueOf, if_true]
    exact ⟨BitVec.le_toInt b, BitVec.toInt_lt, hw⟩

theorem ofInt_valueOf (s : Bool) {w : Nat} (b : BitVec w) : BitVec.ofInt w (valueOf s b) = b := by
  cases s <;> simp [valueOf]

/-- Fewer bits of the same number. -/
theorem setWidth_ofInt {w k : Nat} (v : Int) (h : k ≤ w) :
    (BitVec.ofInt w v).setWidth k = BitVec.ofInt k v := by
  apply BitVec.eq_of_toNat_eq
  rw [BitVec.toNat_setWidth, BitVec.toNat_ofInt, BitVec.toNat_ofInt]
  have hdvd : ((2 ^ k : Nat) : Int) ∣ ((2 ^ w : Nat) : Int) :=
    Int.natCast_dvd_natCast.mpr (Nat.pow_dvd_pow 2 h)
  have hnonneg : 0 ≤ v % ((2 ^ w : Nat) : Int) := Int.emod_nonneg _ (by positivity)
  rw [← Int.emod_emod_of_dvd v hdvd, Int.toNat_emod hnonneg (by positivity), Int.toNat_natCast]

theorem ofInt_eq_of_emod {w : Nat} {a b : Int} (h : a % 2 ^ w = b % 2 ^ w) :
    BitVec.ofInt w a = BitVec.ofInt w b := by
  apply BitVec.eq_of_toNat_eq
  rw [BitVec.toNat_ofInt, BitVec.toNat_ofInt]
  push_cast
  rw [h]

/-- Widening the bits of a number that fits keeps the number, dropping bits needs nothing. -/
theorem ofInt_valueOf_extend {s : Bool} {w k : Nat} {v : Int} (h : w < k → Fits s w v) :
    BitVec.ofInt k (valueOf s (BitVec.ofInt w v)) = BitVec.ofInt k v := by
  by_cases hk : w < k
  · rw [valueOf_ofInt (h hk)]
  · rw [← setWidth_ofInt _ (Nat.le_of_not_lt hk), ofInt_valueOf, setWidth_ofInt v (by omega)]

theorem ofInt_inj {s : Bool} {w : Nat} {a b : Int} (ha : Fits s w a) (hb : Fits s w b)
    (h : BitVec.ofInt w a = BitVec.ofInt w b) : a = b := by
  rw [← valueOf_ofInt ha, h, valueOf_ofInt hb]

theorem ofInt_sub {w : Nat} (a b : Int) :
    BitVec.ofInt w (a - b) = BitVec.ofInt w a - BitVec.ofInt w b := by
  rw [Int.sub_eq_add_neg, BitVec.ofInt_add, BitVec.ofInt_neg, BitVec.sub_eq_add_neg]

/-- Low bits of an operation that is no division depend on the low bits of the operands. -/
theorem setWidth_arith {op : BinOp} (hop : op ≠ .div ∧ op ≠ .rem) (s s' : Bool) {w k : Nat}
    (hk : k ≤ w) (a b : BitVec w) :
    (arith op s a b).setWidth k = arith op s' (a.setWidth k) (b.setWidth k) := by
  cases op with
  | add => exact BitVec.setWidth_add a b hk
  | sub =>
    change (a - b).setWidth k = a.setWidth k - b.setWidth k
    rw [BitVec.sub_eq_add_neg, BitVec.setWidth_add a (-b) hk, BitVec.setWidth_neg_of_le hk,
      BitVec.sub_eq_add_neg]
  | mul => exact BitVec.setWidth_mul a b hk
  | div => exact absurd rfl hop.1
  | rem => exact absurd rfl hop.2
  | and => exact BitVec.setWidth_and
  | or => exact BitVec.setWidth_or
  | xor => exact BitVec.setWidth_xor
  | shl | shr | lt | gt | le | ge | eq | ne => rfl

/-- Division truncates towards zero in both signs. -/
theorem arith_div {s : Bool} {w : Nat} {a b : Int} (ha : Fits s w a) (hb : Fits s w b) :
    arith .div s (BitVec.ofInt w a) (BitVec.ofInt w b) = BitVec.ofInt w (a.tdiv b) := by
  have hla := valueOf_ofInt ha
  have hrb := valueOf_ofInt hb
  simp only [arith]
  cases s with
  | false =>
    simp only [valueOf, Bool.false_eq_true, if_false] at hla hrb ⊢
    have hquot : a.tdiv b =
        (((BitVec.ofInt w a).toNat / (BitVec.ofInt w b).toNat : Nat) : Int) := by
      rw [Int.ofNat_tdiv, hla, hrb]
    apply BitVec.eq_of_toNat_eq
    rw [hquot, BitVec.ofInt_natCast, BitVec.toNat_ofNat, BitVec.toNat_udiv, Nat.mod_eq_of_lt]
    exact Nat.lt_of_le_of_lt (Nat.div_le_self _ _) (BitVec.isLt _)
  | true =>
    simp only [valueOf, if_true] at hla hrb ⊢
    apply BitVec.eq_of_toInt_eq
    rw [BitVec.toInt_sdiv, hla, hrb, BitVec.toInt_ofInt]

theorem arith_rem {s : Bool} {w : Nat} {a b : Int} (ha : Fits s w a) (hb : Fits s w b) :
    arith .rem s (BitVec.ofInt w a) (BitVec.ofInt w b) = BitVec.ofInt w (a.tmod b) := by
  have hla := valueOf_ofInt ha
  have hrb := valueOf_ofInt hb
  simp only [arith]
  cases s with
  | false =>
    simp only [valueOf, Bool.false_eq_true, if_false] at hla hrb ⊢
    have hrem : a.tmod b = (((BitVec.ofInt w a).toNat % (BitVec.ofInt w b).toNat : Nat) : Int) := by
      rw [Int.ofNat_tmod, hla, hrb]
    apply BitVec.eq_of_toNat_eq
    rw [hrem, BitVec.ofInt_natCast, BitVec.toNat_ofNat, BitVec.toNat_umod]
    exact (Nat.mod_eq_of_lt (Nat.lt_of_le_of_lt (Nat.mod_le _ _) (BitVec.isLt _))).symm
  | true =>
    simp only [valueOf, if_true] at hla hrb ⊢
    have hrem : a.tmod b = ((BitVec.ofInt w a).srem (BitVec.ofInt w b)).toInt := by
      rw [BitVec.toInt_srem, hla, hrb]
    rw [hrem, BitVec.ofInt_toInt]

theorem shift_shl (s : Bool) {w : Nat} (a : Int) (n : Nat) :
    shift .shl s (BitVec.ofInt w a) n = BitVec.ofInt w (a * 2 ^ n) := by
  simp only [shift]
  rw [BitVec.ofInt_mul, BitVec.shiftLeft_eq_mul_twoPow]
  congr 1
  apply BitVec.eq_of_toNat_eq
  have hpow : (2 : Int) ^ n = ((2 ^ n : Nat) : Int) := by push_cast; rfl
  rw [hpow, BitVec.ofInt_natCast, BitVec.toNat_ofNat, BitVec.toNat_twoPow]

theorem shift_shr {s : Bool} {w : Nat} {a : Int} (ha : Fits s w a) (n : Nat) :
    shift .shr s (BitVec.ofInt w a) n = BitVec.ofInt w (a / 2 ^ n) := by
  have hla := valueOf_ofInt ha
  simp only [shift]
  cases s with
  | false =>
    simp only [valueOf, Bool.false_eq_true, if_false] at hla ⊢
    have hdiv : a / 2 ^ n = (((BitVec.ofInt w a).toNat / 2 ^ n : Nat) : Int) := by
      push_cast
      rw [hla]
    apply BitVec.eq_of_toNat_eq
    rw [hdiv, BitVec.ofInt_natCast, BitVec.toNat_ofNat, BitVec.toNat_ushiftRight,
      Nat.shiftRight_eq_div_pow, Nat.mod_eq_of_lt]
    exact Nat.lt_of_le_of_lt (Nat.div_le_self _ _) (BitVec.isLt _)
  | true =>
    simp only [valueOf, if_true] at hla ⊢
    apply BitVec.eq_of_toInt_eq
    rw [BitVec.toInt_sshiftRight, hla, Int.shiftRight_eq_div_pow, BitVec.toInt_ofInt]
    have hfit : Fits true w ((BitVec.ofInt w a).sshiftRight n).toInt :=
      fits_valueOf true _ (fits_signed.mp ha).2.2
    have hback := valueOf_ofInt hfit
    simp only [valueOf, if_true, BitVec.toInt_ofInt] at hback
    rw [BitVec.toInt_sshiftRight, hla, Int.shiftRight_eq_div_pow] at hback
    push_cast at hback ⊢
    exact hback.symm

theorem fits_shiftRight {s : Bool} {w : Nat} {a : Int} (h : Fits s w a) (n : Nat) :
    Fits s w (a / 2 ^ n) := by
  have hpos : (0 : Int) < 2 ^ n := by positivity
  have hdown : 0 ≤ a → 0 ≤ a / 2 ^ n ∧ a / 2 ^ n ≤ a := fun ha =>
    ⟨Int.ediv_nonneg ha (Int.le_of_lt hpos), Int.ediv_le_self _ ha⟩
  have hup : a < 0 → a ≤ a / 2 ^ n ∧ a / 2 ^ n < 0 := by
    intro ha
    have hmul : a * 2 ^ n ≤ a * 1 :=
      mul_le_mul_of_nonpos_left (Int.add_one_le_of_lt hpos) (Int.le_of_lt ha)
    rw [mul_one] at hmul
    exact ⟨(Int.le_ediv_iff_mul_le hpos).mpr hmul, Int.ediv_neg_of_neg_of_pos ha hpos⟩
  cases s with
  | false =>
    rw [fits_unsigned] at h ⊢
    omega
  | true =>
    rw [fits_signed] at h ⊢
    omega

/-- A logical shift to the right is a division unless it drops the sign. -/
theorem ushiftRight_ofInt_iff {s : Bool} {w n : Nat} {a : Int} (ha : Fits s w a) :
    BitVec.ofInt w a >>> n = BitVec.ofInt w (a / 2 ^ n) ↔ ¬(a < 0 ∧ 0 < n) := by
  rcases Nat.eq_zero_or_pos n with rfl | hn
  · simp
  by_cases hneg : a < 0
  · refine iff_of_false ?_ (fun h => h ⟨hneg, hn⟩)
    have hs : s = true := by
      cases s with
      | true => rfl
      | false => exact absurd (fits_unsigned.mp ha).1 (Int.not_le.mpr hneg)
    subst hs
    intro h
    have hquot : (BitVec.ofInt w (a / 2 ^ n)).toInt = a / 2 ^ n :=
      valueOf_ofInt (s := true) (fits_shiftRight ha n)
    have hbits : 0 ≤ (BitVec.ofInt w a >>> n).toInt := by
      rw [BitVec.toInt_ushiftRight_of_lt hn]
      exact Int.natCast_nonneg _
    rw [h, hquot] at hbits
    have hlow : a / 2 ^ n < 0 := Int.ediv_neg_of_neg_of_pos hneg (by positivity)
    omega
  · refine iff_of_true ?_ (fun h => hneg h.1)
    have hpos : Fits false w a := by
      cases s with
      | false => exact ha
      | true =>
        have hfit := fits_signed.mp ha
        have hle : (2 : Int) ^ (w - 1) ≤ 2 ^ w := pow_le_pow_right₀ (by omega) (by omega)
        exact fits_unsigned.mpr (by omega)
    exact shift_shr hpos n

section Shows
variable {V : Type} {ρ : V → Int} {W : Nat} {S : Bool}

/-- The bits of an expression in its context are those of the number. -/
def Shows (ρ : V → Int) (e : Sv V) (W : Nat) (S : Bool) (v : Int) : Prop :=
  e.eval ρ W S = BitVec.ofInt W v

/-- Numbers whose bits of width `w` and sign `s` are compared as the numbers. Equal
bits are equal in either sign. -/
def Comparable (op : BinOp) (s : Bool) (w : Nat) (a b : Int) : Prop :=
  Fits s w a ∧ Fits s w b ∨ (op = .eq ∨ op = .ne) ∧ Fits (!s) w a ∧ Fits (!s) w b

theorem Shows.congr {e : Sv V} {a b : Int} (h : Shows ρ e W S a) (hab : a % 2 ^ W = b % 2 ^ W) :
    Shows ρ e W S b :=
  h.trans (ofInt_eq_of_emod hab)

theorem Shows.valueOf_eq {e : Sv V} {v : Int} (h : Shows ρ e W S v) (hv : Fits S W v) :
    valueOf S (e.eval ρ W S) = v := by
  rw [h, valueOf_ofInt hv]

theorem Shows.assigned {e : Sv V} {w : Nat} {v : Int}
    (h : Shows ρ e (max w e.width) e.isSigned v) : e.assigned ρ w = BitVec.ofInt w v := by
  unfold Shows at h
  rw [Sv.assigned, h, setWidth_ofInt v (Nat.le_max_left _ _)]

theorem shows_var {x : V} {w : Nat} {s : Bool} (h : w < W → Fits S w (ρ x)) :
    Shows ρ (.var x w s) W S (ρ x) :=
  ofInt_valueOf_extend h

theorem shows_lit {w n : Nat} {s : Bool} (h : Fits S w n) : Shows ρ (.lit w s n) W S n := by
  have hn : BitVec.ofNat w n = BitVec.ofInt w n := by simp
  simp only [Shows, Sv.eval, hn, valueOf_ofInt h]

theorem shows_lit_mod {w n : Nat} {s : Bool} : Shows ρ (.lit w s n) W false (n % 2 ^ w : Nat) := by
  simp [Shows, Sv.eval, valueOf]

/-- A size cast shows what its bits stand for. -/
theorem shows_size {e : Sv V} {n : Nat} {a b : Int}
    (h : Shows ρ e (max n e.width) e.isSigned a) (hb : n < W → Fits S n b)
    (hab : a % 2 ^ n = b % 2 ^ n) : Shows ρ (.size n e) W S b := by
  unfold Shows at h
  simp only [Shows, Sv.eval, h]
  rw [setWidth_ofInt a (Nat.le_max_left n e.width), ofInt_eq_of_emod hab, ofInt_valueOf_extend hb]

/-- A sign cast shows the bits of an expression in another sign. -/
theorem shows_signed {e : Sv V} {a b : Int} (h : Shows ρ e e.width e.isSigned a)
    (hb : e.width < W → Fits S e.width b) (hab : a % 2 ^ e.width = b % 2 ^ e.width) :
    Shows ρ (.signed e) W S b := by
  unfold Shows at h
  simp only [Shows, Sv.eval, h]
  rw [ofInt_eq_of_emod hab, ofInt_valueOf_extend hb]

theorem shows_signedZero {e : Sv V} {v : Int} (h : Shows ρ e e.width e.isSigned v)
    (hv : Fits false e.width v) : Shows ρ (.signedZero e) W S v := by
  have hv' := fits_unsigned.mp hv
  have hbits : (BitVec.ofInt e.width v).setWidth (e.width + 1) = BitVec.ofInt (e.width + 1) v := by
    have hnat : BitVec.ofInt e.width v = BitVec.ofNat e.width v.toNat := by
      rw [← BitVec.ofInt_natCast, Int.toNat_of_nonneg hv'.1]
    have hlt : v.toNat < 2 ^ e.width := by
      have : ((v.toNat : Nat) : Int) < ((2 ^ e.width : Nat) : Int) := by
        rw [Int.toNat_of_nonneg hv'.1]
        push_cast
        exact hv'.2
      exact_mod_cast this
    rw [hnat, BitVec.setWidth_ofNat_of_le_of_lt (Nat.le_succ _) hlt, ← BitVec.ofInt_natCast,
      Int.toNat_of_nonneg hv'.1]
  have hS : Fits S (e.width + 1) v := by
    cases S with
    | false => exact hv.mono (Nat.le_succ _)
    | true => exact hv.signed_succ
  unfold Shows at h
  simp only [Shows, Sv.eval, h, hbits, valueOf_ofInt hS]

theorem shows_add {l r : Sv V} {a b : Int} (hl : Shows ρ l W S a) (hr : Shows ρ r W S b) :
    Shows ρ (.bin .add l r) W S (a + b) := by
  unfold Shows at hl hr
  simp only [Shows, Sv.eval, BinOp.isCompare, BinOp.isShift, Bool.false_eq_true, if_false, arith,
    hl, hr, BitVec.ofInt_add]

theorem shows_sub {l r : Sv V} {a b : Int} (hl : Shows ρ l W S a) (hr : Shows ρ r W S b) :
    Shows ρ (.bin .sub l r) W S (a - b) := by
  unfold Shows at hl hr
  simp only [Shows, Sv.eval, BinOp.isCompare, BinOp.isShift, Bool.false_eq_true, if_false, arith,
    hl, hr, ofInt_sub]

theorem shows_mul {l r : Sv V} {a b : Int} (hl : Shows ρ l W S a) (hr : Shows ρ r W S b) :
    Shows ρ (.bin .mul l r) W S (a * b) := by
  unfold Shows at hl hr
  simp only [Shows, Sv.eval, BinOp.isCompare, BinOp.isShift, Bool.false_eq_true, if_false, arith,
    hl, hr, BitVec.ofInt_mul]

theorem shows_div {l r : Sv V} {a b : Int} (hl : Shows ρ l W S a) (hr : Shows ρ r W S b)
    (ha : Fits S W a) (hb : Fits S W b) : Shows ρ (.bin .div l r) W S (a.tdiv b) := by
  unfold Shows at hl hr
  simp only [Shows, Sv.eval, BinOp.isCompare, BinOp.isShift, Bool.false_eq_true, if_false, hl, hr]
  exact arith_div ha hb

theorem shows_rem {l r : Sv V} {a b : Int} (hl : Shows ρ l W S a) (hr : Shows ρ r W S b)
    (ha : Fits S W a) (hb : Fits S W b) : Shows ρ (.bin .rem l r) W S (a.tmod b) := by
  unfold Shows at hl hr
  simp only [Shows, Sv.eval, BinOp.isCompare, BinOp.isShift, Bool.false_eq_true, if_false, hl, hr]
  exact arith_rem ha hb

theorem shows_bitwise {op : BinOp} (hop : op.isBitwise = true) {l r : Sv V} {a b : Int} {s : Bool}
    {w : Nat} (hl : Shows ρ l W S a) (hr : Shows ρ r W S b) (ha : Fits s w a) (hb : Fits s w b) :
    Shows ρ (.bin op l r) W S
      (valueOf s (arith op s (BitVec.ofInt w a) (BitVec.ofInt w b))) := by
  have hext : ∀ x : BitVec w, BitVec.ofInt W (valueOf s x) =
      if s then x.signExtend W else x.setWidth W := by
    intro x
    cases s with
    | false => simp [valueOf, ← BitVec.ofNat_toNat]
    | true => rfl
  have hxa : BitVec.ofInt W a = BitVec.ofInt W (valueOf s (BitVec.ofInt w a)) := by
    rw [valueOf_ofInt ha]
  have hxb : BitVec.ofInt W b = BitVec.ofInt W (valueOf s (BitVec.ofInt w b)) := by
    rw [valueOf_ofInt hb]
  unfold Shows at hl hr
  rw [hxa, hext] at hl
  rw [hxb, hext] at hr
  have hops : op = .and ∨ op = .or ∨ op = .xor := by
    cases op <;> simp [BinOp.isBitwise] at hop ⊢
  rcases hops with rfl | rfl | rfl <;>
    simp only [Shows, Sv.eval, BinOp.isCompare, BinOp.isShift, Bool.false_eq_true, if_false,
      arith, hl, hr, hext] <;> cases s <;> simp

theorem Shows.amount {r : Sv V} {n : Int} (hr : Shows ρ r r.width r.isSigned n)
    (hn : Fits false r.width n) : (r.eval ρ r.width r.isSigned).toNat = n.toNat := by
  have := valueOf_ofInt hn
  unfold Shows at hr
  rw [hr]
  simp only [valueOf, Bool.false_eq_true, if_false] at this
  omega

theorem shows_shl {l r : Sv V} {a n : Int} (hl : Shows ρ l W S a)
    (hr : Shows ρ r r.width r.isSigned n) (hn : Fits false r.width n) :
    Shows ρ (.bin .shl l r) W S (a * 2 ^ n.toNat) := by
  have hamount := hr.amount hn
  unfold Shows at hl
  simp only [Shows, Sv.eval, BinOp.isCompare, BinOp.isShift, Bool.false_eq_true, if_false, if_true,
    hl, hamount]
  exact shift_shl S a n.toNat

theorem shows_shr {l r : Sv V} {a n : Int} (hl : Shows ρ l W S a) (ha : Fits S W a)
    (hr : Shows ρ r r.width r.isSigned n) (hn : Fits false r.width n) :
    Shows ρ (.bin .shr l r) W S (a / 2 ^ n.toNat) := by
  have hamount := hr.amount hn
  unfold Shows at hl
  simp only [Shows, Sv.eval, BinOp.isCompare, BinOp.isShift, Bool.false_eq_true, if_false, if_true,
    hl, hamount]
  exact shift_shr ha n.toNat

theorem compare_equality {op : BinOp} (hop : op = .eq ∨ op = .ne) {a b c d : Int}
    (h : a = b ↔ c = d) : compare op a b = compare op c d := by
  rcases hop with rfl | rfl <;> simp [compare, h]

theorem shows_compare {op : BinOp} (hop : op.isCompare = true) {l r : Sv V} {a b : Int} {w : Nat}
    {s : Bool} (hw : w = max l.width r.width) (hs : s = (l.isSigned && r.isSigned))
    (hl : Shows ρ l w s a) (hr : Shows ρ r w s b) (hab : Comparable op s w a b) :
    Shows ρ (.bin op l r) W S (compare op a b).toNat := by
  have hcmp : compare op (valueOf s (l.eval ρ w s)) (valueOf s (r.eval ρ w s)) =
      compare op a b := by
    rcases hab with ⟨ha, hb⟩ | ⟨heq, ha, hb⟩
    · rw [hl.valueOf_eq ha, hr.valueOf_eq hb]
    · apply compare_equality heq
      constructor
      · intro h
        apply ofInt_inj ha hb
        rw [← hl, ← hr, ← ofInt_valueOf s (l.eval ρ w s), h, ofInt_valueOf]
      · intro h
        rw [hl, hr, h]
  subst hw
  subst hs
  simp only [Shows, Sv.eval, hop, if_true, hcmp, BitVec.ofInt_natCast]

end Shows

/-- A text with the contexts, of a width and a sign, in which it has a number. -/
structure Reading (V : Type) (ρ : V → Int) (v : Int) where
  text : Sv V
  Reads : Nat → Bool → Prop
  shows : ∀ W S, Reads W S → Shows ρ text W S v

namespace Reading
variable {V : Type} {ρ : V → Int} {v : Int}

def size (n : Nat) (r : Reading V ρ v) : Reading V ρ v where
  text := .size n r.text
  Reads W S := r.Reads (max n r.text.width) r.text.isSigned ∧ (n < W → Fits S n v)
  shows _ _ h := shows_size (r.shows _ _ h.1) h.2 rfl

def signed (r : Reading V ρ v) : Reading V ρ v where
  text := .signed r.text
  Reads W S := r.Reads r.text.width r.text.isSigned ∧ (r.text.width < W → Fits S r.text.width v)
  shows _ _ h := shows_signed (r.shows _ _ h.1) h.2 rfl

def signedZero (r : Reading V ρ v) : Reading V ρ v where
  text := .signedZero r.text
  Reads _ _ := r.Reads r.text.width r.text.isSigned ∧ Fits false r.text.width v
  shows _ _ h := shows_signedZero (r.shows _ _ h.1) h.2

end Reading

end SystemcCompiler.Verilog
