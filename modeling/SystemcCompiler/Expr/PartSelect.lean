import Mathlib.Algebra.MvPolynomial.Funext
import SystemcCompiler.Expr.ConstFold

/-! Part selects with variables in the indices, as `ScGenerateExpr::evaluateRangeExpr` and
`ScParseRangeExpr` evaluate them: zero stands for each variable. -/
namespace SystemcCompiler.PartSelect
open Verilog ConstFold

inductive ArithOp where
  | add | sub | mul
  deriving DecidableEq

namespace ArithOp

def op : ArithOp → BinOp
  | add => .add
  | sub => .sub
  | mul => .mul

def apply {R : Type} [CommRing R] : ArithOp → R → R → R
  | add, a, b => a + b
  | sub, a, b => a - b
  | mul, a, b => a * b

theorem apply_map {R S : Type} [CommRing R] [CommRing S] (f : R →+* S) (o : ArithOp) (a b : R) :
    f (o.apply a b) = o.apply (f a) (f b) := by
  cases o
  · exact map_add f a b
  · exact map_sub f a b
  · exact map_mul f a b

end ArithOp

/-- An index of type `int`. Constants and constant variables have a value, the other
variables have none; parentheses do not show. -/
inductive IndexExpr (V : Type) where
  | var (x : V)
  | const (n : Int)
  | bin (op : ArithOp) (l r : IndexExpr V)

namespace IndexExpr
variable {V : Type}

/-- Value in C++, which leaves an overflow undefined. -/
def eval (ρ : V → Int) : IndexExpr V → Int
  | var x => ρ x
  | const n => n
  | bin op l r => op.apply (l.eval ρ) (r.eval ρ)

/-- `getVariables` of `ScParseRangeExpr` after the evaluation. -/
def vars : IndexExpr V → List V
  | var x => [x]
  | const _ => []
  | bin _ l r => l.vars ++ r.vars

/-- The integer `ScParseRangeExpr` evaluates to. -/
def evaluate : IndexExpr V → ApsInt
  | var _ => ApsInt.of 64 true 0
  | const n => ApsInt.of 32 true n
  | bin op l r =>
    let (val1, val2) :=
      adjustIntegers (extendBitWidthBO l.evaluate 32) (extendBitWidthBO r.evaluate 32) false
    val1.arith op.op val2

/-- Operations on constants do not overflow, which C++ would not accept. -/
def ConstantsFit : IndexExpr V → Prop
  | var _ => True
  | const n => Fits true 32 n
  | bin op l r => l.ConstantsFit ∧ r.ConstantsFit ∧
    ((bin op l r).vars = [] → Fits true 32 ((bin op l r).eval fun _ => 0))

/-- The polynomial the index is in its variables. -/
noncomputable def poly : IndexExpr V → MvPolynomial V Int
  | var x => MvPolynomial.X x
  | const n => MvPolynomial.C n
  | bin op l r => op.apply l.poly r.poly

end IndexExpr

/-- The check that high and low index variables are the same. -/
def equalVars {V : Type} [DecidableEq V] (hvars lvars : List V) : Bool :=
  if lvars.length = hvars.length then
    let rest := hvars.foldl (fun (rest, equal) h =>
      if h ∈ rest then (rest.erase h, equal) else (rest, false)) (lvars, true)
    rest.2 && rest.1.isEmpty
  else false

inductive Range where
  | literals (hi lo : ApsInt)
  | delta (d : ApsInt)
  /-- `SC_RANGE_DIFF_VARS` is reported, with a fatal error. -/
  | diffVars
  deriving DecidableEq

def increment (a : ApsInt) : ApsInt := { a with bits := a.bits + 1 }

def evaluateRangeExpr {V : Type} [DecidableEq V] (hexpr lexpr : IndexExpr V) : Range :=
  if equalVars hexpr.vars lexpr.vars then
    if hexpr.vars.length = 0 then .literals hexpr.evaluate lexpr.evaluate
    else
      let (hint, lint) := adjustIntegers hexpr.evaluate lexpr.evaluate false
      .delta (increment (hint.arith .sub lint))
  else .diffVars

section
variable {V : Type} {ρ : V → Int}

namespace IndexExpr
variable {e l r : IndexExpr V}

theorem eval_poly (e : IndexExpr V) : MvPolynomial.eval ρ e.poly = e.eval ρ := by
  induction e with
  | var x => exact MvPolynomial.eval_X x
  | const n => exact MvPolynomial.eval_C n
  | bin op l r ihl ihr => rw [poly, ArithOp.apply_map, ihl, ihr, eval]

theorem constantsFit_const {n : Int} (h : Fits true 32 n) :
    (const n : IndexExpr V).ConstantsFit := h

/-- Constants are of type `int`, the zero of a variable has 64 bits. -/
def width (e : IndexExpr V) : Nat := if e.vars = [] then 32 else 64

theorem width_bin (op : ArithOp) (l r : IndexExpr V) :
    (bin op l r).width = max l.width r.width := by
  simp only [width, vars, List.append_eq_nil_iff]
  by_cases hl : l.vars = [] <;> by_cases hr : r.vars = [] <;> simp [hl, hr]

theorem arith_of_apply (op : ArithOp) (w : Nat) (a b : Int) :
    (ApsInt.of w true a).arith op.op (ApsInt.of w true b) = ApsInt.of w true (op.apply a b) := by
  rw [ApsInt.arith_of]
  cases op with
  | add => exact congrArg (ApsInt.mk w true) (BitVec.ofInt_add a b).symm
  | sub => exact congrArg (ApsInt.mk w true) (ofInt_sub a b).symm
  | mul => exact congrArg (ApsInt.mk w true) (BitVec.ofInt_mul a b).symm

/-- Operands of different widths are brought to the wider one. -/
theorem adjustIntegers_max {w k : Nat} {a b : Int} (ha : w < k → Fits true w a)
    (hb : k < w → Fits true k b) :
    adjustIntegers (ApsInt.of w true a) (ApsInt.of k true b) false =
      (ApsInt.of (max w k) true a, ApsInt.of (max w k) true b) := by
  have hmax : maxWidth (ApsInt.of w true a) (ApsInt.of k true b) =
      (ApsInt.of (max w k) true a, ApsInt.of (max w k) true b) := by
    rcases Nat.lt_trichotomy w k with hlt | rfl | hlt
    · simp [maxWidth, Nat.lt_asymm hlt, hlt, ApsInt.extOrTrunc_of (ha hlt),
        Nat.max_eq_right (Nat.le_of_lt hlt)]
    · simp [maxWidth]
    · simp [maxWidth, hlt, ApsInt.extOrTrunc_of (hb hlt), Nat.max_eq_left (Nat.le_of_lt hlt)]
  simp only [adjustIntegers, hmax]
  rfl

theorem fits_of_width (h : e.ConstantsFit) (hw : e.width < 64) :
    Fits true e.width (e.eval fun _ => 0) := by
  have hnil : e.vars = [] := by
    by_contra hne
    rw [width, if_neg hne] at hw
    exact absurd hw (by decide)
  rw [width, if_pos hnil]
  cases e with
  | var x => cases hnil
  | const n => exact h
  | bin op l r => exact h.2.2 hnil

theorem width_cases (e : IndexExpr V) : e.width = 32 ∨ e.width = 64 := by
  unfold width
  split
  · exact .inl rfl
  · exact .inr rfl

theorem extendBitWidthBO_width (v : Int) :
    extendBitWidthBO (ApsInt.of e.width true v) 32 = ApsInt.of e.width true v := by
  rcases e.width_cases with h | h <;> simp [extendBitWidthBO, h]

theorem adjustIntegers_evaluate (hl : l.ConstantsFit) (hr : r.ConstantsFit) :
    adjustIntegers (ApsInt.of l.width true (l.eval fun _ => 0))
        (ApsInt.of r.width true (r.eval fun _ => 0)) false =
      (ApsInt.of (max l.width r.width) true (l.eval fun _ => 0),
        ApsInt.of (max l.width r.width) true (r.eval fun _ => 0)) := by
  have hlw := l.width_cases
  have hrw := r.width_cases
  exact adjustIntegers_max (fun hlt => fits_of_width hl (by omega))
    fun hlt => fits_of_width hr (by omega)

/-- The evaluation gives the bits of the value at zero. -/
theorem evaluate_eq (h : e.ConstantsFit) :
    e.evaluate = ApsInt.of e.width true (e.eval fun _ => 0) := by
  induction e with
  | var x => rfl
  | const n => rfl
  | bin op l r ihl ihr =>
    rw [evaluate, ihl h.1, ihr h.2.1, extendBitWidthBO_width, extendBitWidthBO_width,
      adjustIntegers_evaluate h.1 h.2.1, width_bin, eval]
    exact arith_of_apply op _ _ _

/-- Two indices differ by a constant when their polynomials do. -/
theorem difference_constant_iff (hexpr lexpr : IndexExpr V) :
    (∃ c, ∀ ρ, hexpr.eval ρ - lexpr.eval ρ = c) ↔
      ∀ m, m ≠ 0 → hexpr.poly.coeff m = lexpr.poly.coeff m := by
  classical
  constructor
  · rintro ⟨c, hc⟩ m hm
    have hpoly : hexpr.poly - lexpr.poly = MvPolynomial.C c := by
      apply MvPolynomial.funext
      intro ρ
      rw [map_sub, eval_poly, eval_poly, hc, MvPolynomial.eval_C]
    have hcoeff := congrArg (MvPolynomial.coeff m) hpoly
    rw [MvPolynomial.coeff_sub, MvPolynomial.coeff_C, if_neg (Ne.symm hm)] at hcoeff
    exact sub_eq_zero.mp hcoeff
  · intro h
    refine ⟨(hexpr.poly - lexpr.poly).coeff 0, fun ρ => ?_⟩
    have hpoly : hexpr.poly - lexpr.poly =
        MvPolynomial.C ((hexpr.poly - lexpr.poly).coeff 0) := by
      apply MvPolynomial.ext
      intro m
      rw [MvPolynomial.coeff_C]
      split
      · rename_i hm
        rw [← hm]
      · rename_i hm
        rw [MvPolynomial.coeff_sub, h m (Ne.symm hm), sub_self]
    have heval := congrArg (MvPolynomial.eval ρ) hpoly
    rwa [map_sub, eval_poly, eval_poly, MvPolynomial.eval_C] at heval

end IndexExpr

theorem equalVars_iff [DecidableEq V] (hvars lvars : List V) :
    equalVars hvars lvars = true ↔ hvars.Perm lvars := by
  let step (left : List V × Bool) (h : V) : List V × Bool :=
    if h ∈ left.1 then (left.1.erase h, left.2) else (left.1, false)
  have hfalse : ∀ hvars rest : List V, (hvars.foldl step (rest, false)).2 = false := by
    intro hvars
    induction hvars with
    | nil => exact fun _ => rfl
    | cons h hvars ih =>
      intro rest
      rw [List.foldl_cons, show step (rest, false) h =
        (if h ∈ rest then (rest.erase h, false) else (rest, false)) from rfl]
      split <;> exact ih _
  have hfold : ∀ hvars rest : List V, rest.length = hvars.length →
      (((hvars.foldl step (rest, true)).2 && (hvars.foldl step (rest, true)).1.isEmpty) = true ↔
        hvars.Perm rest) := by
    intro hvars
    induction hvars with
    | nil =>
      intro rest hlen
      rw [List.length_eq_zero_iff.mp hlen]
      exact iff_of_true rfl (.refl [])
    | cons h hvars ih =>
      intro rest hlen
      rw [List.foldl_cons, List.cons_perm_iff_perm_erase, show step (rest, true) h =
        (if h ∈ rest then (rest.erase h, true) else (rest, false)) from rfl]
      split
      · rename_i hmem
        rw [ih (rest.erase h) (by rw [List.length_erase_of_mem hmem, hlen]; rfl)]
        exact ⟨fun hperm => ⟨hmem, hperm⟩, And.right⟩
      · rename_i hmem
        rw [hfalse]
        exact iff_of_false nofun fun hperm => hmem hperm.1
  rw [equalVars]
  split
  · rename_i hlen
    exact hfold hvars lvars hlen
  · rename_i hlen
    exact iff_of_false nofun fun hperm => hlen hperm.length_eq.symm

variable [DecidableEq V] {hexpr lexpr : IndexExpr V}

theorem evaluateRangeExpr_diffVars (h : ¬hexpr.vars.Perm lexpr.vars) :
    evaluateRangeExpr hexpr lexpr = .diffVars := by
  rw [evaluateRangeExpr, if_neg (mt (equalVars_iff _ _).mp h)]

theorem evaluateRangeExpr_literals (h : hexpr.vars.Perm lexpr.vars) (hnil : hexpr.vars = []) :
    evaluateRangeExpr hexpr lexpr = .literals hexpr.evaluate lexpr.evaluate := by
  rw [evaluateRangeExpr, if_pos ((equalVars_iff _ _).mpr h), hnil]
  rfl

/-- The delta is the difference at zero plus one. -/
theorem evaluateRangeExpr_delta (h : hexpr.vars.Perm lexpr.vars) (hne : hexpr.vars ≠ [])
    (hh : hexpr.ConstantsFit) (hl : lexpr.ConstantsFit) :
    evaluateRangeExpr hexpr lexpr = .delta (ApsInt.of 64 true
      ((hexpr.eval fun _ => 0) - (lexpr.eval fun _ => 0) + 1)) := by
  have hlne : lexpr.vars ≠ [] := fun hnil => hne (h.trans (hnil ▸ .refl _)).eq_nil
  have hlen : hexpr.vars.length ≠ 0 := fun hzero => hne (List.length_eq_zero_iff.mp hzero)
  rw [evaluateRangeExpr, if_pos ((equalVars_iff _ _).mpr h), if_neg hlen,
    IndexExpr.evaluate_eq hh, IndexExpr.evaluate_eq hl, IndexExpr.adjustIntegers_evaluate hh hl,
    IndexExpr.width, IndexExpr.width, if_neg hne, if_neg hlne]
  refine congrArg Range.delta ?_
  rw [show BinOp.sub = ArithOp.sub.op from rfl, IndexExpr.arith_of_apply]
  exact congrArg (ApsInt.mk 64 true) (BitVec.ofInt_add _ 1).symm

/-- An accepted delta is the width of the range for all values of the variables, and a range
whose width depends on them is not accepted. -/
def SelectsRange (hexpr lexpr : IndexExpr V) : Prop :=
  (∀ d, evaluateRangeExpr hexpr lexpr = .delta d →
    ∀ ρ, hexpr.eval ρ - lexpr.eval ρ + 1 = d.val) ∧
  ((∀ c, ∃ ρ, hexpr.eval ρ - lexpr.eval ρ ≠ c) → evaluateRangeExpr hexpr lexpr = .diffVars)

/-- Of two indices with the same variables, of type `int` for some values of them, the range
is right when and only when no coefficient but the constant one differs. -/
theorem selectsRange_iff (hh : hexpr.ConstantsFit) (hl : lexpr.ConstantsFit)
    (hint : ∃ ρ, Fits true 32 (hexpr.eval ρ) ∧ Fits true 32 (lexpr.eval ρ)) :
    SelectsRange hexpr lexpr ↔
      (hexpr.vars.Perm lexpr.vars →
        ∀ m, m ≠ 0 → hexpr.poly.coeff m = lexpr.poly.coeff m) := by
  rw [← IndexExpr.difference_constant_iff]
  constructor
  · intro hselects hperm
    by_contra hconst
    push Not at hconst
    have hdiff := hselects.2 hconst
    by_cases hnil : hexpr.vars = []
    · rw [evaluateRangeExpr_literals hperm hnil] at hdiff
      cases hdiff
    · rw [evaluateRangeExpr_delta hperm hnil hh hl] at hdiff
      cases hdiff
  · intro hconst
    by_cases hperm : hexpr.vars.Perm lexpr.vars
    · obtain ⟨c, hc⟩ := hconst hperm
      refine ⟨fun d hd ρ => ?_, fun hdepends => ?_⟩
      · by_cases hnil : hexpr.vars = []
        · rw [evaluateRangeExpr_literals hperm hnil] at hd
          cases hd
        · rw [evaluateRangeExpr_delta hperm hnil hh hl] at hd
          cases hd
          obtain ⟨ρ', hhi, hlo⟩ := hint
          rw [fits_signed] at hhi hlo
          have hwidth := hc ρ'
          have hfits : Fits true 64 (c + 1) := fits_signed.mpr (by omega)
          rw [hc, hc, ApsInt.val_of hfits]
      · obtain ⟨ρ, hρ⟩ := hdepends c
        exact absurd (hc ρ) hρ
    · have hdiff := evaluateRangeExpr_diffVars hperm
      refine ⟨fun d hd => ?_, fun _ => hdiff⟩
      rw [hdiff] at hd
      cases hd

end

/-- `range(3 * i + 7, 3 * i)` has 8 bits. -/
theorem selectsRange_shifted :
    let base : IndexExpr Unit := .bin .mul (.const 3) (.var ())
    let hexpr : IndexExpr Unit := .bin .add base (.const 7)
    evaluateRangeExpr hexpr base = .delta (ApsInt.of 64 true 8) ∧ SelectsRange hexpr base := by
  intro base hexpr
  have hbase : base.ConstantsFit :=
    ⟨IndexExpr.constantsFit_const (by decide), trivial, nofun⟩
  have hhexpr : hexpr.ConstantsFit :=
    ⟨hbase, IndexExpr.constantsFit_const (by decide), nofun⟩
  refine ⟨by decide, (selectsRange_iff hhexpr hbase ⟨fun _ => 0, by decide⟩).mpr
    fun _ m hm => ?_⟩
  have hpoly : hexpr.poly = base.poly + MvPolynomial.C 7 := rfl
  rw [hpoly, MvPolynomial.coeff_add, MvPolynomial.coeff_C, if_neg (Ne.symm hm), add_zero]

/-- `range(2 * i + 3, i)` is accepted with 4 bits, and has 5 for `i` 1. -/
theorem selectsRange_fails :
    let lexpr : IndexExpr Unit := .var ()
    let hexpr : IndexExpr Unit := .bin .add (.bin .mul (.const 2) lexpr) (.const 3)
    hexpr.ConstantsFit ∧ lexpr.ConstantsFit ∧
      evaluateRangeExpr hexpr lexpr = .delta (ApsInt.of 64 true 4) ∧
      hexpr.eval (fun _ => 1) - lexpr.eval (fun _ => 1) + 1 = 5 ∧ ¬SelectsRange hexpr lexpr := by
  intro lexpr hexpr
  have hdelta : evaluateRangeExpr hexpr lexpr = .delta (ApsInt.of 64 true 4) := by decide
  have hhexpr : hexpr.ConstantsFit :=
    ⟨⟨IndexExpr.constantsFit_const (by decide), trivial, nofun⟩,
      IndexExpr.constantsFit_const (by decide), nofun⟩
  refine ⟨hhexpr, trivial, hdelta, by decide, ?_⟩
  intro hselects
  exact absurd (hselects.1 _ hdelta fun _ => 1) (by decide)

end SystemcCompiler.PartSelect
