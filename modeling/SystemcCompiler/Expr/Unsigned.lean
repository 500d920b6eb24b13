import SystemcCompiler.Expr.Terms

/-! Translation of expressions over unsigned variables. C++ wraps every operation
at its type, the text is evaluated at one width; the two agree as long as no
operand is cut to a width that its value does not fit. -/
namespace SystemcCompiler.Terms
open Verilog

variable {V : Type}

/-- Types of the operations of the fragment. -/
def CType.IsUnsigned (t : CType) : Prop :=
  t.signed = false ∧ t.isBool = false ∧ (t.width = 32 ∨ t.width = 64)

/-- The type to which comparisons are promoted. -/
def CType.IsInt (t : CType) : Prop :=
  t.signed = true ∧ t.isBool = false ∧ t.width = 32

namespace Expr

/-- A literal of type `int`. -/
def IsIntLit : Expr V → Prop
  | .lit n _ t => t.IsInt ∧ n < 2 ^ 31
  | _ => False

/-- `sc_uint<W>`, `unsigned int` and `unsigned long long` variables, literals,
operations and casts. A comparison may be promoted to `int`. -/
def IsUnsigned : Expr V → Prop
  | .var _ w s t => s = false ∧ 0 < w ∧ w ≤ t.width ∧ t.IsUnsigned
  | .lit n _ t => t.IsUnsigned ∧ n < 2 ^ t.width
  | .implicit t e =>
    e.IsUnsigned ∧ e.type.width ≤ t.width ∧ (t.IsUnsigned ∨ e.type = CType.bool ∧ t.IsInt) ∨
      e.IsIntLit ∧ t.IsUnsigned
  | .explicit w t e => t.IsUnsigned ∧ 0 < w ∧ w ≤ t.width ∧ (e.IsUnsigned ∨ e.IsIntLit)
  | .bin op t l r =>
    if op.isCompare then t = CType.bool ∧ l.IsUnsigned ∧ r.IsUnsigned
    else if op.isShift then t.IsUnsigned ∧ l.type = t ∧ l.IsUnsigned ∧ (r.IsUnsigned ∨ r.IsIntLit)
    else t.IsUnsigned ∧ l.type = t ∧ r.type = t ∧ l.IsUnsigned ∧ r.IsUnsigned

/-- Value of the text without its casts: the operation before it is wrapped. -/
def raw (ρ : V → Int) : Expr V → Int
  | .var x _ _ _ => ρ x
  | .lit n _ _ => n
  | .implicit _ e | .explicit _ _ e => e.raw ρ
  | .bin op t l r => binRaw op t (l.eval ρ) (r.eval ρ)

/-- Width at which C++ wraps the operation of the text. -/
def opWidth : Expr V → Nat
  | .var .. | .lit .. => 64
  | .implicit _ e | .explicit _ _ e => e.opWidth
  | .bin op t _ _ => if op.isCompare then 64 else t.width

/-- An operation that is wrapped below `W` bits stays within its type. -/
def NoCarry (ρ : V → Int) (e : Expr V) (W : Nat) : Prop :=
  e.opWidth < W → 0 ≤ e.raw ρ ∧ e.raw ρ < 2 ^ e.opWidth

/-- What is asked of an operand printed as `t` at width `W`, `str` being what is
asked of its text. A cast that is not the operand's own must hold its value. -/
def PrintKept (ρ : V → Int) (e : Expr V) (t : Term V) (str : Nat → Prop) (W : Nat) : Prop :=
  if t.literal.isSome then str W
  else if t.minCastWidth = 0 then str W ∧ e.NoCarry ρ W
  else str (max t.minCastWidth t.str.width) ∧
    (e.term.minCastWidth = 0 → e.eval ρ < 2 ^ t.minCastWidth ∧ e.NoCarry ρ t.minCastWidth)

/-- Nothing is cut in the text evaluated at width `W`: an operand widened to its
recorded data width fits that width, a divisor that is not widened fits the width
of the division, an operation of 32 bits without narrowing cast does not carry
into a wider context, and a literal fits a cast behind which it is converted. -/
def Kept (ρ : V → Int) : Expr V → Nat → Prop
  | .var .., _ | .lit .., _ => True
  | .implicit _ e, W => e.Kept ρ W ∧
    ∀ n radix, e.term.literal = some (n, radix) → e.term.minCastWidth ≠ 0 →
      n < 2 ^ e.term.minCastWidth
  | .explicit w _ e, W => e.Kept ρ W ∧
    (e.term.literal = none → e.term.minCastWidth = 0 → e.NoCarry ρ w)
  | .bin op _ l r, W =>
    let lt := extendLeft op l.term l.type
    let rt := extendRight op r.term r.type
    let lw := (lt.getTermAsRValue (!op.isShift) false).width
    let rw := (rt.getTermAsRValue (!op.isShift) false).width
    if op.isCompare then
      PrintKept ρ l lt (l.Kept ρ) (max lw rw) ∧ PrintKept ρ r rt (r.Kept ρ) (max lw rw)
    else if op.isShift then
      PrintKept ρ l lt (l.Kept ρ) W ∧ PrintKept ρ r rt (r.Kept ρ) rw
    else
      PrintKept ρ l lt (l.Kept ρ) W ∧ PrintKept ρ r rt (r.Kept ρ) W ∧
        ((op = .div ∨ op = .rem) → rt.incrWidth = true → rt.minCastWidth = 0 → r.eval ρ < 2 ^ W)

end Expr

theorem CType.conv_unsigned {t : CType} (h : t.IsUnsigned) (v : Int) :
    t.conv v = v % 2 ^ t.width := by
  unfold CType.conv
  rw [h.2.1, h.1]
  simp only [Bool.false_eq_true, if_false, valueOf, BitVec.toNat_ofInt]
  have hpos : (0 : Int) < ((2 ^ t.width : Nat) : Int) := by positivity
  rw [Int.toNat_of_nonneg (Int.emod_nonneg _ hpos.ne')]
  push_cast
  rfl

theorem CType.IsUnsigned.width_bounds {t : CType} (h : t.IsUnsigned) :
    32 ≤ t.width ∧ t.width ≤ 64 := by
  rcases h.2.2 with h | h <;> omega

theorem CType.conv_int_bit {t : CType} (h : t.IsInt) {v : Int} (h0 : 0 ≤ v) (h1 : v < 2) :
    t.conv v = v := by
  unfold CType.conv
  rw [h.2.1, h.1, h.2.2]
  simp only [Bool.false_eq_true, if_false]
  apply valueOf_ofInt
  rw [fits_signed]
  omega

namespace Expr

/-- Values are non-negative and below the size of their type. -/
theorem eval_bounds {ρ : V → Int} {e : Expr V} (hu : e.IsUnsigned) (hr : e.Ranged ρ) :
    0 ≤ e.eval ρ ∧ e.eval ρ < 2 ^ e.type.width := by
  induction e with
  | var x w s t =>
    obtain ⟨rfl, -, hw, -⟩ := hu
    exact fits_unsigned.mp (Fits.mono hr hw)
  | lit n radix t =>
    have hn : ((n : Nat) : Int) < ((2 ^ t.width : Nat) : Int) := by exact_mod_cast hu.2
    refine ⟨Int.natCast_nonneg n, ?_⟩
    push_cast at hn
    exact hn
  | implicit t e ih =>
    rcases hu with ⟨he, hw, ht | ⟨hb, ht⟩⟩ | ⟨-, ht⟩
    · rw [eval, CType.conv_unsigned ht]
      exact ⟨Int.emod_nonneg _ (by positivity), Int.emod_lt_of_pos _ (by positivity)⟩
    · have hbit := ih he hr
      rw [hb] at hbit
      rw [eval, CType.conv_int_bit ht hbit.1 hbit.2]
      refine ⟨hbit.1, lt_of_lt_of_le hbit.2 ?_⟩
      change (2 : Int) ^ 1 ≤ 2 ^ t.width
      exact pow_le_pow_right₀ (by omega) (by rw [ht.2.2]; omega)
    · rw [eval, CType.conv_unsigned ht]
      exact ⟨Int.emod_nonneg _ (by positivity), Int.emod_lt_of_pos _ (by positivity)⟩
  | explicit w t e ih =>
    rw [eval]
    have hlt : e.eval ρ % 2 ^ w < 2 ^ w := Int.emod_lt_of_pos _ (by positivity)
    refine ⟨Int.emod_nonneg _ (by positivity), lt_of_lt_of_le hlt ?_⟩
    exact pow_le_pow_right₀ (by omega) hu.2.2.1
  | bin op t l r ihl ihr =>
    rw [eval]
    unfold IsUnsigned at hu
    by_cases hc : op.isCompare = true
    · rw [if_pos hc] at hu
      rw [hu.1, binRaw_compare hc, CType.conv_bool]
      cases compare op (l.eval ρ) (r.eval ρ) <;> simp [type, CType.bool]
    · have ht : t.IsUnsigned := by
        rw [if_neg hc] at hu
        split at hu <;> exact hu.1
      rw [CType.conv_unsigned ht]
      exact ⟨Int.emod_nonneg _ (by positivity), Int.emod_lt_of_pos _ (by positivity)⟩

end Expr

/-- Casts of a term: none, or a smallest and a last one. -/
def Term.CastsOk (t : Term V) : Prop :=
  t.minCastWidth = 0 ∧ t.lastCastWidth = 0 ∨
    0 < t.minCastWidth ∧ t.minCastWidth ≤ t.lastCastWidth ∧ t.lastCastWidth ≤ 64

/-- A term of the fragment that is no literal. -/
structure Term.Plain (t : Term V) : Prop where
  literal : t.literal = none
  unsigned : t.str.isSigned = false
  width_pos : 0 < t.str.width
  width_le : t.str.width ≤ 64
  sign : t.castSign ≠ .scast ∧ t.castSign ≠ .sacast
  casts : t.CastsOk
  data : t.exprWidth ≤ 64 ∨ t.minCastWidth ≠ 0

structure Term.IsLiteral (t : Term V) (n radix : Nat) : Prop where
  literal : t.literal = some (n, radix)
  castSign : t.castSign = .ucast
  casts : t.CastsOk
  explCast : t.explCast = true ↔ t.minCastWidth ≠ 0
  incrWidth : t.incrWidth = false
  bound : n < 2 ^ 64

/-- Value of a literal after its casts. -/
def Term.cut (t : Term V) (n : Nat) : Nat :=
  if t.minCastWidth = 0 then n else n % 2 ^ t.minCastWidth

namespace Term

theorem makeTermStr_unsigned (s : Sv V) (m l : Nat) {c : CastSign} (h1 : c ≠ .scast)
    (h2 : c ≠ .sacast) : makeTermStr s m l c = makeTermStr s m l .nocast := by
  cases c with
  | scast => exact absurd rfl h1
  | sacast => exact absurd rfl h2
  | nocast | ucast | bcast => rfl

theorem Plain.rvalue {t : Term V} (h : t.Plain) (d z : Bool) :
    t.getTermAsRValue d z = if t.minCastWidth = 0 then t.str
      else if t.lastCastWidth = t.minCastWidth then .size t.minCastWidth t.str
      else .size t.lastCastWidth (.size t.minCastWidth t.str) := by
  have hsign :
      makeTermStr t.str t.minCastWidth t.lastCastWidth (if d then t.castSign else .nocast) =
      makeTermStr t.str t.minCastWidth t.lastCastWidth .nocast := by
    cases d with
    | false => rfl
    | true => exact makeTermStr_unsigned _ _ _ h.sign.1 h.sign.2
  unfold getTermAsRValue
  simp only [h.literal]
  rw [hsign]
  simp only [makeTermStr]
  rcases h.casts with ⟨hm, hl⟩ | ⟨hm, hle, -⟩
  · simp [hm, hl]
  · have hm0 : t.minCastWidth ≠ 0 := by omega
    have hl0 : t.lastCastWidth ≠ 0 := by omega
    simp only [ne_eq, hm0, not_false_eq_true, if_true, hl0, true_and, if_false]
    by_cases heq : t.lastCastWidth = t.minCastWidth <;> simp [heq]

theorem Plain.rvalue_width {t : Term V} (h : t.Plain) (d z : Bool) :
    (t.getTermAsRValue d z).width =
      if t.minCastWidth = 0 then t.str.width else t.lastCastWidth := by
  rw [h.rvalue]
  split
  · rfl
  · split
    · rename_i heq
      rw [heq]
      rfl
    · rfl

theorem Plain.rvalue_unsigned {t : Term V} (h : t.Plain) (d z : Bool) :
    (t.getTermAsRValue d z).isSigned = false := by
  rw [h.rvalue]
  split
  · exact h.unsigned
  · split <;> exact h.unsigned

/-- A cast term shows the value of its text cut to the smallest cast. -/
theorem Plain.shows_cast {t : Term V} (h : t.Plain) {ρ : V → Int} {a v : Int} (d z : Bool) (W : Nat)
    (hm : t.minCastWidth ≠ 0) (hs : Shows ρ t.str (max t.minCastWidth t.str.width) false a)
    (hv : Fits false t.minCastWidth v) (hav : a % 2 ^ t.minCastWidth = v % 2 ^ t.minCastWidth) :
    Shows ρ (t.getTermAsRValue d z) W false v := by
  have hinner : ∀ K, Shows ρ (.size t.minCastWidth t.str) K false v := by
    intro K
    refine shows_size ?_ (fun _ => hv) hav
    rw [h.unsigned]
    exact hs
  have hle : t.minCastWidth ≤ t.lastCastWidth := by
    rcases h.casts with ⟨h0, -⟩ | ⟨-, h1, -⟩
    · exact absurd h0 hm
    · exact h1
  rw [h.rvalue, if_neg hm]
  split
  · exact hinner W
  · refine shows_size (a := v) ?_ (fun _ => hv.mono hle) rfl
    exact (show (Sv.size t.minCastWidth t.str).isSigned = false from h.unsigned) ▸ hinner _

theorem extendTypeWidth_cast {t : Term V} {N : Nat} (hN : t.minCastWidth = 0 → 0 < N) :
    (t.extendTypeWidth N).minCastWidth ≠ 0 := by
  simp only [extendTypeWidth]
  split
  · assumption
  · have := hN (by omega)
    omega

theorem Plain.extend {t : Term V} (h : t.Plain) {N : Nat}
    (hN : t.minCastWidth = 0 → 0 < N ∧ N ≤ 64) : (t.extendTypeWidth N).Plain where
  literal := h.literal
  unsigned := h.unsigned
  width_pos := h.width_pos
  width_le := h.width_le
  sign := h.sign
  casts := by
    rcases h.casts with ⟨hm, hl⟩ | ⟨hm, hle, hl⟩
    · right
      have := hN hm
      simp [extendTypeWidth, hm, hl, this]
    · right
      have hm0 : t.minCastWidth ≠ 0 := by omega
      have hl0 : t.lastCastWidth ≠ 0 := by omega
      simp [extendTypeWidth, hm0, hl0]
      omega
  data := .inr (extendTypeWidth_cast fun h0 => (hN h0).1)

/-- Width of a literal as it is printed inside an expression. -/
def literalWidth (t : Term V) (n : Nat) : Nat :=
  if t.minCastWidth = 0 then getBitsNeeded n else t.lastCastWidth

theorem IsLiteral.rvalue {t : Term V} {n radix : Nat} (h : t.IsLiteral n radix) (d : Bool) :
    t.getTermAsRValue d false = if t.minCastWidth = 0 then .lit (getBitsNeeded n) false n
      else if t.lastCastWidth = t.minCastWidth then .lit t.minCastWidth false n
      else .size t.lastCastWidth (.lit t.minCastWidth false n) := by
  have hbits : getBitsNeeded n ≠ 0 := by
    unfold getBitsNeeded
    omega
  unfold getTermAsRValue
  rw [h.literal]
  simp only [makeLiteralStr, h.castSign]
  rcases h.casts with ⟨hm, hl⟩ | ⟨hm, hle, -⟩
  · simp [hm, hl, hbits]
  · have hm0 : t.minCastWidth ≠ 0 := by omega
    have hl0 : t.lastCastWidth ≠ 0 := by omega
    simp only [h.explCast.mpr hm0, if_true]
    by_cases heq : t.lastCastWidth = t.minCastWidth <;> simp [hm0, hl0, heq]

theorem IsLiteral.cut_lt {t : Term V} {n radix : Nat} (h : t.IsLiteral n radix) :
    t.cut n < 2 ^ t.literalWidth n := by
  unfold cut literalWidth
  split
  · exact lt_getBitsNeeded n
  · rename_i hm
    rcases h.casts with ⟨h0, -⟩ | ⟨-, hle, -⟩
    · exact absurd h0 hm
    · exact Nat.lt_of_lt_of_le (Nat.mod_lt _ (by positivity)) (Nat.pow_le_pow_right (by omega) hle)

/-- A literal shows its value in every context. -/
theorem IsLiteral.shows {t : Term V} {n radix : Nat} (h : t.IsLiteral n radix) (ρ : V → Int)
    (d : Bool) (W : Nat) : Shows ρ (t.getTermAsRValue d false) W false (t.cut n) := by
  rw [h.rvalue]
  unfold cut
  split
  · apply shows_lit
    rw [fits_unsigned]
    have := lt_getBitsNeeded n
    constructor
    · omega
    · exact_mod_cast this
  · rename_i hm
    split
    · exact shows_lit_mod
    · refine shows_size (a := (n % 2 ^ t.minCastWidth : Nat)) shows_lit_mod ?_ rfl
      intro _
      have hlt := h.cut_lt
      unfold cut literalWidth at hlt
      rw [if_neg hm, if_neg hm] at hlt
      rw [fits_unsigned]
      constructor
      · omega
      · exact_mod_cast hlt

theorem IsLiteral.rvalue_facts {t : Term V} {n radix : Nat} (h : t.IsLiteral n radix) (d : Bool) :
    (t.getTermAsRValue d false).isSigned = false ∧
      (t.getTermAsRValue d false).width = t.literalWidth n ∧
      0 < t.literalWidth n ∧ t.literalWidth n ≤ 64 := by
  have hbits : 0 < getBitsNeeded n := by
    unfold getBitsNeeded
    omega
  have hle := getBitsNeeded_le h.bound (by omega)
  rw [h.rvalue]
  unfold literalWidth
  split
  · exact ⟨rfl, rfl, hbits, hle⟩
  · rename_i hm
    rcases h.casts with ⟨h0, -⟩ | ⟨hpos, hml, h64⟩
    · exact absurd h0 hm
    · split
      · rename_i heq
        exact ⟨rfl, heq.symm, by omega, h64⟩
      · exact ⟨rfl, rfl, by omega, h64⟩

end Term

namespace Expr
variable {ρ : V → Int}

/-- What is known of an expression whose term is no literal. -/
structure SoundText (ρ : V → Int) (e : Expr V) : Prop where
  plain : e.term.Plain
  shows : ∀ W, e.term.str.width ≤ W → W ≤ 64 → e.Kept ρ W → Shows ρ e.term.str W false (e.raw ρ)
  value : ∀ W, e.Kept ρ W → e.eval ρ =
    e.raw ρ % 2 ^ (if e.term.minCastWidth = 0 then e.opWidth else e.term.minCastWidth)
  tight : ∀ W, e.Kept ρ W → e.term.incrWidth = false → e.term.minCastWidth = 0 →
    e.eval ρ < 2 ^ e.term.str.width

structure SoundLiteral (ρ : V → Int) (e : Expr V) (n radix : Nat) : Prop where
  literal : e.term.IsLiteral n radix
  value : ∀ W, e.Kept ρ W → e.eval ρ = e.term.cut n

def Sound (ρ : V → Int) (e : Expr V) : Prop :=
  SoundText ρ e ∨ ∃ n radix, SoundLiteral ρ e n radix

/-- What is known of an operand as it is printed. -/
structure Printed (ρ : V → Int) (e : Expr V) (t : Term V) (s : Sv V) (W : Nat) : Prop where
  shows : s.width ≤ W → W ≤ 64 → Shows ρ s W false (e.eval ρ)
  fits : (t.incrWidth = true ∧ t.minCastWidth = 0) ∨ Fits false s.width (e.eval ρ)

theorem NoCarry.emod_eq {e : Expr V} {K : Nat} (h : e.NoCarry ρ K)
    (hv : e.eval ρ = e.raw ρ % 2 ^ e.opWidth) : e.raw ρ % 2 ^ K = e.eval ρ % 2 ^ K := by
  rw [hv]
  by_cases hK : e.opWidth < K
  · have := h hK
    rw [Int.emod_eq_of_lt this.1 this.2]
  · rw [Int.emod_emod_of_dvd]
    exact pow_dvd_pow 2 (by omega)

/-- A text printed with casts of its own. -/
theorem SoundText.printed_cast {e : Expr V} (h : SoundText ρ e) {t : Term V} (ht : t.Plain)
    (hstr : t.str = e.term.str) (hm : t.minCastWidth ≠ 0) (hb : 0 ≤ e.eval ρ)
    (hlt : e.eval ρ < 2 ^ t.minCastWidth)
    (hmod : e.raw ρ % 2 ^ t.minCastWidth = e.eval ρ % 2 ^ t.minCastWidth)
    (hk : e.Kept ρ (max t.minCastWidth t.str.width)) (d z : Bool) (W : Nat) :
    Printed ρ e t (t.getTermAsRValue d z) W := by
  have hcasts : t.minCastWidth ≤ t.lastCastWidth ∧ t.lastCastWidth ≤ 64 := by
    rcases ht.casts with ⟨h0, -⟩ | ⟨-, h1, h2⟩
    · exact absurd h0 hm
    · exact ⟨h1, h2⟩
  have hwidth := ht.rvalue_width d z
  rw [if_neg hm] at hwidth
  have hfit : Fits false t.minCastWidth (e.eval ρ) := fits_unsigned.mpr ⟨hb, hlt⟩
  constructor
  · intro _ _
    have hle := ht.width_le
    refine ht.shows_cast d z W hm ?_ hfit hmod
    rw [hstr] at hk hle ⊢
    exact h.shows _ (by omega) (by omega) hk
  · right
    rw [hwidth]
    exact hfit.mono hcasts.1

theorem SoundText.printed {e : Expr V} (h : SoundText ρ e) (hb : 0 ≤ e.eval ρ) (d z : Bool)
    (W : Nat) (hk : PrintKept ρ e e.term (e.Kept ρ) W) :
    Printed ρ e e.term (e.term.getTermAsRValue d z) W := by
  have hlit := h.plain.literal
  simp only [PrintKept, hlit, Option.isSome_none, Bool.false_eq_true, if_false] at hk
  by_cases hm : e.term.minCastWidth = 0
  · rw [if_pos hm] at hk
    have hval := h.value W hk.1
    rw [if_pos hm] at hval
    have hs : e.term.getTermAsRValue d z = e.term.str := by
      rw [h.plain.rvalue, if_pos hm]
    rw [hs]
    constructor
    · intro hw h64
      exact (h.shows W hw h64 hk.1).congr (hk.2.emod_eq hval)
    · cases hi : e.term.incrWidth with
      | true => exact .inl ⟨rfl, hm⟩
      | false => exact .inr (fits_unsigned.mpr ⟨hb, h.tight W hk.1 hi hm⟩)
  · rw [if_neg hm] at hk
    have hval := h.value _ hk.1
    rw [if_neg hm] at hval
    have hlt : e.eval ρ < 2 ^ e.term.minCastWidth := by
      rw [hval]
      exact Int.emod_lt_of_pos _ (by positivity)
    refine h.printed_cast h.plain rfl hm hb hlt ?_ hk.1 d z W
    rw [hval, Int.emod_emod_of_dvd _ (dvd_refl _)]

/-- An operand widened to its data width. -/
theorem SoundText.printed_extend {e : Expr V} (h : SoundText ρ e) (hb : 0 ≤ e.eval ρ) {N : Nat}
    (hN : e.term.minCastWidth = 0 → 0 < N ∧ N ≤ 64) (d z : Bool) (W : Nat)
    (hk : PrintKept ρ e (e.term.extendTypeWidth N) (e.Kept ρ) W) :
    Printed ρ e (e.term.extendTypeWidth N) ((e.term.extendTypeWidth N).getTermAsRValue d z) W := by
  have hplain := h.plain.extend hN
  have hm : (e.term.extendTypeWidth N).minCastWidth ≠ 0 :=
    Term.extendTypeWidth_cast fun h0 => (hN h0).1
  simp only [PrintKept, hplain.literal, Option.isSome_none, Bool.false_eq_true, if_false,
    if_neg hm] at hk
  have hval := h.value _ hk.1
  by_cases h0 : e.term.minCastWidth = 0
  · have hcond := hk.2 h0
    rw [if_pos h0] at hval
    exact h.printed_cast hplain rfl hm hb hcond.1 (hcond.2.emod_eq hval) hk.1 d z W
  · have hmin : (e.term.extendTypeWidth N).minCastWidth = e.term.minCastWidth := by
      simp [Term.extendTypeWidth, h0]
    rw [if_neg h0] at hval
    refine h.printed_cast hplain rfl hm hb ?_ ?_ hk.1 d z W
    · rw [hmin, hval]
      exact Int.emod_lt_of_pos _ (by positivity)
    · rw [hmin, hval, Int.emod_emod_of_dvd _ (dvd_refl _)]

theorem SoundLiteral.printed {e : Expr V} {n radix : Nat} (h : SoundLiteral ρ e n radix) (d : Bool)
    (W : Nat) (hk : PrintKept ρ e e.term (e.Kept ρ) W) :
    Printed ρ e e.term (e.term.getTermAsRValue d false) W := by
  have hfacts := h.literal.rvalue_facts d
  simp only [PrintKept, h.literal.literal, Option.isSome_some, if_true] at hk
  have hval := h.value W hk
  have hlt := h.literal.cut_lt
  constructor
  · intro _ _
    rw [hval]
    exact h.literal.shows ρ d W
  · right
    rw [hfacts.2.1, hval, fits_unsigned]
    constructor
    · omega
    · exact_mod_cast hlt

theorem type_width {e : Expr V} (hu : e.IsUnsigned) : 0 < e.type.width ∧ e.type.width ≤ 64 := by
  cases e with
  | var x w s t =>
    have := hu.2.2.2.width_bounds
    simp only [type]
    omega
  | lit n radix t =>
    have := hu.1.width_bounds
    simp only [type]
    omega
  | implicit t e =>
    simp only [type]
    rcases hu with ⟨-, -, ht | ⟨-, ht⟩⟩ | ⟨-, ht⟩
    · have := ht.width_bounds
      omega
    · have := ht.2.2
      omega
    · have := ht.width_bounds
      omega
  | explicit w t e =>
    have := hu.1.width_bounds
    simp only [type]
    omega
  | bin op t l r =>
    simp only [type]
    unfold IsUnsigned at hu
    split at hu
    · rw [hu.1]
      decide
    · split at hu <;>
      · have := hu.1.width_bounds
        omega

theorem SoundText.typeWidth_bounds {e : Expr V} (h : SoundText ρ e) (hu : e.IsUnsigned)
    (hm : e.term.minCastWidth = 0) :
    0 < e.term.getExprTypeWidth e.type ∧ e.term.getExprTypeWidth e.type ≤ 64 := by
  have hlast : e.term.lastCastWidth = 0 := by
    rcases h.plain.casts with ⟨-, hl⟩ | ⟨hm', -, -⟩
    · exact hl
    · omega
  have hdata : e.term.exprWidth ≤ 64 := by
    rcases h.plain.data with hd | hd
    · exact hd
    · exact absurd hm hd
  have htype := type_width hu
  unfold Term.getExprTypeWidth Term.getExprWidth
  simp only [hlast, ne_eq, not_true_eq_false, and_false, if_false]
  split
  · exact htype
  · omega

/-- Texts of operands are unsigned and of at most 64 bits. -/
structure Narrow (s : Sv V) : Prop where
  unsigned : s.isSigned = false
  width_pos : 0 < s.width
  width_le : s.width ≤ 64

theorem narrow_of_plain {t : Term V} (h : t.Plain) (d z : Bool) :
    Narrow (t.getTermAsRValue d z) := by
  have hwidth := h.rvalue_width d z
  have hpos := h.width_pos
  have hle := h.width_le
  have hcasts := h.casts
  constructor
  · exact h.rvalue_unsigned d z
  · rw [hwidth]
    rcases hcasts with hc | hc <;> split <;> omega
  · rw [hwidth]
    rcases hcasts with hc | hc <;> split <;> omega

theorem SoundText.widened_bounds {e : Expr V} (h : SoundText ρ e) (hu : e.IsUnsigned) {k : Nat}
    (hk : 0 < k) (hm : e.term.minCastWidth = 0) :
    0 < min (e.term.getExprTypeWidth e.type) k ∧ min (e.term.getExprTypeWidth e.type) k ≤ 64 := by
  have := h.typeWidth_bounds hu hm
  omega

theorem Sound.narrow {e : Expr V} (h : Sound ρ e) (hu : e.IsUnsigned) {t : Term V}
    (ht : Adjusted e t) (d : Bool) : Narrow (t.getTermAsRValue d false) := by
  rcases h with h | ⟨n, radix, h⟩
  · rcases ht with rfl | ⟨-, k, hk, rfl⟩
    · exact narrow_of_plain h.plain d false
    · exact narrow_of_plain (h.plain.extend (h.widened_bounds hu hk)) d false
  · rcases ht with rfl | ⟨hi, -⟩
    · have hfacts := h.literal.rvalue_facts d
      exact ⟨hfacts.1, by omega, by omega⟩
    · rw [h.literal.incrWidth] at hi
      cases hi

theorem Sound.printed_of_adjusted {e : Expr V} (h : Sound ρ e) (hu : e.IsUnsigned)
    (hr : e.Ranged ρ) {t : Term V} (ht : Adjusted e t) (d : Bool) (W : Nat)
    (hk : PrintKept ρ e t (e.Kept ρ) W) : Printed ρ e t (t.getTermAsRValue d false) W := by
  have hb := (eval_bounds hu hr).1
  rcases h with h | ⟨n, radix, h⟩
  · rcases ht with rfl | ⟨-, k, hpos, rfl⟩
    · exact h.printed hb d false W hk
    · exact h.printed_extend hb (h.widened_bounds hu hpos) d false W hk
  · rcases ht with rfl | ⟨hi, -⟩
    · exact h.printed d W hk
    · rw [h.literal.incrWidth] at hi
      cases hi

/-- Operators whose operands are taken by value, not modulo a width. -/
def takesValue : BinOp → Bool
  | .add | .sub | .mul | .shl => false
  | _ => true

/-- An operand taken by value that grows in width is widened. -/
theorem extendLeft_widens {op : BinOp} (hop : takesValue op = true) {t : Term V} {type : CType}
    (hi : t.incrWidth = true) (hw : 0 < type.width)
    (ht : t.minCastWidth = 0 → 0 < t.getExprTypeWidth type) :
    (extendLeft op t type).minCastWidth ≠ 0 := by
  unfold extendLeft
  rw [if_neg (by rw [hi]; decide)]
  cases op <;> first
    | exact Term.extendTypeWidth_cast ht
    | exact Term.extendTypeWidth_cast (fun hm => by have := ht hm; omega)
    | exact absurd hop (by decide)

theorem extendRight_widens {op : BinOp} (hop : takesValue op = true ∨ op = .shl)
    (hdiv : op ≠ .div ∧ op ≠ .rem) {t : Term V} {type : CType} (hi : t.incrWidth = true)
    (hw : 0 < type.width) (ht : t.minCastWidth = 0 → 0 < t.getExprTypeWidth type) :
    (extendRight op t type).minCastWidth ≠ 0 := by
  unfold extendRight
  rw [if_neg (by rw [hi]; decide)]
  cases op <;> first
    | exact Term.extendTypeWidth_cast (fun hm => by have := ht hm; omega)
    | exact absurd hop (by decide)
    | exact absurd hdiv (by decide)

theorem Sound.typeWidth_pos {e : Expr V} (h : Sound ρ e) (hu : e.IsUnsigned)
    (hi : e.term.incrWidth = true) (hm : e.term.minCastWidth = 0) :
    0 < e.term.getExprTypeWidth e.type := by
  rcases h with h | ⟨n, radix, h⟩
  · exact (h.typeWidth_bounds hu hm).1
  · rw [h.literal.incrWidth] at hi
    cases hi

/-- The left operand, which fits its text if it is taken by value. -/
theorem Sound.printed_left {e : Expr V} (h : Sound ρ e) (hu : e.IsUnsigned) (hr : e.Ranged ρ)
    (op : BinOp) (d : Bool) (W : Nat)
    (hk : PrintKept ρ e (extendLeft op e.term e.type) (e.Kept ρ) W) :
    Printed ρ e (extendLeft op e.term e.type)
        ((extendLeft op e.term e.type).getTermAsRValue d false) W ∧
      (takesValue op = true →
        Fits false ((extendLeft op e.term e.type).getTermAsRValue d false).width (e.eval ρ)) := by
  have hw := (type_width hu).1
  have hN := extendLeft_adjusted op hw
  have hp := h.printed_of_adjusted hu hr hN d W hk
  refine ⟨hp, fun hop => ?_⟩
  rcases hp.fits with ⟨hi, hm⟩ | hf
  · rw [hN.incrWidth] at hi
    exact absurd hm (extendLeft_widens hop hi hw (h.typeWidth_pos hu hi))
  · exact hf

/-- The right operand. A divisor that is not widened has to fit the context. -/
theorem Sound.printed_right {e : Expr V} (h : Sound ρ e) (hu : e.IsUnsigned) (hr : e.Ranged ρ)
    (op : BinOp) (d : Bool) (W : Nat)
    (hk : PrintKept ρ e (extendRight op e.term e.type) (e.Kept ρ) W) :
    Printed ρ e (extendRight op e.term e.type)
        ((extendRight op e.term e.type).getTermAsRValue d false) W ∧
      ((takesValue op = true ∨ op = .shl) → op ≠ .div ∧ op ≠ .rem →
        Fits false ((extendRight op e.term e.type).getTermAsRValue d false).width (e.eval ρ)) := by
  have hw := (type_width hu).1
  have hN := extendRight_adjusted op hw
  have hp := h.printed_of_adjusted hu hr hN d W hk
  refine ⟨hp, fun hop hdiv => ?_⟩
  rcases hp.fits with ⟨hi, hm⟩ | hf
  · rw [hN.incrWidth] at hi
    exact absurd hm (extendRight_widens hop hdiv hi hw (h.typeWidth_pos hu hi))
  · exact hf

/-- An `int` literal as shift amount. -/
theorem IsIntLit.printed {e : Expr V} (h : e.IsIntLit) (op : BinOp) (d : Bool) :
    ((extendRight op e.term e.type).getTermAsRValue d false).width = 32 ∧
      Shows ρ ((extendRight op e.term e.type).getTermAsRValue d false) 32
        ((extendRight op e.term e.type).getTermAsRValue d false).isSigned (e.eval ρ) ∧
      Fits false 32 (e.eval ρ) := by
  cases e with
  | lit n radix t =>
    obtain ⟨⟨hs, -, -⟩, hn⟩ := h
    have hterm : extendRight op (Expr.lit n radix t : Expr V).term t =
        Term.putLiteral n radix .nocast := by
      simp [extendRight, term, hs, Term.putLiteral, Term.putString]
    have hbits : getBitsNeeded n ≤ 31 := getBitsNeeded_le hn (by omega)
    have hbig : ¬ 32 ≤ getBitsNeeded n := by omega
    have htext : ∃ s, (Term.putLiteral n radix .nocast : Term V).getTermAsRValue d false =
        .lit 32 s n := by
      simp [Term.getTermAsRValue, Term.putLiteral, Term.putString, makeLiteralStr, hbig]
    obtain ⟨s, htext⟩ := htext
    have hfit : ∀ S, Fits S 32 (n : Int) := by
      intro S
      have : (n : Int) < 2 ^ 31 := by exact_mod_cast hn
      cases S with
      | false =>
        rw [fits_unsigned]
        omega
      | true =>
        rw [fits_signed]
        omega
    simp only [type, eval, hterm, htext]
    exact ⟨rfl, shows_lit (hfit _), hfit false⟩
  | var x w s t => exact h.elim
  | implicit t e => exact h.elim
  | explicit w t e => exact h.elim
  | bin op t l r => exact h.elim

end Expr

private theorem emod_le_self {a b : Int} (ha : 0 ≤ a) (hb : 0 ≤ b) : a % b ≤ a := by
  have := Int.mul_nonneg hb (Int.ediv_nonneg ha hb)
  rw [Int.emod_def]
  omega

/-- Quotient, remainder and right shift do not exceed the left operand. -/
theorem binRaw_le {op : BinOp} (hop : op = .div ∨ op = .rem ∨ op = .shr) (t : CType) {a b : Int}
    (ha : 0 ≤ a) (hb : 0 ≤ b) : 0 ≤ binRaw op t a b ∧ binRaw op t a b ≤ a := by
  rcases hop with rfl | rfl | rfl
  · simp only [binRaw]
    exact ⟨Int.tdiv_nonneg ha hb, Int.tdiv_le_self b ha⟩
  · simp only [binRaw]
    refine ⟨Int.tmod_nonneg b ha, ?_⟩
    rw [Int.tmod_eq_emod_of_nonneg ha]
    exact emod_le_self ha hb
  · simp only [binRaw]
    exact ⟨Int.ediv_nonneg ha (by positivity), Int.ediv_le_self _ ha⟩

theorem binRaw_bitwise_lt {op : BinOp} (hop : op.isBitwise = true) {t : CType}
    (ht : t.signed = false) {a b : Int} {K : Nat} (ha : Fits false K a) (hb : Fits false K b) :
    0 ≤ binRaw op t a b ∧ binRaw op t a b < 2 ^ K := by
  have hnat : ∀ v : Int, Fits false K v → (BitVec.ofInt t.width v).toNat < 2 ^ K := by
    intro v hv
    rw [fits_unsigned] at hv
    rw [BitVec.toNat_ofInt]
    have hle : v % ((2 ^ t.width : Nat) : Int) ≤ v := emod_le_self hv.1 (by positivity)
    have hlt : v % ((2 ^ t.width : Nat) : Int) < ((2 ^ K : Nat) : Int) := by
      push_cast at hle ⊢
      omega
    omega
  have hops : op = .and ∨ op = .or ∨ op = .xor := by
    cases op <;> simp [BinOp.isBitwise] at hop ⊢
  have hval : binRaw op t a b = ((arith op false (BitVec.ofInt t.width a)
      (BitVec.ofInt t.width b)).toNat : Int) := by
    rcases hops with rfl | rfl | rfl <;> simp [binRaw, ht, valueOf]
  have hlt : (arith op false (BitVec.ofInt t.width a) (BitVec.ofInt t.width b)).toNat < 2 ^ K := by
    rcases hops with rfl | rfl | rfl
    · simp only [arith, BitVec.toNat_and]
      exact Nat.and_lt_two_pow _ (hnat b hb)
    · simp only [arith, BitVec.toNat_or]
      exact Nat.or_lt_two_pow (hnat a ha) (hnat b hb)
    · simp only [arith, BitVec.toNat_xor]
      exact Nat.xor_lt_two_pow (hnat a ha) (hnat b hb)
  rw [hval]
  constructor
  · omega
  · exact_mod_cast hlt

namespace Expr
variable {ρ : V → Int}

/-- Operands of unsigned operations get no sign. -/
theorem str_bin (op : BinOp) {t : CType} (ht : t.signed = false) (l r : Expr V) :
    (Expr.bin op t l r).term.str =
      .bin op ((extendLeft op l.term l.type).getTermAsRValue (!op.isShift) false)
        ((extendRight op r.term r.type).getTermAsRValue (!op.isShift) false) := by
  rw [(term_bin op t l r).1]
  simp [leftTerm, rightTerm, signOperand, ht]

theorem opWidth_bin {op : BinOp} (hc : op.isCompare = false) (t : CType) (l r : Expr V) :
    (Expr.bin op t l r).opWidth = t.width := by
  simp [opWidth, hc]

/-- Casts, sign and data width of the term of an operation. -/
theorem plain_bin {op : BinOp} {t : CType} (hw : 0 < t.width) (h64 : t.width ≤ 64) {l r : Expr V}
    (hs : (Expr.bin op t l r).term.str.isSigned = false)
    (hpos : 0 < (Expr.bin op t l r).term.str.width)
    (hle : (Expr.bin op t l r).term.str.width ≤ 64) : (Expr.bin op t l r).term.Plain := by
  obtain ⟨-, hlit, hsign, -, hcast⟩ := term_bin op t l r
  constructor
  · exact hlit
  · exact hs
  · exact hpos
  · exact hle
  · rw [hsign]
    decide
  · rcases hcast with ⟨hm, hl, -⟩ | ⟨-, hm, hl⟩
    · exact .inl ⟨hm, hl⟩
    · right
      omega
  · rcases hcast with ⟨-, -, hd | ⟨-, hd⟩⟩ | ⟨-, hm, -⟩
    · left
      omega
    · left
      omega
    · right
      omega

theorem value_bin {op : BinOp} {t : CType} (ht : t.IsUnsigned) (hc : op.isCompare = false)
    (l r : Expr V) : (Expr.bin op t l r).eval ρ = (Expr.bin op t l r).raw ρ %
      2 ^ (if (Expr.bin op t l r).term.minCastWidth = 0 then (Expr.bin op t l r).opWidth
        else (Expr.bin op t l r).term.minCastWidth) := by
  obtain ⟨-, -, -, -, hcast⟩ := term_bin op t l r
  have hexp : (if (Expr.bin op t l r).term.minCastWidth = 0 then (Expr.bin op t l r).opWidth
      else (Expr.bin op t l r).term.minCastWidth) = t.width := by
    rcases hcast with ⟨hm, -, -⟩ | ⟨-, hm, -⟩
    · rw [if_pos hm, opWidth_bin hc]
    · have := ht.width_bounds
      rw [if_neg (by omega), hm]
  rw [hexp, eval, CType.conv_unsigned ht, raw]

theorem sound_compare {op : BinOp} (hc : op.isCompare = true) {l r : Expr V}
    (hl : Sound ρ l) (hr : Sound ρ r) (hul : l.IsUnsigned) (hur : r.IsUnsigned)
    (hrl : l.Ranged ρ) (hrr : r.Ranged ρ) : SoundText ρ (.bin op .bool l r) := by
  have hstr := str_bin op (t := CType.bool) rfl l r
  obtain ⟨-, -, -, -, hcast⟩ := term_bin op CType.bool l r
  have htake : takesValue op = true := by
    cases op <;> first | rfl | exact absurd hc (by decide)
  have hdiv : op ≠ .div ∧ op ≠ .rem := by
    cases op <;> first | exact ⟨by decide, by decide⟩ | exact absurd hc (by decide)
  have hm : (Expr.bin op CType.bool l r).term.minCastWidth = 0 := by
    rcases hcast with ⟨hm, -, -⟩ | ⟨h, -, -⟩
    · exact hm
    · rw [hc] at h
      cases h
  have hval : (Expr.bin op CType.bool l r).eval ρ = (compare op (l.eval ρ) (r.eval ρ)).toNat := by
    rw [eval, binRaw_compare hc, CType.conv_bool]
  have hbit : (((compare op (l.eval ρ) (r.eval ρ)).toNat : Nat) : Int) < 2 := by
    cases compare op (l.eval ρ) (r.eval ρ) <;> simp
  have hwidth : (Expr.bin op CType.bool l r).term.str.width = 1 := by
    rw [hstr]
    simp [Sv.width, hc]
  constructor
  · apply plain_bin (by decide) (by decide)
    · rw [hstr]
      simp [Sv.isSigned, hc]
    · omega
    · omega
  · intro W _ _ hk
    simp only [Kept, hc, if_true] at hk
    obtain ⟨hpl, hfl⟩ := hl.printed_left hul hrl op (!op.isShift) _ hk.1
    obtain ⟨hpr, hfr⟩ := hr.printed_right hur hrr op (!op.isShift) _ hk.2
    have hnl := hl.narrow hul (extendLeft_adjusted op (type_width hul).1) (!op.isShift)
    have hnr := hr.narrow hur (extendRight_adjusted op (type_width hur).1) (!op.isShift)
    have hwl := hnl.width_le
    have hwr := hnr.width_le
    rw [hstr, raw, binRaw_compare hc]
    refine shows_compare hc rfl ?_ (hpl.shows (Nat.le_max_left _ _) (by omega))
      (hpr.shows (Nat.le_max_right _ _) (by omega)) (.inl
        ⟨(hfl htake).mono (Nat.le_max_left _ _),
          (hfr (.inl htake) hdiv).mono (Nat.le_max_right _ _)⟩)
    rw [hnl.unsigned, hnr.unsigned]
    rfl
  · intro W _
    rw [if_pos hm, hval, raw, binRaw_compare hc, opWidth, if_pos hc]
    exact (Int.emod_eq_of_lt (by omega) (by omega)).symm
  · intro W _ _ _
    rw [hval, hwidth]
    exact hbit

/-- The text of an arithmetic operation in a context that holds it. -/
theorem shows_arith {op : BinOp} (hc : op.isCompare = false) (hs : op.isShift = false) {t : CType}
    (ht : t.signed = false) {a b : Int} {sl sr : Sv V} {W : Nat} (hl : Shows ρ sl W false a)
    (hr : Shows ρ sr W false b) (ha : Fits false t.width a) (hb : Fits false t.width b)
    (hdiv : op = .div ∨ op = .rem → Fits false W a ∧ Fits false W b) :
    Shows ρ (.bin op sl sr) W false (binRaw op t a b) := by
  cases op with
  | add => exact shows_add hl hr
  | sub => exact shows_sub hl hr
  | mul => exact shows_mul hl hr
  | div => exact shows_div hl hr (hdiv (.inl rfl)).1 (hdiv (.inl rfl)).2
  | rem => exact shows_rem hl hr (hdiv (.inr rfl)).1 (hdiv (.inr rfl)).2
  | and | or | xor =>
    simp only [binRaw, ht]
    exact shows_bitwise rfl hl hr ha hb
  | shl | shr => cases hs
  | lt | gt | le | ge | eq | ne => cases hc

/-- Operations that do not grow stay within the wider operand. -/
theorem binRaw_tight {op : BinOp} (hc : op.isCompare = false) (hs : op.isShift = false)
    (hi : BinOp.incrWidth op = false) {t : CType} (ht : t.signed = false) {a b : Int} {lw rw : Nat}
    (ha : Fits false lw a) (hb : 0 ≤ b) (hbf : op ≠ .div ∧ op ≠ .rem → Fits false rw b) :
    0 ≤ binRaw op t a b ∧ binRaw op t a b < 2 ^ max lw rw := by
  have ha' := fits_unsigned.mp (ha.mono (Nat.le_max_left lw rw))
  by_cases hdiv : op = .div ∨ op = .rem
  · have hle := binRaw_le (hdiv.imp_right .inl) t ha'.1 hb
    omega
  · have hbit : op.isBitwise = true := by
      cases op <;> first
        | rfl
        | exact absurd hc (by decide)
        | exact absurd hs (by decide)
        | exact absurd hi (by decide)
        | exact absurd hdiv (by decide)
    have hne : op ≠ .div ∧ op ≠ .rem := ⟨fun h => hdiv (.inl h), fun h => hdiv (.inr h)⟩
    exact binRaw_bitwise_lt hbit ht (ha.mono (Nat.le_max_left _ _))
      ((hbf hne).mono (Nat.le_max_right _ _))

theorem sound_arith {op : BinOp} (hc : op.isCompare = false) (hs : op.isShift = false) {t : CType}
    (ht : t.IsUnsigned) {l r : Expr V} (htl : l.type = t) (htr : r.type = t) (hl : Sound ρ l)
    (hr : Sound ρ r) (hul : l.IsUnsigned) (hur : r.IsUnsigned) (hrl : l.Ranged ρ)
    (hrr : r.Ranged ρ) : SoundText ρ (.bin op t l r) := by
  have hstr := str_bin op ht.1 l r
  have hincr := (term_bin op t l r).2.2.2.1
  have hnl := hl.narrow hul (extendLeft_adjusted op (type_width hul).1) (!op.isShift)
  have hnr := hr.narrow hur (extendRight_adjusted op (type_width hur).1) (!op.isShift)
  have hposl := hnl.width_pos
  have hlel := hnl.width_le
  have hler := hnr.width_le
  have hbl := eval_bounds hul hrl
  have hbr := eval_bounds hur hrr
  have hwidth : (Expr.bin op t l r).term.str.width =
      max ((extendLeft op l.term l.type).getTermAsRValue (!op.isShift) false).width
        ((extendRight op r.term r.type).getTermAsRValue (!op.isShift) false).width := by
    rw [hstr]
    simp [Sv.width, hc, hs]
  have htake : BinOp.incrWidth op = false ∨ op = .div ∨ op = .rem → takesValue op = true := by
    cases op <;> decide
  constructor
  · have htw := ht.width_bounds
    apply plain_bin (by omega) (by omega)
    · rw [hstr]
      rw [Sv.isSigned, if_neg (by rw [hc]; decide), if_neg (by rw [hs]; decide), hnl.unsigned,
        Bool.false_and]
    · omega
    · omega
  · intro W hW h64 hk
    simp only [Kept, hc, hs, Bool.false_eq_true, if_false] at hk
    obtain ⟨hkl, hkr, hkdiv⟩ := hk
    obtain ⟨hpl, hfl⟩ := hl.printed_left hul hrl op (!op.isShift) W hkl
    obtain ⟨hpr, -⟩ := hr.printed_right hur hrr op (!op.isShift) W hkr
    rw [hwidth] at hW
    rw [hstr, raw]
    apply shows_arith hc hs ht.1 (hpl.shows (by omega) h64) (hpr.shows (by omega) h64)
    · rw [htl] at hbl
      exact fits_unsigned.mpr hbl
    · rw [htr] at hbr
      exact fits_unsigned.mpr hbr
    · intro hdiv
      refine ⟨(hfl (htake (.inr hdiv))).mono (by omega), ?_⟩
      rcases hpr.fits with ⟨hi, hm⟩ | hf
      · exact fits_unsigned.mpr ⟨hbr.1, hkdiv hdiv hi hm⟩
      · exact hf.mono (by omega)
  · intro W _
    exact value_bin ht hc l r
  · intro W hk hi _
    rw [hincr] at hi
    simp only [Kept, hc, hs, Bool.false_eq_true, if_false] at hk
    obtain ⟨-, hfl⟩ := hl.printed_left hul hrl op (!op.isShift) W hk.1
    obtain ⟨-, hfr⟩ := hr.printed_right hur hrr op (!op.isShift) W hk.2.1
    have htv := htake (.inl hi)
    have hraw := binRaw_tight hc hs hi ht.1 (hfl htv) hbr.1 (hfr (.inl htv))
    rw [hwidth, eval, CType.conv_unsigned ht]
    exact lt_of_le_of_lt (emod_le_self hraw.1 (by positivity)) hraw.2

/-- Amount of a shift as it is printed. -/
theorem shift_amount {e : Expr V} (h : e.IsUnsigned ∧ Sound ρ e ∨ e.IsIntLit) (hr : e.Ranged ρ)
    {op : BinOp} (hop : op.isShift = true) {s : Sv V}
    (hs : s = (extendRight op e.term e.type).getTermAsRValue (!op.isShift) false)
    (hk : PrintKept ρ e (extendRight op e.term e.type) (e.Kept ρ) s.width) :
    Shows ρ s s.width s.isSigned (e.eval ρ) ∧ Fits false s.width (e.eval ρ) := by
  have hdiv : op ≠ .div ∧ op ≠ .rem := by
    cases op <;> first | exact ⟨by decide, by decide⟩ | exact absurd hop (by decide)
  have htake : takesValue op = true ∨ op = .shl := by
    cases op <;> first | decide | exact absurd hop (by decide)
  rcases h with ⟨hu, h⟩ | h
  · have hn := h.narrow hu (extendRight_adjusted op (type_width hu).1) (!op.isShift)
    obtain ⟨hp, hf⟩ := h.printed_right hu hr op (!op.isShift) _ hk
    rw [← hs] at hn hp hf
    rw [hn.unsigned]
    exact ⟨hp.shows (Nat.le_refl _) hn.width_le, hf htake hdiv⟩
  · obtain ⟨hw, hshow, hf⟩ := @IsIntLit.printed V ρ e h op (!op.isShift)
    rw [← hs] at hw hshow
    rw [hw]
    exact ⟨hshow, hf⟩

theorem sound_shift {op : BinOp} (hop : op.isShift = true) {t : CType} (ht : t.IsUnsigned)
    {l r : Expr V} (hl : Sound ρ l) (hr : r.IsUnsigned ∧ Sound ρ r ∨ r.IsIntLit)
    (hul : l.IsUnsigned) (hrl : l.Ranged ρ) (hrr : r.Ranged ρ) :
    SoundText ρ (.bin op t l r) := by
  have hops : op = .shl ∨ op = .shr := by
    cases op <;> first | decide | exact absurd hop (by decide)
  have hc : op.isCompare = false := by rcases hops with rfl | rfl <;> rfl
  have hstr := str_bin op ht.1 l r
  have hincr := (term_bin op t l r).2.2.2.1
  have hnl := hl.narrow hul (extendLeft_adjusted op (type_width hul).1) (!op.isShift)
  have hposl := hnl.width_pos
  have hlel := hnl.width_le
  have hwidth : (Expr.bin op t l r).term.str.width =
      ((extendLeft op l.term l.type).getTermAsRValue (!op.isShift) false).width := by
    rw [hstr]
    simp [Sv.width, hc, hop]
  constructor
  · have htw := ht.width_bounds
    apply plain_bin (by omega) (by omega)
    · rw [hstr]
      rw [Sv.isSigned, if_neg (by rw [hc]; decide), if_pos hop, hnl.unsigned]
    · omega
    · omega
  · intro W hW h64 hk
    simp only [Kept, hc, hop, Bool.false_eq_true, if_false, if_true, Bool.not_true] at hk
    obtain ⟨hpl, hfl⟩ := hl.printed_left hul hrl op false W hk.1
    obtain ⟨hsr, hfr⟩ := shift_amount hr hrr hop rfl (by rw [hop]; exact hk.2)
    rw [hwidth] at hW
    rw [hstr, raw]
    rw [hop] at hW hsr hfr ⊢
    rcases hops with rfl | rfl
    · exact shows_shl (hpl.shows hW h64) hsr hfr
    · exact shows_shr (hpl.shows hW h64) ((hfl rfl).mono hW) hsr hfr
  · intro W _
    exact value_bin ht hc l r
  · intro W hk hi _
    rw [hincr] at hi
    have hshr : op = .shr := by
      rcases hops with rfl | rfl
      · cases hi
      · rfl
    subst hshr
    simp only [Kept, hc, hop, Bool.false_eq_true, if_false, if_true, Bool.not_true] at hk
    obtain ⟨-, hfl⟩ := hl.printed_left hul hrl .shr false W hk.1
    obtain ⟨-, hfr⟩ := shift_amount hr hrr hop rfl hk.2
    have hle := binRaw_le (.inr (.inr rfl)) t (eval_bounds hul hrl).1 (fits_unsigned.mp hfr).1
    have hlt := (fits_unsigned.mp (hfl rfl)).2
    rw [hwidth, eval, CType.conv_unsigned ht]
    exact lt_of_le_of_lt (emod_le_self hle.1 (by positivity)) (lt_of_le_of_lt hle.2 hlt)

theorem sound_var {x : V} {w : Nat} {s : Bool} {t : CType} (hu : (Expr.var x w s t).IsUnsigned)
    (hr : (Expr.var x w s t).Ranged ρ) : SoundText ρ (.var x w s t) := by
  obtain ⟨rfl, hpos, hw, ht⟩ := hu
  have htw := ht.width_bounds
  have hfit : Fits false w (ρ x) := hr
  have h64 := fits_unsigned.mp (hfit.mono (show w ≤ 64 by omega))
  constructor
  · constructor
    · rfl
    · rfl
    · exact hpos
    · exact hw.trans htw.2
    · exact ⟨by simp [term, Term.putString], by simp [term, Term.putString]⟩
    · exact .inl ⟨rfl, rfl⟩
    · exact .inl (hw.trans htw.2)
  · intro W _ _ _
    exact shows_var fun _ => hfit
  · intro W _
    exact (Int.emod_eq_of_lt h64.1 h64.2).symm
  · intro W _ _ _
    exact (fits_unsigned.mp hfit).2

theorem isLiteral_putLiteral {n radix : Nat} (hn : n < 2 ^ 64) :
    (Term.putLiteral n radix .ucast : Term V).IsLiteral n radix where
  literal := rfl
  castSign := rfl
  casts := .inl ⟨rfl, rfl⟩
  explCast := by simp [Term.putLiteral, Term.putString]
  incrWidth := rfl
  bound := hn

theorem sound_lit {n radix : Nat} {t : CType} (hu : (Expr.lit n radix t : Expr V).IsUnsigned) :
    SoundLiteral ρ (.lit n radix t) n radix := by
  have hterm : (Expr.lit n radix t : Expr V).term = Term.putLiteral n radix .ucast := by
    simp [term, hu.1.1]
  have hw := hu.1.width_bounds
  have hn : n < 2 ^ 64 := Nat.lt_of_lt_of_le hu.2 (Nat.pow_le_pow_right (by omega) hw.2)
  constructor
  · rw [hterm]
    exact isLiteral_putLiteral hn
  · intro W _
    rw [hterm]
    rfl

/-- A literal converted to an unsigned type. -/
theorem sound_implicit_literal {e : Expr V} {t : CType} (ht : t.IsUnsigned) {n radix : Nat}
    (hlit : e.term.literal = some (n, radix))
    (hv : ∀ W, (Expr.implicit t e).Kept ρ W → e.eval ρ = n) :
    SoundLiteral ρ (.implicit t e) (n % 2 ^ t.width) radix := by
  have hterm : (Expr.implicit t e).term = Term.putLiteral (n % 2 ^ t.width) radix .ucast := by
    simp [term, hlit, ht.1]
  have hw := ht.width_bounds
  have hn : n % 2 ^ t.width < 2 ^ 64 :=
    Nat.lt_of_lt_of_le (Nat.mod_lt _ (by positivity)) (Nat.pow_le_pow_right (by omega) hw.2)
  constructor
  · rw [hterm]
    exact isLiteral_putLiteral hn
  · intro W hk
    rw [hterm, eval, hv W hk, CType.conv_unsigned ht]
    simp [Term.cut, Term.putLiteral, Term.putString]

/-- A term under another sign, which does not show in the text. -/
theorem SoundText.resign {e f : Expr V} (h : SoundText ρ e) {c : CastSign}
    (hc : c ≠ .scast ∧ c ≠ .sacast) (hterm : f.term = { e.term with castSign := c })
    (hraw : f.raw ρ = e.raw ρ) (hop : f.opWidth = e.opWidth) (hval : f.eval ρ = e.eval ρ)
    (hk : ∀ W, f.Kept ρ W → e.Kept ρ W) : SoundText ρ f := by
  constructor
  · rw [hterm]
    exact ⟨h.plain.literal, h.plain.unsigned, h.plain.width_pos, h.plain.width_le, hc,
      h.plain.casts, h.plain.data⟩
  · intro W hw h64 hkf
    rw [hterm] at hw ⊢
    rw [hraw]
    exact h.shows W hw h64 (hk W hkf)
  · intro W hkf
    rw [hval, hraw, hop, hterm]
    exact h.value W (hk W hkf)
  · intro W hkf hi hm
    rw [hterm] at hi hm ⊢
    rw [hval]
    exact h.tight W (hk W hkf) hi hm

theorem putSignCast_eq (t : Term V) {c : CastSign} (hc : c ≠ .scast) :
    ∃ c', (c' = t.castSign ∨ c' = c) ∧ t.putSignCast c = { t with castSign := c' } := by
  unfold Term.putSignCast
  split
  · exact ⟨_, .inl rfl, rfl⟩
  · exact ⟨c, .inr rfl, by simp [hc]⟩

/-- Conversions of terms that are no literals change at most the sign. -/
theorem term_implicit_text {t : CType} {e : Expr V} (h : SoundText ρ e)
    (ht : t.signed = false ∨ e.type.isBool = true) :
    ∃ c, (c ≠ CastSign.scast ∧ c ≠ .sacast) ∧
      (Expr.implicit t e).term = { e.term with castSign := c } := by
  have hterm : (Expr.implicit t e).term = if e.type.signed = t.signed then e.term
      else if e.type.isBool then { e.term with castSign := .bcast }
      else e.term.putSignCast (if t.signed then .scast else .ucast) := by
    rw [term]
    simp only [h.plain.literal]
  rw [hterm]
  split
  · exact ⟨e.term.castSign, h.plain.sign, rfl⟩
  · split
    · exact ⟨.bcast, by decide, rfl⟩
    · rename_i hb
      rcases ht with ht | ht
      · obtain ⟨c, hc, heq⟩ := putSignCast_eq e.term (show CastSign.ucast ≠ .scast by decide)
        refine ⟨c, ?_, by rw [ht]; exact heq⟩
        rcases hc with rfl | rfl
        · exact h.plain.sign
        · decide
      · exact absurd ht hb

theorem literal_none_of_bool {e : Expr V} (hu : e.IsUnsigned) (ht : e.type = CType.bool) :
    e.term.literal = none := by
  cases e with
  | var x w s t => rfl
  | lit n radix t =>
    have := hu.1.2.1
    rw [show t = CType.bool from ht] at this
    cases this
  | implicit t e =>
    rw [show t = CType.bool from ht] at hu
    rcases hu with ⟨-, -, h | ⟨-, h⟩⟩ | ⟨-, h⟩ <;> exact absurd h.2.1 (by decide)
  | explicit w t e =>
    have := hu.1.2.1
    rw [show t = CType.bool from ht] at this
    cases this
  | bin op t l r =>
    rw [show t = CType.bool from ht]
    exact (term_bin op CType.bool l r).2.1

theorem cut_eq_self {t : Term V} {n : Nat} (h : t.minCastWidth ≠ 0 → n < 2 ^ t.minCastWidth) :
    t.cut n = n := by
  unfold Term.cut
  split
  · rfl
  · rename_i hm
    exact Nat.mod_eq_of_lt (h hm)

theorem sound_implicit {t : CType} {e : Expr V} (hu : (Expr.implicit t e).IsUnsigned)
    (hr : e.Ranged ρ) (ih : e.IsUnsigned → Sound ρ e) : Sound ρ (.implicit t e) := by
  rcases hu with ⟨he, hw, ht⟩ | ⟨he, ht⟩
  · have hb := eval_bounds he hr
    have hval : (Expr.implicit t e).eval ρ = e.eval ρ := by
      rcases ht with ht | ⟨hbool, ht⟩
      · rw [eval, CType.conv_unsigned ht]
        exact Int.emod_eq_of_lt hb.1
          (lt_of_lt_of_le hb.2 (pow_le_pow_right₀ (by omega) hw))
      · rw [hbool] at hb
        exact CType.conv_int_bit ht hb.1 hb.2
    rcases ih he with h | ⟨n, radix, h⟩
    · obtain ⟨c, hc, hterm⟩ := term_implicit_text (t := t) h (by
        rcases ht with ht | ⟨hbool, -⟩
        · exact .inl ht.1
        · rw [hbool]
          exact .inr rfl)
      exact .inl (h.resign hc hterm rfl rfl hval fun W hk => hk.1)
    · rcases ht with ht | ⟨hbool, -⟩
      · refine .inr ⟨_, _, sound_implicit_literal ht h.literal.literal fun W hk => ?_⟩
        rw [h.value W hk.1, cut_eq_self (hk.2 n radix h.literal.literal)]
      · have := literal_none_of_bool he hbool
        rw [h.literal.literal] at this
        cases this
  · cases e with
    | lit n radix t' => exact .inr ⟨_, _, sound_implicit_literal ht rfl fun _ _ => rfl⟩
    | var x w s t' => exact he.elim
    | implicit t' e => exact he.elim
    | explicit w t' e => exact he.elim
    | bin op t' l r => exact he.elim

/-- Casts of an explicitly cast term. -/
theorem castsOk_putTypeCast {t : Term V} {w : Nat} (hpos : 0 < w) (h64 : w ≤ 64) :
    0 < (t.putTypeCast w).minCastWidth ∧ (t.putTypeCast w).minCastWidth ≤ w ∧
      (t.putTypeCast w).lastCastWidth = w ∧ (t.putTypeCast w).CastsOk := by
  have hmin : 0 < (t.putTypeCast w).minCastWidth ∧ (t.putTypeCast w).minCastWidth ≤ w := by
    simp only [Term.putTypeCast]
    split <;> omega
  exact ⟨hmin.1, hmin.2, rfl, .inr ⟨hmin.1, hmin.2, h64⟩⟩

/-- An explicit cast puts a cast and sets at most the unsigned sign. -/
theorem term_explicit {w : Nat} {t : CType} (e : Expr V) :
    ∃ c, (c = e.term.castSign ∨ c = .ucast) ∧
      (Expr.explicit w t e).term = { e.term.putTypeCast w with castSign := c } := by
  rw [term]
  simp only
  split
  · exact putSignCast_eq (e.term.putTypeCast w) (show CastSign.ucast ≠ .scast by decide)
  · exact ⟨_, .inl rfl, rfl⟩

theorem emod_min_pow (v : Int) (m w : Nat) : v % 2 ^ m % 2 ^ w = v % 2 ^ min m w := by
  by_cases h : m ≤ w
  · rw [Nat.min_eq_left h]
    apply Int.emod_eq_of_lt (Int.emod_nonneg _ (by positivity))
    exact lt_of_lt_of_le (Int.emod_lt_of_pos _ (by positivity)) (pow_le_pow_right₀ (by omega) h)
  · rw [Nat.min_eq_right (by omega), Int.emod_emod_of_dvd]
    exact pow_dvd_pow 2 (by omega)

theorem sound_explicit_text {w : Nat} {t : CType} {e : Expr V} (hpos : 0 < w) (h64 : w ≤ 64)
    (h : SoundText ρ e) : SoundText ρ (.explicit w t e) := by
  obtain ⟨c, hc, hterm⟩ := term_explicit (w := w) (t := t) e
  obtain ⟨hmin, -, -, hcasts⟩ := castsOk_putTypeCast (t := e.term) hpos h64
  have hm : (Expr.explicit w t e).term.minCastWidth ≠ 0 := by
    rw [hterm]
    exact hmin.ne'
  constructor
  · rw [hterm]
    refine ⟨h.plain.literal, h.plain.unsigned, h.plain.width_pos, h.plain.width_le, ?_, hcasts,
      .inr hmin.ne'⟩
    rcases hc with rfl | rfl
    · exact h.plain.sign
    · exact ⟨by simp, by simp⟩
  · intro W hw hW hk
    rw [hterm] at hw ⊢
    exact h.shows W hw hW hk.1
  · intro W hk
    have hval := h.value W hk.1
    rw [if_neg hm, hterm, eval, raw]
    simp only [Term.putTypeCast]
    by_cases h0 : e.term.minCastWidth = 0
    · rw [if_pos h0] at hval
      rw [if_neg (by simpa using h0)]
      exact ((hk.2 h.plain.literal h0).emod_eq hval).symm
    · rw [if_neg h0] at hval
      rw [if_pos h0, hval, emod_min_pow]
  · intro W _ _ h0
    exact absurd h0 hm

theorem sound_explicit_literal {w : Nat} {t : CType} {e : Expr V} (hpos : 0 < w) (h64 : w ≤ 64)
    {n radix : Nat} (h : SoundLiteral ρ e n radix) : SoundLiteral ρ (.explicit w t e) n radix := by
  obtain ⟨c, hc, hterm⟩ := term_explicit (w := w) (t := t) e
  obtain ⟨hmin, -, -, hcasts⟩ := castsOk_putTypeCast (t := e.term) hpos h64
  constructor
  · rw [hterm]
    refine ⟨h.literal.literal, ?_, hcasts, ?_, h.literal.incrWidth, h.literal.bound⟩
    · rcases hc with rfl | rfl
      · exact h.literal.castSign
      · rfl
    · exact ⟨fun _ => hmin.ne', fun _ => rfl⟩
  · intro W hk
    rw [hterm, eval, h.value W hk.1]
    simp only [Term.cut, Term.putTypeCast]
    by_cases h0 : e.term.minCastWidth = 0
    · simp [h0, hpos.ne']
    · have hne : min e.term.minCastWidth w ≠ 0 := by omega
      simp only [h0, ne_eq, not_false_eq_true, if_true, if_false, hne]
      push_cast
      exact emod_min_pow _ _ _

/-- A literal of type `int` behind a cast. -/
theorem sound_explicit_intLit {w : Nat} {t : CType} {e : Expr V} (ht : t.IsUnsigned) (hpos : 0 < w)
    (h64 : w ≤ 64) (h : e.IsIntLit) : ∃ n radix, SoundLiteral ρ (.explicit w t e) n radix := by
  cases e with
  | lit n radix t' =>
    obtain ⟨⟨hs, hb, -⟩, hn⟩ := h
    have hterm : (Expr.explicit w t (.lit n radix t') : Expr V).term =
        (Term.putLiteral n radix .ucast).putTypeCast w := by
      simp [term, type, hs, hb, ht.1, Term.putLiteral, Term.putString, Term.putTypeCast,
        Term.putSignCast]
    obtain ⟨hmin, -, -, hcasts⟩ :=
      castsOk_putTypeCast (t := (Term.putLiteral n radix .ucast : Term V)) hpos h64
    refine ⟨n, radix, ?_, ?_⟩
    · rw [hterm]
      refine ⟨rfl, rfl, hcasts, ⟨fun _ => hmin.ne', fun _ => rfl⟩, rfl, ?_⟩
      exact hn.trans (by decide)
    · intro W _
      rw [hterm]
      simp [eval, Term.cut, Term.putTypeCast, Term.putLiteral, Term.putString, hpos.ne']
  | var x w s t => exact h.elim
  | implicit t e => exact h.elim
  | explicit w t e => exact h.elim
  | bin op t l r => exact h.elim

/-- Every expression of the fragment. -/
theorem sound {e : Expr V} (hu : e.IsUnsigned) (hr : e.Ranged ρ) : Sound ρ e := by
  induction e with
  | var x w s t => exact .inl (sound_var hu hr)
  | lit n radix t => exact .inr ⟨_, _, sound_lit hu⟩
  | implicit t e ih => exact sound_implicit hu hr fun h => ih h hr
  | explicit w t e ih =>
    obtain ⟨ht, hpos, hw, he⟩ := hu
    have htw := ht.width_bounds
    rcases he with he | he
    · rcases ih he hr with h | ⟨n, radix, h⟩
      · exact .inl (sound_explicit_text hpos (by omega) h)
      · exact .inr ⟨n, radix, sound_explicit_literal hpos (by omega) h⟩
    · exact .inr (sound_explicit_intLit ht hpos (by omega) he)
  | bin op t l r ihl ihr =>
    unfold IsUnsigned at hu
    by_cases hc : op.isCompare = true
    · rw [if_pos hc] at hu
      obtain ⟨rfl, hul, hur⟩ := hu
      exact .inl (sound_compare hc (ihl hul hr.1) (ihr hur hr.2) hul hur hr.1 hr.2)
    · rw [if_neg hc] at hu
      have hc' : op.isCompare = false := by simpa using hc
      by_cases hs : op.isShift = true
      · rw [if_pos hs] at hu
        obtain ⟨ht, -, hul, hur⟩ := hu
        have hsr : r.IsUnsigned ∧ Sound ρ r ∨ r.IsIntLit := by
          rcases hur with hur | hur
          · exact .inl ⟨hur, ihr hur hr.2⟩
          · exact .inr hur
        exact .inl (sound_shift hs ht (ihl hul hr.1) hsr hul hr.1 hr.2)
      · rw [if_neg hs] at hu
        obtain ⟨ht, htl, htr, hul, hur⟩ := hu
        have hs' : op.isShift = false := by simpa using hs
        exact .inl (sound_arith hc' hs' ht htl htr (ihl hul hr.1) (ihr hur hr.2) hul hur
          hr.1 hr.2)

/-- Nothing is cut when the expression is assigned to a variable of width `w`. -/
def KeptIn (ρ : V → Int) (e : Expr V) (w : Nat) : Prop :=
  PrintKept ρ e e.term (e.Kept ρ) (max w e.text.width)

/-- A literal that is assigned. Zero is printed without a width. -/
theorem SoundLiteral.shows_text {e : Expr V} {n radix : Nat} (h : SoundLiteral ρ e n radix)
    (W : Nat) (hk : e.Kept ρ W) :
    e.text.isSigned = false ∧ Shows ρ e.text W false (e.eval ρ) := by
  have hfacts := h.literal.rvalue_facts false
  have hshow := h.literal.shows ρ false W
  rw [← h.value W hk] at hshow
  by_cases hz : n = 0 ∧ e.term.minCastWidth = 0
  · obtain ⟨rfl, hm⟩ := hz
    have hlast : e.term.lastCastWidth = 0 := by
      rcases h.literal.casts with ⟨-, hl⟩ | ⟨hpos, -⟩
      · exact hl
      · omega
    have hval : e.eval ρ = (0 : Nat) := by
      rw [h.value W hk]
      simp [Term.cut]
    have htext : ∃ k, e.text = .lit k false 0 := by
      unfold text Term.getTermAsRValue
      simp only [h.literal.literal, makeLiteralStr, h.literal.castSign, hm, hlast]
      by_cases hrad : radix = 2 <;> simp [hrad, getBitsNeeded]
    obtain ⟨k, htext⟩ := htext
    rw [htext, hval]
    refine ⟨rfl, shows_lit ?_⟩
    rw [fits_unsigned]
    exact ⟨le_refl _, by positivity⟩
  · have htext : e.text = e.term.getTermAsRValue false false := by
      unfold text Term.getTermAsRValue
      simp only [h.literal.literal, makeLiteralStr, h.literal.castSign]
      by_cases hn : n = 0
      · have hm : e.term.minCastWidth ≠ 0 := fun hm => hz ⟨hn, hm⟩
        simp [hn, hm]
      · simp [hn]
    rw [htext]
    exact ⟨hfacts.1, hshow⟩

theorem SoundText.assigned {e : Expr V} (h : SoundText ρ e) (hb : 0 ≤ e.eval ρ) {w : Nat}
    (hw : w ≤ 64) (hk : e.KeptIn ρ w) : e.text.assigned ρ w = BitVec.ofInt w (e.eval ρ) := by
  have hn : Narrow e.text := narrow_of_plain h.plain false true
  have hle := hn.width_le
  have hp := h.printed hb false true _ hk
  apply Shows.assigned
  rw [hn.unsigned]
  exact hp.shows (Nat.le_max_right _ _) (by omega)

theorem Sound.assigned {e : Expr V} (h : Sound ρ e) (hb : 0 ≤ e.eval ρ) {w : Nat} (hw : w ≤ 64)
    (hk : e.KeptIn ρ w) : e.text.assigned ρ w = BitVec.ofInt w (e.eval ρ) := by
  rcases h with h | ⟨n, radix, h⟩
  · exact h.assigned hb hw hk
  · have hkept : e.Kept ρ (max w e.text.width) := by
      simpa only [KeptIn, PrintKept, h.literal.literal, Option.isSome_some, if_true] using hk
    obtain ⟨hs, hshow⟩ := h.shows_text _ hkept
    apply Shows.assigned
    rw [hs]
    exact hshow

/-- A conversion that cuts shows only in the width of the target. -/
theorem assigned_narrowed {t : CType} (ht : t.IsUnsigned) {e : Expr V} (hu : e.IsUnsigned)
    (hr : e.Ranged ρ) {w : Nat} (hw : w ≤ t.width) (hk : (Expr.implicit t e).KeptIn ρ w) :
    (Expr.implicit t e).text.assigned ρ w = BitVec.ofInt w ((Expr.implicit t e).eval ρ) := by
  have htw := ht.width_bounds
  rcases sound hu hr with h | ⟨n, radix, h⟩
  · obtain ⟨c, -, hterm⟩ := term_implicit_text (t := t) h (.inl ht.1)
    have htext : (Expr.implicit t e).text = e.text := by
      unfold text Term.getTermAsRValue
      rw [hterm]
      simp [h.plain.literal]
    have hke : e.KeptIn ρ w := by
      unfold KeptIn PrintKept at hk ⊢
      rw [htext, hterm] at hk
      simp only [h.plain.literal, Option.isSome_none, Bool.false_eq_true, if_false] at hk ⊢
      split at hk
      · rename_i hm
        rw [if_pos hm]
        exact ⟨hk.1.1, hk.2⟩
      · rename_i hm
        rw [if_neg hm]
        exact ⟨hk.1.1, fun h0 => absurd h0 hm⟩
    rw [htext, h.assigned (eval_bounds hu hr).1 (by omega) hke, eval, CType.conv_unsigned ht]
    apply ofInt_eq_of_emod
    rw [Int.emod_emod_of_dvd]
    exact pow_dvd_pow 2 hw
  · refine Sound.assigned (.inr ⟨_, _, sound_implicit_literal ht h.literal.literal ?_⟩) ?_
      (by omega) hk
    · intro W hk
      rw [h.value W hk.1, cut_eq_self (hk.2 n radix h.literal.literal)]
    · rw [eval, CType.conv_unsigned ht]
      exact Int.emod_nonneg _ (by positivity)

end Expr

/-! `(a - b) / c` over three `sc_uint<8>`. The difference is printed with nine bits,
in C++ it is a difference modulo `2 ^ 64`. -/
namespace DifferenceQuotient

inductive Name where
  | a | b | c
  deriving DecidableEq

def ull : CType := ⟨64, false, false⟩

def quotient : Expr Name :=
  .bin .div ull (.bin .sub ull (.var .a 8 false ull) (.var .b 8 false ull)) (.var .c 8 false ull)

def store (a b c : Int) : Name → Int
  | .a => a
  | .b => b
  | .c => c

theorem ull_isUnsigned : ull.IsUnsigned := ⟨rfl, rfl, .inr rfl⟩

theorem quotient_isUnsigned : quotient.IsUnsigned := by
  simp [quotient, Expr.IsUnsigned, Expr.type, BinOp.isCompare, BinOp.isShift, ull_isUnsigned]
  decide

theorem quotient_text : (quotient.assign ull).text =
    .bin .div (.size 9 (.bin .sub (.var .a 8 false) (.var .b 8 false))) (.var .c 8 false) := by
  decide

theorem quotient_ranged {a b c : Int} (ha : Fits false 8 a) (hb : Fits false 8 b)
    (hc : Fits false 8 c) : quotient.Ranged (store a b c) :=
  ⟨⟨ha, hb⟩, hc⟩

end DifferenceQuotient
end SystemcCompiler.Terms
