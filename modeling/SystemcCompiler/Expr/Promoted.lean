import SystemcCompiler.Expr.Terms

/-! Translation of expressions over variables that are promoted to `int`. Without
signed overflow C++ computes with the numbers themselves; the text computes with
bits, and an operand has to fit the width and the sign in which it is read. -/
namespace SystemcCompiler.Terms
open Verilog

variable {V : Type}

def CType.int : CType := ⟨32, true, false⟩

namespace Expr

/-- A variable of a type that is promoted to `int`. -/
def IsNarrow : Expr V → Prop
  | .var _ w s t => (w = 8 ∨ w = 16) ∧ t = ⟨w, s, false⟩
  | _ => False

/-- Expressions of type `int`, and comparisons. -/
def IsPromoted : Expr V → Prop
  | .var _ w s t => w = 32 ∧ s = true ∧ t = CType.int
  | .lit n _ t => n < 2 ^ 31 ∧ t = CType.int
  | .implicit t e => t = CType.int ∧ (e.IsNarrow ∨ e.IsPromoted ∧ e.type = CType.bool)
  | .explicit .. => False
  | .bin op t l r =>
    op.isShift = false ∧ t = (if op.isCompare then CType.bool else CType.int) ∧
      l.type = CType.int ∧ r.type = CType.int ∧ l.IsPromoted ∧ r.IsPromoted

/-- What is asked of an operand printed as `t` in a context of width `W` and sign
`S`, `str` being what is asked of its text. -/
def PrintHeld (ρ : V → Int) (e : Expr V) (t : Term V) (str : Nat → Bool → Prop) (W : Nat)
    (S : Bool) : Prop :=
  if t.minCastWidth = 0 then str W S
  else str (max t.minCastWidth t.str.width) t.str.isSigned ∧
    (t.minCastWidth < W → Fits S t.minCastWidth (e.eval ρ))

/-- Operands fit where they are read: in the sign and width of a wider context, in
the width to which they are extended, and those of divisions and comparisons in the
width and sign of the operation. -/
def Held (ρ : V → Int) : Expr V → Nat → Bool → Prop
  | .var x w _ _, W, S => w < W → Fits S w (ρ x)
  | .lit .., _, _ => True
  | .implicit _ e, W, S | .explicit _ _ e, W, S =>
    -- an unsigned variable is printed with a sign bit
    e.type.isBool = false ∧ e.type.signed = false ∨ e.Held ρ W S
  | .bin op t l r, W, S =>
    let lt := leftTerm op t l
    let rt := rightTerm op t r
    let ls := lt.getTermAsRValue true false
    let rs := rt.getTermAsRValue true false
    if op.isCompare then
      PrintHeld ρ l lt (l.Held ρ) (max ls.width rs.width) (ls.isSigned && rs.isSigned) ∧
        PrintHeld ρ r rt (r.Held ρ) (max ls.width rs.width) (ls.isSigned && rs.isSigned) ∧
        Comparable op (ls.isSigned && rs.isSigned) (max ls.width rs.width) (l.eval ρ) (r.eval ρ)
    else
      PrintHeld ρ l lt (l.Held ρ) W S ∧ PrintHeld ρ r rt (r.Held ρ) W S ∧
        (op = .div ∨ op = .rem → Fits S W (l.eval ρ) ∧ Fits S W (r.eval ρ))

end Expr

theorem CType.conv_int {v : Int} (h : Fits true 32 v) : CType.int.conv v = v :=
  valueOf_ofInt h

namespace Expr
variable {ρ : V → Int}

/-- A variable converted to `int` keeps its value. -/
theorem IsNarrow.eval_promoted {e : Expr V} (h : e.IsNarrow) (hr : e.Ranged ρ) :
    CType.int.conv (e.eval ρ) = e.eval ρ := by
  cases e with
  | var x w s t =>
    have hfit : Fits s w (ρ x) := hr
    have hw : w ≤ 16 := by
      rcases h.1 with rfl | rfl <;> omega
    apply CType.conv_int
    cases s with
    | true => exact hfit.mono (by omega)
    | false =>
      have hle := fits_unsigned.mp (hfit.mono hw)
      rw [fits_signed, eval]
      omega
  | lit n radix t => exact h.elim
  | implicit t e => exact h.elim
  | explicit w t e => exact h.elim
  | bin op t l r => exact h.elim

theorem fits_bit (b : Bool) : Fits true 32 (b.toNat : Int) := by
  cases b <;> decide

/-- C++ computes the number itself. -/
theorem eval_bin {op : BinOp} {t : CType} {l r : Expr V} (hp : (Expr.bin op t l r).IsPromoted)
    (hd : (Expr.bin op t l r).Defined ρ) :
    (Expr.bin op t l r).eval ρ = binRaw op t (l.eval ρ) (r.eval ρ) := by
  obtain ⟨-, ht, -⟩ := hp
  obtain ⟨-, -, -, -, hfit⟩ := hd
  rw [eval]
  by_cases hc : op.isCompare = true
  · rw [if_pos hc] at ht
    rw [ht, binRaw_compare hc, CType.conv_bool]
  · rw [if_neg hc] at ht
    subst ht
    exact CType.conv_int (hfit rfl)

theorem type_bool {e : Expr V} (hp : e.IsPromoted) (ht : e.type = CType.bool) :
    ∃ op l r, e = .bin op .bool l r ∧ op.isCompare = true := by
  cases e with
  | bin op t l r =>
    obtain ⟨-, htype, -⟩ := hp
    by_cases hc : op.isCompare = true
    · rw [if_pos hc] at htype
      subst htype
      exact ⟨op, l, r, rfl, hc⟩
    · rw [if_neg hc] at htype
      rw [htype] at ht
      exact absurd (show CType.int = CType.bool from ht) (by decide)
  | var x w s t =>
    rw [show t = CType.bool from ht] at hp
    exact absurd hp.2.2 (by decide)
  | lit n radix t =>
    rw [show t = CType.bool from ht] at hp
    exact absurd hp.2 (by decide)
  | implicit t e =>
    rw [show t = CType.bool from ht] at hp
    exact absurd hp.1 (by decide)
  | explicit w t e => exact hp.elim

/-- Values are in the range of `int`. -/
theorem fits_promoted {e : Expr V} (hp : e.IsPromoted) (hr : e.Ranged ρ) (hd : e.Defined ρ) :
    Fits true 32 (e.eval ρ) := by
  cases e with
  | var x w s t =>
    obtain ⟨rfl, rfl, -⟩ := hp
    exact hr
  | lit n radix t =>
    have hn : (n : Int) < 2 ^ 31 := by exact_mod_cast hp.1
    rw [fits_signed, eval]
    omega
  | implicit t e =>
    obtain ⟨rfl, -⟩ := hp
    exact fits_valueOf true _ (by decide)
  | explicit w t e => exact hp.elim
  | bin op t l r =>
    rw [eval_bin hp hd]
    by_cases hc : op.isCompare = true
    · rw [binRaw_compare hc]
      exact fits_bit _
    · obtain ⟨-, ht, -⟩ := hp
      rw [if_neg hc] at ht
      subst ht
      exact hd.2.2.2.2 rfl

/-- A term whose text is printed as it is or behind one cast. -/
structure PlainText (ρ : V → Int) (e : Expr V) : Prop where
  literal : e.term.literal = none
  sign : e.term.castSign ≠ .scast ∧ e.term.castSign ≠ .sacast
  casts : e.term.lastCastWidth = e.term.minCastWidth
  shows : ∀ W S, e.Held ρ W S → Shows ρ e.term.str W S (e.eval ρ)

/-- A promoted variable of an unsigned type. -/
structure UnsignedVar (ρ : V → Int) (e : Expr V) (x : V) (w : Nat) : Prop where
  term : e.term = { Term.putString (.var x w false) w with castSign := .scast }
  value : e.eval ρ = ρ x
  fits : Fits false w (ρ x)

structure IntLiteral (ρ : V → Int) (e : Expr V) (n radix : Nat) : Prop where
  term : e.term = Term.putLiteral n radix .nocast
  value : e.eval ρ = n
  bound : n < 2 ^ 31

def Translated (ρ : V → Int) (e : Expr V) : Prop :=
  PlainText ρ e ∨ (∃ x w, UnsignedVar ρ e x w) ∨ ∃ n radix, IntLiteral ρ e n radix

/-- Printing of a term with at most one cast. -/
theorem rvalue_of_casts {t : Term V} (hlit : t.literal = none) {d : Bool}
    (hs : d = true → t.castSign ≠ .scast ∧ t.castSign ≠ .sacast)
    (hc : t.lastCastWidth = t.minCastWidth) (z : Bool) :
    t.getTermAsRValue d z = if t.minCastWidth = 0 then t.str else .size t.minCastWidth t.str := by
  have hsign : ∀ c : CastSign, c ≠ .scast ∧ c ≠ .sacast →
      makeTermStr t.str t.minCastWidth t.lastCastWidth c =
        if t.minCastWidth = 0 then t.str else .size t.minCastWidth t.str := by
    intro c hne
    cases c with
    | scast => exact absurd rfl hne.1
    | sacast => exact absurd rfl hne.2
    | nocast | ucast | bcast =>
      by_cases hm : t.minCastWidth = 0 <;> simp [makeTermStr, hc, hm]
  unfold Term.getTermAsRValue
  simp only [hlit]
  cases d with
  | false => exact hsign .nocast (by decide)
  | true => exact hsign t.castSign (hs rfl)

/-- A printed operand shows its value if it fits where it is read. -/
theorem PlainText.shows_printed {e : Expr V} (h : PlainText ρ e) {t : Term V} (ht : Adjusted e t)
    {d : Bool} (z : Bool) {W : Nat} {S : Bool} (hk : PrintHeld ρ e t (e.Held ρ) W S) :
    Shows ρ (t.getTermAsRValue d z) W S (e.eval ρ) := by
  have hstr : t.str = e.term.str := by rcases ht with rfl | ⟨-, k, -, rfl⟩ <;> rfl
  have hlit : t.literal = none := by rcases ht with rfl | ⟨-, k, -, rfl⟩ <;> exact h.literal
  have hsign : t.castSign = e.term.castSign := by rcases ht with rfl | ⟨-, k, -, rfl⟩ <;> rfl
  have hcast : t.lastCastWidth = t.minCastWidth := by
    rcases ht with rfl | ⟨-, k, -, rfl⟩
    · exact h.casts
    · simp only [Term.extendTypeWidth, h.casts]
  rw [rvalue_of_casts hlit (fun _ => by rw [hsign]; exact h.sign) hcast]
  unfold PrintHeld at hk
  rw [hstr] at hk ⊢
  split at hk
  · rename_i hm
    rw [if_pos hm]
    exact h.shows W S hk
  · rename_i hm
    rw [if_neg hm]
    exact shows_size (h.shows _ _ hk.1) hk.2 rfl

/-- Literals are printed with a width that holds them, of either sign unless they
are unsigned. -/
theorem literal_printed {n : Nat} (radix : Nat) (hn : n < 2 ^ 31) (c : CastSign) (d z : Bool) :
    ∃ k s, (Term.putLiteral n radix c : Term V).getTermAsRValue d z = .lit k s n ∧
      ∀ S, c ≠ .ucast ∨ S = s → Fits S k (n : Int) := by
  have hbig : ¬ 32 ≤ getBitsNeeded n := by
    have := getBitsNeeded_le hn (by omega)
    omega
  have hpos : getBitsNeeded n ≠ 0 := by
    unfold getBitsNeeded
    omega
  have hlit : (Term.putLiteral n radix c : Term V).getTermAsRValue d z =
      makeLiteralStr n radix 0 0 c z := by
    simp [Term.getTermAsRValue, Term.putLiteral, Term.putString]
  have h32 := fun S => fits_natCast S hn (Nat.lt_succ_self 31)
  have hbits := lt_getBitsNeeded n
  rw [hlit]
  by_cases h0 : n = 0
  · subst h0
    have h1 : ∀ S, Fits S 1 ((0 : Nat) : Int) :=
      fun S => fits_natCast S (w := 0) (by omega) Nat.one_pos
    have hb1 : getBitsNeeded 0 = 1 := rfl
    have htext : ∃ k s, (makeLiteralStr 0 radix 0 0 c z : Sv V) = .lit k s 0 ∧
        (k = 1 ∨ k = 32) := by
      cases c <;> cases z <;> by_cases hr : radix = 2 <;> simp [makeLiteralStr, hb1, hr]
    obtain ⟨k, s, htext, rfl | rfl⟩ := htext
    · exact ⟨1, s, htext, fun S _ => h1 S⟩
    · exact ⟨32, s, htext, fun S _ => h32 S⟩
  · by_cases hs : c = .scast
    · refine ⟨getBitsNeeded n + 1, true, ?_, fun S _ => fits_natCast S hbits (Nat.lt_succ_self _)⟩
      simp [makeLiteralStr, h0, hs]
    · by_cases hu : c = .ucast
      · refine ⟨getBitsNeeded n, false, ?_, fun S hS => ?_⟩
        · simp [makeLiteralStr, h0, hpos, hu]
        · rcases hS with h | rfl
          · exact absurd hu h
          · exact fits_unsigned.mpr ⟨Int.natCast_nonneg n, by exact_mod_cast hbits⟩
      · have htext : ∃ s, (makeLiteralStr n radix 0 0 c z : Sv V) = .lit 32 s n := by
          simp [makeLiteralStr, hbig, h0, hs, hu]
        obtain ⟨s, htext⟩ := htext
        exact ⟨32, s, htext, fun S _ => h32 S⟩

/-- An operand of type `int` changes its sign only if it is a literal. -/
theorem signOperand_int (op : BinOp) (type : CType) (t : Term V) :
    signOperand op type t CType.int = t ∨
      t.literal.isSome = true ∧
        signOperand op type t CType.int = { t with castSign := .scast } := by
  unfold signOperand Term.setExprSCast
  split
  · split
    · rename_i hlit
      exact .inr ⟨hlit, rfl⟩
    · exact .inl (by simp [CType.int])
  · exact .inl rfl

theorem Translated.shows_signed {e : Expr V} (h : Translated ρ e) (ht : e.type = CType.int)
    (op : BinOp) (type : CType) {t : Term V} (hadj : Adjusted e t) {W : Nat} {S : Bool}
    (hk : PrintHeld ρ e (signOperand op type t e.type) (e.Held ρ) W S) :
    Shows ρ ((signOperand op type t e.type).getTermAsRValue true false) W S (e.eval ρ) := by
  rw [ht] at hk ⊢
  rcases h with h | ⟨x, w, h⟩ | ⟨n, radix, h⟩
  · have hlit : t.literal = none := by
      rcases hadj with rfl | ⟨-, k, -, rfl⟩ <;> exact h.literal
    rcases signOperand_int op type t with heq | ⟨hsome, -⟩
    · rw [heq] at hk ⊢
      exact h.shows_printed hadj false hk
    · rw [hlit] at hsome
      cases hsome
  · have hself : t = e.term := by
      rcases hadj with rfl | ⟨hi, -⟩
      · rfl
      · rw [h.term] at hi
        cases hi
    have htext : (signOperand op type t CType.int).getTermAsRValue true false =
        .signedZero (.var x w false) := by
      rcases signOperand_int op type t with heq | ⟨hsome, -⟩
      · rw [heq, hself, h.term]
        rfl
      · rw [hself, h.term] at hsome
        cases hsome
    rw [htext, h.value]
    exact shows_signedZero (shows_var fun _ => h.fits) h.fits
  · have hself : t = e.term := by
      rcases hadj with rfl | ⟨hi, -⟩
      · rfl
      · rw [h.term] at hi
        cases hi
    have hterm : ∃ c, c ≠ CastSign.ucast ∧
        signOperand op type t CType.int = Term.putLiteral n radix c := by
      rw [hself, h.term]
      rcases signOperand_int op type (Term.putLiteral n radix .nocast : Term V) with heq | ⟨-, heq⟩
      · exact ⟨.nocast, by decide, heq⟩
      · exact ⟨.scast, by decide, heq⟩
    obtain ⟨c, hc, hterm⟩ := hterm
    obtain ⟨k, s, htext, hfit⟩ := literal_printed (V := V) radix h.bound c true false
    rw [hterm, htext, h.value]
    exact shows_lit (hfit S (.inl hc))

theorem shows_arith_int {op : BinOp} (hc : op.isCompare = false) (hs : op.isShift = false)
    {a b : Int} {sl sr : Sv V} {W : Nat} {S : Bool} (hl : Shows ρ sl W S a) (hr : Shows ρ sr W S b)
    (ha : Fits true 32 a) (hb : Fits true 32 b)
    (hdiv : op = .div ∨ op = .rem → Fits S W a ∧ Fits S W b) :
    Shows ρ (.bin op sl sr) W S (binRaw op CType.int a b) := by
  cases op with
  | add => exact shows_add hl hr
  | sub => exact shows_sub hl hr
  | mul => exact shows_mul hl hr
  | div => exact shows_div hl hr (hdiv (.inl rfl)).1 (hdiv (.inl rfl)).2
  | rem => exact shows_rem hl hr (hdiv (.inr rfl)).1 (hdiv (.inr rfl)).2
  | and | or | xor => exact shows_bitwise rfl hl hr ha hb
  | shl | shr => cases hs
  | lt | gt | le | ge | eq | ne => cases hc

theorem plainText_var {x : V} {w : Nat} {s : Bool} {t : CType} : PlainText ρ (.var x w s t) where
  literal := rfl
  sign := ⟨by simp [term, Term.putString], by simp [term, Term.putString]⟩
  casts := rfl
  shows _ _ hk := shows_var hk

/-- Another sign of the term does not show in its text. -/
theorem PlainText.resign {e f : Expr V} (h : PlainText ρ e) {c : CastSign}
    (hc : c ≠ .scast ∧ c ≠ .sacast) (hterm : f.term = { e.term with castSign := c })
    (hval : f.eval ρ = e.eval ρ) (hk : ∀ W S, f.Held ρ W S → e.Held ρ W S) : PlainText ρ f := by
  constructor
  · rw [hterm]
    exact h.literal
  · rw [hterm]
    exact hc
  · rw [hterm]
    exact h.casts
  · intro W S hf
    rw [hterm, hval]
    exact h.shows W S (hk W S hf)

theorem translated_narrow {e : Expr V} (h : e.IsNarrow) (hr : e.Ranged ρ) :
    Translated ρ (.implicit CType.int e) := by
  have hval : (Expr.implicit CType.int e).eval ρ = e.eval ρ := h.eval_promoted hr
  cases e with
  | var x w s t =>
    obtain ⟨-, rfl⟩ := h
    cases s with
    | true =>
      refine .inl (plainText_var.resign (c := .nocast) (by decide) rfl hval ?_)
      intro W S hk
      rcases hk with ⟨-, hs⟩ | hk
      · cases hs
      · exact hk
    | false => exact .inr (.inl ⟨x, w, rfl, hval, hr⟩)
  | lit n radix t => exact h.elim
  | implicit t e => exact h.elim
  | explicit w t e => exact h.elim
  | bin op t l r => exact h.elim

theorem plainText_bin {op : BinOp} {t : CType} {l r : Expr V}
    (hp : (Expr.bin op t l r).IsPromoted) (hr : (Expr.bin op t l r).Ranged ρ)
    (hd : (Expr.bin op t l r).Defined ρ) (hl : Translated ρ l) (hr' : Translated ρ r) :
    PlainText ρ (.bin op t l r) := by
  obtain ⟨hstr, hlit, hsign, -, hcast⟩ := term_bin op t l r
  have heval := eval_bin hp hd
  obtain ⟨hs, ht, htl, htr, hpl, hpr⟩ := hp
  have hal := extendLeft_adjusted op (e := l) (by rw [htl]; decide)
  have har := extendRight_adjusted op (e := r) (by rw [htr]; decide)
  constructor
  · exact hlit
  · rw [hsign]
    decide
  · rcases hcast with ⟨hm, hlast, -⟩ | ⟨-, hm, hlast⟩
    · rw [hm, hlast]
    · rw [hm, hlast]
  · intro W S hk
    rw [hs] at hstr
    rw [hstr, heval]
    by_cases hc : op.isCompare = true
    · simp only [Held, hc, if_true] at hk
      obtain ⟨hkl, hkr, hcmp⟩ := hk
      rw [binRaw_compare hc]
      exact shows_compare hc rfl rfl (hl.shows_signed htl op t hal hkl)
        (hr'.shows_signed htr op t har hkr) hcmp
    · have hc' : op.isCompare = false := by simpa using hc
      simp only [Held, hc', Bool.false_eq_true, if_false] at hk
      obtain ⟨hkl, hkr, hdiv⟩ := hk
      rw [if_neg hc] at ht
      subst ht
      exact shows_arith_int hc' hs (hl.shows_signed htl op _ hal hkl)
        (hr'.shows_signed htr op _ har hkr) (fits_promoted hpl hr.1 hd.1)
        (fits_promoted hpr hr.2 hd.2.1) hdiv

/-- Every expression of the fragment. -/
theorem translated {e : Expr V} (hp : e.IsPromoted) (hr : e.Ranged ρ) (hd : e.Defined ρ) :
    Translated ρ e := by
  induction e with
  | var x w s t => exact .inl plainText_var
  | lit n radix t =>
    obtain ⟨hn, rfl⟩ := hp
    exact .inr (.inr ⟨n, radix, rfl, rfl, hn⟩)
  | implicit t e ih =>
    obtain ⟨rfl, he | ⟨he, hb⟩⟩ := hp
    · exact translated_narrow he hr
    · obtain ⟨op, l, r, rfl, hc⟩ := type_bool he hb
      obtain ⟨-, hlit, hsign, -⟩ := term_bin op CType.bool l r
      rcases ih he hr hd with h | ⟨x, w, h⟩ | ⟨n, radix, h⟩
      · refine .inl (h.resign (c := .bcast) (by decide) ?_ ?_ ?_)
        · rw [term]
          simp only [hlit]
          rfl
        · rw [eval, eval_bin he hd, binRaw_compare hc]
          exact CType.conv_int (fits_bit _)
        · intro W S hk
          rcases hk with ⟨hb, -⟩ | hk
          · cases hb
          · exact hk
      · rw [h.term] at hsign
        cases hsign
      · rw [h.term] at hlit
        cases hlit
  | explicit w t e => exact hp.elim
  | bin op t l r ihl ihr =>
    have hparts := hp.2.2.2.2
    exact .inl (plainText_bin hp hr hd (ihl hparts.1 hr.1 hd.1) (ihr hparts.2 hr.2 hd.2.1))

/-- A conversion of a term that is no literal shows only in the width of the target. -/
theorem text_implicit {t : CType} {e : Expr V} (hlit : e.term.literal = none) :
    (Expr.implicit t e).text = e.text := by
  have hterm : ∃ c, (Expr.implicit t e).term = { e.term with castSign := c } := by
    have hself : (Expr.implicit t e).term = if e.type.signed = t.signed then e.term
        else if e.type.isBool then { e.term with castSign := .bcast }
        else e.term.putSignCast (if t.signed then .scast else .ucast) := by
      rw [term]
      simp only [hlit]
    rw [hself]
    unfold Term.putSignCast
    split
    · exact ⟨_, rfl⟩
    · split
      · exact ⟨_, rfl⟩
      · split
        · exact ⟨_, rfl⟩
        · exact ⟨_, rfl⟩
  obtain ⟨c, hterm⟩ := hterm
  unfold text Term.getTermAsRValue
  rw [hterm]
  simp [hlit]

theorem PlainText.assigned {e : Expr V} (h : PlainText ρ e) {w : Nat}
    (hk : PrintHeld ρ e e.term (e.Held ρ) (max w e.text.width) e.text.isSigned) :
    e.text.assigned ρ w = BitVec.ofInt w (e.eval ρ) :=
  Shows.assigned (h.shows_printed (.inl rfl) true hk)

theorem UnsignedVar.assigned {e : Expr V} {x : V} {w : Nat} (h : UnsignedVar ρ e x w) (k : Nat) :
    e.text.assigned ρ k = BitVec.ofInt k (e.eval ρ) := by
  have htext : e.text = .var x w false := by
    rw [text, h.term]
    rfl
  rw [htext, h.value]
  exact Shows.assigned (shows_var fun _ => h.fits)

theorem assigned_literal {n : Nat} (radix : Nat) (hn : n < 2 ^ 31) (c : CastSign) (k : Nat) :
    ((Term.putLiteral n radix c : Term V).getTermAsRValue false true).assigned ρ k =
      BitVec.ofInt k n := by
  obtain ⟨w, s, htext, hfit⟩ := literal_printed (V := V) radix hn c false true
  rw [htext]
  exact Shows.assigned (shows_lit (hfit s (.inr rfl)))

theorem IntLiteral.assigned {e : Expr V} {n radix : Nat} (h : IntLiteral ρ e n radix) {t : CType}
    (ht : t.isBool = false) : (e.assign t).text.assigned ρ t.width =
      BitVec.ofInt t.width ((e.assign t).eval ρ) := by
  unfold assign
  split
  · rw [text, h.term, h.value]
    exact assigned_literal radix h.bound _ _
  · have hlit : e.term.literal = some (n, radix) := by
      rw [h.term]
      rfl
    have hterm : (Expr.implicit t e).term = Term.putLiteral (n % 2 ^ t.width) radix
        (if t.signed then .scast else .ucast) := by
      simp only [Expr.term, hlit]
    have hn : n % 2 ^ t.width < 2 ^ 31 := Nat.lt_of_le_of_lt (Nat.mod_le _ _) h.bound
    rw [text, hterm, assigned_literal radix hn, eval, CType.ofInt_conv ht le_rfl, h.value]
    apply ofInt_eq_of_emod
    push_cast
    exact Int.emod_emod_of_dvd _ (dvd_refl _)

/-- Assignment of a term that is no literal to a variable of any integer type. -/
theorem assigned_converted {e : Expr V} (hlit : e.term.literal = none) {t : CType}
    (ht : t.isBool = false) (h : e.text.assigned ρ t.width = BitVec.ofInt t.width (e.eval ρ)) :
    (e.assign t).text.assigned ρ t.width = BitVec.ofInt t.width ((e.assign t).eval ρ) := by
  unfold assign
  split
  · exact h
  · rw [text_implicit hlit, h, eval, CType.ofInt_conv ht le_rfl]

end Expr

/-! `(a + b) / c` over three `unsigned char`. The sum is printed with nine signed
bits, which do not hold a carry. -/
namespace SumQuotient

inductive Name where
  | a | b | c
  deriving DecidableEq

def uchar : CType := ⟨8, false, false⟩

def operand (x : Name) : Expr Name := .implicit CType.int (.var x 8 false uchar)

def quotient : Expr Name :=
  .bin .div CType.int (.bin .add CType.int (operand .a) (operand .b)) (operand .c)

def store (a b c : Int) : Name → Int
  | .a => a
  | .b => b
  | .c => c

theorem operand_isPromoted (x : Name) : (operand x).IsPromoted :=
  ⟨rfl, .inl ⟨.inl rfl, rfl⟩⟩

theorem quotient_isPromoted : quotient.IsPromoted :=
  ⟨rfl, rfl, rfl, rfl, ⟨rfl, rfl, rfl, rfl, operand_isPromoted _, operand_isPromoted _⟩,
    operand_isPromoted _⟩

theorem quotient_text : quotient.text = .bin .div
    (.size 9 (.bin .add (.signedZero (.var .a 8 false)) (.signedZero (.var .b 8 false))))
    (.signedZero (.var .c 8 false)) := by
  decide

theorem quotient_ranged {a b c : Int} (ha : Fits false 8 a) (hb : Fits false 8 b)
    (hc : Fits false 8 c) : quotient.Ranged (store a b c) :=
  ⟨⟨ha, hb⟩, hc⟩

end SumQuotient
end SystemcCompiler.Terms
