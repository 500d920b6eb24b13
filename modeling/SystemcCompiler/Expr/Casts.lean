import SystemcCompiler.Expr.Literals

/-! Explicit casts of terms that are no literals. All casts in a row are printed as two: one
to the least width and one to the last width, with a mark of the sign. -/
namespace SystemcCompiler.Casts
open Verilog Terms Literals

/-- The width from which all bits are zero: that of the first type without sign among those
that are narrower than all types after them. -/
def zeroFrom : List IntType → Option Nat
  | [] => none
  | t :: casts =>
    if t.signed = false ∧ ∀ s ∈ casts, t.width < s.width then some t.width else zeroFrom casts

/-- The `m` low bits with their sign, and zeros from some bit on. -/
def cut (m : Nat) (zeros : Option Nat) (v : Int) : Int :=
  let low := valueOf true (BitVec.ofInt m v)
  match zeros with
  | none => low
  | some q => low % 2 ^ q

variable {V : Type}

/-- A term that is no literal, of a known type. -/
structure Source (V : Type) (type : IntType) (ρ : V → Int) where
  str : Sv V
  exprWidth : Nat
  incrWidth : Bool
  value : Int
  isSigned : str.isSigned = type.signed
  fits : Fits type.signed type.width value
  shows : ∀ W, str.width ≤ W → Shows ρ str W type.signed value

/-- A generated expression: its type, its term, and `explicitSignCast` of the term. -/
structure Parsed (V : Type) where
  type : IntType
  term : Term V
  explicitSignCast : Bool

def parseSource {type : IntType} {ρ : V → Int} (src : Source V type ρ) : Parsed V :=
  ⟨type, { Term.putString src.str src.exprWidth with incrWidth := src.incrWidth }, false⟩

def changeSign (term : Term V) (origType type : IntType) : Term V :=
  if origType.signed = type.signed then term
  else term.putSignCast (if type.signed then .scast else .ucast)

def parseImplicitCast (type : IntType) (p : Parsed V) : Parsed V :=
  { p with type, term := changeSign p.term p.type type }

/-- The operand of a built-in cast is converted inside, that of a SystemC constructor is
promoted before. -/
def parseExplicitCast (p : Parsed V) (type : IntType) : Parsed V :=
  let promoted := if type.isBuiltin = false ∧ p.type.isBuiltin = true ∧ p.type.width < 32 then
    parseImplicitCast .int p else p
  let converted := parseImplicitCast type promoted
  { type
    term := converted.term.putTypeCast type.width
    explicitSignCast := p.explicitSignCast || p.type.signed != type.signed }

def parse {type : IntType} {ρ : V → Int} (src : Source V type ρ) (casts : List IntType) :
    Parsed V :=
  casts.foldl parseExplicitCast (parseSource src)

/-- What a term of some type is used for. An operand is converted to a type that has all
values, except for a conversion from signed to unsigned. -/
inductive Use (last : IntType) where
  | assigned
  | operand (op : BinOp) (isLeft : Bool) (type operType : IntType)
    (arithmetic : op.isShift = false ∧ op.isCompare = false)
    (widened : last.signed = false ∨ type.signed = true →
      ∀ v, Fits last.signed last.width v → Fits type.signed type.width v)
    (signed : type.signed = true → operType.signed = true)

def Use.isSigned {last : IntType} : Use last → Bool
  | .assigned => false
  | .operand _ _ type _ _ _ _ => type.signed

def ctype (t : IntType) : CType := ⟨t.width, t.signed, false⟩

/-- An operand as `putBinary` prints it. -/
def operandTerm (op : BinOp) (isLeft : Bool) (operType : IntType) (p : Parsed V) : Term V :=
  let extended := if isLeft then extendLeft op p.term (ctype p.type)
    else extendRight op p.term (ctype p.type)
  signOperand op (ctype operType) extended (ctype p.type)

def text {last : IntType} (p : Parsed V) : Use last → Sv V
  | .assigned => p.term.getTermAsRValue false true
  | .operand op isLeft type operType _ _ _ =>
    (operandTerm op isLeft operType (parseImplicitCast type p)).getTermAsRValue (!op.isShift) false

/-- `SYNTH_EXPLICIT_SIGN_CAST`, `SYNTH_SIGN_UNSIGN_MIX`, `CPP_BOOL_BITWISE_BINARY` or
`SYNTH_SEXPR_UNSIGNED`. -/
def reported {last : IntType} (p : Parsed V) : Use last → Bool
  | .assigned => p.explicitSignCast
  | .operand _ _ type operType _ _ _ =>
    let term := (parseImplicitCast type p).term
    term.castSign == .ucast || term.castSign == .bcast ||
      (operType.signed && !type.signed && term.signedExpr)

/-- The text has the value in every context of its use. -/
def Evaluates {last : IntType} (ρ : V → Int) (s : Sv V) (v : Int) : Use last → Prop
  | .assigned => ∀ W, s.width ≤ W → Shows ρ s W s.isSigned v
  | .operand _ _ _ operType _ _ _ =>
    s.isSigned = operType.signed ∧ ∀ W, s.width ≤ W → Shows ρ s W operType.signed v

/-- The last cast is the narrowest or the term is signed: the casts are all signed, or only the
last type sets bits to zero. Otherwise the narrowest type is unsigned. -/
def Kept (type t : IntType) (casts : List IntType) : Prop :=
  let narrow := narrowest type (t :: casts)
  let last := casts.getLastD t
  if type.signed = false ∧ narrow.width < last.width then narrow.signed = false
  else (∀ s ∈ t :: casts, s.signed = true) ∨ zeroFrom (type :: t :: casts) = some last.width

section Conversions
variable {t : IntType} {casts : List IntType} {m q : Nat} {v u : Int}

theorem cut_congr (zeros : Option Nat) (h : u % 2 ^ m = v % 2 ^ m) :
    cut m zeros u = cut m zeros v := by
  unfold cut
  rw [ofInt_eq_of_emod h]

theorem zeroFrom_ge (h : zeroFrom (t :: casts) = some q) : (narrowest t casts).width ≤ q := by
  induction casts generalizing t with
  | nil =>
    rw [zeroFrom] at h
    split at h
    · exact Nat.le_of_eq (Option.some.inj h)
    · cases h
  | cons s casts ih =>
    rw [zeroFrom] at h
    rw [narrowest_cons_width]
    split at h
    · exact Option.some.inj h ▸ Nat.min_le_left _ _
    · exact (Nat.min_le_right _ _).trans (ih h)

theorem cut_none (m : Nat) (v : Int) : cut m none v = valueOf true (BitVec.ofInt m v) := rfl

theorem cut_self (m : Nat) (v : Int) : cut m (some m) v = v % 2 ^ m := by
  change valueOf true (BitVec.ofInt m v) % 2 ^ m = v % 2 ^ m
  exact emod_of_ofInt_eq (ofInt_valueOf true (BitVec.ofInt m v))

theorem conv_of_signed (hs : t.signed = true) : t.conv v = cut t.width none v := by
  rw [IntType.conv, hs, cut_none]

theorem conv_of_unsigned (hs : t.signed = false) : t.conv v = v % 2 ^ t.width := by
  rw [conv_eq, if_neg]
  intro h
  rw [hs] at h
  cases h.1

/-- A signed number of fewer bits has all of them. -/
theorem cut_cut {k : Nat} (hm : 0 < m) (hk : m ≤ k) (zeros : Option Nat) (v : Int) :
    cut k zeros (cut m none v) = cut m zeros v := by
  have hfits : Fits true k (cut m none v) := (fits_valueOf true _ hm).mono hk
  unfold cut at hfits ⊢
  rw [valueOf_ofInt hfits]

/-- A row of conversions leaves the bits of the narrowest type, extends them with their sign,
and sets the bits above some width to zero. -/
theorem convAll_eq_cut (t : IntType) (casts : List IntType) (v : Int) :
    convAll (t :: casts) v = cut (narrowest t casts).width (zeroFrom (t :: casts)) v := by
  induction casts generalizing t v with
  | nil =>
    rw [convAll_cons, convAll_nil, zeroFrom, narrowest]
    split
    · rename_i h
      rw [cut_self, conv_of_unsigned h.1]
    · rename_i h
      apply conv_of_signed
      by_contra hs
      exact h ⟨Bool.eq_false_iff.mpr hs, fun _ hr => absurd hr List.not_mem_nil⟩
  | cons s casts ih =>
    rw [convAll_cons, zeroFrom]
    by_cases hlt : t.width < (narrowest s casts).width
    · have hwide : ∀ r ∈ s :: casts, t.width < r.width :=
        fun r hr => Nat.lt_of_lt_of_le hlt (narrowest_le r hr)
      rw [narrowest, if_pos hlt]
      cases hs : t.signed with
      | false =>
        have hpos : (0 : Int) < 2 ^ t.width := by positivity
        rw [if_pos ⟨rfl, hwide⟩, cut_self, conv_of_unsigned hs]
        exact convAll_of_lt (Int.emod_nonneg v (Int.ne_of_gt hpos)) (Int.emod_lt_of_pos v hpos)
          hwide
      | true =>
        rw [if_neg (fun h => Bool.noConfusion h.1), ih, conv_of_signed hs,
          cut_cut t.width_pos (Nat.le_of_lt hlt)]
    · have hnot : ¬(t.signed = false ∧ ∀ r ∈ s :: casts, t.width < r.width) :=
        fun h => hlt (h.2 _ narrowest_mem)
      rw [narrowest, if_neg hlt, if_neg hnot, ih]
      exact cut_congr _ (emod_conv (Nat.not_lt.mp hlt))

/-- All bits set tell rows apart that have zeros from different bits on. -/
theorem cut_inj {zeros zeros' : Option Nat} (hm : 0 < m)
    (h : cut m zeros (-1) = cut m zeros' (-1)) : zeros = zeros' := by
  have hlow : valueOf true (BitVec.ofInt m (-1)) = -1 := by
    apply valueOf_ofInt
    have hhalf : (0 : Int) < 2 ^ (m - 1) := by positivity
    exact fits_signed.mpr ⟨by omega, by omega, hm⟩
  have hones : ∀ q : Nat, (-1 : Int) % 2 ^ q = 2 ^ q - 1 := by
    intro q
    have hpos : (0 : Int) < 2 ^ q := by positivity
    rw [← Int.add_emod_right, Int.emod_eq_of_lt (by omega) (by omega)]
    omega
  have hpow : ∀ q : Nat, (0 : Int) < 2 ^ q := fun q => by positivity
  unfold cut at h
  rw [hlow] at h
  match zeros, zeros' with
  | none, none => rfl
  | none, some q =>
    have hq := hpow q
    have h : (-1 : Int) = (-1) % 2 ^ q := h
    rw [hones] at h
    omega
  | some q, none =>
    have hq := hpow q
    have h : (-1 : Int) % 2 ^ q = -1 := h
    rw [hones] at h
    omega
  | some q, some q' =>
    have h : (-1 : Int) % 2 ^ q = (-1) % 2 ^ q' := h
    rw [hones, hones] at h
    have heq : (2 : Int) ^ q = 2 ^ q' := by omega
    exact congrArg some (Int.pow_right_injective (by decide) heq)

theorem convAll_eq_iff {s : IntType} {casts' : List IntType}
    (hm : (narrowest t casts).width = (narrowest s casts').width) :
    (∀ v, convAll (t :: casts) v = convAll (s :: casts') v) ↔
      zeroFrom (t :: casts) = zeroFrom (s :: casts') := by
  constructor
  · intro h
    have hones := h (-1)
    rw [convAll_eq_cut, convAll_eq_cut, hm] at hones
    exact cut_inj (narrowest s casts').width_pos hones
  · intro h v
    rw [convAll_eq_cut, convAll_eq_cut, hm, h]

end Conversions

section Zeros
variable {type t : IntType} {casts : List IntType} {m n : Nat} {v : Int}

theorem zeroFrom_of_signed (h : ∀ s ∈ casts, s.signed = true) : zeroFrom casts = none := by
  induction casts with
  | nil => rfl
  | cons t casts ih =>
    rw [List.forall_mem_cons] at h
    rw [zeroFrom, if_neg (fun hn => Bool.noConfusion (h.1.symm.trans hn.1)), ih h.2]

theorem zeroFrom_narrowest_iff :
    zeroFrom (t :: casts) = some (narrowest t casts).width ↔
      (narrowest t casts).signed = false := by
  induction casts generalizing t with
  | nil =>
    rw [zeroFrom, narrowest]
    split
    · rename_i h
      exact iff_of_true rfl h.1
    · rename_i h
      exact iff_of_false (by intro hn; cases hn) fun hs => h ⟨hs, fun _ hr => absurd hr List.not_mem_nil⟩
  | cons s casts ih =>
    rw [zeroFrom, narrowest]
    by_cases hlt : t.width < (narrowest s casts).width
    · have hwide : ∀ r ∈ s :: casts, t.width < r.width :=
        fun r hr => Nat.lt_of_lt_of_le hlt (narrowest_le r hr)
      rw [if_pos hlt]
      by_cases hs : t.signed = false
      · rw [if_pos ⟨hs, hwide⟩]
        exact iff_of_true rfl hs
      · rw [if_neg (fun h => hs h.1)]
        exact iff_of_false (fun h => absurd (zeroFrom_ge h) (Nat.not_le.mpr hlt)) hs
    · rw [if_neg hlt, if_neg (fun h => hlt (h.2 _ narrowest_mem)), ih]

theorem zeroFrom_of_unsigned (h : ∀ s ∈ t :: casts, s.signed = false) :
    zeroFrom (t :: casts) = some (narrowest t casts).width :=
  zeroFrom_narrowest_iff.mpr (h _ narrowest_mem)

/-- The printed casts: of the least width with the sign of the term, and of the last width. -/
def printed (isSigned : Bool) (m n : Nat) (hm : 0 < m) (hn : 0 < n) (last : Bool) : List IntType :=
  [⟨false, m, isSigned, hm⟩, ⟨false, n, last, hn⟩]

theorem narrowest_printed {hm : 0 < m} {hn : 0 < n} (hmn : m ≤ n) (isSigned last : Bool) :
    (narrowest type (printed isSigned m n hm hn last)).width = min type.width m := by
  rw [printed, narrowest_cons_width, narrowest_cons_width, narrowest]
  change min type.width (min m n) = _
  rw [Nat.min_eq_left hmn]

theorem zeroFrom_printed {hm : 0 < m} {hn : 0 < n} (last : Bool) :
    zeroFrom (type :: printed type.signed m n hm hn last) =
      if type.signed = false ∧ min type.width m < n then some (min type.width m)
      else if last = false then some n else none := by
  have hfirst : (∀ s ∈ printed type.signed m n hm hn last, type.width < s.width) ↔
      type.width < m ∧ type.width < n := by
    simp [printed]
  have hlast : zeroFrom (printed type.signed m n hm hn last) =
      if type.signed = false ∧ m < n then some m else if last = false then some n else none := by
    simp [printed, zeroFrom]
  rw [zeroFrom, hlast]
  simp only [hfirst]
  rcases Nat.lt_or_ge type.width m with hlt | hge
  · rw [Nat.min_eq_left (Nat.le_of_lt hlt)]
    by_cases h : type.signed = false ∧ type.width < n
    · rw [if_pos h, if_pos ⟨h.1, hlt, h.2⟩]
    · rw [if_neg h, if_neg (fun h' => h ⟨h'.1, h'.2.2⟩),
        if_neg (fun h' => h ⟨h'.1, Nat.lt_trans hlt h'.2⟩)]
  · rw [Nat.min_eq_right hge, if_neg (fun h => Nat.not_lt.mpr hge h.2.1)]

end Zeros

section Terms
variable {type orig t : IntType} {casts : List IntType} {ρ : V → Int} {src : Source V type ρ}
  {p : Parsed V} {castSign : CastSign} {signed : Bool}

/-- The sign cast after a conversion between types of some sign. -/
def convertSign (castSign : CastSign) (explCast signed toSigned : Bool) : CastSign :=
  if signed = toSigned then castSign
  else if toSigned then (if explCast then .sacast else .scast)
  else .ucast

def withSign (term : Term V) (castSign : CastSign) : Term V := { term with castSign }

theorem changeSign_eq (term : Term V) (h : term.signedExpr = false) : changeSign term orig t =
    withSign term (convertSign term.castSign term.explCast orig.signed t.signed) := by
  unfold changeSign convertSign Term.putSignCast
  split
  · rfl
  · rw [if_neg (Bool.eq_false_iff.mp h)]
    apply congrArg (withSign term)
    cases t.signed with
    | false => exact if_neg fun hs => CastSign.noConfusion hs.2
    | true => cases term.explCast <;> rfl

/-- The sign cast of a term of some sign after the casts. -/
def SignCast (type : IntType) (casts : List IntType) (signed : Bool) (castSign : CastSign) :
    Prop :=
  match signed with
  | true =>
    castSign = if ∀ s ∈ casts, s.signed = true then (if type.signed then .nocast else .scast)
      else .sacast
  | false => castSign = .ucast ∨ castSign = .nocast ∧ ∀ s ∈ type :: casts, s.signed = false

theorem SignCast.append (h : SignCast type casts signed castSign) (ht : t.signed = signed) :
    SignCast type (casts ++ [t]) signed castSign := by
  cases signed with
  | true =>
    have hiff : (∀ s ∈ casts ++ [t], s.signed = true) ↔ ∀ s ∈ casts, s.signed = true := by
      rw [List.forall_mem_append, List.forall_mem_singleton]
      exact and_iff_left ht
    unfold SignCast at h ⊢
    simp only [hiff]
    exact h
  | false =>
    apply h.imp id
    rintro ⟨hcast, hall⟩
    rw [← List.cons_append, List.forall_mem_append, List.forall_mem_singleton]
    exact ⟨hcast, hall, ht⟩

/-- A conversion from unsigned to signed, after casts or not. -/
theorem signCast_of_unsigned (hlast : (casts.getLastD type).signed = false) (ht : t.signed = true) :
    SignCast type (casts ++ [t]) true (if !casts.isEmpty then .sacast else .scast) := by
  unfold SignCast
  cases casts with
  | nil =>
    have hall : ∀ s ∈ [] ++ [t], s.signed = true := by
      rw [List.nil_append, List.forall_mem_singleton]
      exact ht
    have htype : ¬type.signed = true := Bool.eq_false_iff.mp hlast
    dsimp only
    rw [if_pos hall, if_neg htype]
    rfl
  | cons s casts =>
    have hmem : (s :: casts).getLastD type ∈ (s :: casts) ++ [t] :=
      List.mem_append_left _ (by rw [List.getLastD_cons]; exact List.getLastD_mem_cons)
    change CastSign.sacast = _
    rw [if_neg fun hall => Bool.false_ne_true (hlast.symm.trans (hall _ hmem))]

theorem SignCast.convert (h : SignCast type casts signed castSign)
    (hlast : (casts.getLastD type).signed = signed) (t : IntType) (promoted : Bool) :
    SignCast type (casts ++ [t]) t.signed
      (if promoted then
        convertSign (convertSign castSign (!casts.isEmpty) signed true) (!casts.isEmpty) true
          t.signed
      else convertSign castSign (!casts.isEmpty) signed t.signed) := by
  cases ht : t.signed with
  | true =>
    have hsame : (if promoted = true then convertSign (convertSign castSign (!casts.isEmpty) signed
        true) (!casts.isEmpty) true true else convertSign castSign (!casts.isEmpty) signed true) =
        convertSign castSign (!casts.isEmpty) signed true := ite_self _
    rw [hsame]
    cases signed with
    | true => exact h.append ht
    | false => exact signCast_of_unsigned hlast ht
  | false =>
    cases signed with
    | true => cases promoted <;> exact Or.inl rfl
    | false =>
      cases promoted with
      | true => exact Or.inl rfl
      | false => exact h.append ht

/-- A term and its casts. -/
structure Holds (src : Source V type ρ) (casts : List IntType) (p : Parsed V) : Prop where
  last : p.type = casts.getLastD type
  str : p.term.str = src.str
  literal : p.term.literal = none
  minCastWidth : p.term.minCastWidth = minWidth casts
  lastCastWidth : p.term.lastCastWidth = (casts.map IntType.width).getLastD 0
  explCast : p.term.explCast = !casts.isEmpty
  signedExpr : p.term.signedExpr = false
  signCast : SignCast type casts p.type.signed p.term.castSign
  explicitSignCast : p.explicitSignCast = false → ∀ s ∈ casts, s.signed = type.signed

theorem holds_parseSource (src : Source V type ρ) : Holds src [] (parseSource src) where
  last := rfl
  str := rfl
  literal := rfl
  minCastWidth := rfl
  lastCastWidth := rfl
  explCast := rfl
  signedExpr := rfl
  signCast := by
    change SignCast type [] type.signed .nocast
    cases hs : type.signed with
    | true => rw [SignCast, hs]; rfl
    | false => exact Or.inr ⟨rfl, List.forall_mem_singleton.mpr hs⟩
  explicitSignCast := fun _ _ h => absurd h List.not_mem_nil

/-- A cast converts the sign, where the operand is promoted by way of `int`. -/
theorem parseExplicitCast_eq (h : p.term.signedExpr = false) (t : IntType) :
    ∃ promoted : Bool, parseExplicitCast p t = ⟨t,
      (withSign p.term (if promoted then
        convertSign (convertSign p.term.castSign p.term.explCast p.type.signed true)
          p.term.explCast true t.signed
      else convertSign p.term.castSign p.term.explCast p.type.signed t.signed)).putTypeCast
        t.width,
      p.explicitSignCast || p.type.signed != t.signed⟩ := by
  unfold parseExplicitCast
  split
  · refine ⟨true, ?_⟩
    dsimp only [parseImplicitCast]
    rw [changeSign_eq p.term h, changeSign_eq]
    · rfl
    · exact h
  · refine ⟨false, ?_⟩
    dsimp only [parseImplicitCast]
    rw [changeSign_eq p.term h]
    rfl

theorem Holds.parseExplicitCast (h : Holds src casts p) (t : IntType) :
    Holds src (casts ++ [t]) (parseExplicitCast p t) := by
  have hlast : (casts.getLastD type).signed = p.type.signed := congrArg IntType.signed h.last.symm
  obtain ⟨promoted, hparse⟩ := parseExplicitCast_eq h.signedExpr t
  have hconvert := h.signCast.convert hlast t promoted
  rw [← h.explCast] at hconvert
  rw [hparse]
  exact {
    last := List.getLastD_concat.symm
    str := h.str
    literal := h.literal
    minCastWidth := by
      rw [minWidth_append, ← h.minCastWidth]
      rfl
    lastCastWidth := by
      rw [List.map_append, List.map_singleton, List.getLastD_concat]
      rfl
    explCast := by simp [Term.putTypeCast]
    signedExpr := h.signedExpr
    signCast := hconvert
    explicitSignCast := by
      intro hflag
      obtain ⟨hbefore, hsame⟩ := Bool.or_eq_false_iff.mp hflag
      have hall := h.explicitSignCast hbefore
      have hkept : (casts.getLastD type).signed = type.signed := by
        rcases List.mem_cons.mp (List.getLastD_mem_cons (l := casts) (a := type)) with heq | hmem
        · rw [heq]
        · exact hall _ hmem
      rw [bne_eq_false_iff_eq, h.last, hkept] at hsame
      rw [List.forall_mem_append, List.forall_mem_singleton]
      exact ⟨hall, hsame.symm⟩ }

theorem holds_parse (src : Source V type ρ) (casts : List IntType) :
    Holds src casts (parse src casts) := by
  have hrun : ∀ done p, Holds src done p →
      Holds src (done ++ casts) (casts.foldl Casts.parseExplicitCast p) := by
    induction casts with
    | nil =>
      intro done p h
      rwa [List.append_nil]
    | cons t casts ih =>
      intro done p h
      rw [List.foldl_cons, List.append_cons]
      exact ih _ _ (h.parseExplicitCast t)
  exact hrun [] _ (holds_parseSource src)

end Terms

section Texts
variable {type t : IntType} {casts : List IntType} {ρ : V → Int} {src : Source V type ρ}
  {p : Parsed V} {m n W : Nat} {S last : Bool} {v : Int}

/-- The term under the casts to the least width and to the last one. -/
def castText (s : Sv V) (m n : Nat) : Sv V :=
  if n = m then .size m s else .size n (.size m s)

theorem castText_width (s : Sv V) : (castText s m n).width = n := by
  unfold castText
  split
  · rename_i h
    exact h.symm
  · rfl

theorem castText_isSigned (s : Sv V) : (castText s m n).isSigned = s.isSigned := by
  unfold castText
  split <;> rfl

/-- The number in the least width, cut or extended to the last width with the sign of the term,
and extended in the context. -/
theorem shows_castText (src : Source V type ρ) (hm : 0 < m) (hn : 0 < n) (S : Bool) :
    Shows ρ (castText src.str m n) W S (convAll (printed type.signed m n hm hn S) src.value) := by
  have hleast : ∀ W S, Shows ρ (.size m src.str) W S
      (valueOf S (BitVec.ofInt m src.value)) := by
    intro W S
    apply shows_size
    · rw [src.isSigned]
      exact src.shows _ (Nat.le_max_right _ _)
    · exact fun _ => fits_valueOf S _ hm
    · exact (emod_of_ofInt_eq (ofInt_valueOf S _)).symm
  unfold castText
  split
  · rename_i h
    subst h
    have hsame : convAll (printed type.signed n n hm hn S) src.value =
        valueOf S (BitVec.ofInt n src.value) := by
      change valueOf S (BitVec.ofInt n (valueOf type.signed (BitVec.ofInt n src.value))) = _
      rw [ofInt_valueOf]
    rw [hsame]
    exact hleast W S
  · apply shows_size (hleast _ _)
    · exact fun _ => fits_valueOf S _ hn
    · rw [Sv.isSigned, src.isSigned]
      exact (emod_of_ofInt_eq (ofInt_valueOf S _)).symm

/-- The text under a sign cast. -/
def signText (castSign : CastSign) (s : Sv V) : Sv V :=
  match castSign with
  | .scast => .signed s
  | .sacast => .signedZero s
  | _ => s

theorem makeTermStr_eq (s : Sv V) (hm : 0 < m) (hn : 0 < n) (castSign : CastSign) :
    makeTermStr s m n castSign = signText castSign (castText s m n) := by
  have hm : m ≠ 0 := Nat.ne_of_gt hm
  have hn : n ≠ 0 := Nat.ne_of_gt hn
  have hcast : (if n ≠ 0 ∧ n ≠ m then .size n (if m ≠ 0 then .size m s else s)
      else if m ≠ 0 then .size m s else s) = castText s m n := by
    unfold castText
    rw [if_pos hm]
    by_cases h : n = m
    · rw [if_pos h, if_neg (fun h' => h'.2 h)]
    · rw [if_neg h, if_pos ⟨hn, h⟩]
  unfold makeTermStr
  dsimp only
  rw [hcast]
  cases castSign with
  | scast => exact if_pos (.inl hm)
  | _ => rfl

/-- The sign of the printed number: that of the context without a sign cast. -/
def lastSign (castSign : CastSign) (S : Bool) : Bool :=
  match castSign with
  | .scast => true
  | .sacast => false
  | _ => S

/-- The last sign does not change the bits of the last width. -/
theorem emod_printed (isSigned : Bool) (hm : 0 < m) (hn : 0 < n) (last last' : Bool) (v : Int) :
    convAll (printed isSigned m n hm hn last) v % 2 ^ n =
      convAll (printed isSigned m n hm hn last') v % 2 ^ n := by
  apply emod_of_ofInt_eq
  change BitVec.ofInt n (valueOf last _) = BitVec.ofInt n (valueOf last' _)
  rw [ofInt_valueOf, ofInt_valueOf]

theorem shows_signText (src : Source V type ρ) (hm : 0 < m) (hn : 0 < n) (castSign : CastSign)
    (hS : castSign = .scast → S = true) :
    Shows ρ (signText castSign (castText src.str m n)) W S
      (convAll (printed type.signed m n hm hn (lastSign castSign S)) src.value) := by
  have hwidth : (castText src.str m n).width = n := castText_width src.str
  have hself := shows_castText src hm hn (castText src.str m n).isSigned
    (W := (castText src.str m n).width)
  have hfits : ∀ last, Fits last (castText src.str m n).width
      (convAll (printed type.signed m n hm hn last) src.value) := by
    intro last
    rw [hwidth]
    exact fits_valueOf last _ hn
  have hbits : ∀ last last', convAll (printed type.signed m n hm hn last) src.value %
      2 ^ (castText src.str m n).width =
        convAll (printed type.signed m n hm hn last') src.value %
      2 ^ (castText src.str m n).width := by
    intro last last'
    rw [hwidth]
    exact emod_printed type.signed hm hn last last' src.value
  cases castSign with
  | scast =>
    obtain rfl := hS rfl
    exact shows_signed hself (fun _ => hfits true) (hbits _ true)
  | sacast => exact shows_signedZero (hself.congr (hbits _ false)) (hfits false)
  | _ => exact shows_castText src hm hn S

end Texts

section Uses
variable {type t type' operType : IntType} {casts : List IntType} {ρ : V → Int}
  {src : Source V type ρ} {p : Parsed V} {castSign : CastSign} {signed : Bool}

/-- The least width and the last width of a row of casts, and the casts as they are printed. -/
def printedCasts (isSigned : Bool) (t : IntType) (casts : List IntType) (last : Bool) :
    List IntType :=
  printed isSigned (narrowest t casts).width (casts.getLastD t).width (narrowest t casts).width_pos
    (casts.getLastD t).width_pos last

/-- The term under all casts. -/
def castsText (s : Sv V) (t : IntType) (casts : List IntType) : Sv V :=
  castText s (narrowest t casts).width (casts.getLastD t).width

theorem narrowest_le_last : (narrowest t casts).width ≤ (casts.getLastD t).width :=
  narrowest_le _ List.getLastD_mem_cons

/-- The printed casts are those of the source, if they set the same bits to zero. -/
theorem printedCasts_eq_iff (last : Bool) :
    (∀ v, Fits type.signed type.width v →
      convAll (printedCasts type.signed t casts last) v = convAll (t :: casts) v) ↔
      zeroFrom (type :: t :: casts) = zeroFrom (type :: printedCasts type.signed t casts last) := by
  have hwidth : (narrowest type (t :: casts)).width =
      (narrowest type (printedCasts type.signed t casts last)).width := by
    rw [printedCasts, narrowest_printed narrowest_le_last, narrowest_cons_width]
  rw [← convAll_eq_iff hwidth]
  constructor
  · intro h v
    exact (h _ (fits_valueOf _ _ type.width_pos)).symm
  · intro h v hv
    have heq := h v
    rw [convAll_cons (t := type), convAll_cons (t := type), conv_of_fits hv] at heq
    exact heq.symm

theorem zeroFrom_same (h : ∀ s ∈ t :: casts, s.signed = type.signed) :
    zeroFrom (type :: t :: casts) =
      zeroFrom (type :: printedCasts type.signed t casts type.signed) := by
  have hall : ∀ s ∈ type :: t :: casts, s.signed = type.signed :=
    List.forall_mem_cons.mpr ⟨rfl, h⟩
  have hprinted : ∀ s ∈ type :: printedCasts type.signed t casts type.signed,
      s.signed = type.signed := by
    simp [printedCasts, printed]
  cases hs : type.signed with
  | true =>
    rw [hs] at hall hprinted
    rw [zeroFrom_of_signed hall, zeroFrom_of_signed hprinted]
  | false =>
    rw [hs] at hall hprinted
    rw [zeroFrom_of_unsigned hall, zeroFrom_of_unsigned hprinted, printedCasts,
      narrowest_printed narrowest_le_last, narrowest_cons_width]

theorem kept_iff : zeroFrom (type :: t :: casts) = zeroFrom
      (type :: printedCasts type.signed t casts (decide (∀ s ∈ t :: casts, s.signed = true))) ↔
    Kept type t casts := by
  unfold Kept
  rw [printedCasts, zeroFrom_printed, ← narrowest_cons_width]
  by_cases hcut : type.signed = false ∧
      (narrowest type (t :: casts)).width < (casts.getLastD t).width
  · rw [if_pos hcut]
    dsimp only
    rw [if_pos hcut]
    exact zeroFrom_narrowest_iff
  · rw [if_neg hcut]
    dsimp only
    rw [if_neg hcut]
    by_cases hall : ∀ s ∈ t :: casts, s.signed = true
    · have hnot : ¬(type.signed = false ∧ ∀ s ∈ t :: casts, type.width < s.width) := by
        intro h
        apply hcut
        have hlast := h.2 _ List.getLastD_mem_cons
        rw [narrowest, if_pos (h.2 _ narrowest_mem)]
        exact ⟨h.1, hlast⟩
      rw [decide_eq_true hall, zeroFrom, if_neg hnot, zeroFrom_of_signed hall]
      exact iff_of_true rfl (.inl hall)
    · rw [decide_eq_false hall, if_pos rfl]
      exact (or_iff_right hall).symm

theorem Holds.lastCastWidth_eq (h : Holds src (t :: casts) p) :
    p.term.lastCastWidth = (casts.getLastD t).width := by
  rw [h.lastCastWidth, List.map_cons, List.getLastD_cons, List.getLastD_map]

theorem Holds.makeTermStr_eq (h : Holds src (t :: casts) p) (castSign : CastSign) :
    makeTermStr p.term.str p.term.minCastWidth p.term.lastCastWidth castSign =
      signText castSign (castsText src.str t casts) := by
  rw [h.str, h.minCastWidth, h.lastCastWidth_eq]
  exact Casts.makeTermStr_eq src.str (narrowest t casts).width_pos (casts.getLastD t).width_pos
    castSign

theorem Holds.castsText_assigned (h : Holds src (t :: casts) p) :
    text p (.assigned : Use (casts.getLastD t)) = castsText src.str t casts := by
  change p.term.getTermAsRValue false true = _
  unfold Term.getTermAsRValue
  rw [h.literal]
  exact h.makeTermStr_eq .nocast

/-- A term with explicit casts is not widened. -/
theorem extendTypeWidth_of_cast {term : Term V} (hm : term.minCastWidth ≠ 0)
    (hn : term.lastCastWidth ≠ 0) (hexpl : term.explCast = true) (width : Nat) :
    term.extendTypeWidth width = term := by
  unfold Term.extendTypeWidth
  rw [if_pos hm, if_pos hn, ← hexpl]

theorem extend_of_cast (term : Term V) (hm : term.minCastWidth ≠ 0)
    (hn : term.lastCastWidth ≠ 0) (hexpl : term.explCast = true) (op : BinOp) (type : CType) :
    extendLeft op term type = term ∧ extendRight op term type = term := by
  have hself := extendTypeWidth_of_cast hm hn hexpl
  apply And.intro
  · unfold extendLeft
    split
    · rfl
    · cases op <;> first | rfl | exact hself _
  · unfold extendRight
    split
    · rfl
    · cases op <;> first | rfl | exact hself _

/-- An unsigned operand of a signed operator gets a sign. -/
def operandSign (castSign : CastSign) (type operType : IntType) : CastSign :=
  if operType.signed = true ∧ type.signed = false then .sacast else castSign

theorem signOperand_eq {op : BinOp} (hop : op.isShift = false ∧ op.isCompare = false)
    (term : Term V) (hl : term.literal = none) (hs : term.signedExpr = false) :
    signOperand op (ctype operType) term (ctype type) =
      withSign term (operandSign term.castSign type operType) := by
  have hliteral : ¬term.literal.isSome = true := by
    rw [hl]
    exact Bool.false_ne_true
  unfold signOperand operandSign Term.setExprSCast
  by_cases ho : operType.signed = true
  · by_cases ht : type.signed = false
    · rw [if_pos ⟨ho, hop⟩, if_neg hliteral, if_pos ⟨ht, hs⟩, if_pos ⟨ho, ht⟩]
      rfl
    · rw [if_pos ⟨ho, hop⟩, if_neg hliteral, if_neg (fun h => ht h.1), if_neg (fun h => ht h.2)]
      rfl
  · rw [if_neg (fun h => ho h.1), if_neg (fun h => ho h.1)]
    rfl

theorem Holds.text_operand (h : Holds src (t :: casts) p) {op : BinOp} (isLeft : Bool)
    (hop : op.isShift = false ∧ op.isCompare = false) (type' operType : IntType) :
    (operandTerm op isLeft operType (parseImplicitCast type' p)).getTermAsRValue (!op.isShift)
        false =
      signText (operandSign (convertSign p.term.castSign true p.type.signed type'.signed) type'
        operType) (castsText src.str t casts) := by
  have hm : p.term.minCastWidth ≠ 0 := by
    rw [h.minCastWidth]
    exact Nat.ne_of_gt (narrowest t casts).width_pos
  have hn : p.term.lastCastWidth ≠ 0 := by
    rw [h.lastCastWidth_eq]
    exact Nat.ne_of_gt (casts.getLastD t).width_pos
  have hexpl : p.term.explCast = true := h.explCast
  have hterm : (parseImplicitCast type' p).term =
      withSign p.term (convertSign p.term.castSign true p.type.signed type'.signed) := by
    rw [← hexpl]
    exact changeSign_eq p.term h.signedExpr
  obtain ⟨hleft, hright⟩ := extend_of_cast (parseImplicitCast type' p).term
    (by rwa [hterm]) (by rwa [hterm]) (by rwa [hterm]) op (ctype type')
  have hextend : operandTerm op isLeft operType (parseImplicitCast type' p) =
      signOperand op (ctype operType) (parseImplicitCast type' p).term (ctype type') := by
    unfold operandTerm
    cases isLeft with
    | false => exact congrArg (signOperand op (ctype operType) · (ctype type')) hright
    | true => exact congrArg (signOperand op (ctype operType) · (ctype type')) hleft
  rw [hextend, hterm]
  generalize convertSign p.term.castSign true p.type.signed type'.signed = castSign
  rw [signOperand_eq hop (withSign p.term castSign) h.literal h.signedExpr]
  unfold Term.getTermAsRValue withSign
  dsimp only
  rw [h.literal, hop.1]
  exact h.makeTermStr_eq _

theorem SignCast.use (h : SignCast type (t :: casts) signed castSign)
    (hlast : (casts.getLastD t).signed = signed) (toSigned : Bool) :
    SignCast type (t :: casts) toSigned (convertSign castSign true signed toSigned) := by
  cases signed with
  | true =>
    cases toSigned with
    | true => exact h
    | false => exact Or.inl rfl
  | false =>
    cases toSigned with
    | true =>
      change CastSign.sacast = _
      rw [if_neg fun hall => Bool.false_ne_true
        (hlast.symm.trans (hall _ List.getLastD_mem_cons))]
    | false => exact h

/-- A term that is reported or printed with the value of its casts. -/
def Translated (src : Source V type ρ) (t : IntType) (casts : List IntType)
    (use : Use (casts.getLastD t)) : Prop :=
  reported (parse src (t :: casts)) use = true ∨
    Evaluates ρ (text (parse src (t :: casts)) use) (convAll (t :: casts) src.value) use

theorem translated_assigned (src : Source V type ρ) (t : IntType) (casts : List IntType) :
    Translated src t casts .assigned := by
  have h := holds_parse src (t :: casts)
  by_cases hflag : (parse src (t :: casts)).explicitSignCast = true
  · exact .inl hflag
  · have hsame := h.explicitSignCast (Bool.eq_false_iff.mpr hflag)
    have hvalue := (printedCasts_eq_iff type.signed).mpr (zeroFrom_same hsame) _ src.fits
    apply Or.inr
    intro W hW
    rw [h.castsText_assigned, ← hvalue, castsText, castText_isSigned, src.isSigned]
    exact shows_castText src _ _ type.signed

/-- The term of an operand after its conversion. -/
theorem Holds.operand (h : Holds src (t :: casts) p) (type' : IntType) :
    (parseImplicitCast type' p).term =
        withSign p.term (convertSign p.term.castSign true p.type.signed type'.signed) ∧
      SignCast type (t :: casts) type'.signed
        (convertSign p.term.castSign true p.type.signed type'.signed) := by
  have hexpl : p.term.explCast = true := h.explCast
  apply And.intro
  · rw [← hexpl]
    exact changeSign_eq p.term h.signedExpr
  · apply h.signCast.use
    rw [h.last, List.getLastD_cons]

theorem shows_operand (src : Source V type ρ) (t : IntType) (casts : List IntType)
    {castSign : CastSign} {W : Nat} {S last : Bool} (hS : castSign = .scast → S = true)
    (hlast : lastSign castSign S = last) :
    Shows ρ (signText castSign (castsText src.str t casts)) W S
      (convAll (printedCasts type.signed t casts last) src.value) := by
  rw [← hlast]
  exact shows_signText src _ _ castSign hS

theorem isSigned_signText (castSign : CastSign) (s : Sv V) : (signText castSign s).isSigned =
    (castSign == .scast || castSign == .sacast || s.isSigned) := by
  cases castSign <;> rfl

theorem SignCast.ne_bcast (h : SignCast type casts signed castSign) : castSign ≠ .bcast := by
  cases signed with
  | true =>
    unfold SignCast at h
    rw [h]
    split
    · split <;> nofun
    · nofun
  | false =>
    rcases h with h | ⟨h, _⟩
    · rw [h]
      nofun
    · rw [h]
      nofun

/-- What an operand is reported by and printed as, with its sign cast. -/
theorem translated_operand (src : Source V type ρ) (t : IntType) (casts : List IntType)
    {op : BinOp} (isLeft : Bool) (type' operType : IntType)
    (hop : op.isShift = false ∧ op.isCompare = false) (hwide) (hsigned) :
    ∃ castSign, SignCast type (t :: casts) type'.signed castSign ∧
      (Translated src t casts (.operand op isLeft type' operType hop hwide hsigned) ↔
        castSign = .ucast ∨
          Evaluates ρ (signText (operandSign castSign type' operType) (castsText src.str t casts))
            (convAll (t :: casts) src.value)
            (.operand op isLeft type' operType hop hwide hsigned : Use (casts.getLastD t))) := by
  have h := holds_parse src (t :: casts)
  obtain ⟨hterm, hcast⟩ := h.operand type'
  have htext := h.text_operand isLeft hop type' operType
  generalize convertSign (parse src (t :: casts)).term.castSign true
    (parse src (t :: casts)).type.signed type'.signed = castSign at hterm hcast htext
  have hreported : reported (parse src (t :: casts))
      (.operand op isLeft type' operType hop hwide hsigned) = true ↔ castSign = .ucast := by
    have hbool : castSign ≠ .bcast := hcast.ne_bcast
    unfold reported
    dsimp only
    rw [hterm]
    change (castSign == .ucast || castSign == .bcast || (operType.signed && !type'.signed &&
      (parse src (t :: casts)).term.signedExpr)) = true ↔ _
    rw [h.signedExpr, Bool.and_false, Bool.or_false, Bool.or_eq_true, beq_iff_eq, beq_iff_eq]
    exact or_iff_left hbool
  refine ⟨castSign, hcast, ?_⟩
  rw [← hreported, ← htext]
  exact Iff.rfl

/-- An operand without sign is reported, unless the term and all casts are unsigned. -/
theorem translated_unsigned (src : Source V type ρ) (t : IntType) (casts : List IntType)
    {op : BinOp} (isLeft : Bool) {type' operType : IntType} (hunsigned : type'.signed = false)
    (hop : op.isShift = false ∧ op.isCompare = false) (hwide) (hsigned) :
    Translated src t casts (.operand op isLeft type' operType hop hwide hsigned) := by
  obtain ⟨castSign, hcast, hiff⟩ :=
    translated_operand src t casts isLeft type' operType hop hwide hsigned
  rw [hunsigned] at hcast
  rw [hiff]
  apply hcast.imp id
  rintro ⟨rfl, hall⟩
  rw [List.forall_mem_cons] at hall
  have hsame : ∀ s ∈ t :: casts, s.signed = type.signed :=
    fun s hs => (hall.2 s hs).trans hall.1.symm
  have hvalue := (printedCasts_eq_iff type.signed).mpr (zeroFrom_same hsame) _ src.fits
  have htext : (castsText src.str t casts).isSigned = false := by
    rw [castsText, castText_isSigned, src.isSigned, hall.1]
  have hshows : ∀ castSign W, castSign ≠ .scast → lastSign castSign operType.signed = type.signed →
      Shows ρ (signText castSign (castsText src.str t casts)) W operType.signed
        (convAll (t :: casts) src.value) := by
    intro castSign W hne hlast
    rw [← hvalue]
    exact shows_operand src t casts (fun h => absurd h hne) hlast
  unfold Evaluates
  dsimp only
  rw [isSigned_signText, htext]
  unfold operandSign
  cases hoper : operType.signed with
  | true =>
    rw [if_pos ⟨rfl, hunsigned⟩]
    exact ⟨rfl, fun W _ => hoper ▸ hshows .sacast W nofun hall.1.symm⟩
  | false =>
    rw [if_neg fun h => Bool.false_ne_true h.1]
    exact ⟨rfl, fun W _ => hoper ▸ hshows .nocast W nofun (hoper.trans hall.1.symm)⟩

/-- A signed operand is not reported, and printed with the value of other casts. -/
theorem translated_signed (src : Source V type ρ) (t : IntType) (casts : List IntType)
    {op : BinOp} (isLeft : Bool) {type' operType : IntType} (htype : type'.signed = true)
    (hop : op.isShift = false ∧ op.isCompare = false) (hwide) (hsigned) :
    Translated src t casts (.operand op isLeft type' operType hop hwide hsigned) ↔
      convAll (printedCasts type.signed t casts (decide (∀ s ∈ t :: casts, s.signed = true)))
        src.value = convAll (t :: casts) src.value := by
  obtain ⟨castSign, hcast, hiff⟩ :=
    translated_operand src t casts isLeft type' operType hop hwide hsigned
  have hoper : operType.signed = true := hsigned htype
  have hoperand : operandSign castSign type' operType = castSign :=
    if_neg fun h => Bool.false_ne_true (h.2.symm.trans htype)
  rw [htype] at hcast
  have hsign : (castSign == .scast || castSign == .sacast || type.signed) = true ∧
      castSign ≠ .ucast ∧
      lastSign castSign true = decide (∀ s ∈ t :: casts, s.signed = true) := by
    unfold SignCast at hcast
    by_cases hall : ∀ s ∈ t :: casts, s.signed = true
    · dsimp only at hcast
      rw [hcast, if_pos hall, decide_eq_true hall]
      cases type.signed with
      | true => exact ⟨rfl, nofun, rfl⟩
      | false => exact ⟨rfl, nofun, rfl⟩
    · dsimp only at hcast
      rw [hcast, if_neg hall, decide_eq_false hall]
      exact ⟨rfl, nofun, rfl⟩
  obtain ⟨hprinted, hucast, hlast⟩ := hsign
  have hshows : ∀ W, Shows ρ (signText castSign (castsText src.str t casts)) W true
      (convAll (printedCasts type.signed t casts
        (decide (∀ s ∈ t :: casts, s.signed = true))) src.value) := by
    intro W
    exact shows_operand src t casts (fun _ => rfl) hlast
  rw [hiff, hoperand]
  unfold Evaluates
  dsimp only
  rw [hoper]
  constructor
  · rintro (h | h)
    · exact absurd h hucast
    · apply eq_of_ofInt_eq (signText castSign (castsText src.str t casts)).width
      intro W hW
      exact (hshows W).symm.trans (h.2 W hW)
  · intro h
    rw [← h]
    rw [isSigned_signText, castsText, castText_isSigned, src.isSigned]
    exact .inr ⟨hprinted, fun W _ => hshows W⟩

end Uses

/-- A variable with some value of its type. -/
def variableOf (type : IntType) (v : Int) : Source Unit type (fun _ => type.conv v) where
  str := .var () type.width type.signed
  exprWidth := type.width
  incrWidth := false
  value := type.conv v
  isSigned := rfl
  fits := fits_valueOf type.signed _ type.width_pos
  shows := fun _ _ => shows_var fun _ => fits_valueOf type.signed _ type.width_pos

/-- A row of casts that is not reported is printed with its value, for all terms of a type, if
and only if a signed operand of a signed operator has casts that are kept. -/
theorem casts_translated_iff (type t : IntType) (casts : List IntType)
    (use : Use (casts.getLastD t)) :
    (∀ (V : Type) (ρ : V → Int) (src : Source V type ρ), Translated src t casts use) ↔
      (use.isSigned = true → Kept type t casts) := by
  cases use with
  | assigned =>
    exact iff_of_true (fun V ρ src => translated_assigned src t casts) nofun
  | operand op isLeft type' operType hop hwide hsigned =>
    change _ ↔ (type'.signed = true → _)
    by_cases htype : type'.signed = true
    · rw [← kept_iff, ← printedCasts_eq_iff]
      constructor
      · intro h _ v hv
        have hvar := (translated_signed (variableOf type v) t casts isLeft htype hop hwide
          hsigned).mp (h _ _ _)
        have hvalue : (variableOf type v).value = v := conv_of_fits hv
        rwa [hvalue] at hvar
      · intro h V ρ src
        exact (translated_signed src t casts isLeft htype hop hwide hsigned).mpr
          (h htype src.value src.fits)
    · apply iff_of_true
      · intro V ρ src
        exact translated_unsigned src t casts isLeft (Bool.eq_false_iff.mpr htype) hop hwide hsigned
      · exact fun h => absurd h htype

/-- In `(int)(unsigned char)x + y` a negative `short x` is extended with its sign, in
`(int)(signed char)x + y` an `unsigned short x` is not. -/
theorem casts_differ :
    let int := IntType.int
    let add : Use int := .operand .add true int int ⟨rfl, rfl⟩ (fun _ _ h => h) fun h => h
    (let short : IntType := ⟨true, 16, true, by decide⟩
     let uchar : IntType := ⟨true, 8, false, by decide⟩
     let x := variableOf short (-1)
     text (parse x [uchar, int]) add = .signedZero (.size 32 (.size 8 (.var () 16 true))) ∧
       convAll [uchar, int] x.value = 255 ∧ ¬Translated x uchar [int] add) ∧
    (let ushort : IntType := ⟨true, 16, false, by decide⟩
     let schar : IntType := ⟨true, 8, true, by decide⟩
     let x := variableOf ushort 200
     text (parse x [schar, int]) add = .signed (.size 32 (.size 8 (.var () 16 false))) ∧
       convAll [schar, int] x.value = -56 ∧ ¬Translated x schar [int] add) := by
  intro int add
  refine ⟨⟨by decide, by decide, ?_⟩, by decide, by decide, ?_⟩
  · rintro (h | h)
    · exact absurd h (by decide)
    · have hbits := h.2 40 (by decide)
      unfold Shows at hbits
      exact absurd hbits (by decide)
  · rintro (h | h)
    · exact absurd h (by decide)
    · have hbits := h.2 40 (by decide)
      unfold Shows at hbits
      exact absurd hbits (by decide)

end SystemcCompiler.Casts
