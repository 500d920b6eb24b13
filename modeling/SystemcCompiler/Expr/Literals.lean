import SystemcCompiler.Expr.Terms

/-! Integer literals under explicit casts, from `ScGenerateExpr` to the text of
`ScVerilogWriter::makeLiteralStr`. A negative number is printed as a minus and a literal. -/
namespace SystemcCompiler.Literals
open Verilog Terms

/-- A built-in integer type other than `bool`, or a SystemC one. -/
structure IntType where
  isBuiltin : Bool
  width : Nat
  signed : Bool
  width_pos : 0 < width
  deriving DecidableEq

def IntType.int : IntType := ⟨true, 32, true, by decide⟩

/-- Value after conversion to the type. -/
def IntType.conv (t : IntType) (v : Int) : Int := valueOf t.signed (BitVec.ofInt t.width v)

/-- Value after conversion to the types in turn. -/
def convAll (casts : List IntType) (v : Int) : Int := casts.foldl (fun v t => t.conv v) v

/-- A literal of the source with a minus or without. -/
structure Literal where
  n : Nat
  radix : Nat
  type : IntType
  negated : Bool
  radix_mem : radix ∈ [2, 8, 10, 16]
  isBuiltin : type.isBuiltin = true
  width_ge : 32 ≤ type.width
  fits : Fits type.signed type.width n

/-- Value of the cast literal in C++. -/
def Literal.value (l : Literal) (casts : List IntType) : Int :=
  convAll casts (if l.negated then l.type.conv (-l.n) else l.n)

/-- A printed literal, with a leading minus or without. -/
structure Text where
  negative : Bool
  str : Sv Empty
  deriving DecidableEq

/-- Bits in a context of width `W` and sign `S`. -/
def Text.eval (t : Text) (W : Nat) (S : Bool) : BitVec W :=
  let bits := t.str.eval nofun W S
  if t.negative then -bits else bits

/-- The bits are those of the number in each context that is not narrower. An unsigned
literal is not extended with its sign. -/
def Text.Denotes (t : Text) (v : Int) : Prop :=
  ∀ W S, t.str.width ≤ W → (S = true → t.str.isSigned = true) → t.eval W S = BitVec.ofInt W v

def getBitsNeeded (val : Int) : Nat :=
  if val < 0 then Terms.getBitsNeeded val.natAbs + 1 else Terms.getBitsNeeded val.natAbs

def makeLiteralStr (val : Int) (radix minCastWidth lastCastWidth : Nat) (castSign : CastSign)
    (useZeroAprh : Bool) : Text :=
  let isNegative := val < 0
  let bitNeeded := getBitsNeeded val
  let isBigWidth := (if isNegative then 33 else 32) ≤ bitNeeded
  let radix := if isBigWidth then 16
    else if val = 0 ∨ val = 1 then (if radix = 2 then 2 else 10) else radix
  let isUnsignCast := (val ≠ 0 ∨ useZeroAprh = false) ∧ castSign = .ucast ∧ ¬isNegative
  let isSignCast := val ≠ 0 ∧ (castSign = .scast ∨ isNegative)
  let isCast := minCastWidth ≠ 0 ∨ lastCastWidth ≠ 0 ∨ isSignCast ∨ isUnsignCast
  -- a bit for the sign of a positive number in a signed cast
  let minCast := if (isSignCast ∨ isUnsignCast) ∧ minCastWidth = 0 then
    bitNeeded + (if isSignCast ∧ ¬isNegative then 1 else 0) else minCastWidth
  let s : Sv Empty :=
    -- `'0` takes the width of its context
    if useZeroAprh ∧ val = 0 ∧ ¬isCast ∧ radix = 10 then .lit 1 false 0
    else if minCast ≠ 0 then .lit minCast (decide isSignCast) val.natAbs
    else if isBigWidth then .lit bitNeeded (decide isSignCast) val.natAbs
    else .lit 32 (decide (radix = 10)) val.natAbs
  ⟨decide isNegative,
    if lastCastWidth ≠ 0 ∧ lastCastWidth ≠ minCast then .size lastCastWidth s else s⟩

/-- Fields of `TermInfo` that the text of a literal is made of. -/
structure TermInfo where
  str : Int
  literRadix : Nat
  minCastWidth : Nat
  lastCastWidth : Nat
  castSign : CastSign
  signedExpr : Bool
  explCast : Bool

namespace TermInfo

def getTermAsRValue (info : TermInfo) (useZeroAprh : Bool) : Text :=
  makeLiteralStr info.str info.literRadix info.minCastWidth
    (if info.explCast then info.lastCastWidth else 0) info.castSign useZeroAprh

def putLiteral (val : Int) (radix : Nat) (isCast : Bool) (type : IntType) : TermInfo where
  str := val
  literRadix := if radix = 100 then 10 else radix
  minCastWidth := 0
  lastCastWidth := 0
  castSign := if type.signed = false then .ucast else if isCast then .scast else .nocast
  signedExpr := false
  explCast := false

/-- Unary minus. A minus that leads the literal is removed. -/
def putUnary (utype : IntType) (rinfo : TermInfo) : TermInfo where
  str := -rinfo.str
  literRadix := rinfo.literRadix
  minCastWidth := rinfo.minCastWidth
  lastCastWidth := rinfo.lastCastWidth
  castSign := .nocast
  signedExpr := !utype.signed
  explCast := rinfo.explCast

def putTypeCast (info : TermInfo) (width : Nat) : TermInfo :=
  { info with
    minCastWidth := if info.minCastWidth ≠ 0 then min info.minCastWidth width else width
    lastCastWidth := width
    explCast := true }

def putSignCast (info : TermInfo) (castSign : CastSign) : TermInfo :=
  if info.signedExpr then info
  else { info with
    castSign := if info.explCast ∧ castSign = .scast then .sacast else castSign }

/-- Sign cast of a conversion that changes the sign. -/
def changeSign (info : TermInfo) (origType type : IntType) : TermInfo :=
  if origType.signed = type.signed then info
  else info.putSignCast (if type.signed then .scast else .ucast)

end TermInfo

/-- An expression that has been generated: its type, its value and radix if they are known,
and its term. -/
structure Parsed where
  type : IntType
  val : Option (Int × Nat)
  info : TermInfo

def parseLiteral (l : Literal) : Parsed :=
  let info := TermInfo.putLiteral l.n l.radix false l.type
  if l.negated then ⟨l.type, none, info.putUnary l.type⟩ else ⟨l.type, some (l.n, l.radix), info⟩

/-- `CK_IntegralCast` -/
def parseImplicitCast (type : IntType) (p : Parsed) : Parsed :=
  match p.val with
  | some (val, radix) =>
    ⟨type, some (type.conv val, radix),
      (TermInfo.putLiteral (type.conv val) radix true type).changeSign p.type type⟩
  | none => ⟨type, none, p.info.changeSign p.type type⟩

/-- An explicit cast to a built-in type has an implicit one inside when the type differs. An
operand of a SystemC constructor is promoted, and its value is not known any more. -/
def parseExplicitCast (p : Parsed) (type : IntType) : Parsed :=
  if type.isBuiltin then
    let p := if p.type = type then p else parseImplicitCast type p
    { p with info := p.info.putTypeCast type.width }
  else
    let p := if p.type.isBuiltin ∧ p.type.width < 32 then parseImplicitCast .int p else p
    ⟨type, none, (p.info.changeSign p.type type).putTypeCast type.width⟩

def parse (l : Literal) (casts : List IntType) : Parsed :=
  casts.foldl parseExplicitCast (parseLiteral l)

/-- Text of a cast literal. -/
def text (l : Literal) (casts : List IntType) (useZeroAprh : Bool) : Text :=
  (parse l casts).info.getTermAsRValue useZeroAprh

/-- What is left to print: a number of some type and the casts that are put around it. -/
structure Folded where
  value : Int
  type : IntType
  casts : List IntType

/-- Casts of a number whose value is known. A cast to another built-in type is folded
into the number, the casts from the first SystemC type on are kept. -/
def foldCasts (value : Int) (type : IntType) (kept : List IntType) : List IntType → Folded
  | [] => ⟨value, type, kept⟩
  | t :: casts =>
    if t.isBuiltin then
      if type = t then foldCasts value type (kept ++ [t]) casts
      else foldCasts (t.conv value) t [t] casts
    else if type.width < 32 then ⟨value, .int, t :: casts⟩
    else ⟨value, type, kept ++ t :: casts⟩

def folded (l : Literal) (casts : List IntType) : Folded :=
  if l.negated then ⟨-l.n, l.type, casts⟩ else foldCasts l.n l.type [] casts

/-- The last of the narrowest types. -/
def narrowest (t : IntType) : List IntType → IntType
  | [] => t
  | s :: casts => if t.width < (narrowest s casts).width then t else narrowest s casts

/-- A type that is narrower than all types after it is signed. -/
def SignKept : List IntType → Prop
  | [] => True
  | t :: casts => ((∀ s ∈ casts, t.width < s.width) → t.signed = true) ∧ SignKept casts

/-- The casts leave the number as the text has it, cut to the narrowest of them. A number
that is not negative has no sign to lose, a negative one has to keep it in all casts. -/
def Folded.Preserved (f : Folded) : Prop :=
  match f.casts with
  | [] => 0 ≤ f.value ∨ f.type.signed = true
  | t :: casts =>
    let width := (narrowest t casts).width
    if 0 ≤ f.value then
      (narrowest t casts).signed = true → f.value % 2 ^ width < 2 ^ (width - 1)
    else
      -f.value % 2 ^ width = 0 ∨
        -f.value % 2 ^ width < 2 ^ (width - 1) ∧ SignKept (f.type :: t :: casts)

section Conversions
variable {t : IntType} {casts : List IntType} {k : Nat} {v u : Int}

theorem emod_of_ofInt_eq {w : Nat} {a b : Int} (h : BitVec.ofInt w a = BitVec.ofInt w b) :
    a % 2 ^ w = b % 2 ^ w := by
  have hnat := congrArg (fun x : BitVec w => (x.toNat : Int)) h
  have hpos : (0 : Int) < 2 ^ w := by positivity
  have ha := Int.emod_nonneg a (Int.ne_of_gt hpos)
  have hb := Int.emod_nonneg b (Int.ne_of_gt hpos)
  simp only [BitVec.toNat_ofInt] at hnat
  push_cast at hnat
  rwa [Int.toNat_of_nonneg ha, Int.toNat_of_nonneg hb] at hnat

theorem conv_of_fits (h : Fits t.signed t.width v) : t.conv v = v := valueOf_ofInt h

theorem conv_congr (h : u % 2 ^ t.width = v % 2 ^ t.width) : t.conv u = t.conv v := by
  unfold IntType.conv
  rw [ofInt_eq_of_emod h]

theorem emod_conv (h : k ≤ t.width) : t.conv v % 2 ^ k = v % 2 ^ k := by
  apply emod_of_ofInt_eq
  exact ofInt_valueOf_extend fun hlt => absurd hlt (Nat.not_lt.mpr h)

/-- The upper half of the numbers is negative in a signed type. -/
theorem conv_eq : t.conv v =
    if t.signed = true ∧ 2 ^ (t.width - 1) ≤ v % 2 ^ t.width then v % 2 ^ t.width - 2 ^ t.width
    else v % 2 ^ t.width := by
  have hpos : (0 : Int) < 2 ^ t.width := by positivity
  have hnonneg := Int.emod_nonneg v (Int.ne_of_gt hpos)
  have hlt := Int.emod_lt_of_pos v hpos
  have htwo : (2 : Int) ^ t.width = 2 ^ (t.width - 1) + 2 ^ (t.width - 1) := by
    have := t.width_pos
    rw [← two_mul, ← pow_succ']
    congr 1
    omega
  split
  · rename_i h
    rw [conv_congr (v := v % 2 ^ t.width - 2 ^ t.width) (by simp)]
    apply conv_of_fits
    rw [h.1]
    exact fits_signed.mpr ⟨by omega, by omega, t.width_pos⟩
  · rename_i h
    rw [conv_congr (v := v % 2 ^ t.width) (by simp)]
    apply conv_of_fits
    cases hs : t.signed with
    | false => exact fits_unsigned.mpr ⟨hnonneg, hlt⟩
    | true =>
      simp only [hs, true_and, not_le] at h
      exact fits_signed.mpr ⟨by omega, h, t.width_pos⟩

/-- A type with more bits has the number in either sign. -/
theorem conv_of_lt (hv : 0 ≤ v) (hlt : v < 2 ^ k) (hk : k < t.width) : t.conv v = v := by
  apply conv_of_fits
  have hle : (2 : Int) ^ k ≤ 2 ^ (t.width - 1) := pow_le_pow_right₀ (by omega) (by omega)
  have htop : (2 : Int) ^ (t.width - 1) ≤ 2 ^ t.width := pow_le_pow_right₀ (by omega) (by omega)
  cases t.signed with
  | false => exact fits_unsigned.mpr ⟨hv, by omega⟩
  | true => exact fits_signed.mpr ⟨by omega, by omega, t.width_pos⟩

@[simp] theorem convAll_nil : convAll [] v = v := rfl

@[simp] theorem convAll_cons : convAll (t :: casts) v = convAll casts (t.conv v) := rfl

theorem convAll_append (l : List IntType) :
    convAll (l ++ casts) v = convAll casts (convAll l v) :=
  List.foldl_append

theorem convAll_of_lt (hv : 0 ≤ v) (hlt : v < 2 ^ k) (hk : ∀ t ∈ casts, k < t.width) :
    convAll casts v = v := by
  induction casts with
  | nil => rfl
  | cons t casts ih =>
    rw [List.forall_mem_cons] at hk
    rw [convAll_cons, conv_of_lt hv hlt hk.1]
    exact ih hk.2

theorem emod_convAll (hk : ∀ t ∈ casts, k ≤ t.width) : convAll casts v % 2 ^ k = v % 2 ^ k := by
  induction casts generalizing v with
  | nil => rfl
  | cons t casts ih =>
    rw [List.forall_mem_cons] at hk
    rw [convAll_cons, ih hk.2, emod_conv hk.1]

/-- Bits that some type cuts do not matter. -/
theorem convAll_congr (h : u % 2 ^ k = v % 2 ^ k) (hk : ∃ t ∈ casts, t.width ≤ k) :
    convAll casts u = convAll casts v := by
  induction casts generalizing u v with
  | nil => simp at hk
  | cons t casts ih =>
    rw [convAll_cons, convAll_cons]
    by_cases hle : t.width ≤ k
    · have hdvd : (2 : Int) ^ t.width ∣ 2 ^ k := pow_dvd_pow 2 hle
      rw [conv_congr (u := u) (v := v)]
      rw [← Int.emod_emod_of_dvd u hdvd, h, Int.emod_emod_of_dvd v hdvd]
    · rw [List.exists_mem_cons_iff] at hk
      refine ih ?_ (hk.resolve_left hle)
      rw [emod_conv (by omega), emod_conv (by omega), h]

theorem narrowest_cons_width (s : IntType) :
    (narrowest t (s :: casts)).width = min t.width (narrowest s casts).width := by
  rw [narrowest]
  split <;> omega

theorem narrowest_le : ∀ s ∈ t :: casts, (narrowest t casts).width ≤ s.width := by
  induction casts generalizing t with
  | nil => simp [narrowest]
  | cons r casts ih =>
    intro s hs
    rw [narrowest_cons_width]
    rcases List.mem_cons.mp hs with rfl | hs
    · exact Nat.min_le_left _ _
    · exact (Nat.min_le_right _ _).trans (ih s hs)

theorem narrowest_mem : narrowest t casts ∈ t :: casts := by
  induction casts generalizing t with
  | nil => simp [narrowest]
  | cons r casts ih =>
    rw [narrowest]
    split
    · exact List.mem_cons_self
    · exact List.mem_cons_of_mem _ ih

/-- The casts cut a number to the narrowest of them, whose sign decides. -/
theorem convAll_eq_emod_iff : convAll (t :: casts) v = v % 2 ^ (narrowest t casts).width ↔
    ((narrowest t casts).signed = true →
      v % 2 ^ (narrowest t casts).width < 2 ^ ((narrowest t casts).width - 1)) := by
  induction casts generalizing t v with
  | nil =>
    have hpos : (0 : Int) < 2 ^ t.width := by positivity
    simp only [narrowest, convAll_cons, convAll_nil, conv_eq]
    split <;> grind
  | cons s casts ih =>
    rw [narrowest]
    split
    · rename_i hlt
      have hwide : ∀ r ∈ s :: casts, t.width < r.width := fun r hr => by
        have := narrowest_le r hr
        omega
      have hpos : (0 : Int) < 2 ^ t.width := by positivity
      have hnonneg := Int.emod_nonneg v (Int.ne_of_gt hpos)
      rw [convAll_cons, conv_eq]
      split
      · rename_i hneg
        refine iff_of_false (fun heq => ?_) (fun h => absurd (h hneg.1) (by omega))
        -- the sign is seen in the bit above the width
        have hmod := emod_convAll (v := v % 2 ^ t.width - 2 ^ t.width) (k := t.width + 1) hwide
        have hlt := Int.emod_lt_of_pos v hpos
        have htwo : (2 : Int) ^ (t.width + 1) = 2 ^ t.width + 2 ^ t.width := by
          rw [pow_succ, mul_two]
        have hup : v % 2 ^ t.width - 2 ^ t.width =
            v % 2 ^ t.width + 2 ^ t.width - 2 ^ (t.width + 1) := by omega
        have hsum : 0 ≤ v % 2 ^ t.width + 2 ^ t.width := by omega
        rw [heq, hup, Int.sub_emod_right, Int.emod_eq_of_lt hnonneg (by omega),
          Int.emod_eq_of_lt hsum (by omega)] at hmod
        omega
      · rename_i hneg
        rw [convAll_of_lt hnonneg (Int.emod_lt_of_pos v hpos) hwide]
        simp only [not_and, not_le] at hneg
        simpa using hneg
    · rename_i hle
      have hmod := emod_conv (t := t) (v := v) (Nat.not_lt.mp hle)
      rw [convAll_cons, ← hmod]
      exact ih

/-- A negative number is kept if no type without a sign cuts it. -/
theorem convAll_eq_self_iff (hv : v < 0)
    (hrange : ∀ t ∈ casts, if t.signed then -2 ^ (t.width - 1) ≤ v else -2 ^ t.width < v) :
    convAll casts v = v ↔ SignKept casts := by
  induction casts with
  | nil => simp [SignKept]
  | cons t casts ih =>
    rw [List.forall_mem_cons] at hrange
    rw [convAll_cons, SignKept]
    cases hs : t.signed with
    | true =>
      have hpos : (0 : Int) < 2 ^ (t.width - 1) := by positivity
      have hfits : Fits t.signed t.width v := by
        rw [hs] at hrange ⊢
        exact fits_signed.mpr ⟨hrange.1, by omega, t.width_pos⟩
      rw [conv_of_fits hfits, ih hrange.2]
      simp
    | false =>
      have hlow : -2 ^ t.width < v := by simpa [hs] using hrange.1
      have hconv : t.conv v = v + 2 ^ t.width := by
        rw [conv_congr (v := v + 2 ^ t.width) (by simp)]
        apply conv_of_fits
        rw [hs]
        exact fits_unsigned.mpr (by omega)
      rw [hconv]
      by_cases hwide : ∀ s ∈ casts, t.width < s.width
      · rw [convAll_of_lt (k := t.width) (by omega) (by omega) hwide]
        have hpos : (0 : Int) < 2 ^ t.width := by positivity
        refine iff_of_false (by omega) fun h => absurd (h.1 hwide) (by simp)
      · rw [convAll_congr (v := v) (k := t.width) (by simp) (by simpa using hwide), ih hrange.2]
        simp [hwide]

end Conversions

section Texts
variable {t : Text} {m l n radix : Nat} {sgn : Bool} {v x : Int}

/-- A context that is wide enough tells two numbers apart. -/
theorem eq_of_ofInt_eq (k : Nat) (h : ∀ W, k ≤ W → BitVec.ofInt W x = BitVec.ofInt W v) :
    x = v := by
  let W := max k (x.natAbs + v.natAbs + 1)
  have hW : x.natAbs + v.natAbs + 1 ≤ W := Nat.le_max_right _ _
  have hpow : ((x.natAbs + v.natAbs : Nat) : Int) < 2 ^ (x.natAbs + v.natAbs) := by
    exact_mod_cast Nat.lt_two_pow_self
  have hle : (2 : Int) ^ (x.natAbs + v.natAbs) ≤ 2 ^ (W - 1) :=
    pow_le_pow_right₀ (by omega) (by omega)
  have hx : Fits true W x := fits_signed.mpr ⟨by omega, by omega, by omega⟩
  have hv : Fits true W v := fits_signed.mpr ⟨by omega, by omega, by omega⟩
  exact ofInt_inj hx hv (h W (Nat.le_max_left _ _))

theorem Text.Denotes.eq (hx : t.Denotes x) (hv : t.Denotes v) : x = v :=
  eq_of_ofInt_eq t.str.width fun W hW => (hx W false hW nofun).symm.trans (hv W false hW nofun)

/-- A literal has bits of its own, which a context extends. -/
theorem denotes_iff_of_bits {w : Nat} {b : BitVec w}
    (h : ∀ W S, t.str.eval nofun W S = BitVec.ofInt W (valueOf S b)) :
    t.Denotes x ↔ ∀ S, (S = true → t.str.isSigned = true) →
      x = if t.negative then -valueOf S b else valueOf S b := by
  have heval : ∀ W S, t.eval W S =
      BitVec.ofInt W (if t.negative then -valueOf S b else valueOf S b) := by
    intro W S
    rw [Text.eval, h]
    split
    · rw [BitVec.ofInt_neg]
    · rfl
  constructor
  · intro hd S hS
    refine eq_of_ofInt_eq t.str.width fun W hW => ?_
    exact (hd W S hW hS).symm.trans (heval W S)
  · intro hd W S _ hS
    rw [heval, ← hd S hS]

/-- A literal that is extended denotes its digits, cut to its size. Signed, they leave the
upper bit free. -/
theorem denotes_iff_of_extended {w : Nat} (hm : 0 < m) (hw : m ≤ w)
    (h : ∀ W S, t.str.eval nofun W S =
      BitVec.ofInt W (valueOf S (BitVec.ofInt w (valueOf sgn (BitVec.ofNat m n)))))
    (hs : t.str.isSigned = sgn) :
    t.Denotes x ↔ (x = if t.negative then -(n % 2 ^ m : Int) else n % 2 ^ m) ∧
      (sgn = true → (n : Int) % 2 ^ m < 2 ^ (m - 1)) := by
  have hpos : (0 : Int) < 2 ^ m := by positivity
  have hnonneg := Int.emod_nonneg n (Int.ne_of_gt hpos)
  have hlt := Int.emod_lt_of_pos n hpos
  have hhalf : (0 : Int) < 2 ^ (m - 1) := by positivity
  have hlow : ∀ {S : Bool} {k : Nat}, (S = true → (n : Int) % 2 ^ m < 2 ^ (m - 1)) → m ≤ k →
      Fits S k ((n : Int) % 2 ^ m) := by
    intro S k hS hk
    refine Fits.mono (w := m) ?_ hk
    cases S with
    | false => exact fits_unsigned.mpr ⟨hnonneg, hlt⟩
    | true => exact fits_signed.mpr ⟨by omega, hS rfl, hm⟩
  have hbits : BitVec.ofNat m n = BitVec.ofInt m ((n : Int) % 2 ^ m) := by
    rw [← BitVec.ofInt_natCast]
    exact ofInt_eq_of_emod (by simp)
  rw [denotes_iff_of_bits h, hs]
  by_cases hsign : sgn = true → (n : Int) % 2 ^ m < 2 ^ (m - 1)
  · have hval : ∀ S, (S = true → sgn = true) →
        valueOf S (BitVec.ofInt w (valueOf sgn (BitVec.ofNat m n))) = (n : Int) % 2 ^ m := by
      intro S hS
      rw [hbits, valueOf_ofInt (hlow hsign (Nat.le_refl m)),
        valueOf_ofInt (hlow (fun h => hsign (hS h)) hw)]
    constructor
    · intro hx
      refine ⟨?_, hsign⟩
      have := hx false nofun
      rwa [hval false nofun] at this
    · rintro ⟨hx, -⟩ S hS
      rw [hval S hS, hx]
  · -- the upper bit is set, which the two signs take for different numbers
    refine iff_of_false (fun hx => ?_) (fun hx => hsign hx.2)
    have htrue : sgn = true := by_contra fun hne => hsign fun h => absurd h hne
    subst htrue
    have hfits : Fits true w (valueOf true (BitVec.ofNat m n)) :=
      (fits_valueOf true _ hm).mono hw
    have hneg : valueOf true (BitVec.ofNat m n) < 0 := by
      have hconv := conv_eq (t := ⟨true, m, true, hm⟩) (v := n)
      have hupper : (2 : Int) ^ (m - 1) ≤ n % 2 ^ m := by omega
      simp only [IntType.conv, hupper, and_self, if_true, BitVec.ofInt_natCast] at hconv
      omega
    have hsigned := hx true fun _ => rfl
    have hunsigned := hx false nofun
    have hge : (0 : Int) ≤ valueOf false (BitVec.ofInt w (valueOf true (BitVec.ofNat m n))) :=
      Int.natCast_nonneg _
    rw [valueOf_ofInt hfits] at hsigned
    split at hsigned
    · rename_i hminus
      rw [if_pos hminus] at hunsigned
      omega
    · rename_i hminus
      rw [if_neg hminus] at hunsigned
      omega

theorem denotes_lit {neg : Bool} (hm : 0 < m) : (Text.mk neg (.lit m sgn n)).Denotes x ↔
    (x = if neg then -(n % 2 ^ m : Int) else n % 2 ^ m) ∧
      (sgn = true → (n : Int) % 2 ^ m < 2 ^ (m - 1)) := by
  refine denotes_iff_of_extended hm (Nat.le_refl m) (fun W S => ?_) rfl
  rw [ofInt_valueOf]
  rfl

theorem denotes_size {neg : Bool} (hm : 0 < m) (hl : m ≤ l) :
    (Text.mk neg (.size l (.lit m sgn n))).Denotes x ↔
      (x = if neg then -(n % 2 ^ m : Int) else n % 2 ^ m) ∧
        (sgn = true → (n : Int) % 2 ^ m < 2 ^ (m - 1)) := by
  refine denotes_iff_of_extended hm hl (fun W S => ?_) rfl
  simp only [Sv.eval, Sv.width, Sv.isSigned]
  rw [setWidth_ofInt _ (Nat.le_max_left l m)]

theorem denotes_of_lt {neg : Bool} (hlt : n < 2 ^ m) (hs : sgn = true → n < 2 ^ (m - 1))
    (hm : 0 < m) : (Text.mk neg (.lit m sgn n)).Denotes (if neg then -n else n) := by
  have hmod : (n : Int) % 2 ^ m = n := by
    exact_mod_cast Nat.mod_eq_of_lt hlt
  rw [denotes_lit hm, hmod]
  exact ⟨rfl, fun h => by exact_mod_cast hs h⟩

variable {castSign : CastSign} {useZeroAprh : Bool}

/-- Without casts to a width the size is taken from the number. -/
theorem makeLiteralStr_denotes :
    (makeLiteralStr v radix 0 0 castSign useZeroAprh).Denotes v := by
  have hlt := lt_getBitsNeeded v.natAbs
  have hdenotes : ∀ {m : Nat} {sgn : Bool}, Terms.getBitsNeeded v.natAbs ≤ m →
      (sgn = true → Terms.getBitsNeeded v.natAbs < m) →
      (Text.mk (decide (v < 0)) (.lit m sgn v.natAbs)).Denotes v := by
    intro m sgn hm hs
    have hval : (if decide (v < 0) = true then -(v.natAbs : Int) else v.natAbs) = v := by
      by_cases hneg : v < 0
      · rw [if_pos (decide_eq_true hneg)]
        omega
      · rw [if_neg (by simpa using hneg)]
        omega
    have hpos : 0 < Terms.getBitsNeeded v.natAbs := Nat.succ_pos _
    have hdigits : (Text.mk (decide (v < 0)) (.lit m sgn v.natAbs)).Denotes _ :=
      denotes_of_lt (hlt.trans_le (Nat.pow_le_pow_right (by omega) hm))
        (fun h => hlt.trans_le (Nat.pow_le_pow_right (by omega) (Nat.le_sub_one_of_lt (hs h))))
        (hpos.trans_le hm)
    rwa [hval] at hdigits
  unfold makeLiteralStr
  extract_lets isNegative bitNeeded isBigWidth radix isUnsignCast isSignCast isCast minCast str
  rw [if_neg (by simp)]
  by_cases hzero : useZeroAprh = true ∧ v = 0 ∧ ¬isCast ∧ radix = 10
  · have hv := hzero.2.1
    rw [show str = .lit 1 false 0 from if_pos hzero]
    subst hv
    exact hdenotes (Nat.le_refl 1) nofun
  · rw [show str = _ from if_neg hzero]
    by_cases hcast : isSignCast ∨ isUnsignCast
    · have hmin : minCast = bitNeeded + if isSignCast ∧ ¬isNegative then 1 else 0 :=
        if_pos ⟨hcast, rfl⟩
      have hle : Terms.getBitsNeeded v.natAbs ≤ bitNeeded := by
        unfold bitNeeded getBitsNeeded
        split <;> omega
      have hsign : isSignCast → Terms.getBitsNeeded v.natAbs < minCast := by
        intro hs
        by_cases hneg : v < 0
        · have : bitNeeded = Terms.getBitsNeeded v.natAbs + 1 := if_pos hneg
          omega
        · rw [hmin, if_pos ⟨hs, hneg⟩]
          omega
      have hpos : 0 < Terms.getBitsNeeded v.natAbs := Nat.succ_pos _
      rw [if_pos (by omega)]
      exact hdenotes (by omega) fun h => hsign (of_decide_eq_true h)
    · have hmin : minCast = 0 := if_neg fun h => hcast h.1
      have hnonneg : ¬v < 0 := fun hneg => hcast (.inl ⟨by omega, .inr hneg⟩)
      have hbits : bitNeeded = Terms.getBitsNeeded v.natAbs := if_neg hnonneg
      have hsign : ¬isSignCast := fun h => hcast (.inl h)
      rw [if_neg (by omega)]
      by_cases hbig : isBigWidth
      · rw [if_pos hbig]
        exact hdenotes hbits.ge fun h => absurd (of_decide_eq_true h) hsign
      · have hlow : bitNeeded < 32 := by
          simp only [isBigWidth, isNegative, hnonneg, if_false] at hbig
          omega
        rw [if_neg hbig]
        exact hdenotes (by omega) fun _ => by omega

/-- With casts the digits are cut to the narrowest. -/
theorem makeLiteralStr_denotes_iff (hm : 0 < m) (hl : m ≤ l) :
    (makeLiteralStr v radix m l castSign useZeroAprh).Denotes x ↔
      (x = if v < 0 then -(v.natAbs % 2 ^ m : Int) else v.natAbs % 2 ^ m) ∧
        (v ≠ 0 ∧ (castSign = .scast ∨ v < 0) → (v.natAbs : Int) % 2 ^ m < 2 ^ (m - 1)) := by
  have hne : m ≠ 0 := by omega
  simp only [makeLiteralStr, hne, ne_eq, not_false_eq_true, true_or, not_true_eq_false, and_false,
    false_and, if_false, if_true]
  split
  · rw [denotes_size hm hl]
    simp only [decide_eq_true_eq]
  · rw [denotes_lit hm]
    simp only [decide_eq_true_eq]

end Texts

def minWidth : List IntType → Nat
  | [] => 0
  | t :: casts => (narrowest t casts).width

/-- The term of an expression of the type has the number and the casts. -/
structure Holds (info : TermInfo) (type : IntType) (f : Folded) : Prop where
  str : info.str = f.value
  minCastWidth : info.minCastWidth = minWidth f.casts
  lastCastWidth : minWidth f.casts ≤ info.lastCastWidth
  explCast : info.explCast = true ↔ f.casts ≠ []
  scast : info.castSign = .scast → type.signed = true ∧ ∀ t ∈ f.casts, t.signed = true
  signedExpr : info.signedExpr = true → info.castSign ≠ .scast

/-- The first type has a number that is not negative. A negative one is at least as long
as the literal it is printed with. -/
def Folded.InRange (f : Folded) : Prop :=
  if 0 ≤ f.value then Fits f.type.signed f.type.width f.value
  else if f.type.signed then -2 ^ (f.type.width - 1) ≤ f.value else -2 ^ f.type.width < f.value

theorem Folded.InRange.of_fits {f : Folded} (h : Fits f.type.signed f.type.width f.value) :
    f.InRange := by
  unfold Folded.InRange
  split
  · exact h
  · rename_i hneg
    cases hs : f.type.signed with
    | true => exact (fits_signed.mp (hs ▸ h)).1
    | false => exact absurd (fits_unsigned.mp (hs ▸ h)).1 hneg

/-- The opposite of a number of the first type. -/
theorem Folded.InRange.of_neg {f : Folded} (h : Fits f.type.signed f.type.width (-f.value))
    (hneg : f.value ≤ 0) : f.InRange := by
  unfold Folded.InRange
  split
  · have hzero : -f.value = f.value := by omega
    rwa [hzero] at h
  · cases hs : f.type.signed with
    | true =>
      have := fits_signed.mp (hs ▸ h)
      simp only [if_true]
      omega
    | false =>
      have := fits_unsigned.mp (hs ▸ h)
      simp only [Bool.false_eq_true, if_false]
      omega

section Terms
variable {info : TermInfo} {type orig t : IntType} {f : Folded} {casts : List IntType}
  {v : Int} {radix : Nat}

theorem narrowest_append : (narrowest t (casts ++ [type])).width =
    min (narrowest t casts).width type.width := by
  induction casts generalizing t with
  | nil =>
    rw [List.nil_append, narrowest_cons_width]
    rfl
  | cons s casts ih =>
    rw [List.cons_append, narrowest_cons_width, narrowest_cons_width, ih, Nat.min_assoc]

theorem minWidth_append : minWidth (casts ++ [type]) =
    if minWidth casts ≠ 0 then min (minWidth casts) type.width else type.width := by
  cases casts with
  | nil => rfl
  | cons t casts =>
    have hpos := (narrowest t casts).width_pos
    have hne : minWidth (t :: casts) ≠ 0 := by
      simp only [minWidth]
      omega
    rw [if_pos hne]
    exact narrowest_append

theorem Holds.changeSign (h : Holds info orig f) (type : IntType) :
    Holds (info.changeSign orig type) type f := by
  unfold TermInfo.changeSign
  split
  · rename_i hsame
    exact { h with scast := fun hc => hsame ▸ h.scast hc }
  · unfold TermInfo.putSignCast
    split
    · rename_i hexpr
      exact { h with scast := fun hc => absurd hc (h.signedExpr hexpr) }
    · rename_i hexpr
      refine { h with scast := fun hc => ?_, signedExpr := fun hs => absurd hs hexpr }
      -- after an explicit cast the cast would be an artificial one
      cases hs : type.signed with
      | false => simp [hs] at hc
      | true =>
        have hnot : ¬info.explCast = true := fun he => by simp [hs, he] at hc
        have hnil : f.casts = [] := by_contra fun hne => hnot (h.explCast.mpr hne)
        rw [hnil]
        exact ⟨rfl, nofun⟩

theorem Holds.putTypeCast (h : Holds info type f) :
    Holds (info.putTypeCast type.width) type ⟨f.value, f.type, f.casts ++ [type]⟩ where
  str := h.str
  minCastWidth := by
    rw [minWidth_append, ← h.minCastWidth]
    rfl
  lastCastWidth := by
    rw [minWidth_append]
    simp only [TermInfo.putTypeCast]
    split <;> omega
  explCast := by simp [TermInfo.putTypeCast]
  scast := fun hc => by
    obtain ⟨hsigned, hcasts⟩ := h.scast hc
    refine ⟨hsigned, fun t ht => ?_⟩
    rcases List.mem_append.mp ht with ht | ht
    · exact hcasts t ht
    · rw [List.mem_singleton.mp ht]
      exact hsigned
  signedExpr := h.signedExpr

/-- A literal that is put for a cast has no explicit casts. -/
theorem holds_putLiteral (orig : IntType) :
    Holds ((TermInfo.putLiteral v radix true type).changeSign orig type) type ⟨v, type, []⟩ := by
  unfold TermInfo.changeSign TermInfo.putSignCast
  have hscast : (if type.signed = false then CastSign.ucast else CastSign.scast) = .scast →
      type.signed = true := by
    intro h
    by_contra hs
    simp [hs] at h
  split
  · exact ⟨rfl, rfl, Nat.le_refl 0, by simp [TermInfo.putLiteral], fun h => ⟨hscast h, nofun⟩,
      nofun⟩
  · refine ⟨rfl, rfl, Nat.le_refl 0, by simp [TermInfo.putLiteral], fun h => ⟨?_, nofun⟩, nofun⟩
    by_contra hs
    simp [TermInfo.putLiteral, hs] at h

end Terms

section Parsing
variable {info : TermInfo} {f : Folded} {type orig : IntType} {casts kept : List IntType}
  {value : Int} {radix : Nat}

/-- One more cast of a term whose value is not known. -/
theorem Holds.parseExplicitCast (h : Holds info orig f) (type : IntType) :
    ∃ info', parseExplicitCast ⟨orig, none, info⟩ type = ⟨type, none, info'⟩ ∧
      Holds info' type ⟨f.value, f.type, f.casts ++ [type]⟩ := by
  unfold Literals.parseExplicitCast
  split
  · split
    · rename_i hsame
      have hsame : orig = type := hsame
      subst hsame
      exact ⟨_, rfl, h.putTypeCast⟩
    · exact ⟨_, rfl, (h.changeSign type).putTypeCast⟩
  · split
    · exact ⟨_, rfl, ((h.changeSign .int).changeSign type).putTypeCast⟩
    · exact ⟨_, rfl, (h.changeSign type).putTypeCast⟩

/-- All casts of a term whose value is not known are kept. -/
theorem Holds.parseCasts (h : Holds info type f) (casts : List IntType) :
    let q := casts.foldl Literals.parseExplicitCast ⟨type, none, info⟩
    Holds q.info q.type ⟨f.value, f.type, f.casts ++ casts⟩ := by
  induction casts generalizing info type f with
  | nil => simpa using h
  | cons t casts ih =>
    obtain ⟨info', hcast, hstep⟩ := h.parseExplicitCast t
    rw [List.foldl_cons, hcast]
    simpa using ih hstep

/-- A number of a narrow type is an `int`. -/
theorem fits_int (hw : type.width < 32) (h : Fits type.signed type.width value) :
    Fits IntType.int.signed IntType.int.width value := by
  cases hs : type.signed with
  | true =>
    rw [hs] at h
    exact h.mono hw.le
  | false =>
    rw [hs, fits_unsigned] at h
    have hle : (2 : Int) ^ type.width ≤ 2 ^ 31 := pow_le_pow_right₀ (by omega) (by omega)
    exact fits_signed.mpr (show -2 ^ 31 ≤ value ∧ value < 2 ^ 31 ∧ 0 < 32 by omega)

/-- Casts of a number that is known. -/
theorem parse_foldCasts (hb : type.isBuiltin = true) (hfits : Fits type.signed type.width value)
    (h : Holds info type ⟨value, type, kept⟩) :
    let q := casts.foldl parseExplicitCast ⟨type, some (value, radix), info⟩
    Holds q.info q.type (foldCasts value type kept casts) := by
  induction casts generalizing type value kept info with
  | nil => exact h
  | cons t casts ih =>
    rw [foldCasts, List.foldl_cons, parseExplicitCast]
    split
    · rename_i ht
      split
      · rename_i hsame
        have hsame : type = t := hsame
        subst hsame
        exact ih hb hfits h.putTypeCast
      · exact ih ht (fits_valueOf _ _ t.width_pos) (holds_putLiteral type).putTypeCast
    · by_cases hw : type.width < 32
      · have hint : IntType.int.conv value = value := conv_of_fits (fits_int hw hfits)
        rw [if_pos hw, if_pos ⟨hb, hw⟩]
        simp only [parseImplicitCast, hint]
        exact ((holds_putLiteral type).changeSign t).putTypeCast.parseCasts casts
      · rw [if_neg hw, if_neg fun hn => hw hn.2]
        simpa only [List.append_assoc, List.singleton_append] using
          (h.changeSign t).putTypeCast.parseCasts casts

/-- The casts that are folded are those of C++. -/
theorem foldCasts_value (casts : List IntType) (hfits : Fits type.signed type.width value)
    (hkept : convAll kept value = value) :
    let f := foldCasts value type kept casts
    Fits f.type.signed f.type.width f.value ∧ convAll f.casts f.value = convAll casts value := by
  induction casts generalizing type value kept with
  | nil => exact ⟨hfits, hkept⟩
  | cons t casts ih =>
    rw [foldCasts]
    split
    · split
      · rename_i hsame
        subst hsame
        rw [convAll_cons, conv_of_fits hfits]
        refine ih hfits ?_
        rw [convAll_append, hkept, convAll_cons, conv_of_fits hfits, convAll_nil]
      · have hconv : Fits t.signed t.width (t.conv value) := fits_valueOf _ _ t.width_pos
        refine ih hconv ?_
        rw [convAll_cons, conv_of_fits hconv, convAll_nil]
    · split
      · rename_i hw
        exact ⟨fits_int hw hfits, rfl⟩
      · refine ⟨hfits, ?_⟩
        rw [convAll_append, hkept]

/-- The text of a literal has the number and the casts that are left. -/
theorem holds_parse (l : Literal) (casts : List IntType) :
    Holds (parse l casts).info (parse l casts).type (folded l casts) := by
  unfold parse parseLiteral folded
  split
  · have hneg : Holds ((TermInfo.putLiteral l.n l.radix false l.type).putUnary l.type) l.type
        ⟨-l.n, l.type, []⟩ :=
      ⟨rfl, rfl, Nat.le_refl 0, by simp [TermInfo.putUnary, TermInfo.putLiteral], nofun, nofun⟩
    exact hneg.parseCasts casts
  · have hlit : Holds (TermInfo.putLiteral l.n l.radix false l.type) l.type
        ⟨l.n, l.type, []⟩ := by
      refine ⟨rfl, rfl, Nat.le_refl 0, by simp [TermInfo.putLiteral], fun h => ?_, nofun⟩
      simp only [TermInfo.putLiteral] at h
      split at h <;> simp at h
    exact parse_foldCasts l.isBuiltin l.fits hlit

/-- C++ converts the number that is left to its type and by the casts that are left. -/
theorem folded_value (l : Literal) (casts : List IntType) : (folded l casts).InRange ∧
    l.value casts = convAll ((folded l casts).type :: (folded l casts).casts)
      (folded l casts).value := by
  have hfits := l.fits
  unfold folded Literal.value
  split
  · exact ⟨.of_neg (by simpa using hfits) (by simp), rfl⟩
  · obtain ⟨hf, hval⟩ := foldCasts_value casts hfits convAll_nil
    rw [convAll_cons, conv_of_fits hf, hval]
    exact ⟨.of_fits hf, rfl⟩

end Parsing

section Denotes
variable {info : TermInfo} {type : IntType} {f : Folded} {useZeroAprh : Bool}

/-- A number without casts denotes itself. -/
theorem conv_eq_self_iff (hr : f.InRange) :
    f.type.conv f.value = f.value ↔ 0 ≤ f.value ∨ f.type.signed = true := by
  unfold Folded.InRange at hr
  split at hr
  · rename_i hnonneg
    exact iff_of_true (conv_of_fits hr) (.inl hnonneg)
  · rename_i hneg
    have hkept : convAll [f.type] f.value = f.value ↔ SignKept [f.type] :=
      convAll_eq_self_iff (by omega) (by simpa using hr)
    simp only [convAll_cons, convAll_nil, SignKept] at hkept
    simpa [hneg] using hkept

/-- A number that is not negative is printed with the digits of the narrowest cast. -/
theorem digits_iff_of_nonneg {t : IntType} {casts : List IntType} (h : Holds info type f)
    (hr : f.InRange) (hc : f.casts = t :: casts) (hv : 0 ≤ f.value) :
    (convAll (f.type :: f.casts) f.value = f.value % 2 ^ (narrowest t casts).width ∧
      (f.value ≠ 0 ∧ (info.castSign = .scast ∨ f.value < 0) →
        f.value % 2 ^ (narrowest t casts).width < 2 ^ ((narrowest t casts).width - 1))) ↔
      f.Preserved := by
  have hfits : Fits f.type.signed f.type.width f.value := by
    unfold Folded.InRange at hr
    rwa [if_pos hv] at hr
  rw [convAll_cons, conv_of_fits hfits, hc, convAll_eq_emod_iff]
  simp only [Folded.Preserved, hc, if_pos hv]
  refine and_iff_left_of_imp fun hlow hcast => ?_
  -- a signed literal has signed casts only
  obtain ⟨-, hsigned⟩ := h.scast (hcast.2.resolve_right (by omega))
  exact hlow (hsigned _ (hc ▸ narrowest_mem))

/-- A negative number is printed with the digits of its opposite. -/
theorem digits_iff_of_neg {t : IntType} {casts : List IntType} (hr : f.InRange)
    (hc : f.casts = t :: casts) (hv : f.value < 0) :
    (convAll (f.type :: f.casts) f.value = -(-f.value % 2 ^ (narrowest t casts).width) ∧
      -f.value % 2 ^ (narrowest t casts).width < 2 ^ ((narrowest t casts).width - 1)) ↔
      f.Preserved := by
  simp only [Folded.Preserved, hc, if_neg (Int.not_le.mpr hv)]
  have hpos : (0 : Int) < 2 ^ (narrowest t casts).width := by positivity
  have hhalf : (0 : Int) < 2 ^ ((narrowest t casts).width - 1) := by positivity
  have hparts := Int.mul_ediv_add_emod (-f.value) (2 ^ (narrowest t casts).width)
  have hnonneg := Int.emod_nonneg (-f.value) (Int.ne_of_gt hpos)
  have hsmall : -f.value < 2 ^ (narrowest t casts).width →
      -f.value % 2 ^ (narrowest t casts).width = -f.value := Int.emod_eq_of_lt (by omega)
  have hmod : f.value % 2 ^ (narrowest t casts).width =
      -(-f.value % 2 ^ (narrowest t casts).width) % 2 ^ (narrowest t casts).width := by
    have hopp : -(-f.value % 2 ^ (narrowest t casts).width) = f.value +
        2 ^ (narrowest t casts).width * (-f.value / 2 ^ (narrowest t casts).width) := by omega
    rw [hopp, Int.add_mul_emod_self_left]
  rw [convAll_congr hmod ⟨_, List.mem_cons_of_mem _ narrowest_mem, Nat.le_refl _⟩]
  generalize -f.value % 2 ^ (narrowest t casts).width = digits at hnonneg hsmall ⊢
  by_cases hzero : digits = 0
  · subst hzero
    rw [Int.neg_zero, convAll_of_lt (k := 0) (by omega) (by omega) fun s _ => s.width_pos]
    exact iff_of_true ⟨rfl, hhalf⟩ (.inl rfl)
  have hrange : digits < 2 ^ ((narrowest t casts).width - 1) → ∀ s ∈ f.type :: t :: casts,
      if s.signed then -2 ^ (s.width - 1) ≤ -digits else -2 ^ s.width < -digits := by
    intro hlow
    have hwide : ∀ s : IntType, (narrowest t casts).width ≤ s.width →
        if s.signed then -2 ^ (s.width - 1) ≤ -digits else -2 ^ s.width < -digits := by
      intro s hs
      have hle : (2 : Int) ^ ((narrowest t casts).width - 1) ≤ 2 ^ (s.width - 1) :=
        pow_le_pow_right₀ (by omega) (by omega)
      have htop : (2 : Int) ^ (s.width - 1) ≤ 2 ^ s.width :=
        pow_le_pow_right₀ (by omega) (by omega)
      split <;> omega
    refine List.forall_mem_cons.mpr ⟨?_, fun s hs => hwide s (narrowest_le s hs)⟩
    by_cases hw : (narrowest t casts).width ≤ f.type.width
    · exact hwide f.type hw
    · -- the number itself is shorter than the casts
      unfold Folded.InRange at hr
      rw [if_neg (Int.not_le.mpr hv)] at hr
      have hle : (2 : Int) ^ f.type.width ≤ 2 ^ (narrowest t casts).width :=
        pow_le_pow_right₀ (by omega) (by omega)
      have htop : (2 : Int) ^ (f.type.width - 1) < 2 ^ f.type.width :=
        pow_lt_pow_right₀ (by omega) (by have := f.type.width_pos; omega)
      have hlt : -f.value < 2 ^ (narrowest t casts).width := by
        split at hr <;> omega
      rwa [hsmall hlt, Int.neg_neg]
  have hkept := fun hlow => convAll_eq_self_iff (v := -digits) (by omega) (hrange hlow)
  constructor
  · exact fun ⟨heq, hlow⟩ => .inr ⟨hlow, (hkept hlow).mp heq⟩
  · intro h
    obtain ⟨hlow, hsign⟩ := h.resolve_left hzero
    exact ⟨(hkept hlow).mpr hsign, hlow⟩

theorem denotes_iff_preserved (h : Holds info type f) (hr : f.InRange) :
    (info.getTermAsRValue useZeroAprh).Denotes (convAll (f.type :: f.casts) f.value) ↔
      f.Preserved := by
  unfold TermInfo.getTermAsRValue
  rw [h.str, h.minCastWidth]
  cases hc : f.casts with
  | nil =>
    have hexpl : ¬info.explCast = true := fun he => h.explCast.mp he hc
    have hself : (makeLiteralStr f.value info.literRadix 0 0 info.castSign useZeroAprh).Denotes
        f.value := makeLiteralStr_denotes
    rw [if_neg hexpl, convAll_cons, convAll_nil, Folded.Preserved, hc, ← conv_eq_self_iff hr]
    constructor
    · exact fun hd => hd.eq hself
    · intro heq
      rw [heq]
      exact hself
  | cons t casts =>
    have hexpl : info.explCast = true := h.explCast.mpr (by simp [hc])
    have hlast := h.lastCastWidth
    rw [hc] at hlast
    rw [if_pos hexpl, ← hc]
    simp only [hc, minWidth] at hlast ⊢
    rw [makeLiteralStr_denotes_iff (narrowest t casts).width_pos hlast, ← hc]
    by_cases hv : f.value < 0
    · have habs : (f.value.natAbs : Int) = -f.value := by omega
      have hcast : f.value ≠ 0 ∧ (info.castSign = .scast ∨ f.value < 0) := ⟨by omega, .inr hv⟩
      rw [← digits_iff_of_neg hr hc hv, if_pos hv, habs]
      exact and_congr_right fun _ => ⟨fun hlow => hlow hcast, fun hlow _ => hlow⟩
    · have habs : (f.value.natAbs : Int) = f.value := by omega
      rw [← digits_iff_of_nonneg h hr hc (by omega), if_neg hv, habs]

end Denotes

/-- A literal with casts is printed with the C++ value exactly if the casts preserve what is
left of it. -/
theorem literal_denotes_iff (l : Literal) (casts : List IntType) (useZeroAprh : Bool) :
    (text l casts useZeroAprh).Denotes (l.value casts) ↔ (folded l casts).Preserved := by
  obtain ⟨hr, hval⟩ := folded_value l casts
  rw [hval]
  exact denotes_iff_preserved (holds_parse l casts) hr

/-- `(unsigned char)-1` is printed as a negative literal and `(sc_int<4>)9` as an unsigned
one, and `(signed char)-128` loses its sign in the literal. -/
theorem literal_differs :
    let uchar : IntType := ⟨true, 8, false, by decide⟩
    let schar : IntType := ⟨true, 8, true, by decide⟩
    let int4 : IntType := ⟨false, 4, true, by decide⟩
    let one : Literal := ⟨1, 10, .int, true, by decide, rfl, by decide, by decide⟩
    let nine : Literal := ⟨9, 10, .int, false, by decide, rfl, by decide, by decide⟩
    let low : Literal := ⟨128, 10, .int, true, by decide, rfl, by decide, by decide⟩
    (one.value [uchar] = 255 ∧ text one [uchar] true = ⟨true, .lit 8 true 1⟩ ∧
      ¬(text one [uchar] true).Denotes (one.value [uchar])) ∧
    (nine.value [int4] = -7 ∧ text nine [int4] true = ⟨false, .lit 4 false 9⟩ ∧
      ¬(text nine [int4] true).Denotes (nine.value [int4])) ∧
    low.value [schar] = -128 ∧ text low [schar] true = ⟨true, .lit 8 true 128⟩ ∧
      ¬(text low [schar] true).Denotes (low.value [schar]) := by
  intro uchar schar int4 one nine low
  refine ⟨⟨by decide, by decide, fun h => ?_⟩, ⟨by decide, by decide, fun h => ?_⟩,
    by decide, by decide, fun h => ?_⟩
  · exact absurd (h 16 true (by decide) fun _ => by decide) (by decide)
  · exact absurd (h 16 false (by decide) nofun) (by decide)
  · exact absurd (h 16 true (by decide) fun _ => by decide) (by decide)

end SystemcCompiler.Literals
