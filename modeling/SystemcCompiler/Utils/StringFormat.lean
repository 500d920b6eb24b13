import Mathlib.Tactic.Ring
import Mathlib.Data.List.Basic

/-! `binaryToDecimal`: each bit doubles a string of decimal digits and adds one where it is
set, both with a carry from the last digit to the first. -/
namespace SystemcCompiler.StringFormat

/-- The digits times `factor` from the last to the first, and the carry that is left. -/
def carryDigits (factor carry : Nat) (decimalValue : List Char) : List Char × Nat :=
  decimalValue.foldr (fun c p =>
    let num := (c.toNat - '0'.toNat) * factor + p.2
    (Char.ofNat (num % 10 + '0'.toNat) :: p.1, num / 10)) ([], carry)

def insertCarry (p : List Char × Nat) : List Char :=
  if p.2 > 0 then Char.ofNat (p.2 + '0'.toNat) :: p.1 else p.1

def addBit (decimalValue : List Char) (bit : Char) : List Char :=
  let doubled := insertCarry (carryDigits 2 0 decimalValue)
  if bit = '1' then insertCarry (carryDigits 1 1 doubled) else doubled

def binaryToDecimal (binaryString : String) : String :=
  String.ofList (binaryString.toList.foldl addBit ['0'])

/-- The number a string of bits denotes. -/
def binaryValue (binaryString : String) : Nat :=
  binaryString.toList.foldl (fun v bit => 2 * v + if bit = '1' then 1 else 0) 0

/-- A numeral of `n` with decimal digits, and no leading zero but for zero itself. -/
structure Numeral (s : String) (n : Nat) : Prop where
  nonempty : s ≠ ""
  digits : ∀ c ∈ s.toList, c.isDigit = true
  canonical : s.toList.head? = some '0' → s = "0"
  value : s.toList.foldl (fun v c => 10 * v + (c.toNat - '0'.toNat)) 0 = n

section
variable {factor carry v d : Nat} {l l' : List Char}

theorem toNat_digit (h : d < 10) : (Nat.digitChar d).toNat - '0'.toNat = d := by
  rw [Nat.toNat_digitChar_of_lt_ten h]
  exact Nat.add_sub_cancel_left 48 d

theorem ofNat_digit (h : d < 10) : Char.ofNat (d + '0'.toNat) = Nat.digitChar d := by
  rw [← Char.ofNat_toNat (Nat.digitChar d), Nat.toNat_digitChar_of_lt_ten h, Nat.add_comm]
  rfl

/-- Digits that follow are kept, and their carry goes into the loop. -/
theorem carryDigits_append : carryDigits factor carry (l ++ l') =
    ((carryDigits factor (carryDigits factor carry l').2 l).1 ++ (carryDigits factor carry l').1,
      (carryDigits factor (carryDigits factor carry l').2 l).2) := by
  induction l with
  | nil => rfl
  | cons c l ih =>
    rw [List.cons_append]
    unfold carryDigits at ih ⊢
    rw [List.foldr_cons, List.foldr_cons, ih]
    rfl

theorem carryDigits_digit (h : d < 10) : carryDigits factor carry [Nat.digitChar d] =
    ([Nat.digitChar ((d * factor + carry) % 10)], (d * factor + carry) / 10) := by
  have hmod : (d * factor + carry) % 10 < 10 := Nat.mod_lt _ (by decide)
  unfold carryDigits
  simp only [List.foldr_cons, List.foldr_nil, toNat_digit h, ofNat_digit hmod]

theorem insertCarry_append : insertCarry (l ++ l', carry) = insertCarry (l, carry) ++ l' := by
  unfold insertCarry
  split <;> rfl

/-- The last digit and its carry make the number. -/
theorem div_mod_last (v factor carry : Nat) :
    v / 10 * factor + (v % 10 * factor + carry) / 10 = (v * factor + carry) / 10 ∧
    (v % 10 * factor + carry) % 10 = (v * factor + carry) % 10 := by
  have hv : v * factor + carry = 10 * (v / 10 * factor) + (v % 10 * factor + carry) := by
    conv_lhs => rw [← Nat.div_add_mod v 10]
    ring
  rw [hv]
  omega

/-- A pass over the numeral of a number gives the numeral of the product. -/
theorem insertCarry_carryDigits (hpos : 0 < factor) (hlt : factor < 10) (hc : carry ≤ factor) :
    insertCarry (carryDigits factor carry (Nat.toDigits 10 v)) =
      Nat.toDigits 10 (v * factor + carry) := by
  induction v using Nat.strong_induction_on generalizing carry with
  | _ v ih =>
    have hlast : v % 10 * factor + carry ≤ 10 * factor := by
      have hmod : v % 10 ≤ 9 := Nat.lt_succ_iff.mp (Nat.mod_lt v (by decide))
      have := Nat.mul_le_mul_right factor hmod
      omega
    by_cases hv : v < 10
    · rw [Nat.mod_eq_of_lt hv] at hlast
      rw [Nat.toDigits_of_lt_base hv, carryDigits_digit hv]
      unfold insertCarry
      dsimp only
      by_cases hcarry : (v * factor + carry) / 10 > 0
      · have htens : (v * factor + carry) / 10 < 10 := by omega
        rw [if_pos hcarry, ofNat_digit htens, Nat.toDigits_of_base_le (by decide) (by omega),
          Nat.toDigits_of_lt_base htens]
        rfl
      · have hsmall : v * factor + carry < 10 := by omega
        rw [if_neg hcarry, Nat.toDigits_of_lt_base hsmall, Nat.mod_eq_of_lt hsmall]
    · have hmod : v % 10 < 10 := Nat.mod_lt v (by decide)
      obtain ⟨hdiv, hrem⟩ := div_mod_last v factor carry
      have hrest : 0 < (v * factor + carry) / 10 := by
        rw [← hdiv]
        have := Nat.mul_pos (show 0 < v / 10 by omega) hpos
        omega
      rw [Nat.toDigits_of_base_le (by decide) (by omega), carryDigits_append,
        carryDigits_digit hmod, insertCarry_append,
        ih (v / 10) (by omega) (by omega), hdiv, hrem,
        Nat.toDigits_of_base_le (b := 10) (n := v * factor + carry) (by decide) (by omega)]

theorem addBit_toDigits {bit : Char} : addBit (Nat.toDigits 10 v) bit =
    Nat.toDigits 10 (2 * v + if bit = '1' then 1 else 0) := by
  have hdouble : insertCarry (carryDigits 2 0 (Nat.toDigits 10 v)) = Nat.toDigits 10 (2 * v) := by
    rw [insertCarry_carryDigits (by decide) (by decide) (by decide), Nat.mul_comm, Nat.add_zero]
  unfold addBit
  rw [hdouble]
  split
  · rw [insertCarry_carryDigits (by decide) (by decide) (by decide), Nat.mul_one]
  · rfl

theorem foldl_addBit (bits : List Char) (v : Nat) :
    bits.foldl addBit (Nat.toDigits 10 v) = Nat.toDigits 10
      (bits.foldl (fun v bit => 2 * v + if bit = '1' then 1 else 0) v) := by
  induction bits generalizing v with
  | nil => rfl
  | cons bit bits ih => rw [List.foldl_cons, List.foldl_cons, addBit_toDigits, ih]

theorem toDigits_head (h : 0 < v) : (Nat.toDigits 10 v).head? ≠ some '0' := by
  induction v using Nat.strong_induction_on with
  | _ v ih =>
    by_cases hv : v < 10
    · rw [Nat.toDigits_of_lt_base hv]
      simpa using Nat.ne_of_gt h
    · rw [Nat.toDigits_of_base_le (by decide) (by omega),
        List.head?_append_of_ne_nil _ Nat.toDigits_ne_nil]
      exact ih (v / 10) (by omega) (by omega)

theorem toDigits_value (v : Nat) :
    (Nat.toDigits 10 v).foldl (fun v c => 10 * v + (c.toNat - '0'.toNat)) 0 = v := by
  induction v using Nat.strong_induction_on with
  | _ v ih =>
    by_cases hv : v < 10
    · rw [Nat.toDigits_of_lt_base hv, List.foldl_cons, List.foldl_nil, toNat_digit hv]
      omega
    · rw [Nat.toDigits_of_base_le (by decide) (by omega), List.foldl_append, ih _ (by omega),
        List.foldl_cons, List.foldl_nil, toNat_digit (Nat.mod_lt v (by decide))]
      omega

theorem numeral_toString (n : Nat) : Numeral (toString n) n where
  nonempty h := by
    have hnil : Nat.toDigits 10 n = [] := by simpa using congrArg String.toList h
    exact Nat.toDigits_ne_nil hnil
  digits c hc := by
    have hmem : c ∈ Nat.toDigits 10 n := by simpa using hc
    exact Nat.isDigit_of_mem_toDigits (by decide) (by decide) hmem
  canonical h := by
    rcases Nat.eq_zero_or_pos n with rfl | hpos
    · rfl
    · exact absurd (by simpa using h) (toDigits_head hpos)
  value := by simpa using toDigits_value n

end

/-- The string is the numeral of the number the bits denote, whatever their number. -/
theorem binaryToDecimal_numeral (binaryString : String) :
    Numeral (binaryToDecimal binaryString) (binaryValue binaryString) := by
  have hvalue : binaryToDecimal binaryString = toString (binaryValue binaryString) := by
    unfold binaryToDecimal binaryValue
    rw [← Nat.toDigits_zero 10, foldl_addBit]
    rfl
  rw [hvalue]
  exact numeral_toString _

example : binaryToDecimal "10011100010000" = "10000" := by decide

end SystemcCompiler.StringFormat
