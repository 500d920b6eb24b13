import SystemcCompiler.Components.FifoSim
import Mathlib.Data.UInt
import Mathlib.Order.Bounds.Defs

/-! The compile-time logarithms of `sct_static_log.h`, in the C++ types they use. A
template argument `uint64_t X` is a `UInt64`, `unsigned` is `UInt32`. -/
namespace SystemcCompiler.StaticLog

def sctLog2Func (n : UInt64) (p : UInt32) : UInt32 :=
  if n < 2 then p else sctLog2Func (n / 2) (p + 1)
termination_by n.toNat
decreasing_by
  rename_i h
  have hn : ¬ n.toNat < 2 := h
  rw [UInt64.toNat_div]
  exact Nat.div_lt_self (by omega) (by decide)

def sctLog2 (X : UInt64) : UInt32 := sctLog2Func X 0

def sctCeilLog2 (X : UInt64) : UInt32 := if X < 2 then 0 else sctLog2 (X - 1) + 1

/-- Number of bits needed to store the value. -/
def sctNbits (X : UInt64) : UInt32 := if X = 0 then 0 else sctLog2 X + 1

/-- Index width for `N` elements. -/
def sctAddrbits (N : UInt64) : UInt32 := if N < 2 then 0 else sctLog2 (N - 1) + 1

/-- Index width for `N` elements, not less than one. -/
def sctAddrbits1 (N : UInt64) : UInt32 := if N < 2 then 1 else sctLog2 (N - 1) + 1

def sctIsPow2Func (x : UInt64) : Bool :=
  if x ≤ 2 then true
  else if x &&& 1 ≠ 0 then false
  else sctIsPow2Func (x >>> 1)
termination_by x.toNat
decreasing_by
  rename_i h _
  have hx : ¬ x.toNat ≤ 2 := h
  rw [UInt64.toNat_shiftRight]
  change x.toNat >>> 1 < x.toNat
  omega

def sctIsPow2 (X : UInt64) : Bool := sctIsPow2Func X

/-- `1u << n`, which is no constant expression unless `n` is below the width of `1u`. -/
def shiftedOne (n : UInt32) : Option UInt32 := if n < 32 then some (1 <<< n) else none

/-- Next power of 2 number greater than `X`; `none` where the template does not compile. -/
def sctNextPow2 (X : UInt64) : Option UInt64 :=
  if sctIsPow2 X && X != 0 then some (2 * X)
  else (shiftedOne (sctCeilLog2 X)).map UInt32.toUInt64

variable {X N : UInt64}

theorem toNat_sctLog2Func (n : UInt64) (p : UInt32) (h : p.toNat + n.toNat.log2 < 2 ^ 32) :
    (sctLog2Func n p).toNat = p.toNat + n.toNat.log2 := by
  fun_induction sctLog2Func n p with
  | case1 n p hn =>
    have hn : n.toNat < 2 := hn
    rw [Nat.log2_def, if_neg (by omega), Nat.add_zero]
  | case2 n p hn ih =>
    have hn : ¬ n.toNat < 2 := hn
    have hdiv : (n / 2).toNat = n.toNat / 2 := UInt64.toNat_div ..
    rw [Nat.log2_def, if_pos (by omega)] at h ⊢
    have hp : (p + 1).toNat = p.toNat + 1 := by
      rw [UInt32.toNat_add]
      change (p.toNat + 1) % 2 ^ 32 = _
      omega
    rw [hdiv, hp] at ih
    rw [ih (by omega)]
    omega

theorem log2_lt (X : UInt64) : X.toNat.log2 < 64 := by
  by_cases h : X.toNat = 0
  · rw [h]
    decide
  · exact (Nat.log2_lt h).mpr X.toNat_lt

@[simp] theorem toNat_sctLog2 (X : UInt64) : (sctLog2 X).toNat = X.toNat.log2 := by
  have hlt := log2_lt X
  rw [sctLog2, toNat_sctLog2Func _ _ (by change 0 + _ < _; omega)]
  exact Nat.zero_add _

theorem toNat_sctLog2_add_one (X : UInt64) : (sctLog2 X + 1).toNat = X.toNat.log2 + 1 := by
  have hlt := log2_lt X
  rw [UInt32.toNat_add, toNat_sctLog2]
  change (X.toNat.log2 + 1) % 2 ^ 32 = _
  omega

/-- The widths of the FIFO model are those of the source. -/
theorem toNat_sctNbits (X : UInt64) : (sctNbits X).toNat = Fifo.sctNbits X.toNat := by
  unfold sctNbits Fifo.sctNbits
  by_cases h : X = 0
  · rw [h]
    rfl
  · have hX : X.toNat ≠ 0 := fun h0 => h (UInt64.toNat_inj.mp h0)
    rw [if_neg h, if_neg hX, toNat_sctLog2_add_one]

theorem toNat_sub_one (h : ¬ N.toNat < 2) : (N - 1).toNat = N.toNat - 1 :=
  UInt64.toNat_sub_of_le _ _ (by change 1 ≤ N.toNat; omega)

theorem toNat_sctAddrbits1 (N : UInt64) :
    (sctAddrbits1 N).toNat = Fifo.sctAddrbits1 N.toNat := by
  unfold sctAddrbits1 Fifo.sctAddrbits1
  by_cases h : N < 2
  · rw [if_pos h, if_pos (show N.toNat < 2 from h)]
    rfl
  · have hN : ¬ N.toNat < 2 := h
    rw [if_neg h, if_neg hN, toNat_sctLog2_add_one, toNat_sub_one hN]

theorem isLeast_log2 {n : Nat} (h : n ≠ 0) : IsLeast {w : Nat | n < 2 ^ w} (n.log2 + 1) :=
  ⟨Nat.lt_log2_self, fun _ hw => (Nat.log2_lt h).mpr hw⟩

theorem sctNbits_isLeast (X : UInt64) : IsLeast {w : Nat | X.toNat < 2 ^ w} (sctNbits X).toNat := by
  rw [toNat_sctNbits, Fifo.sctNbits]
  split
  · rename_i h
    rw [h]
    exact ⟨Nat.one_pos, fun _ _ => Nat.zero_le _⟩
  · rename_i h
    exact isLeast_log2 h

theorem sctAddrbits_isLeast (h : 1 ≤ N.toNat) :
    IsLeast {w : Nat | N.toNat ≤ 2 ^ w} (sctAddrbits N).toNat := by
  unfold sctAddrbits
  by_cases h2 : N < 2
  · have hN : N.toNat < 2 := h2
    rw [if_pos h2]
    refine ⟨?_, fun _ _ => Nat.zero_le _⟩
    change N.toNat ≤ 1
    omega
  · have hN : ¬ N.toNat < 2 := h2
    rw [if_neg h2, toNat_sctLog2_add_one, toNat_sub_one hN]
    have hle : {w : Nat | N.toNat ≤ 2 ^ w} = {w : Nat | N.toNat - 1 < 2 ^ w} := by
      ext w
      simp only [Set.mem_ofPred_eq]
      omega
    rw [hle]
    exact isLeast_log2 (by omega)

theorem isPowerOfTwo_two_mul {n : Nat} : (2 * n).isPowerOfTwo ↔ n.isPowerOfTwo := by
  constructor
  · intro h
    obtain ⟨k, hk⟩ := h
    match k with
    | 0 => omega
    | k + 1 => exact ⟨k, by rw [Nat.pow_succ] at hk; omega⟩
  · intro h
    obtain ⟨k, hk⟩ := h
    exact ⟨k + 1, by rw [Nat.pow_succ, hk, Nat.mul_comm]⟩

theorem not_isPowerOfTwo_odd {n : Nat} (h : n % 2 = 1) (hn : n ≠ 1) : ¬ n.isPowerOfTwo := by
  intro hpow
  obtain ⟨k, hk⟩ := hpow
  match k with
  | 0 => exact hn hk
  | k + 1 =>
    rw [Nat.pow_succ] at hk
    omega

theorem sctIsPow2Func_iff (x : UInt64) :
    sctIsPow2Func x = true ↔ x.toNat = 0 ∨ x.toNat.isPowerOfTwo := by
  fun_induction sctIsPow2Func x with
  | case1 x h =>
    have hx : x.toNat ≤ 2 := h
    have hcases : x.toNat = 0 ∨ x.toNat = 1 ∨ x.toNat = 2 := by omega
    refine iff_of_true rfl ?_
    rcases hcases with h0 | h1 | h2
    · exact .inl h0
    · exact .inr ⟨0, h1⟩
    · exact .inr ⟨1, h2⟩
  | case2 x h hodd =>
    have hx : ¬ x.toNat ≤ 2 := h
    have hmod : x.toNat % 2 = 1 := by
      by_contra heven
      apply hodd
      apply UInt64.toNat_inj.mp
      rw [UInt64.toNat_and]
      change x.toNat &&& 1 = 0
      rw [Nat.and_one_is_mod]
      omega
    refine iff_of_false (by decide) ?_
    rintro (h0 | hpow)
    · omega
    · exact not_isPowerOfTwo_odd hmod (by omega) hpow
  | case3 x h heven ih =>
    have hx : ¬ x.toNat ≤ 2 := h
    have hshift : (x >>> 1).toNat = x.toNat / 2 := by
      rw [UInt64.toNat_shiftRight]
      rfl
    have hmod : x.toNat % 2 = 0 := by
      have hand := congrArg UInt64.toNat (not_not.mp heven)
      rw [UInt64.toNat_and] at hand
      change x.toNat &&& 1 = 0 at hand
      rwa [Nat.and_one_is_mod] at hand
    have hdouble : x.toNat = 2 * (x.toNat / 2) := by omega
    rw [ih, hshift]
    conv_rhs => rw [hdouble, isPowerOfTwo_two_mul]
    constructor
    · rintro (h0 | hpow)
      · omega
      · exact .inr hpow
    · rintro (h0 | hpow)
      · omega
      · exact .inr hpow

/-- The least power of two above `n` has the least exponent `w` with `n < 2 ^ w`. -/
theorem isLeast_pow {n w : Nat} (h : IsLeast {w : Nat | n < 2 ^ w} w) :
    IsLeast {p : Nat | p.isPowerOfTwo ∧ n < p} (2 ^ w) := by
  refine ⟨⟨⟨w, rfl⟩, h.1⟩, ?_⟩
  rintro p ⟨⟨k, rfl⟩, hlt⟩
  exact Nat.pow_le_pow_right (by decide) (h.2 hlt)

theorem log2_pred {n : Nat} (h : 2 ≤ n) (hpow : ¬ n.isPowerOfTwo) : (n - 1).log2 = n.log2 := by
  have hself : 2 ^ n.log2 ≤ n := Nat.log2_self_le (by omega)
  have hne : 2 ^ n.log2 ≠ n := fun heq => hpow ⟨_, heq.symm⟩
  apply Nat.le_antisymm
  · apply Nat.le_of_lt_succ
    apply (Nat.log2_lt (by omega)).mpr
    have := Nat.lt_log2_self (n := n)
    omega
  · apply (Nat.le_log2 (by omega)).mpr
    omega

/-- Away from powers of two the shift count of `sct_next_pow2` is the number of bits. -/
theorem sctCeilLog2_eq (hpow : ¬ X.toNat.isPowerOfTwo) : sctCeilLog2 X = sctNbits X := by
  apply UInt32.toNat_inj.mp
  rw [toNat_sctNbits]
  unfold sctCeilLog2 Fifo.sctNbits
  by_cases h : X < 2
  · have hX : X.toNat < 2 := h
    have hone : X.toNat ≠ 1 := fun h1 => hpow ⟨0, h1⟩
    rw [if_pos h, if_pos (by omega)]
    rfl
  · have hX : ¬ X.toNat < 2 := h
    rw [if_neg h, if_neg (by omega), toNat_sctLog2_add_one, toNat_sub_one hX,
      log2_pred (by omega) hpow]

theorem shiftedOne_eq (n : UInt32) :
    (shiftedOne n).map UInt32.toNat = if n.toNat < 32 then some (2 ^ n.toNat) else none := by
  unfold shiftedOne
  by_cases h : n < 32
  · have hn : n.toNat < 32 := h
    rw [if_pos h, if_pos hn, Option.map_some, UInt32.toNat_shiftLeft, Nat.mod_eq_of_lt hn]
    change some ((1 <<< n.toNat) % 2 ^ 32) = _
    rw [Nat.one_shiftLeft, Nat.mod_eq_of_lt (Nat.pow_lt_pow_right (by decide) hn)]
  · have hn : ¬ n.toNat < 32 := h
    rw [if_neg h, if_neg hn]
    rfl

/-- A power of two is doubled in 64 bits. -/
theorem sctNextPow2_pow (hpow : X.toNat.isPowerOfTwo) :
    (sctNextPow2 X).map UInt64.toNat = some (2 * X.toNat % 2 ^ 64) := by
  have hne : (X != 0) = true := by
    rw [bne_iff_ne]
    rintro rfl
    obtain ⟨k, hk⟩ := hpow
    exact Nat.two_pow_pos k |>.ne hk
  have hcond : (sctIsPow2 X && X != 0) = true := by
    rw [hne, Bool.and_true]
    exact (sctIsPow2Func_iff X).mpr (.inr hpow)
  rw [sctNextPow2, if_pos hcond, Option.map_some, UInt64.toNat_mul]
  rfl

/-- Every other number goes through the 32 bits of `1u`. -/
theorem sctNextPow2_other (hpow : ¬ X.toNat.isPowerOfTwo) :
    (sctNextPow2 X).map UInt64.toNat =
      if (sctNbits X).toNat < 32 then some (2 ^ (sctNbits X).toNat) else none := by
  have hcond : ¬ (sctIsPow2 X && X != 0) = true := by
    rw [Bool.and_eq_true, bne_iff_ne]
    rintro ⟨htrue, hne⟩
    rcases (sctIsPow2Func_iff X).mp htrue with h0 | h
    · exact hne (UInt64.toNat_inj.mp h0)
    · exact hpow h
  rw [sctNextPow2, if_neg hcond, Option.map_map, sctCeilLog2_eq hpow, ← shiftedOne_eq]
  rfl

theorem sctNbits_pow {k : Nat} (h : X.toNat = 2 ^ k) : (sctNbits X).toNat = k + 1 := by
  have hleast := sctNbits_isLeast X
  rw [h] at hleast
  apply Nat.le_antisymm
  · exact hleast.2 (Nat.pow_lt_pow_right (by decide) (Nat.lt_succ_self k))
  · exact (Nat.pow_lt_pow_iff_right (by decide)).mp hleast.1

theorem lt_pow_iff (X : UInt64) (w : Nat) : (sctNbits X).toNat ≤ w ↔ X.toNat < 2 ^ w := by
  have hleast := sctNbits_isLeast X
  constructor
  · intro h
    exact Nat.lt_of_lt_of_le hleast.1 (Nat.pow_le_pow_right (by decide) h)
  · intro h
    exact hleast.2 h

/-- `sct_next_pow2` gives the next power of two wherever that fits in 64 bits. -/
def NextPow2 (X : UInt64) : Prop :=
  ∀ p, IsLeast {p : Nat | p.isPowerOfTwo ∧ X.toNat < p} p → p < 2 ^ 64 →
    (sctNextPow2 X).map UInt64.toNat = some p

theorem nextPow2_iff (X : UInt64) :
    NextPow2 X ↔ X.toNat < 2 ^ 31 ∨ X.toNat.isPowerOfTwo ∨ 2 ^ 63 ≤ X.toNat := by
  have hleast := isLeast_pow (sctNbits_isLeast X)
  have hbits := lt_pow_iff X
  have hnext : NextPow2 X ↔ ((sctNbits X).toNat < 64 →
      (sctNextPow2 X).map UInt64.toNat = some (2 ^ (sctNbits X).toNat)) := by
    constructor
    · intro h hlt
      exact h _ hleast (Nat.pow_lt_pow_right (by decide) hlt)
    · intro h p hp hlt
      obtain rfl := Nat.le_antisymm (hp.2 hleast.1) (hleast.2 hp.1)
      exact h ((Nat.pow_lt_pow_iff_right (by decide)).mp hlt)
  rw [hnext]
  by_cases hpow : X.toNat.isPowerOfTwo
  · refine iff_of_true ?_ (.inr (.inl hpow))
    intro hlt
    obtain ⟨k, hk⟩ := hpow
    have hdouble : 2 * X.toNat = 2 ^ (k + 1) := by rw [hk, Nat.pow_succ, Nat.mul_comm]
    rw [sctNbits_pow hk] at hlt ⊢
    rw [sctNextPow2_pow ⟨k, hk⟩, hdouble,
      Nat.mod_eq_of_lt (Nat.pow_lt_pow_right (by decide) hlt)]
  · have h31 : (sctNbits X).toNat < 32 ↔ X.toNat < 2 ^ 31 :=
      Nat.lt_succ_iff.trans (hbits 31)
    have h63 : (sctNbits X).toNat < 64 ↔ X.toNat < 2 ^ 63 :=
      Nat.lt_succ_iff.trans (hbits 63)
    rw [sctNextPow2_other hpow, h63]
    constructor
    · intro h
      by_cases hsmall : X.toNat < 2 ^ 31
      · exact .inl hsmall
      · right; right
        by_contra hlt
        have hnone := h (by omega)
        rw [if_neg (mt h31.mp hsmall)] at hnone
        exact absurd hnone (by simp)
    · rintro (hsmall | hp | hbig)
      · intro _
        rw [if_pos (h31.mpr hsmall)]
      · exact absurd hp hpow
      · intro hlt
        omega

/-- What the static logarithms of a number are to be. -/
structure StaticLogs (X : UInt64) : Prop where
  nbits : IsLeast {w : Nat | X.toNat < 2 ^ w} (sctNbits X).toNat
  addrbits : 1 ≤ X.toNat → IsLeast {w : Nat | X.toNat ≤ 2 ^ w} (sctAddrbits X).toNat
  isPow2 : sctIsPow2 X = true ↔ X.toNat = 0 ∨ X.toNat.isPowerOfTwo
  nextPow2 : NextPow2 X

theorem static_logs_iff (X : UInt64) :
    StaticLogs X ↔ X.toNat < 2 ^ 31 ∨ X.toNat.isPowerOfTwo ∨ 2 ^ 63 ≤ X.toNat := by
  rw [← nextPow2_iff]
  constructor
  · exact StaticLogs.nextPow2
  · intro h
    exact {
      nbits := sctNbits_isLeast X
      addrbits := sctAddrbits_isLeast
      isPow2 := sctIsPow2Func_iff X
      nextPow2 := h }

/-- `1u` is shifted by 32 for the first number above `2 ^ 31`. -/
theorem static_logs_fail : ¬ StaticLogs 0x80000001 := by
  intro h
  have hcond := (nextPow2_iff 0x80000001).mp h.nextPow2
  have hnot : ¬ (0x80000001 : UInt64).toNat.isPowerOfTwo := not_isPowerOfTwo_odd (by decide) (by decide)
  rcases hcond with hlt | hpow | hge
  · exact absurd hlt (by decide)
  · exact hnot hpow
  · exact absurd hge (by decide)

end SystemcCompiler.StaticLog
