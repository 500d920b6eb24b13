import Mathlib.Algebra.Group.Nat.Defs
import Mathlib.Data.List.Basic

/-! Loops over the bits of a word: one that assigns the bits in turn, and one that counts
those that are set in a counter of any width. -/
namespace SystemcCompiler.BitLoops
variable {w c : Nat}

def setBit (x : BitVec w) (i : Nat) (b : Bool) : BitVec w :=
  if b then x ||| BitVec.twoPow w i else x &&& ~~~ BitVec.twoPow w i

theorem getLsbD_setBit (x : BitVec w) (i j : Nat) (b : Bool) :
    (setBit x i b).getLsbD j = if j = i ∧ j < w then b else x.getLsbD j := by
  unfold setBit
  by_cases hj : j < w
  · by_cases hi : j = i
    · subst hi
      cases b <;> simp [hj]
    · cases b <;> simp [hi, hj]
  · have hout (y : BitVec w) : y.getLsbD j = false := BitVec.getLsbD_of_ge y j (by omega)
    rw [hout, hout, if_neg (fun h : j = i ∧ j < w => hj h.2)]

/-- The bits `0, …, n - 1` are assigned in turn. -/
def assignBits (n : Nat) (f : Nat → Bool) (x : BitVec w) : BitVec w :=
  (List.range n).foldl (fun x i => setBit x i (f i)) x

theorem assignBits_succ (n : Nat) (f : Nat → Bool) (x : BitVec w) :
    assignBits (n + 1) f x = setBit (assignBits n f x) n (f n) := by
  rw [assignBits, List.range_succ, List.foldl_append]
  rfl

theorem getLsbD_assignBits (n : Nat) (f : Nat → Bool) (x : BitVec w) (j : Nat) :
    (assignBits n f x).getLsbD j = if j < n ∧ j < w then f j else x.getLsbD j := by
  induction n with
  | zero => rfl
  | succ n ih =>
    rw [assignBits_succ, getLsbD_setBit, ih]
    by_cases hn : j = n
    · subst hn
      by_cases hw : j < w <;> simp [hw]
    · rw [if_neg (fun h => hn h.1)]
      congr 1
      apply propext
      omega

/-- The set bits among `0, …, n - 1`. -/
def countBits (n : Nat) (x : BitVec w) : Nat := x.cpopNatRec n 0

theorem countBits_succ (n : Nat) (x : BitVec w) :
    countBits (n + 1) x = countBits n x + (x.getLsbD n).toNat := by
  rw [countBits, BitVec.cpopNatRec_succ, BitVec.cpopNatRec_eq, Nat.zero_add]
  rfl

theorem countBits_width (x : BitVec w) : countBits w x = x.cpop.toNat := x.toNat_cpop.symm

theorem countBits_le (n : Nat) (x : BitVec w) : countBits n x ≤ n := by
  have h : x.cpopNatRec n 0 ≤ 0 + n := x.cpopNatRec_le n
  rwa [Nat.zero_add] at h

theorem countBits_eq_iff (n : Nat) (x : BitVec w) :
    countBits n x = n ↔ ∀ i < n, x.getLsbD i = true := by
  induction n with
  | zero => exact ⟨fun _ _ hi => absurd hi (Nat.not_lt_zero _), fun _ => rfl⟩
  | succ n ih =>
    have hle := countBits_le n x
    rw [countBits_succ]
    constructor
    · intro h i hi
      have hbit : (x.getLsbD n).toNat ≤ 1 := Bool.toNat_le _
      rcases Nat.lt_succ_iff_lt_or_eq.mp hi with hlt | rfl
      · exact ih.mp (by omega) i hlt
      · exact Bool.toNat_eq_one.mp (by omega)
    · intro h
      rw [ih.mpr fun i hi => h i (by omega), h n (Nat.lt_succ_self n)]
      rfl

/-- All bits are counted only in the word of ones. -/
theorem cpop_eq_width_iff (x : BitVec w) : x.cpop.toNat = w ↔ x = BitVec.allOnes w := by
  rw [← countBits_width, countBits_eq_iff]
  constructor
  · intro h
    apply BitVec.eq_of_getLsbD_eq
    intro i hi
    rw [h i hi, BitVec.getLsbD_allOnes, decide_eq_true hi]
  · rintro rfl i hi
    rw [BitVec.getLsbD_allOnes, decide_eq_true hi]

/-- The bits `0, …, n - 1` are added to the counter in turn. -/
def addBits (n : Nat) (x : BitVec w) (count : BitVec c) : BitVec c :=
  (List.range n).foldl (fun count i => count + (BitVec.ofBool (x.getLsbD i)).setWidth c) count

/-- The counter wraps around at its width. -/
theorem toNat_addBits (n : Nat) (x : BitVec w) (hc : 0 < c) :
    (addBits n x (0 : BitVec c)).toNat = countBits n x % 2 ^ c := by
  induction n with
  | zero => exact (Nat.zero_mod _).symm
  | succ n ih =>
    have hone : 1 < 2 ^ c := Nat.one_lt_two_pow (by omega)
    have hbit : ((BitVec.ofBool (x.getLsbD n)).setWidth c).toNat = (x.getLsbD n).toNat := by
      have := Bool.toNat_le (x.getLsbD n)
      rw [BitVec.toNat_setWidth, BitVec.toNat_ofBool, Nat.mod_eq_of_lt (by omega)]
    have hstep : addBits (n + 1) x (0 : BitVec c) =
        addBits n x 0 + (BitVec.ofBool (x.getLsbD n)).setWidth c := by
      rw [addBits, List.range_succ, List.foldl_append]
      rfl
    rw [hstep, BitVec.toNat_add, ih, hbit, countBits_succ, Nat.mod_add_mod]

end SystemcCompiler.BitLoops
