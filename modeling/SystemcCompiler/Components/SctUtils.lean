import SystemcCompiler.Library.BitLoops
import SystemcCompiler.Components.StaticLog

/-! Population count and one-hot conversion of `sct_utils.h`. A value of `sct_uint<W>` is
a bit vector: `sc_uint` and `sc_biguint` both keep the low `W` bits. -/
namespace SystemcCompiler.SctUtils
open StaticLog BitLoops

/-- A width given as an `int` template argument. -/
structure Width where
  bits : Nat
  pos : 0 < bits
  lt : bits < 2 ^ 31

/-- `sct_addrbits1<W>`, the default width of a count of `W` bits and of an index of one. -/
def Width.addrbits1 (W : Width) : Nat := (sctAddrbits1 (UInt64.ofNat W.bits)).toNat

/-- `operator +=` of `sc_uint`: the sum in 64 bits, cut to the width. -/
def plusAssign {W : Nat} (x : BitVec W) (v : BitVec 64) : BitVec W :=
  (x.setWidth 64 + v).setWidth W

/-- `sct_popcount` of a `uint64_t`: what is left to shift, and the count. -/
def sctPopcount64 (val : UInt64) : UInt32 :=
  ((List.range 64).foldl (fun (s : UInt64 × UInt32) _ =>
    (s.1 >>> 1, (s.2.toUInt64 + (s.1 &&& 1)).toUInt32)) (val, 0)).2

/-- `sct_popcount` of an `sct_uint<MskLen>`. -/
def sctPopcount (MskLen : Width) (mask : BitVec MskLen.bits) : BitVec MskLen.addrbits1 :=
  (List.range MskLen.bits).foldl (fun popcnt i =>
    plusAssign popcnt ((BitVec.ofBool (mask.getLsbD i)).setWidth 64)) 0

/-- `1 << BinLen` as the template argument `unsigned OneHotLen`. From 31 on it is not a
value of `unsigned`, and the call does not compile. -/
def oneHotLen (BinLen : Nat) : Option Width :=
  if h : BinLen < 31 then some {
    bits := 1 <<< BinLen
    pos := by
      rw [Nat.one_shiftLeft]
      exact Nat.two_pow_pos BinLen
    lt := by
      rw [Nat.one_shiftLeft]
      exact Nat.pow_lt_pow_right (by decide) h }
  else none

/-- The shift of `sct_uint<OneHotLen>(1)`: an `sc_uint` is shifted in 64 bits, an
`sc_biguint` grows by the shift count. -/
def sctBinTo1hot {BinLen : Nat} (OneHotLen : Width) (binVal : BitVec BinLen) :
    BitVec OneHotLen.bits :=
  let one := BitVec.ofNat OneHotLen.bits 1
  if OneHotLen.bits ≤ 64 then (one.setWidth 64 <<< binVal.toNat).setWidth OneHotLen.bits
  else (one.setWidth (OneHotLen.bits + binVal.toNat) <<< binVal.toNat).setWidth OneHotLen.bits

/-- The one-hot positions whose index has the bit `bin`. -/
def matchMask (OneHotLen : Width) (bin : Nat) : BitVec OneHotLen.bits :=
  assignBits OneHotLen.bits (fun bit => (BitVec.ofNat OneHotLen.bits bit).getLsbD bin) 0

def orReduce {W : Nat} (x : BitVec W) : Bool := x != 0#W

def sct1hotToBin (OneHotLen : Width) (ohotVal : BitVec OneHotLen.bits) :
    BitVec OneHotLen.addrbits1 :=
  assignBits OneHotLen.addrbits1 (fun bin => orReduce (matchMask OneHotLen bin &&& ohotVal)) 0

namespace Width
variable (W : Width)

theorem addrbits1_eq : W.addrbits1 = Fifo.sctAddrbits1 W.bits := by
  have hlt := W.lt
  have hsize : W.bits < UInt64.size := Nat.lt_trans hlt (by decide)
  rw [addrbits1, toNat_sctAddrbits1, UInt64.toNat_ofNat_of_lt' hsize]

theorem addrbits1_pos : 0 < W.addrbits1 := by
  rw [addrbits1_eq, Fifo.sctAddrbits1]
  split <;> omega

theorem bits_le_iff {w : Nat} (hw : 0 < w) : W.bits ≤ 2 ^ w ↔ W.addrbits1 ≤ w := by
  have hpos := W.pos
  rw [addrbits1_eq, Fifo.sctAddrbits1]
  split
  · have := Nat.one_le_two_pow (n := w)
    omega
  · rw [show (W.bits - 1).log2 + 1 ≤ w ↔ (W.bits - 1).log2 < w by omega,
      Nat.log2_lt (by omega)]
    omega

/-- An index below the width fits. -/
theorem bits_le : W.bits ≤ 2 ^ W.addrbits1 :=
  (W.bits_le_iff W.addrbits1_pos).mpr (Nat.le_refl _)

theorem addrbits1_le : W.addrbits1 ≤ 31 :=
  (W.bits_le_iff (by decide)).mp (Nat.le_of_lt W.lt)

theorem addrbits1_pow {k : Nat} (hk : 0 < k) (h : W.bits = 2 ^ k) : W.addrbits1 = k := by
  apply Nat.le_antisymm
  · exact (W.bits_le_iff hk).mp (Nat.le_of_eq h)
  · have hle := W.bits_le
    rw [h] at hle
    exact (Nat.pow_le_pow_iff_right (by decide)).mp hle

/-- The width has no room for a count of all bits when it is a power of two. -/
theorem bits_eq_pow_iff : W.bits = 2 ^ W.addrbits1 ↔ 2 ≤ W.bits ∧ W.bits.isPowerOfTwo := by
  constructor
  · intro h
    refine ⟨?_, _, h⟩
    rw [h]
    exact Nat.pow_le_pow_right (n := 2) (by decide) W.addrbits1_pos
  · rintro ⟨htwo, k, hk⟩
    have hpos : 0 < k := by
      rcases Nat.eq_zero_or_pos k with rfl | hpos
      · omega
      · exact hpos
    rw [W.addrbits1_pow hpos hk, hk]

end Width

theorem plusAssign_eq {W : Nat} (h : W ≤ 64) (x : BitVec W) (v : BitVec 64) :
    plusAssign x v = x + v.setWidth W := by
  rw [plusAssign, BitVec.setWidth_add _ _ h, BitVec.setWidth_setWidth_of_le _ h,
    BitVec.setWidth_eq]

theorem sctPopcount_eq (MskLen : Width) (mask : BitVec MskLen.bits) :
    sctPopcount MskLen mask = addBits MskLen.bits mask 0 := by
  have hle : MskLen.addrbits1 ≤ 64 := Nat.le_trans MskLen.addrbits1_le (by decide)
  unfold sctPopcount addBits
  congr 1
  funext popcnt i
  rw [plusAssign_eq hle, BitVec.setWidth_setWidth_of_le _ hle]

theorem toNat_sctPopcount (MskLen : Width) (mask : BitVec MskLen.bits) :
    (sctPopcount MskLen mask).toNat = mask.cpop.toNat % 2 ^ MskLen.addrbits1 := by
  rw [sctPopcount_eq, toNat_addBits _ _ MskLen.addrbits1_pos, countBits_width]

/-- The count wraps around to 0 for a mask of ones whose length is a power of two. -/
theorem sctPopcount_iff (MskLen : Width) (mask : BitVec MskLen.bits) :
    (sctPopcount MskLen mask).toNat = mask.cpop.toNat ↔
      ¬ (2 ≤ MskLen.bits ∧ MskLen.bits.isPowerOfTwo ∧ mask = BitVec.allOnes MskLen.bits) := by
  have hbits := MskLen.bits_le
  have hcount := mask.toNat_cpop_le
  rw [toNat_sctPopcount, Nat.mod_eq_iff_lt (Nat.two_pow_pos _).ne', ← and_assoc,
    ← MskLen.bits_eq_pow_iff, ← cpop_eq_width_iff]
  omega

/-- Four set bits are counted in two. -/
theorem sctPopcount_differs :
    let MskLen : Width := ⟨4, by decide, by decide⟩
    (sctPopcount MskLen 15).toNat = 0 ∧ (15 : BitVec 4).cpop.toNat = 4 := by
  intro MskLen
  refine ⟨?_, by decide⟩
  rw [toNat_sctPopcount, MskLen.addrbits1_pow (k := 2) (by decide) rfl]
  decide

/-- The count of a `uint64_t` has room for all its bits. -/
theorem sctPopcount64_eq (val : UInt64) :
    (sctPopcount64 val).toNat = val.toBitVec.cpop.toNat := by
  have hstep (n : Nat) (hn : n ≤ 64) :
      let s := (List.range n).foldl (fun (s : UInt64 × UInt32) _ =>
        (s.1 >>> 1, (s.2.toUInt64 + (s.1 &&& 1)).toUInt32)) (val, 0)
      s.1.toNat = val.toNat >>> n ∧ s.2.toNat = countBits n val.toBitVec := by
    induction n with
    | zero => exact ⟨rfl, rfl⟩
    | succ n ih =>
      obtain ⟨hval, hcnt⟩ := ih (by omega)
      rw [List.range_succ, List.foldl_append]
      refine ⟨?_, ?_⟩
      · rw [List.foldl_cons, List.foldl_nil, UInt64.toNat_shiftRight, hval]
        exact (Nat.shiftRight_succ val.toNat n).symm
      · have hle := countBits_le n val.toBitVec
        have hbit : (val.toNat >>> n) &&& 1 = (val.toBitVec.getLsbD n).toNat := by
          rw [Nat.and_one_is_mod, Nat.shiftRight_eq_div_pow, ← Nat.toNat_testBit]
          rfl
        rw [List.foldl_cons, List.foldl_nil, UInt64.toNat_toUInt32, UInt64.toNat_add,
          UInt32.toNat_toUInt64, UInt64.toNat_and, hval, hcnt, countBits_succ, ← hbit]
        have := Nat.and_le_right (n := val.toNat >>> n) (m := 1)
        change (_ + (_ &&& 1)) % 2 ^ 64 % 2 ^ 32 = _
        omega
  rw [← countBits_width]
  exact (hstep 64 (Nat.le_refl _)).2

theorem getLsbD_matchMask (OneHotLen : Width) (bin : Nat) {k : Nat} (hk : k < OneHotLen.bits) :
    (matchMask OneHotLen bin).getLsbD k = k.testBit bin := by
  rw [matchMask, getLsbD_assignBits, if_pos ⟨hk, hk⟩, BitVec.getLsbD_ofNat]
  by_cases hbin : bin < OneHotLen.bits
  · rw [decide_eq_true hbin, Bool.true_and]
  · have hlt : k < 2 ^ bin := Nat.lt_trans Nat.lt_two_pow_self
      (Nat.pow_lt_pow_right (by decide) (by omega))
    rw [Nat.testBit_lt_two_pow hlt, Bool.and_false]

theorem orReduce_iff {W : Nat} (x : BitVec W) :
    orReduce x = true ↔ ∃ k < W, x.getLsbD k = true := by
  rw [orReduce, bne_iff_ne]
  constructor
  · intro h
    by_contra hnone
    apply h
    apply BitVec.eq_of_getLsbD_eq
    intro i hi
    rw [BitVec.getLsbD_zero]
    exact Bool.eq_false_iff.mpr fun hbit => hnone ⟨i, hi, hbit⟩
  · rintro ⟨k, _, hbit⟩ rfl
    rw [BitVec.getLsbD_zero] at hbit
    cases hbit

/-- A bit of the result is set when some set position has it in its index. -/
theorem getLsbD_sct1hotToBin {OneHotLen : Width} (ohotVal : BitVec OneHotLen.bits) {bin : Nat}
    (hbin : bin < OneHotLen.addrbits1) :
    (sct1hotToBin OneHotLen ohotVal).getLsbD bin = true ↔
      ∃ k < OneHotLen.bits, ohotVal.getLsbD k = true ∧ k.testBit bin = true := by
  rw [sct1hotToBin, getLsbD_assignBits, if_pos ⟨hbin, hbin⟩, orReduce_iff]
  apply exists_congr
  intro k
  apply and_congr_right
  intro hk
  rw [BitVec.getLsbD_and, getLsbD_matchMask _ _ hk, Bool.and_eq_true, and_comm]

theorem toNat_sct1hotToBin (OneHotLen : Width) {k : Nat} (hk : k < OneHotLen.bits) :
    (sct1hotToBin OneHotLen (BitVec.twoPow OneHotLen.bits k)).toNat = k := by
  apply Nat.eq_of_testBit_eq
  intro bin
  change (sct1hotToBin OneHotLen _).getLsbD bin = _
  by_cases hbin : bin < OneHotLen.addrbits1
  · rw [Bool.eq_iff_iff, getLsbD_sct1hotToBin _ hbin]
    constructor
    · rintro ⟨j, _, hj, hbit⟩
      rw [BitVec.getLsbD_twoPow, Bool.and_eq_true, decide_eq_true_iff, decide_eq_true_iff] at hj
      rwa [hj.2]
    · intro hbit
      refine ⟨k, hk, ?_, hbit⟩
      rw [BitVec.getLsbD_twoPow, decide_eq_true hk, decide_eq_true rfl]
      rfl
  · have hlt : k < 2 ^ bin := Nat.lt_of_lt_of_le hk (Nat.le_trans OneHotLen.bits_le
      (Nat.pow_le_pow_right (by decide) (by omega)))
    rw [BitVec.getLsbD_of_ge _ _ (by omega), Nat.testBit_lt_two_pow hlt]

/-- A one shifted in a type wide enough for it, and cut back. -/
theorem setWidth_shifted_one {n m v : Nat} (hn : v < n) (hm : v < m) :
    ((1#n).setWidth m <<< v).setWidth n = BitVec.twoPow n v := by
  have hone : 1 < 2 ^ n := Nat.one_lt_two_pow (by omega)
  have honem : 1 < 2 ^ m := Nat.one_lt_two_pow (by omega)
  have hpow : 2 ^ v < 2 ^ n := Nat.pow_lt_pow_right (by decide) hn
  have hpowm : 2 ^ v < 2 ^ m := Nat.pow_lt_pow_right (by decide) hm
  apply BitVec.eq_of_toNat_eq
  rw [BitVec.toNat_setWidth, BitVec.toNat_shiftLeft, BitVec.toNat_setWidth, BitVec.toNat_ofNat,
    Nat.mod_eq_of_lt hone, Nat.mod_eq_of_lt honem, Nat.one_shiftLeft, Nat.mod_eq_of_lt hpowm,
    Nat.mod_eq_of_lt hpow, BitVec.toNat_twoPow_of_lt hn]

theorem sctBinTo1hot_eq {BinLen : Nat} (OneHotLen : Width) (binVal : BitVec BinLen)
    (h : binVal.toNat < OneHotLen.bits) :
    sctBinTo1hot OneHotLen binVal = BitVec.twoPow OneHotLen.bits binVal.toNat := by
  have hpos := OneHotLen.pos
  unfold sctBinTo1hot
  split
  · exact setWidth_shifted_one h (by omega)
  · exact setWidth_shifted_one h (by omega)

theorem oneHotLen_eq {BinLen : Nat} {OneHotLen : Width} (h : oneHotLen BinLen = some OneHotLen) :
    OneHotLen.bits = 2 ^ BinLen := by
  unfold oneHotLen at h
  split at h
  · cases h
    exact Nat.one_shiftLeft BinLen
  · cases h

/-- Both ways round: a binary value goes to the position it names and back, in the width
it came from, and every position of any one-hot width is found. -/
theorem one_hot_round_trip :
    (∀ BinLen, 1 ≤ BinLen → ∀ OneHotLen, oneHotLen BinLen = some OneHotLen →
      ∀ binVal : BitVec BinLen, OneHotLen.addrbits1 = BinLen ∧
        (sct1hotToBin OneHotLen (sctBinTo1hot OneHotLen binVal)).toNat = binVal.toNat) ∧
    ∀ (OneHotLen : Width) (k : Nat), k < OneHotLen.bits →
      (sct1hotToBin OneHotLen (BitVec.twoPow OneHotLen.bits k)).toNat = k := by
  constructor
  · intro BinLen hpos OneHotLen hlen binVal
    have hbits := oneHotLen_eq hlen
    have hlt : binVal.toNat < OneHotLen.bits := by
      rw [hbits]
      exact binVal.isLt
    refine ⟨OneHotLen.addrbits1_pow hpos hbits, ?_⟩
    rw [sctBinTo1hot_eq _ _ hlt, toNat_sct1hotToBin _ hlt]
  · intro OneHotLen k hk
    exact toNat_sct1hotToBin OneHotLen hk

/-- Width 3 to positions of width 8 and back; position 4 of width 5. -/
theorem one_hot_round_trip_widths :
    (∀ binVal : BitVec 3, (sct1hotToBin ⟨8, by decide, by decide⟩
      (sctBinTo1hot ⟨8, by decide, by decide⟩ binVal)).toNat = binVal.toNat) ∧
    (sct1hotToBin ⟨5, by decide, by decide⟩ (BitVec.twoPow 5 4)).toNat = 4 :=
  ⟨fun binVal => (one_hot_round_trip.1 3 (by decide) _ rfl binVal).2,
    one_hot_round_trip.2 ⟨5, by decide, by decide⟩ 4 (by decide)⟩

end SystemcCompiler.SctUtils
