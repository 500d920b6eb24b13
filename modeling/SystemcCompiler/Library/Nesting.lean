import Mathlib.Data.List.Basic
import Mathlib.Tactic.Cases

/-! Lists with left and right brackets: how deep they nest, and what is balanced. -/
namespace SystemcCompiler.Nesting

inductive Kind where
  | left | right | other
  deriving DecidableEq

section
variable {α : Type} (kind : α → Kind)

/-- The depth after a list, from the depth before it. A right bracket needs a left one. -/
def nesting : Nat → List α → Option Nat
  | d, [] => some d
  | d, a :: l =>
    match kind a with
    | .left => nesting (d + 1) l
    | .right => if d = 0 then none else nesting (d - 1) l
    | .other => nesting d l

def Balanced (l : List α) : Prop := nesting kind 0 l = some 0

instance (l : List α) : Decidable (Balanced kind l) := inferInstanceAs (Decidable (_ = _))

/-- A scan with the depth and the lowest depth so far. -/
def lowest : Nat → Nat → List α → Nat
  | _, m, [] => m
  | d, m, a :: l =>
    match kind a with
    | .left => lowest (d + 1) (min m (d + 1)) l
    | .right => lowest (d - 1) (min m (d - 1)) l
    | .other => lowest d (min m d) l

variable {kind} {d e k m n : Nat} {l l' : List α} {a b : α}

theorem nesting_append :
    nesting kind d (l ++ l') = (nesting kind d l).bind (nesting kind · l') := by
  induction l generalizing d with
  | nil => rfl
  | cons a l ih =>
    rw [List.cons_append, nesting, nesting]
    cases kind a with
    | left => exact ih
    | other => exact ih
    | right =>
      dsimp only
      split
      · rfl
      · exact ih

/-- Inside of `k` more brackets the depth is `k` more. -/
theorem nesting_add (h : nesting kind d l = some e) : nesting kind (d + k) l = some (e + k) := by
  induction l generalizing d with
  | nil =>
    cases h
    rfl
  | cons a l ih =>
    rw [nesting] at h ⊢
    cases hk : kind a with
    | left =>
      rw [hk] at h
      have hstep : d + k + 1 = d + 1 + k := by omega
      exact hstep ▸ ih h
    | other =>
      rw [hk] at h
      exact ih h
    | right =>
      rw [hk] at h
      dsimp only at h ⊢
      split at h
      · cases h
      · have hstep : d + k - 1 = d - 1 + k := by omega
        rw [if_neg (by omega), hstep]
        exact ih h

theorem nesting_left (ha : kind a = .left) :
    nesting kind d (List.replicate n a) = some (d + n) := by
  induction n generalizing d with
  | zero => rfl
  | succ n ih =>
    rw [List.replicate_succ, nesting, ha]
    dsimp only
    rw [ih, Nat.add_right_comm]
    rfl

theorem nesting_right (hb : kind b = .right) :
    nesting kind d (List.replicate n b) = if n ≤ d then some (d - n) else none := by
  induction n generalizing d with
  | zero => rfl
  | succ n ih =>
    rw [List.replicate_succ, nesting, hb]
    dsimp only
    by_cases hd : d = 0
    · rw [if_pos hd, if_neg (by omega)]
    · rw [if_neg hd, ih]
      by_cases hn : n ≤ d - 1
      · rw [if_pos hn, if_pos (by omega), show d - 1 - n = d - (n + 1) by omega]
      · rw [if_neg hn, if_neg (by omega)]

/-- A balanced list keeps the depth, wherever it stands. -/
theorem Balanced.nesting (h : Balanced kind l) (d : Nat) : Nesting.nesting kind d l = some d := by
  have hadd := nesting_add (k := d) h
  rwa [Nat.zero_add] at hadd

theorem Balanced.wrap (h : Balanced kind l) (ha : kind a = .left) (hb : kind b = .right) (n : Nat) :
    Balanced kind (List.replicate n a ++ l ++ List.replicate n b) := by
  unfold Balanced
  rw [nesting_append, nesting_append, nesting_left ha, Option.bind_some, h.nesting,
    Option.bind_some, nesting_right hb, if_pos (by omega)]
  congr 1
  omega

theorem nesting_sub (h : nesting kind d l = some e) (hk : k ≤ d)
    (h' : nesting kind (d - k) l = some n) : e = n + k := by
  have hadd := nesting_add (k := k) h'
  rw [Nat.sub_add_cancel hk, h] at hadd
  exact Option.some.inj hadd

/-- A scan stays at `k` or above where it also goes through with `k` brackets less. -/
theorem le_lowest_iff (h : nesting kind d l = some e) (hm : m ≤ d) :
    k ≤ lowest kind d m l ↔ k ≤ m ∧ ∃ n, nesting kind (d - k) l = some n := by
  induction l generalizing d m with
  | nil => exact ⟨fun hk => ⟨hk, _, rfl⟩, fun hk => hk.1⟩
  | cons a l ih =>
    rw [nesting] at h
    rw [lowest, nesting]
    cases hkind : kind a with
    | left =>
      rw [hkind] at h
      dsimp only at h ⊢
      rw [Nat.min_eq_left (by omega), ih h (by omega)]
      refine and_congr_right fun hk => ?_
      rw [show d + 1 - k = d - k + 1 by omega]
    | other =>
      rw [hkind] at h
      dsimp only at h ⊢
      rw [Nat.min_eq_left hm, ih h hm]
    | right =>
      rw [hkind] at h
      dsimp only at h ⊢
      split at h
      · cases h
      · rename_i hd
        rw [ih h (Nat.min_le_right _ _)]
        constructor
        · rintro ⟨hk, n, hn⟩
          refine ⟨Nat.le_trans hk (Nat.min_le_left _ _), n, ?_⟩
          rw [if_neg (by omega), Nat.sub_right_comm]
          exact hn
        · rintro ⟨hk, n, hn⟩
          split at hn
          · cases hn
          · refine ⟨by omega, n, ?_⟩
            rw [Nat.sub_right_comm]
            exact hn

/-- Between runs of brackets a balanced list goes from the depth of one to that of the other. -/
theorem Balanced.middle (ha : kind a = .left) (hb : kind b = .right)
    (h : Balanced kind (List.replicate m a ++ l ++ List.replicate n b)) :
    Nesting.nesting kind m l = some n := by
  unfold Balanced at h
  rw [nesting_append, nesting_append, nesting_left ha, Option.bind_some, Nat.zero_add] at h
  obtain ⟨e, he, h⟩ := Option.bind_eq_some_iff.mp h
  rw [nesting_right hb] at h
  split at h
  · rename_i hn
    have hzero := Option.some.inj h
    rw [he, show e = n by omega]
  · cases h

/-- The lowest depth is the number of bracket pairs that can be taken off. -/
theorem le_lowest_iff_balanced (ha : kind a = .left) (hb : kind b = .right)
    (h : Nesting.nesting kind m l = some n) : k ≤ lowest kind m m l ↔
      k ≤ m ∧ k ≤ n ∧
        Balanced kind (List.replicate (m - k) a ++ l ++ List.replicate (n - k) b) := by
  rw [le_lowest_iff h (Nat.le_refl m)]
  refine and_congr_right fun hk => ⟨?_, ?_⟩
  · rintro ⟨e, he⟩
    have hsum := nesting_sub h hk he
    refine ⟨by omega, ?_⟩
    unfold Balanced
    rw [nesting_append, nesting_append, nesting_left ha, Option.bind_some, Nat.zero_add, he,
      Option.bind_some, nesting_right hb, if_pos (by omega)]
    congr 1
    omega
  · rintro ⟨-, hbalanced⟩
    exact ⟨_, hbalanced.middle ha hb⟩

end

end SystemcCompiler.Nesting
