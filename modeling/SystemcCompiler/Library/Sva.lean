import Mathlib.Init

/-! Sequences and implications of SystemVerilog assertions, over the ticks of one
clock. -/
namespace SystemcCompiler.Sva

/-- A sequence; an expression is given by its value at every tick. -/
inductive Sequence where
  | expr (value : Nat → Bool)
  /-- `##[lo:hi] s` -/
  | delay (lo hi : Nat) (s : Sequence)
  /-- `s[*n]` with `n` positive -/
  | repetition (n : Nat) (s : Sequence)

/-- `n + 1` matches one after the other. -/
def repeats (m : Nat → Nat → Prop) : Nat → Nat → Nat → Prop
  | 0, i, j => m i j
  | n + 1, i, j => ∃ k, m i k ∧ repeats m n (k + 1) j

/-- The sequence matches from tick `i` to tick `j`. -/
def Sequence.Matches : Sequence → Nat → Nat → Prop
  | .expr value, i, j => i = j ∧ value i = true
  | .delay lo hi s, i, j => ∃ k, lo ≤ k ∧ k ≤ hi ∧ s.Matches (i + k) j
  | .repetition n s, i, j => repeats s.Matches (n - 1) i j

/-- `antecedent |-> consequent`, or `|=>` for a consequent that starts a tick later. -/
structure Implication where
  antecedent : Nat → Bool
  overlapped : Bool
  consequent : Sequence

def Implication.start (p : Implication) (attempt : Nat) : Nat :=
  if p.overlapped then attempt else attempt + 1

/-- The attempt that begins at this tick fails. -/
def Implication.Fails (p : Implication) (attempt : Nat) : Prop :=
  p.antecedent attempt = true ∧ ∀ j, ¬ p.consequent.Matches (p.start attempt) j

theorem matches_expr_iff (value : Nat → Bool) (i j : Nat) :
    (Sequence.expr value).Matches i j ↔ i = j ∧ value i = true := Iff.rfl

@[simp] theorem matches_expr (value : Nat → Bool) (i : Nat) :
    (∃ j, (Sequence.expr value).Matches i j) ↔ value i = true := by
  simp [Sequence.Matches]

@[simp] theorem matches_delay (lo hi : Nat) (value : Nat → Bool) (i : Nat) :
    (∃ j, (Sequence.delay lo hi (.expr value)).Matches i j) ↔
      ∃ k, lo ≤ k ∧ k ≤ hi ∧ value (i + k) = true := by
  constructor
  · rintro ⟨j, k, hlo, hhi, -, hv⟩
    exact ⟨k, hlo, hhi, hv⟩
  · rintro ⟨k, hlo, hhi, hv⟩
    exact ⟨i + k, k, hlo, hhi, rfl, hv⟩

theorem repeats_expr (value : Nat → Bool) (n i j : Nat) :
    repeats (Sequence.expr value).Matches n i j ↔
      j = i + n ∧ ∀ k, k ≤ n → value (i + k) = true := by
  induction n generalizing i with
  | zero =>
    rw [repeats, matches_expr_iff]
    constructor
    · rintro ⟨rfl, hi⟩
      refine ⟨rfl, fun k hk => ?_⟩
      obtain rfl : k = 0 := by omega
      exact hi
    · rintro ⟨rfl, hall⟩
      exact ⟨rfl, hall 0 (Nat.le_refl 0)⟩
  | succ n ih =>
    rw [repeats]
    constructor
    · rintro ⟨k, hk, hrest⟩
      obtain ⟨rfl, hi⟩ := (matches_expr_iff value i k).1 hk
      obtain ⟨hj, hall⟩ := (ih (i + 1)).1 hrest
      refine ⟨by omega, fun m hm => ?_⟩
      cases m with
      | zero => exact hi
      | succ m =>
        have := hall m (by omega)
        rwa [show i + 1 + m = i + (m + 1) by omega] at this
    · rintro ⟨hj, hall⟩
      refine ⟨i, ⟨rfl, hall 0 (by omega)⟩, (ih (i + 1)).2 ⟨by omega, fun k hk => ?_⟩⟩
      rw [show i + 1 + k = i + (k + 1) by omega]
      exact hall (k + 1) (by omega)

@[simp] theorem matches_repetition (n : Nat) (value : Nat → Bool) (i : Nat) :
    (∃ j, (Sequence.repetition (n + 1) (.expr value)).Matches i j) ↔
      ∀ k, k ≤ n → value (i + k) = true := by
  constructor
  · rintro ⟨j, hj⟩
    exact ((repeats_expr value n i j).1 hj).2
  · intro hall
    exact ⟨i + n, (repeats_expr value n i (i + n)).2 ⟨rfl, hall⟩⟩

theorem Implication.fails_iff (p : Implication) (attempt : Nat) :
    p.Fails attempt ↔
      p.antecedent attempt = true ∧ ¬ ∃ j, p.consequent.Matches (p.start attempt) j := by
  rw [Fails, not_exists]

end SystemcCompiler.Sva
