import Mathlib.Data.List.Basic

/-! Labelled graphs seen through their paths, and what is seen when nodes are
replaced by others. -/
namespace SystemcCompiler.Unfolding

structure LabelledGraph (N L : Type) where
  label : N → Option L
  children : N → List N

variable {N L : Type}

namespace LabelledGraph

/-- The label at the end of a path of child positions. -/
def labelAt (g : LabelledGraph N L) : N → List Nat → Option L
  | n, [] => g.label n
  | n, i :: path => (g.children n)[i]?.bind fun child => g.labelAt child path

/-- Every node becomes a copy of the node that stands for it. -/
def redirect (g : LabelledGraph N L) (rep : N → N) : LabelledGraph N L where
  label n := g.label (rep n)
  children n := g.children (rep n)

theorem labelAt_redirect_cons (g : LabelledGraph N L) (rep : N → N) (n : N) (i : Nat)
    (path : List Nat) :
    (g.redirect rep).labelAt n (i :: path) =
      (g.children (rep n))[i]?.bind fun child => (g.redirect rep).labelAt child path := rfl

/-- Replacing nodes shows in no path exactly when each looks like its replacement. -/
theorem labelAt_redirect_iff (g : LabelledGraph N L) (rep : N → N) :
    (∀ n path, (g.redirect rep).labelAt n path = g.labelAt n path) ↔
      ∀ n path, g.labelAt (rep n) path = g.labelAt n path := by
  constructor
  · intro h n path
    cases path with
    | nil => exact h n []
    | cons i path =>
      rw [← h n (i :: path), labelAt_redirect_cons]
      simp only [h]
      rfl
  · intro h n path
    induction path generalizing n with
    | nil => exact h n []
    | cons i path ih =>
      simp only [labelAt_redirect_cons, ih]
      exact h n (i :: path)

/-- Two nodes with as many children look the same when their labels and their
children do. -/
theorem labelAt_eq_iff (g : LabelledGraph N L) {n m : N}
    (hlen : (g.children n).length = (g.children m).length) :
    (∀ path, g.labelAt n path = g.labelAt m path) ↔
      g.label n = g.label m ∧ ∀ (i : Nat) c d, (g.children n)[i]? = some c →
        (g.children m)[i]? = some d → ∀ path, g.labelAt c path = g.labelAt d path := by
  constructor
  · intro h
    refine ⟨h [], fun i c d hc hd path => ?_⟩
    have hsame := h (i :: path)
    simpa only [labelAt, hc, hd, Option.bind_some] using hsame
  · rintro ⟨hlabel, hchildren⟩ path
    cases path with
    | nil => exact hlabel
    | cons i path =>
      rcases Nat.lt_or_ge i (g.children n).length with hi | hi
      · have hc := List.getElem?_eq_getElem hi
        have hd := List.getElem?_eq_getElem (hlen ▸ hi)
        simp only [labelAt, hc, hd, Option.bind_some]
        exact hchildren i _ _ hc hd path
      · have hc := List.getElem?_eq_none hi
        have hd := List.getElem?_eq_none (hlen ▸ hi)
        simp only [labelAt, hc, hd]

end LabelledGraph
end SystemcCompiler.Unfolding
