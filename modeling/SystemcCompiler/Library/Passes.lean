import Mathlib.Data.Nat.Basic

/-! Loops that are left or repeated after each visit, run with a limit on the repetitions:
when a measure bounds them, and when no limit is enough. -/
namespace SystemcCompiler.Passes

/-- Why a run stops: an error of the program, or one repetition more than the limit. -/
inductive Stop (E : Type) where
  | fatal (e : E)
  | more

variable {E A B S T : Type}

/-- A visit leaves the loop or enters the body, which may come back for the next visit. The
body is entered at most `limit` times. -/
def iterate (visit : S → Except (Stop E) (T ⊕ B)) (body : T → Except (Stop E) (S ⊕ B)) :
    Nat → S → Except (Stop E) B
  | limit, s => do
    match ← visit s with
    | .inr b => pure b
    | .inl t =>
      match limit with
      | 0 => throw .more
      | limit + 1 =>
        match ← body t with
        | .inr b => pure b
        | .inl s => iterate visit body limit s

/-- The run stays within the limits, and a result has the property. -/
def Ends (m : Except (Stop E) A) (Q : A → Prop) : Prop :=
  match m with
  | .ok a => Q a
  | .error (.fatal _) => True
  | .error .more => False

variable {m : Except (Stop E) A} {Q : A → Prop}

theorem Ends.ne_more (h : Ends m Q) : m ≠ .error .more := by
  intro hm
  rw [hm] at h
  exact h

theorem Ends.pure {a : A} (h : Q a) : Ends (pure a : Except (Stop E) A) Q := h

theorem Ends.fatal (e : E) : Ends (throw (.fatal e) : Except (Stop E) A) Q := trivial

theorem Ends.mono {R : A → Prop} (h : Ends m Q) (hR : ∀ a, Q a → R a) : Ends m R := by
  cases m with
  | ok a => exact hR a h
  | error stop =>
    cases stop with
    | fatal e => trivial
    | more => exact h

theorem Ends.bind {f : A → Except (Stop E) B} {R : B → Prop} (h : Ends m Q)
    (hf : ∀ a, Q a → Ends (f a) R) : Ends (m >>= f) R := by
  cases m with
  | ok a => exact hf a h
  | error stop =>
    cases stop with
    | fatal e => trivial
    | more => exact h.elim

variable {visit : S → Except (Stop E) (T ⊕ B)} {body : T → Except (Stop E) (S ⊕ B)}
  {R : B → Prop}

/-- A measure that is positive where the body is entered and smaller at the next visit
bounds the entries of the body. -/
theorem Ends.iterate (inv : S → Prop) (entered : S → T → Prop) (measure : S → Nat)
    (hvisit : ∀ s, inv s → Ends (visit s) fun
      | .inl t => entered s t ∧ 0 < measure s
      | .inr b => R b)
    (hbody : ∀ s t, entered s t → Ends (body t) fun
      | .inl s' => inv s' ∧ measure s' < measure s
      | .inr b => R b)
    {limit : Nat} {s : S} (hs : inv s) (hlimit : measure s ≤ limit) :
    Ends (Passes.iterate visit body limit s) R := by
  induction limit generalizing s with
  | zero =>
    rw [Passes.iterate]
    refine (hvisit s hs).bind fun next hnext => ?_
    cases next with
    | inl t => exact absurd hnext.2 (by omega)
    | inr b => exact hnext
  | succ limit ih =>
    rw [Passes.iterate]
    refine (hvisit s hs).bind fun next hnext => ?_
    cases next with
    | inr b => exact hnext
    | inl t =>
      refine (hbody s t hnext.1).bind fun back hback => ?_
      cases back with
      | inr b => exact hback
      | inl s' => exact ih hback.1 (by omega)

/-- Where every visit enters the body and the body always comes back, no limit is enough. -/
theorem iterate_more (inv : S → Prop)
    (hstep : ∀ s, inv s → ∃ t s', visit s = .ok (.inl t) ∧ body t = .ok (.inl s') ∧ inv s')
    {s : S} (hs : inv s) (limit : Nat) : iterate visit body limit s = .error .more := by
  induction limit generalizing s with
  | zero =>
    obtain ⟨t, _, hvisit, _⟩ := hstep s hs
    rw [iterate, hvisit]
    rfl
  | succ limit ih =>
    obtain ⟨t, s', hvisit, hbody, hs'⟩ := hstep s hs
    rw [iterate, hvisit]
    change (body t >>= _) = _
    rw [hbody]
    exact ih hs'

end SystemcCompiler.Passes
