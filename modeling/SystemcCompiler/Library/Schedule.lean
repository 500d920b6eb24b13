import Mathlib.Data.List.Basic

/-! Two processes that take turns on one state. When each leaves the other's part
alone, the order of their turns does not matter. -/
namespace SystemcCompiler.Schedule
variable {σ ι κ ω υ : Type}

def lefts (turns : List (ι ⊕ κ)) : List ι := turns.filterMap Sum.getLeft?
def rights (turns : List (ι ⊕ κ)) : List κ := turns.filterMap Sum.getRight?

@[simp] theorem lefts_nil : lefts ([] : List (ι ⊕ κ)) = [] := rfl
@[simp] theorem rights_nil : rights ([] : List (ι ⊕ κ)) = [] := rfl

@[simp] theorem lefts_inl (i : ι) (turns : List (ι ⊕ κ)) :
    lefts (.inl i :: turns) = i :: lefts turns := rfl
@[simp] theorem lefts_inr (k : κ) (turns : List (ι ⊕ κ)) :
    lefts (.inr k :: turns) = lefts turns := rfl
@[simp] theorem rights_inl (i : ι) (turns : List (ι ⊕ κ)) :
    rights (.inl i :: turns) = rights turns := rfl
@[simp] theorem rights_inr (k : κ) (turns : List (ι ⊕ κ)) :
    rights (.inr k :: turns) = k :: rights turns := rfl

/-- Two orders of the same calls of each process. -/
def SameCalls (turns turns' : List (ι ⊕ κ)) : Prop :=
  lefts turns = lefts turns' ∧ rights turns = rights turns'

section
variable (left : σ → ι → σ × ω) (right : σ → κ → σ × υ)

/-- One process alone. -/
def alone (step : σ → ι → σ × ω) : σ → List ι → σ × List ω
  | s, [] => (s, [])
  | s, i :: calls => ((alone step (step s i).1 calls).1, (step s i).2 ::
      (alone step (step s i).1 calls).2)

def run : σ → List (ι ⊕ κ) → σ × List ω × List υ
  | s, [] => (s, [], [])
  | s, .inl i :: turns =>
    let rest := run (left s i).1 turns
    (rest.1, (left s i).2 :: rest.2.1, rest.2.2)
  | s, .inr k :: turns =>
    let rest := run (right s k).1 turns
    (rest.1, rest.2.1, (right s k).2 :: rest.2.2)

/-- A state is made of the states the processes alone would be in, as long as the
calls that are left are made. -/
structure Separation where
  Rel : σ → σ → σ → List ι → List κ → Prop
  left_state : ∀ {s p g i calls others}, Rel s p g (i :: calls) others →
    Rel (left s i).1 (left p i).1 g calls others
  left_result : ∀ {s p g i calls others}, Rel s p g (i :: calls) others →
    (left s i).2 = (left p i).2
  right_state : ∀ {s p g k calls others}, Rel s p g calls (k :: others) →
    Rel (right s k).1 p (right g k).1 calls others
  right_result : ∀ {s p g k calls others}, Rel s p g calls (k :: others) →
    (right s k).2 = (right g k).2

variable {left right}

theorem Separation.run_eq (sep : Separation left right) {s p g : σ} {turns : List (ι ⊕ κ)}
    (h : sep.Rel s p g (lefts turns) (rights turns)) :
    sep.Rel (run left right s turns).1 (alone left p (lefts turns)).1
        (alone right g (rights turns)).1 [] [] ∧
      (run left right s turns).2 =
        ((alone left p (lefts turns)).2, (alone right g (rights turns)).2) := by
  induction turns generalizing s p g with
  | nil => exact ⟨h, rfl⟩
  | cons turn turns ih =>
    cases turn with
    | inl i =>
      obtain ⟨hrel, hresults⟩ := ih (sep.left_state h)
      refine ⟨hrel, ?_⟩
      simp only [run, lefts_inl, rights_inl, alone]
      rw [hresults, sep.left_result h]
    | inr k =>
      obtain ⟨hrel, hresults⟩ := ih (sep.right_state h)
      refine ⟨hrel, ?_⟩
      simp only [run, lefts_inr, rights_inr, alone]
      rw [hresults, sep.right_result h]

/-- What every turn keeps holds at the end. -/
theorem run_inv {Inv : σ → List ω → List υ → List ι → List κ → Prop}
    (hleft : ∀ {s os us i calls others}, Inv s os us (i :: calls) others →
      Inv (left s i).1 (os ++ [(left s i).2]) us calls others)
    (hright : ∀ {s os us k calls others}, Inv s os us calls (k :: others) →
      Inv (right s k).1 os (us ++ [(right s k).2]) calls others)
    {s : σ} {os : List ω} {us : List υ} {turns : List (ι ⊕ κ)}
    (h : Inv s os us (lefts turns) (rights turns)) :
    Inv (run left right s turns).1 (os ++ (run left right s turns).2.1)
      (us ++ (run left right s turns).2.2) [] [] := by
  induction turns generalizing s os us with
  | nil => simpa [run] using h
  | cons turn turns ih =>
    cases turn with
    | inl i => simpa [run] using ih (hleft h)
    | inr k => simpa [run] using ih (hright h)

end
end SystemcCompiler.Schedule
