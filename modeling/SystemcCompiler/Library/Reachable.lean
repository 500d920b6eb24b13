import Mathlib.Logic.Function.Basic
import Mathlib.Data.List.Basic

/-! Stores whose values lead on to further locations, and a store without the leaves that are
reached from a location. -/
namespace SystemcCompiler.Reachable

/-- The locations below a value, and the leaves that can be erased. -/
structure Layout (L V : Type) where
  below : V → List L
  isLeaf : V → Bool
  gone : V
  below_leaf : ∀ v, isLeaf v → below v = []
  below_gone : below gone = []
  isLeaf_gone : isLeaf gone = false

variable {L V : Type} {A : Layout L V} {s s' s'' : L → V} {l m n : L}

/-- Locations led to by the values of a store. -/
inductive Reach (A : Layout L V) (s : L → V) : L → L → Prop where
  | refl (l : L) : Reach A s l l
  | step {l m n : L} (hm : m ∈ A.below (s l)) (hn : Reach A s m n) : Reach A s l n

theorem Reach.trans (h : Reach A s l m) (h' : Reach A s m n) : Reach A s l n := by
  induction h with
  | refl => exact h'
  | step hm _ ih => exact .step hm (ih h')

theorem Reach.eq_of_below (h : Reach A s l m) (hl : A.below (s l) = []) : m = l := by
  cases h with
  | refl => rfl
  | step hm => rw [hl] at hm; contradiction

/-- Some leaves of the first store are gone, nothing else changed. -/
def Erased (A : Layout L V) (s s' : L → V) : Prop :=
  ∀ l, s' l = s l ∨ A.isLeaf (s l) ∧ s' l = A.gone

theorem Erased.refl (s : L → V) : Erased A s s := fun _ => .inl rfl

theorem Erased.trans (h : Erased A s s') (h' : Erased A s' s'') : Erased A s s'' := by
  intro l
  rcases h' l with h' | ⟨hleaf, h'⟩
  · rw [h']
    exact h l
  · rcases h l with h | ⟨_, h⟩
    · exact .inr ⟨h ▸ hleaf, h'⟩
    · rw [h, A.isLeaf_gone] at hleaf
      contradiction

theorem Erased.below (h : Erased A s s') (l : L) : A.below (s' l) = A.below (s l) := by
  rcases h l with h | ⟨hleaf, h⟩
  · rw [h]
  · rw [h, A.below_gone, A.below_leaf _ hleaf]

theorem Erased.isLeaf (h : Erased A s s') (hl : A.isLeaf (s' l)) : s l = s' l := by
  rcases h l with h | ⟨_, h⟩
  · exact h.symm
  · rw [h, A.isLeaf_gone] at hl
    contradiction

/-- What is led to does not depend on the leaves. -/
theorem Erased.reach_iff (h : Erased A s s') : Reach A s' l m ↔ Reach A s l m := by
  apply Iff.intro
  · intro hr
    induction hr with
    | refl => exact .refl _
    | step hm _ ih => exact .step (h.below _ ▸ hm) ih
  · intro hr
    induction hr with
    | refl => exact .refl _
    | step hm _ ih => exact .step ((h.below _).symm ▸ hm) ih

/-- What a step that erases leaves does, and at which locations. -/
structure Forgets (A : Layout L V) (s s' : L → V) (P : L → Prop) : Prop where
  erased : Erased A s s'
  kept : ∀ m, ¬P m → s' m = s m
  leaf : ∀ m, P m → A.isLeaf (s' m) = false

theorem Forgets.trans {P Q : L → Prop} (h : Forgets A s s' P) (h' : Forgets A s' s'' Q) :
    Forgets A s s'' fun m => P m ∨ Q m where
  erased := h.erased.trans h'.erased
  kept m hm := by
    rw [not_or] at hm
    rw [h'.kept m hm.2, h.kept m hm.1]
  leaf m hm := by
    by_contra hleaf
    rw [Bool.not_eq_false] at hleaf
    rcases hm with hm | hm
    · have hs := h.leaf m hm
      rw [h'.erased.isLeaf hleaf, hleaf] at hs
      contradiction
    · rw [h'.leaf m hm] at hleaf
      contradiction

theorem Forgets.refl (s : L → V) : Forgets A s s fun _ => False :=
  ⟨.refl s, fun _ _ => rfl, fun _ h => h.elim⟩

theorem Forgets.congr {P Q : L → Prop} (h : Forgets A s s' P) (hPQ : ∀ m, P m ↔ Q m) :
    Forgets A s s' Q :=
  (funext fun m => propext (hPQ m) : P = Q) ▸ h

/-- Steps one after another, each of which forgets in any store that has lost leaves only. -/
theorem forgets_foldlM {ι : Type} {f : (L → V) → ι → Option (L → V)} {P : ι → L → Prop}
    {s₀ : L → V} (xs : List ι)
    (hf : ∀ x ∈ xs, ∀ s s', Erased A s₀ s → f s x = some s' → Forgets A s s' (P x))
    (hs : Erased A s₀ s) (h : xs.foldlM f s = some s') :
    Forgets A s s' fun m => ∃ x ∈ xs, P x m := by
  induction xs generalizing s with
  | nil =>
    cases Option.some.inj h
    exact (Forgets.refl _).congr fun m => by simp
  | cons x xs ih =>
    rw [List.foldlM_cons] at h
    obtain ⟨s₁, hx, h⟩ := Option.bind_eq_some_iff.mp h
    have hfirst := hf x List.mem_cons_self s s₁ hs hx
    have hrest := ih (fun y hy => hf y (List.mem_cons_of_mem x hy)) (hs.trans hfirst.erased) h
    exact (hfirst.trans hrest).congr fun m => by simp

/-- The ways from a location end within so many steps. -/
def Ends (A : Layout L V) (s : L → V) : Nat → L → Prop
  | 0, _ => False
  | n + 1, l => ∀ m ∈ A.below (s l), Ends A s n m

theorem Ends.succ {k : Nat} (h : Ends A s k l) : Ends A s (k + 1) l := by
  induction k generalizing l with
  | zero => exact h.elim
  | succ k ih => exact fun m hm => ih (h m hm)

theorem ends_of_below {k : Nat} (h : A.below (s l) = []) : Ends A s (k + 1) l := by
  intro m hm
  rw [h] at hm
  contradiction

theorem Erased.ends_iff (h : Erased A s s') {k : Nat} : Ends A s' k l ↔ Ends A s k l := by
  induction k generalizing l with
  | zero => rfl
  | succ k ih =>
    unfold Ends
    rw [h.below]
    exact forall₂_congr fun m _ => ih

/-- Each of the steps was made after some leaves were gone. -/
theorem foldlM_each {ι : Type} {f : (L → V) → ι → Option (L → V)} (xs : List ι)
    (hf : ∀ x ∈ xs, ∀ t t', Erased A s t → f t x = some t' → Erased A t t')
    {t : L → V} (ht : Erased A s t) (h : xs.foldlM f t = some s') :
    ∀ x ∈ xs, ∃ t t', Erased A s t ∧ f t x = some t' := by
  induction xs generalizing t with
  | nil => exact fun x hx => (List.not_mem_nil hx).elim
  | cons y xs ih =>
    intro x hx
    rw [List.foldlM_cons] at h
    obtain ⟨t₁, hy, h⟩ := Option.bind_eq_some_iff.mp h
    rcases List.mem_cons.mp hx with rfl | hx
    · exact ⟨t, t₁, ht, hy⟩
    · have herased := ht.trans (hf y List.mem_cons_self t t₁ ht hy)
      exact ih (fun z hz => hf z (List.mem_cons_of_mem y hz)) herased h x hx

/-- Steps that erase leaves come to an end if each one does, after whatever leaves are gone. -/
theorem foldlM_runs {ι : Type} {f : (L → V) → ι → Option (L → V)} (xs : List ι)
    (hf : ∀ x ∈ xs, ∀ t, Erased A s t → ∃ t', f t x = some t' ∧ Erased A t t')
    {t : L → V} (ht : Erased A s t) : ∃ t', xs.foldlM f t = some t' ∧ Erased A t t' := by
  induction xs generalizing t with
  | nil => exact ⟨t, rfl, .refl t⟩
  | cons x xs ih =>
    obtain ⟨t₁, hx, herased⟩ := hf x List.mem_cons_self t ht
    obtain ⟨t', hrest, hrestErased⟩ := ih (fun y hy => hf y (List.mem_cons_of_mem x hy))
      (ht.trans herased)
    refine ⟨t', ?_, herased.trans hrestErased⟩
    rw [List.foldlM_cons, hx]
    exact hrest

section
variable [DecidableEq L]

/-- Erases the leaves that a location leads to. -/
def forget (A : Layout L V) : Nat → (L → V) → L → Option (L → V)
  | 0, _, _ => none
  | fuel + 1, s, l =>
    if A.isLeaf (s l) then some (Function.update s l A.gone)
    else (A.below (s l)).foldlM (forget A fuel) s

theorem erased_update (h : A.isLeaf (s l)) : Erased A s (Function.update s l A.gone) := by
  intro m
  by_cases hm : m = l
  · subst hm
    exact .inr ⟨h, Function.update_self ..⟩
  · exact .inl (Function.update_of_ne hm ..)

theorem forget_forgets {fuel : Nat} (h : forget A fuel s l = some s') :
    Forgets A s s' (Reach A s l) := by
  induction fuel generalizing s l s' with
  | zero => contradiction
  | succ fuel ih =>
    unfold forget at h
    split at h
    · rename_i hleaf
      cases Option.some.inj h
      have hbelow := A.below_leaf _ hleaf
      refine ⟨erased_update hleaf, fun m hm => Function.update_of_ne ?_ .., fun m hm => ?_⟩
      · rintro rfl
        exact hm (.refl m)
      · rw [hm.eq_of_below hbelow, Function.update_self, A.isLeaf_gone]
    · rename_i hleaf
      have hsteps := forgets_foldlM (P := fun x => Reach A s x) _
        (fun x _ t t' ht hx => (ih hx).congr fun m => ht.reach_iff) (.refl s) h
      have hl : A.isLeaf (s' l) = false := by
        rcases hsteps.erased l with hsame | ⟨hgone, _⟩
        · rw [hsame]
          exact Bool.not_eq_true _ ▸ hleaf
        · contradiction
      refine ⟨hsteps.erased, fun m hm => hsteps.kept m ?_, fun m hm => ?_⟩
      · rintro ⟨x, hx, hr⟩
        exact hm (.step hx hr)
      · cases hm with
        | refl => exact hl
        | step hx hr => exact hsteps.leaf m ⟨_, hx, hr⟩

theorem forget_of_ends {k : Nat} (h : Ends A s k l) : ∃ s', forget A k s l = some s' := by
  induction k generalizing s l with
  | zero => exact h.elim
  | succ k ih =>
    unfold forget
    split
    · exact ⟨_, rfl⟩
    · apply (foldlM_runs (A := A) _ _ (.refl s)).imp fun _ h => h.1
      intro x hx t ht
      obtain ⟨t', hforget⟩ := ih (ht.ends_iff.mpr (h x hx))
      exact ⟨t', hforget, (forget_forgets hforget).erased⟩

theorem ends_of_forget {k : Nat} (h : forget A k s l = some s') : Ends A s k l := by
  induction k generalizing s l s' with
  | zero => contradiction
  | succ k ih =>
    unfold forget at h
    split at h
    · rename_i hleaf
      exact ends_of_below (A.below_leaf _ hleaf)
    · intro m hm
      obtain ⟨t, t', ht, hstep⟩ := foldlM_each _
        (fun x _ t t' _ hx => (forget_forgets hx).erased) (.refl s) h m hm
      exact ht.ends_iff.mp (ih hstep)

end
end SystemcCompiler.Reachable
