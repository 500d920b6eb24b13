import Mathlib.Data.List.Nodup
import Mathlib.Data.List.Perm.Subperm

/-! Sets kept in insertion order, as lists without repetition. Only membership
is observable through the operations; the order is that of first insertion. -/
namespace SystemcCompiler.InsertionOrderSet

variable {α : Type} [DecidableEq α]

def insert (s : List α) (v : α) : List α :=
  if v ∈ s then s else s ++ [v]

def insertAll (s t : List α) : List α :=
  t.foldl insert s

/-- Keep the members of `s` that also occur in `t`. -/
def retain (s t : List α) : List α :=
  s.filter fun v => v ∈ t

@[simp] theorem mem_insert (s : List α) (v w : α) : w ∈ insert s v ↔ w ∈ s ∨ w = v := by
  unfold insert
  split
  · rename_i hv
    constructor
    · exact Or.inl
    · rintro (h | rfl)
      · exact h
      · exact hv
  · simp

@[simp] theorem mem_insertAll (s t : List α) (w : α) : w ∈ insertAll s t ↔ w ∈ s ∨ w ∈ t := by
  unfold insertAll
  induction t generalizing s with
  | nil => simp
  | cons v t ih =>
    rw [List.foldl_cons, ih]
    simp [or_assoc]

@[simp] theorem mem_retain (s t : List α) (w : α) : w ∈ retain s t ↔ w ∈ s ∧ w ∈ t := by
  simp [retain]

theorem nodup_insert {s : List α} (h : s.Nodup) (v : α) : (insert s v).Nodup := by
  unfold insert
  split
  · exact h
  · rename_i hv
    exact List.nodup_append.mpr ⟨h, List.nodup_singleton v, by
      intro a ha b hb heq
      rw [List.mem_singleton] at hb
      exact hv (hb ▸ heq ▸ ha)⟩

theorem nodup_insertAll {s : List α} (h : s.Nodup) (t : List α) : (insertAll s t).Nodup := by
  unfold insertAll
  induction t generalizing s with
  | nil => exact h
  | cons v t ih => exact ih (nodup_insert h v)

theorem nodup_retain {s : List α} (h : s.Nodup) (t : List α) : (retain s t).Nodup :=
  h.filter _

theorem insertAll_nil (s : List α) : insertAll s [] = s := rfl

/-- As many members are kept as the other set has exactly when it has no others. -/
theorem length_retain_iff {s t : List α} (hs : s.Nodup) (ht : t.Nodup) :
    (retain s t).length = t.length ↔ ∀ v ∈ t, v ∈ s := by
  have hsub : retain s t ⊆ t := fun v hv => ((mem_retain s t v).mp hv).2
  have hperm := List.subperm_of_subset (nodup_retain hs t) hsub
  constructor
  · intro hlen v hv
    have hmem := (hperm.perm_of_length_le (Nat.le_of_eq hlen.symm)).mem_iff.mpr hv
    exact ((mem_retain s t v).mp hmem).1
  · intro hall
    have hback : t ⊆ retain s t := fun v hv => (mem_retain s t v).mpr ⟨hall v hv, hv⟩
    exact Nat.le_antisymm hperm.length_le (List.subperm_of_subset ht hback).length_le

end SystemcCompiler.InsertionOrderSet
