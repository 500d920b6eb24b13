import Mathlib.Data.Finset.Card

/-! Search for a name that is not blocked: a first name is tried, then numbered candidates. -/
namespace SystemcCompiler.FreshName

variable {α : Type} {blocked : α → Bool} {candidate : Nat → α} {name result : α}
  {fuel next last : Nat}

/-- At most `fuel` rounds. The number of the next candidate is returned with the name. -/
def search (blocked : α → Bool) (candidate : Nat → α) : Nat → α → Nat → Option (α × Nat)
  | 0, _, _ => none
  | fuel + 1, name, next =>
    if blocked name then search blocked candidate fuel (candidate next) (next + 1)
    else some (name, next)

/-- What a search that ends has found: the first name that is not blocked. -/
structure Found (blocked : α → Bool) (candidate : Nat → α) (name : α) (next : Nat) (result : α)
    (last : Nat) : Prop where
  free : blocked result = false
  le_last : next ≤ last
  first : last = next → result = name
  numbered : next < last → blocked name = true ∧ result = candidate (last - 1)
  passed : ∀ i, next ≤ i → i + 1 < last → blocked (candidate i) = true

theorem search_found (h : search blocked candidate fuel name next = some (result, last)) :
    Found blocked candidate name next result last := by
  induction fuel generalizing name next with
  | zero => cases h
  | succ fuel ih =>
    rw [search] at h
    split at h
    · rename_i hname
      have hrest := ih h
      have hlt : next < last := hrest.le_last
      refine ⟨hrest.free, hlt.le, fun heq => absurd heq (by omega), fun _ => ⟨hname, ?_⟩, ?_⟩
      · by_cases hlast : last = next + 1
        · rw [hrest.first hlast, hlast]
          rfl
        · exact (hrest.numbered (by omega)).2
      · intro i hle hi
        by_cases heq : i = next
        · rw [heq]
          exact (hrest.numbered (by omega)).1
        · exact hrest.passed i (by omega) hi
    · rename_i hname
      cases h
      exact ⟨by simpa using hname, Nat.le_refl _, fun _ => rfl, fun hlt => absurd hlt (by omega),
        fun i hle hi => absurd hi (by omega)⟩

/-- A search that has not ended has passed blocked candidates only. -/
theorem search_blocked (h : search blocked candidate (fuel + 1) name next = none) :
    blocked name = true ∧ ∀ i < fuel, blocked (candidate (next + i)) = true := by
  induction fuel generalizing name next with
  | zero =>
    rw [search] at h
    split at h
    · rename_i hname
      exact ⟨hname, fun i hi => absurd hi (Nat.not_lt_zero i)⟩
    · cases h
  | succ fuel ih =>
    rw [search] at h
    split at h
    · rename_i hname
      obtain ⟨hnext, hrest⟩ := ih h
      refine ⟨hname, fun i hi => ?_⟩
      cases i with
      | zero => exact hnext
      | succ i =>
        have hi := hrest i (by omega)
        rwa [Nat.add_right_comm, Nat.add_assoc] at hi
    · cases h

/-- The search ends when finitely many names are blocked and the candidates differ. -/
theorem exists_search [DecidableEq α] (hinj : Function.Injective candidate) (taken : Finset α)
    (htaken : ∀ a, blocked a = true → a ∈ taken) (name : α) (next : Nat) :
    ∃ result last, search blocked candidate (taken.card + 2) name next = some (result, last) := by
  cases hs : search blocked candidate (taken.card + 2) name next with
  | some r => exact ⟨r.1, r.2, rfl⟩
  | none =>
    obtain ⟨-, hblocked⟩ := search_blocked hs
    -- one candidate more than there are blocked names
    have hsub : (Finset.range (taken.card + 1)).image (fun i => candidate (next + i)) ⊆ taken := by
      intro a ha
      obtain ⟨i, hi, rfl⟩ := Finset.mem_image.mp ha
      exact htaken _ (hblocked i (Finset.mem_range.mp hi))
    have hcard := Finset.card_le_card hsub
    rw [Finset.card_image_of_injective _ fun i j hij => by simpa using hinj hij,
      Finset.card_range] at hcard
    omega

end SystemcCompiler.FreshName
