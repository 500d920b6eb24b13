import Mathlib

/-! Graphs with silent nodes, whose visits cannot be observed: sets of visited nodes are
compared up to the silent nodes all of whose predecessors are in them. -/
namespace SystemcCompiler.SilentNodes

variable {ν : Type} {Edge : ν → ν → Prop} {silent low : ν → Prop} {D D' R V : Set ν}
  {t u w x : ν}

/-- Nodes that can be visited after these ones without anything else being observed. -/
inductive Closure (Edge : ν → ν → Prop) (silent : ν → Prop) (D : Set ν) : ν → Prop where
  | base {t : ν} (ht : t ∈ D) : Closure Edge silent D t
  | silent {t u : ν} (hsilent : silent t) (hu : Edge u t)
      (hpreds : ∀ u, Edge u t → Closure Edge silent D u) : Closure Edge silent D t

/-- The closure as a set. -/
def closure (Edge : ν → ν → Prop) (silent : ν → Prop) (D : Set ν) : Set ν :=
  {t | Closure Edge silent D t}

theorem subset_closure : D ⊆ closure Edge silent D :=
  fun _ ht => .base ht

/-- A set is below a closure exactly when its own closure is. -/
theorem closure_subset_iff :
    closure Edge silent D ⊆ closure Edge silent D' ↔ D ⊆ closure Edge silent D' := by
  constructor
  · exact fun h => subset_closure.trans h
  · intro h t ht
    induction ht with
    | base ht => exact h ht
    | silent hsilent hu _ ih => exact .silent hsilent hu ih

theorem closure_mono (h : D ⊆ D') : closure Edge silent D ⊆ closure Edge silent D' :=
  closure_subset_iff.mpr (h.trans subset_closure)

theorem closure_union_congr {A A' B B' : Set ν}
    (hA : closure Edge silent A = closure Edge silent A')
    (hB : closure Edge silent B = closure Edge silent B') :
    closure Edge silent (A ∪ B) = closure Edge silent (A' ∪ B') := by
  have below : ∀ {A A' B B' : Set ν}, closure Edge silent A = closure Edge silent A' →
      closure Edge silent B = closure Edge silent B' →
      closure Edge silent (A ∪ B) ⊆ closure Edge silent (A' ∪ B') := by
    intro A A' B B' hA hB
    rw [closure_subset_iff, Set.union_subset_iff]
    constructor
    · exact (closure_subset_iff.mp hA.subset).trans (closure_mono Set.subset_union_left)
    · exact (closure_subset_iff.mp hB.subset).trans (closure_mono Set.subset_union_right)
  exact Set.Subset.antisymm (below hA hB) (below hA.symm hB.symm)

/-- A node that the closure adds anyway. -/
theorem closure_insert (ht : t ∈ closure Edge silent D) :
    closure Edge silent (insert t D) = closure Edge silent D := by
  apply Set.Subset.antisymm
  · rw [closure_subset_iff, Set.insert_subset_iff]
    exact ⟨ht, subset_closure⟩
  · exact closure_mono (Set.subset_insert t D)

theorem mem_of_closure (ht : t ∈ closure Edge silent D) (hloud : ¬silent t) : t ∈ D := by
  cases ht with
  | base ht => exact ht
  | silent hsilent => exact absurd hsilent hloud

/-- Sets with all predecessors of their nodes. -/
def PredClosed (Edge : ν → ν → Prop) (V : Set ν) : Prop :=
  ∀ t ∈ V, ∀ u, Edge u t → u ∈ V

/-- A region whose nodes but `x` have predecessors in it is entered through `x`. -/
theorem region_untouched (hx : x ∉ closure Edge silent D) (hdisj : Disjoint R D)
    (hregion : ∀ w ∈ R, w ≠ x → ∃ u ∈ R, Edge u w) (ht : t ∈ closure Edge silent D) :
    t ∉ R := by
  induction ht with
  | base ht => exact fun hmem => hdisj.ne_of_mem hmem ht rfl
  | @silent t u hsilent hu hpreds ih =>
    intro hmem
    obtain ⟨v, hv, hedge⟩ := hregion t hmem fun heq => hx (heq ▸ .silent hsilent hu hpreds)
    exact ih v hedge hv

/-- Paths whose nodes but the last are silent. -/
def SilentPath (Edge : ν → ν → Prop) (silent : ν → Prop) : ν → ν → Prop :=
  Relation.ReflTransGen fun t u => silent t ∧ Edge t u

/-- Before a node of the closure can be visited, a silent one on a path to it can. -/
theorem exists_front (ht : t ∈ closure Edge silent D) (hnot : t ∉ D) :
    ∃ z ∉ D, silent z ∧ (∃ u, Edge u z) ∧ (∀ u, Edge u z → u ∈ D) ∧
      SilentPath Edge silent z t := by
  induction ht with
  | base ht => exact absurd ht hnot
  | @silent t u hsilent hu hpreds ih =>
    by_cases hall : ∀ u, Edge u t → u ∈ D
    · exact ⟨t, hnot, hsilent, ⟨u, hu⟩, hall, .refl⟩
    · push Not at hall
      obtain ⟨v, hv, hvD⟩ := hall
      obtain ⟨z, hz, hzs, hpred, hzD, hpath⟩ := ih v hv hvD
      have hvs : silent v := by
        by_contra hloud
        exact hvD (mem_of_closure (hpreds v hv) hloud)
      exact ⟨z, hz, hzs, hpred, hzD, hpath.tail ⟨hvs, hv⟩⟩

/-- Nodes that are `low`, after silent ones. -/
inductive Descends (Edge : ν → ν → Prop) (silent low : ν → Prop) : ν → Prop where
  | low {t : ν} (hloud : ¬silent t) (h : low t) : Descends Edge silent low t
  | silent {t : ν} (hsilent : silent t) (h : ∀ w, Edge t w → Descends Edge silent low w) :
      Descends Edge silent low t

theorem Descends.imp {low' : ν → Prop} (himp : ∀ t, low t → low' t)
    (h : Descends Edge silent low t) : Descends Edge silent low' t := by
  induction h with
  | low hloud h => exact .low hloud (himp _ h)
  | silent hsilent _ ih => exact .silent hsilent ih

theorem Descends.loud (h : Descends Edge silent low t) (hloud : ¬silent t) : low t := by
  cases h with
  | low _ h => exact h
  | silent hsilent => exact absurd hsilent hloud

/-- What follows the closure of a region is low when the exits of the region are. -/
theorem Descends.of_closure (hexits : ∀ u ∈ R, ∀ w ∉ R, Edge u w → Descends Edge silent low w)
    (hu : u ∈ closure Edge silent R) (hw : w ∉ R) (hedge : Edge u w) :
    Descends Edge silent low w := by
  induction hu generalizing w with
  | base hu => exact hexits _ hu w hw hedge
  | @silent t v hsilent hv _ ih =>
    by_cases ht : t ∈ R
    · exact hexits t ht w hw hedge
    · have hlow : Descends Edge silent low t := ih v hv ht hv
      cases hlow with
      | low hloud => exact absurd hsilent hloud
      | silent _ h => exact h w hedge

end SystemcCompiler.SilentNodes
