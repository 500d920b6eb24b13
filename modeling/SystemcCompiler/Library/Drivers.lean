import Mathlib.Logic.Relation
import Mathlib.Data.List.Pairwise
import Mathlib.Data.Fintype.Card
import Mathlib.Order.WellFounded
import Mathlib.Data.Set.Finite.Lemmas

/-! Continuous assignments between variables and their array elements. An
assignment to `v[i]` drives every element below `v[i]`; following the drivers
from a reference leads to its source. -/
namespace SystemcCompiler.Drivers
open Relation

/-- A variable, or an element of it. -/
structure Ref (V : Type) where
  var : V
  idx : List Nat
  deriving DecidableEq

structure Assignment (V : Type) where
  left : Ref V
  right : Ref V
  deriving DecidableEq

variable {V : Type}

def Ref.elem (r : Ref V) (rest : List Nat) : Ref V := ⟨r.var, r.idx ++ rest⟩

@[simp] theorem Ref.elem_nil (r : Ref V) : r.elem [] = r := by
  simp [Ref.elem]

@[simp] theorem Ref.elem_var (r : Ref V) (rest : List Nat) : (r.elem rest).var = r.var := rfl

theorem Ref.elem_elem (r : Ref V) (p q : List Nat) : (r.elem p).elem q = r.elem (p ++ q) := by
  simp [Ref.elem]

theorem Ref.elem_injective (r : Ref V) : Function.Injective r.elem := by
  intro p q h
  exact List.append_cancel_left (congrArg Ref.idx h)

theorem Ref.elem_eq_self {r : Ref V} {p : List Nat} (h : r.elem p = r) : p = [] :=
  r.elem_injective (h.trans r.elem_nil.symm)

/-- Two references share an element. -/
def Overlap (r s : Ref V) : Prop := ∃ p q, r.elem p = s.elem q

theorem Overlap.var_eq {r s : Ref V} : Overlap r s → r.var = s.var := by
  rintro ⟨p, q, h⟩
  simpa using congrArg Ref.var h

theorem Overlap.symm {r s : Ref V} : Overlap r s → Overlap s r := by
  rintro ⟨p, q, h⟩
  exact ⟨q, p, h.symm⟩

/-- `s` is what an assignment puts on `r`. -/
def Step (asns : List (Assignment V)) (r s : Ref V) : Prop :=
  ∃ a ∈ asns, ∃ rest, r = a.left.elem rest ∧ s = a.right.elem rest

/-- Following the drivers from `r` ends at `src`. -/
def Driven (asns : List (Assignment V)) (r src : Ref V) : Prop :=
  ReflTransGen (Step asns) r src ∧ ∀ s, ¬ Step asns src s

def SingleDriver (asns : List (Assignment V)) : Prop :=
  asns.Pairwise fun a b => ¬ Overlap a.left b.left

/-- No reference depends on a part of itself. -/
def NoCycle (asns : List (Assignment V)) : Prop :=
  ∀ r s, TransGen (Step asns) r s → ¬ Overlap r s

variable {asns : List (Assignment V)} {a b : Assignment V} {r s t : Ref V}

theorem Step.of_mem (ha : a ∈ asns) (rest : List Nat) :
    Step asns (a.left.elem rest) (a.right.elem rest) :=
  ⟨a, ha, rest, rfl, rfl⟩

/-- An assignment to a whole variable drives each of its elements. -/
theorem Step.of_whole (ha : a ∈ asns) (hleft : a.left = ⟨r.var, []⟩) :
    Step asns r (a.right.elem r.idx) :=
  ⟨a, ha, r.idx, by simp [hleft, Ref.elem], rfl⟩

theorem Step.elem (h : Step asns r s) (p : List Nat) : Step asns (r.elem p) (s.elem p) := by
  obtain ⟨a, ha, rest, rfl, rfl⟩ := h
  rw [Ref.elem_elem, Ref.elem_elem]
  exact Step.of_mem ha (rest ++ p)

theorem path_elem (h : ReflTransGen (Step asns) r s) (p : List Nat) :
    ReflTransGen (Step asns) (r.elem p) (s.elem p) :=
  h.lift (·.elem p) fun _ _ hstep => hstep.elem p

theorem SingleDriver.eq_of_overlap (h : SingleDriver asns) (ha : a ∈ asns) (hb : b ∈ asns)
    (hab : Overlap a.left b.left) : a = b := by
  have hsymm : Std.Symm fun a b : Assignment V => ¬ Overlap a.left b.left :=
    ⟨fun _ _ hne hov => hne hov.symm⟩
  by_contra hne
  exact List.Pairwise.forall h ha hb hne hab

theorem SingleDriver.rightUnique (h : SingleDriver asns) : Relator.RightUnique (Step asns) := by
  rintro r s t ⟨a, ha, p, rfl, rfl⟩ ⟨b, hb, q, hleft, rfl⟩
  obtain rfl := h.eq_of_overlap ha hb ⟨p, q, hleft⟩
  rw [a.left.elem_injective hleft]

theorem Driven.step (hstep : Step asns r s) (h : Driven asns s t) : Driven asns r t :=
  ⟨.head hstep h.1, h.2⟩

theorem Driven.unique (h : SingleDriver asns) {src src' : Ref V} (hs : Driven asns r src)
    (hs' : ReflTransGen (Step asns) r src') : ReflTransGen (Step asns) src' src := by
  rcases hs.1.total_of_right_unique h.rightUnique hs' with hpath | hpath
  · rcases hpath.cases_head with heq | ⟨next, hnext, -⟩
    · rw [heq]
    · exact absurd hnext (hs.2 next)
  · exact hpath

/-- Assignments to different variables do not drive the same element. -/
theorem SingleDriver.of_nodup (h : (asns.map (·.left.var)).Nodup) : SingleDriver asns := by
  rw [List.Nodup, List.pairwise_map] at h
  exact h.imp fun hne hov => hne hov.var_eq

theorem NoCycle.of_rank (rank : V → Nat)
    (h : ∀ a ∈ asns, rank a.left.var < rank a.right.var) : NoCycle asns := by
  have hstep : ∀ r s, Step asns r s → rank r.var < rank s.var := by
    rintro _ _ ⟨a, ha, rest, rfl, rfl⟩
    exact h a ha
  have hpath : ∀ r s, TransGen (Step asns) r s → rank r.var < rank s.var := by
    intro r s htrans
    induction htrans with
    | single hfirst => exact hstep _ _ hfirst
    | tail _ hlast ih => exact ih.trans (hstep _ _ hlast)
  intro r s htrans hov
  have hlt := hpath r s htrans
  rw [hov.var_eq] at hlt
  exact Nat.lt_irrefl _ hlt

section Source
variable (asns) in
/-- Sources of the left sides give the sources of all references in a set that
is closed under following drivers. The induction is on the index below the left
side: a source that is driven at a longer index leaves less of it. -/
private theorem source_of_lefts {R : Ref V → Prop} (hR : ∀ r s, R r → Step asns r s → R s)
    (hleft : ∀ a ∈ asns, ∀ rest, R (a.left.elem rest) → ∃ src, Driven asns a.left src)
    (r : Ref V) (hr : R r) : ∃ src, Driven asns r src := by
  have hpath : ∀ {r s}, ReflTransGen (Step asns) r s → R r → R s := by
    intro r s h hr
    induction h with
    | refl => exact hr
    | tail _ hstep ih => exact hR _ _ ih hstep
  have hbelow : ∀ n, ∀ a ∈ asns, ∀ rest, rest.length = n → R (a.left.elem rest) →
      ∃ src, Driven asns (a.left.elem rest) src := by
    intro n
    induction n using Nat.strong_induction_on with
    | _ n ih =>
      rintro a ha rest hlen hr
      obtain ⟨src, hsrc⟩ := hleft a ha rest hr
      have hlift := path_elem hsrc.1 rest
      by_cases hend : ∀ s, ¬ Step asns (src.elem rest) s
      · exact ⟨src.elem rest, hlift, hend⟩
      · push Not at hend
        obtain ⟨s, b, hb, rest', hleft', -⟩ := hend
        have hidx : src.idx ++ rest = b.left.idx ++ rest' := congrArg Ref.idx hleft'
        have hshort : rest'.length < n := by
          by_contra hge
          have hle : b.left.idx.length ≤ src.idx.length := by
            have := congrArg List.length hidx
            simp only [List.length_append] at this
            omega
          obtain ⟨p, hp⟩ : b.left.idx <+: src.idx :=
            List.prefix_of_prefix_length_le ⟨rest', hidx.symm⟩ ⟨rest, rfl⟩ hle
          have hvar : (src.elem rest).var = (b.left.elem rest').var := congrArg Ref.var hleft'
          have hstep : src = b.left.elem p := by
            cases src
            simp_all [Ref.elem]
          exact hsrc.2 (b.right.elem p) ⟨b, hb, p, hstep, rfl⟩
        obtain ⟨last, hlast⟩ :=
          ih rest'.length hshort b hb rest' rfl (hleft' ▸ hpath hlift hr)
        exact ⟨last, hlift.trans (hleft' ▸ hlast.1), hlast.2⟩
  by_cases hend : ∀ s, ¬ Step asns r s
  · exact ⟨r, .refl, hend⟩
  · push Not at hend
    obtain ⟨s, a, ha, rest, rfl, -⟩ := hend
    exact hbelow _ a ha rest rfl hr

/-- Without cycles every reference has a source. -/
theorem NoCycle.exists_source (h : NoCycle asns) (r : Ref V) : ∃ src, Driven asns r src := by
  -- `b` is below `a` when the drivers of `a`'s left side pass through `b`'s left side
  let Below : {a // a ∈ asns} → {a // a ∈ asns} → Prop := fun b a =>
    ∃ rest, TransGen (Step asns) a.1.left (b.1.left.elem rest)
  have htrans : IsTrans _ Below := ⟨by
    rintro c b a ⟨p, hp⟩ ⟨q, hq⟩
    refine ⟨p ++ q, hq.trans ?_⟩
    rw [← Ref.elem_elem]
    exact hp.lift (·.elem q) fun _ _ hstep => hstep.elem q⟩
  have hirrefl : Std.Irrefl Below := ⟨by
    rintro a ⟨p, hp⟩
    exact h _ _ hp ⟨p, [], by simp⟩⟩
  have hfinite : Finite {a // a ∈ asns} := asns.finite_toSet.to_subtype
  have hwf : WellFounded Below := Finite.wellFounded_of_trans_of_irrefl Below
  have hlefts : ∀ a : {a // a ∈ asns}, ∃ src, Driven asns a.1.left src := by
    intro a
    induction a using hwf.induction with
    | _ a ih =>
      have hright := source_of_lefts asns (R := fun r => TransGen (Step asns) a.1.left r)
        (fun _ _ hr hstep => .tail hr hstep)
        (fun b hb rest hr => ih ⟨b, hb⟩ ⟨rest, hr⟩) a.1.right
        (.single (by simpa using Step.of_mem a.2 []))
      obtain ⟨src, hsrc⟩ := hright
      exact ⟨src, hsrc.step (by simpa using Step.of_mem a.2 [])⟩
  exact source_of_lefts asns (R := fun _ => True) (fun _ _ _ _ => trivial)
    (fun a ha _ _ => hlefts ⟨a, ha⟩) r trivial

end Source
end SystemcCompiler.Drivers
