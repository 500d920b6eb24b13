import SystemcCompiler.Library.Drivers
import Mathlib.Data.Finset.Image
import Mathlib.Data.Finset.Card

/-! `VerilogModule::filterAssignments`: transitive assignments are joined, then
the assignments that no required variable needs are removed. -/
namespace SystemcCompiler.Elab
open Drivers Relation

variable {V : Type}

/-- The assignments with a variable on the left and on the right; `none` for no
assignment and for several. -/
structure AsnPair (V : Type) where
  first : Option (Assignment V)
  second : Option (Assignment V)
  deriving DecidableEq

namespace AsnPair

def addLeft (asn : Assignment V) : Option (AsnPair V) → AsnPair V
  | none => ⟨some asn, none⟩
  | some i =>
    let second := if i.first.isSome then none else i.second
    ⟨if second.isSome then some asn else none, second⟩

def addRight (asn : Assignment V) : Option (AsnPair V) → AsnPair V
  | none => ⟨none, some asn⟩
  | some i =>
    let first := if i.second.isSome then none else i.first
    ⟨first, if first.isSome then some asn else none⟩

end AsnPair

section
variable [DecidableEq V]

/-- `varCounts` after one assignment; indexed and required variables are skipped. -/
def countVars (requiredVars : Finset V) (counts : V → Option (AsnPair V)) (asn : Assignment V) :
    V → Option (AsnPair V) :=
  let counts :=
    if asn.left.idx = [] ∧ asn.left.var ∉ requiredVars then
      Function.update counts asn.left.var (some (.addLeft asn (counts asn.left.var)))
    else counts
  if asn.right.idx = [] ∧ asn.right.var ∉ requiredVars then
    Function.update counts asn.right.var (some (.addRight asn (counts asn.right.var)))
  else counts

def varCounts (requiredVars : Finset V) (assignments : List (Assignment V)) :
    V → Option (AsnPair V) :=
  assignments.foldl (countVars requiredVars) fun _ => none

/-- What becomes of one assignment: dropped, joined with the assignment to its
right variable, or kept. -/
def joinAssignment (counts : V → Option (AsnPair V)) (asn : Assignment V) :
    Option (Assignment V) :=
  match counts asn.left.var with
  | some ⟨some _, some _⟩ => none
  | _ =>
    match counts asn.right.var with
    | some ⟨some driver, some _⟩ => some ⟨asn.left, driver.right⟩
    | _ => some asn

/-- The first pass: `a = b` and `b = c` become `a = c`. -/
def joinTransitive (requiredVars : Finset V) (assignments : List (Assignment V)) :
    List (Assignment V) :=
  assignments.filterMap (joinAssignment (varCounts requiredVars assignments))

/-- The `do`-`while` loop of the second pass; `none` when the fuel runs out. An
assignment is identified by its place in the list. -/
def closeRequired (assignments : List (Assignment V)) :
    Nat → Finset V → Finset (Assignment V × Nat) → Option (Finset V × Finset (Assignment V × Nat))
  | 0, _, _ => none
  | fuel + 1, requiredVars, required =>
    let required :=
      required ∪ (assignments.zipIdx.filter fun asn => asn.1.left.var ∈ requiredVars).toFinset
    let updated := requiredVars ∪ required.image fun asn => asn.1.right.var
    if updated = requiredVars then some (updated, required)
    else closeRequired assignments fuel updated required

/-- `assignments` and `requiredVars` after the call. -/
def filterAssignments (fuel : Nat) (assignments : List (Assignment V)) (requiredVars : Finset V) :
    Option (List (Assignment V) × Finset V) :=
  let joined := joinTransitive requiredVars assignments
  (closeRequired joined fuel requiredVars ∅).map fun (requiredVars, required) =>
    ((joined.zipIdx.filter fun asn => asn ∈ required).map (·.1), requiredVars)

end

section Counts
variable [DecidableEq V]

/-- `filterAssignments` joins over `v`: it is not required, driven once and read
once as a whole. -/
def Joined (requiredVars : Finset V) (assignments : List (Assignment V)) (v : V) : Prop :=
  v ∉ requiredVars ∧ assignments.countP (fun asn => asn.left = ⟨v, []⟩) = 1 ∧
    assignments.countP (fun asn => asn.right = ⟨v, []⟩) = 1

/-- What `varCounts` holds for a variable with these assignments to it and from it. -/
private def pairOf : List (Assignment V) → List (Assignment V) → Option (AsnPair V)
  | [], [] => none
  | [a], [] => some ⟨some a, none⟩
  | [], [b] => some ⟨none, some b⟩
  | [a], [b] => some ⟨some a, some b⟩
  | _, _ => some ⟨none, none⟩

omit [DecidableEq V] in
private theorem addLeft_pairOf (a : Assignment V) (lefts rights : List (Assignment V)) :
    some (AsnPair.addLeft a (pairOf lefts rights)) = pairOf (lefts ++ [a]) rights := by
  rcases lefts with _ | ⟨l, _ | ⟨l', ls⟩⟩ <;> rcases rights with _ | ⟨r, _ | ⟨r', rs⟩⟩ <;>
    simp [pairOf, AsnPair.addLeft]

omit [DecidableEq V] in
private theorem addRight_pairOf (a : Assignment V) (lefts rights : List (Assignment V)) :
    some (AsnPair.addRight a (pairOf lefts rights)) = pairOf lefts (rights ++ [a]) := by
  rcases lefts with _ | ⟨l, _ | ⟨l', ls⟩⟩ <;> rcases rights with _ | ⟨r, _ | ⟨r', rs⟩⟩ <;>
    simp [pairOf, AsnPair.addRight]

private theorem countVars_eq (requiredVars : Finset V) (counts : V → Option (AsnPair V))
    (asn : Assignment V) {v : V} (hv : v ∉ requiredVars) {lefts rights : List (Assignment V)}
    (h : counts v = pairOf lefts rights) :
    countVars requiredVars counts asn v =
      pairOf (lefts ++ if asn.left = ⟨v, []⟩ then [asn] else [])
        (rights ++ if asn.right = ⟨v, []⟩ then [asn] else []) := by
  have hwhole : ∀ r : Ref V, r = ⟨v, []⟩ ∨ ¬ (r.idx = [] ∧ r.var ∉ requiredVars) ∨ v ≠ r.var := by
    rintro ⟨var, idx⟩
    simp only [Ref.mk.injEq]
    tauto
  have hleft : (if asn.left.idx = [] ∧ asn.left.var ∉ requiredVars then
      Function.update counts asn.left.var (some (.addLeft asn (counts asn.left.var)))
      else counts) v = pairOf (lefts ++ if asn.left = ⟨v, []⟩ then [asn] else []) rights := by
    rcases hwhole asn.left with hl | hskip | hne
    · simp [hl, hv, h, addLeft_pairOf]
    · have : asn.left ≠ ⟨v, []⟩ := by
        rintro hl
        simp [hl, hv] at hskip
      simp [hskip, this, h]
    · have : asn.left ≠ ⟨v, []⟩ := fun hl => hne (by rw [hl])
      rw [if_neg this]
      split <;> simp [h, hne]
  unfold countVars
  rcases hwhole asn.right with hr | hskip | hne
  · simp only [hr, hv, not_false_eq_true, and_self, if_true, Function.update_self, hleft,
      addRight_pairOf]
  · have : asn.right ≠ ⟨v, []⟩ := by
      rintro hr
      simp [hr, hv] at hskip
    simp only [hskip, this, if_false, List.append_nil, hleft]
  · have : asn.right ≠ ⟨v, []⟩ := fun hr => hne (by rw [hr])
    rw [if_neg this]
    split <;> simp [hleft, hne]

theorem varCounts_eq (requiredVars : Finset V) (assignments : List (Assignment V)) {v : V}
    (hv : v ∉ requiredVars) :
    varCounts requiredVars assignments v =
      pairOf (assignments.filter fun asn => asn.left = ⟨v, []⟩)
        (assignments.filter fun asn => asn.right = ⟨v, []⟩) := by
  induction assignments using List.reverseRecOn with
  | nil => rfl
  | append_singleton assignments asn ih =>
    have hstep := countVars_eq requiredVars (varCounts requiredVars assignments) asn hv ih
    rw [varCounts, List.foldl_append, List.foldl_cons, List.foldl_nil]
    refine hstep.trans ?_
    simp only [List.filter_append, List.filter_singleton]
    split_ifs <;> simp_all

theorem varCounts_required (requiredVars : Finset V) (assignments : List (Assignment V)) {v : V}
    (hv : v ∈ requiredVars) : varCounts requiredVars assignments v = none := by
  induction assignments using List.reverseRecOn with
  | nil => rfl
  | append_singleton assignments asn ih =>
    have hne : ∀ r : Ref V, r.var ∉ requiredVars → v ≠ r.var := fun r hr heq => hr (heq ▸ hv)
    rw [varCounts, List.foldl_append, List.foldl_cons, List.foldl_nil]
    change countVars requiredVars (varCounts requiredVars assignments) asn v = none
    unfold countVars
    split_ifs <;> simp_all

omit [DecidableEq V] in
private theorem pairOf_eq_some {lefts rights : List (Assignment V)} {a b : Assignment V} :
    pairOf lefts rights = some ⟨some a, some b⟩ ↔ lefts = [a] ∧ rights = [b] := by
  rcases lefts with _ | ⟨l, _ | ⟨l', ls⟩⟩ <;> rcases rights with _ | ⟨r, _ | ⟨r', rs⟩⟩ <;>
    simp [pairOf]

/-- The joined variables are those with both places of their pair filled. -/
theorem varCounts_joined (requiredVars : Finset V) (assignments : List (Assignment V)) (v : V) :
    (Joined requiredVars assignments v ∧ ∃ driver reader,
      driver ∈ assignments ∧ driver.left = ⟨v, []⟩ ∧
      (∀ asn ∈ assignments, asn.left = ⟨v, []⟩ → asn = driver) ∧
      varCounts requiredVars assignments v = some ⟨some driver, some reader⟩) ∨
    (¬ Joined requiredVars assignments v ∧ ∀ driver reader,
      varCounts requiredVars assignments v ≠ some ⟨some driver, some reader⟩) := by
  by_cases hv : v ∈ requiredVars
  · right
    rw [varCounts_required requiredVars assignments hv]
    exact ⟨fun h => h.1 hv, by simp⟩
  · simp only [varCounts_eq requiredVars assignments hv, pairOf_eq_some, Joined,
      List.countP_eq_length_filter, List.length_eq_one_iff, ne_eq]
    by_cases hone : (∃ a, assignments.filter (fun asn => asn.left = ⟨v, []⟩) = [a]) ∧
        ∃ b, assignments.filter (fun asn => asn.right = ⟨v, []⟩) = [b]
    · obtain ⟨⟨a, ha⟩, b, hb⟩ := hone
      have hmem : a ∈ assignments.filter fun asn => asn.left = ⟨v, []⟩ := by
        rw [ha]
        exact List.mem_singleton_self a
      simp only [List.mem_filter, decide_eq_true_eq] at hmem
      have honly : ∀ asn ∈ assignments, asn.left = ⟨v, []⟩ → asn = a := by
        intro asn hasn hl
        have : asn ∈ assignments.filter fun asn => asn.left = ⟨v, []⟩ := by simp [hasn, hl]
        simpa [ha] using this
      exact .inl ⟨⟨hv, ⟨a, ha⟩, b, hb⟩, a, b, hmem.1, hmem.2, honly, ha, hb⟩
    · exact .inr ⟨fun h => hone h.2, fun a b h => hone ⟨⟨a, h.1⟩, b, h.2⟩⟩

section
variable {counts : V → Option (AsnPair V)} {a : Assignment V}

omit [DecidableEq V] in
private theorem joinAssignment_dropped {driver reader : Assignment V}
    (h : counts a.left.var = some ⟨some driver, some reader⟩) : joinAssignment counts a = none := by
  simp [joinAssignment, h]

omit [DecidableEq V] in
private theorem joinAssignment_joined
    (hl : ∀ driver reader, counts a.left.var ≠ some ⟨some driver, some reader⟩)
    {driver reader : Assignment V} (hr : counts a.right.var = some ⟨some driver, some reader⟩) :
    joinAssignment counts a = some ⟨a.left, driver.right⟩ := by
  unfold joinAssignment
  split
  · rename_i d r h
    exact absurd h (hl d r)
  · simp [hr]

omit [DecidableEq V] in
private theorem joinAssignment_kept
    (hl : ∀ driver reader, counts a.left.var ≠ some ⟨some driver, some reader⟩)
    (hr : ∀ driver reader, counts a.right.var ≠ some ⟨some driver, some reader⟩) :
    joinAssignment counts a = some a := by
  unfold joinAssignment
  split
  · rename_i d r h
    exact absurd h (hl d r)
  · split
    · rename_i d r h
      exact absurd h (hr d r)
    · rfl

end

theorem mem_joinTransitive {requiredVars : Finset V} {assignments : List (Assignment V)}
    {asn : Assignment V} :
    asn ∈ joinTransitive requiredVars assignments ↔
      ∃ a ∈ assignments, ¬ Joined requiredVars assignments a.left.var ∧
        ((¬ Joined requiredVars assignments a.right.var ∧ asn = a) ∨
          (Joined requiredVars assignments a.right.var ∧ ∃ driver ∈ assignments,
            driver.left = ⟨a.right.var, []⟩ ∧ asn = ⟨a.left, driver.right⟩)) := by
  rw [joinTransitive, List.mem_filterMap]
  refine exists_congr fun a => and_congr_right fun _ => ?_
  rcases varCounts_joined requiredVars assignments a.left.var with
    ⟨hl, driver, reader, -, -, -, hcount⟩ | ⟨hl, hleft⟩
  · simp [joinAssignment_dropped hcount, hl]
  · rcases varCounts_joined requiredVars assignments a.right.var with
      ⟨hr, driver, reader, hmem, hdriver, honly, hcount⟩ | ⟨hr, hright⟩
    · simp only [joinAssignment_joined hleft hcount, hl, hr, not_false_eq_true, true_and,
        not_true_eq_false, false_and, false_or, Option.some.injEq]
      constructor
      · rintro rfl
        exact ⟨driver, hmem, hdriver, rfl⟩
      · rintro ⟨d, hd, hd', rfl⟩
        rw [honly d hd hd']
    · simp [joinAssignment_kept hleft hright, hl, hr, eq_comm]

/-- A joined variable has a driver of its own. -/
theorem Joined.driver {requiredVars : Finset V} {assignments : List (Assignment V)} {v : V}
    (h : Joined requiredVars assignments v) : ∃ d ∈ assignments, d.left = ⟨v, []⟩ := by
  rcases varCounts_joined requiredVars assignments v with ⟨-, d, -, hd, hl, -⟩ | ⟨hnot, -⟩
  · exact ⟨d, hd, hl⟩
  · exact absurd h hnot

end Counts

section Closure
variable [DecidableEq V]

/-- One variable is read by an assignment to the other. -/
def Reads (assignments : List (Assignment V)) (v w : V) : Prop :=
  ∃ a ∈ assignments, a.left.var = v ∧ a.right.var = w

/-- A required variable depends on `v`. -/
def Needed (assignments : List (Assignment V)) (requiredVars : Finset V) (v : V) : Prop :=
  ∃ w ∈ requiredVars, ReflTransGen (Reads assignments) w v

omit [DecidableEq V] in
theorem Needed.reads {assignments : List (Assignment V)} {requiredVars : Finset V}
    {a : Assignment V} (ha : a ∈ assignments) (h : Needed assignments requiredVars a.left.var) :
    Needed assignments requiredVars a.right.var := by
  obtain ⟨w, hw, hpath⟩ := h
  exact ⟨w, hw, hpath.tail ⟨a, ha, rfl, rfl⟩⟩

/-- What the loop of the second pass ends with. -/
structure Closed (assignments : List (Assignment V)) (requiredVars vars : Finset V)
    (required : Finset (Assignment V × Nat)) : Prop where
  mem_vars : ∀ v, v ∈ vars ↔ Needed assignments requiredVars v
  mem_required : ∀ asn, asn ∈ required ↔ asn ∈ assignments.zipIdx ∧ asn.1.left.var ∈ vars

private theorem closeRequired_run {assignments : List (Assignment V)} {requiredVars : Finset V}
    {fuel : Nat} {vars : Finset V} {required : Finset (Assignment V × Nat)}
    (hinit : requiredVars ⊆ vars) (hneeded : ∀ v ∈ vars, Needed assignments requiredVars v)
    (hreq : ∀ asn ∈ required, asn ∈ assignments.zipIdx ∧ asn.1.left.var ∈ vars)
    (hfuel : ((assignments.map (·.right.var)).toFinset \ vars).card < fuel) :
    ∃ vars' required', closeRequired assignments fuel vars required = some (vars', required') ∧
      Closed assignments requiredVars vars' required' := by
  induction fuel generalizing vars required with
  | zero => omega
  | succ fuel ih =>
    rw [closeRequired]
    generalize hnow : required ∪
      (assignments.zipIdx.filter fun asn => asn.1.left.var ∈ vars).toFinset = now
    have hmem : ∀ asn, asn ∈ now ↔ asn ∈ assignments.zipIdx ∧ asn.1.left.var ∈ vars := by
      intro asn
      rw [← hnow, Finset.mem_union, List.mem_toFinset, List.mem_filter, decide_eq_true_eq]
      exact ⟨fun h => h.elim (hreq asn) id, .inr⟩
    split
    · rename_i hsame
      refine ⟨_, _, rfl, fun v => ⟨?_, ?_⟩, ?_⟩
      · rw [hsame]
        exact hneeded v
      · rintro ⟨w, hw, hpath⟩
        induction hpath with
        | refl => exact Finset.mem_union_left _ (hinit hw)
        | tail _ hread ihpath =>
          obtain ⟨a, ha, rfl, rfl⟩ := hread
          obtain ⟨k, hk, rfl⟩ := List.getElem_of_mem ha
          rw [hsame] at ihpath
          have hin : (assignments[k], k) ∈ now :=
            (hmem _).mpr ⟨by simp [List.mem_zipIdx_iff_getElem?], ihpath⟩
          exact Finset.mem_union_right _ (Finset.mem_image_of_mem _ hin)
      · rw [hsame]
        exact hmem
    · rename_i hnew
      have hright : ∀ v ∈ now.image fun asn => asn.1.right.var,
          ∃ a ∈ assignments, a.left.var ∈ vars ∧ a.right.var = v := by
        intro v hv
        obtain ⟨asn, hasn, rfl⟩ := Finset.mem_image.mp hv
        obtain ⟨hzip, hleft⟩ := (hmem asn).mp hasn
        exact ⟨asn.1, List.fst_mem_of_mem_zipIdx hzip, hleft, rfl⟩
      refine ih (hinit.trans Finset.subset_union_left) ?_ ?_ ?_
      · intro v hv
        rcases Finset.mem_union.mp hv with hv | hv
        · exact hneeded v hv
        · obtain ⟨a, ha, hleft, rfl⟩ := hright v hv
          exact (hneeded _ hleft).reads ha
      · intro asn hasn
        obtain ⟨hzip, hleft⟩ := (hmem asn).mp hasn
        exact ⟨hzip, Finset.mem_union_left _ hleft⟩
      · obtain ⟨v, hv, hout⟩ : ∃ v ∈ now.image (fun asn => asn.1.right.var), v ∉ vars := by
          by_contra hall
          push Not at hall
          exact hnew (Finset.union_eq_left.mpr hall)
        obtain ⟨a, ha, -, rfl⟩ := hright v hv
        have hlt := Finset.card_lt_card (s := (assignments.map (·.right.var)).toFinset \
            (vars ∪ now.image fun asn => asn.1.right.var))
          (t := (assignments.map (·.right.var)).toFinset \ vars) ?_
        · omega
        · rw [Finset.ssubset_iff_of_subset (Finset.sdiff_subset_sdiff (fun _ h => h)
            Finset.subset_union_left)]
          refine ⟨a.right.var, ?_, ?_⟩
          · simp only [Finset.mem_sdiff, List.mem_toFinset, List.mem_map]
            exact ⟨⟨a, ha, rfl⟩, hout⟩
          · simp only [Finset.mem_sdiff, Finset.mem_union, hv, or_true, not_true_eq_false,
              and_false, not_false_eq_true]

/-- With more fuel than assignments the loop ends. -/
theorem closeRequired_spec (assignments : List (Assignment V)) (requiredVars : Finset V) :
    ∃ vars required, Closed assignments requiredVars vars required ∧
      ∀ fuel, assignments.length < fuel →
        closeRequired assignments fuel requiredVars ∅ = some (vars, required) := by
  have hrun : ∀ fuel, assignments.length < fuel → ∃ vars' required',
      closeRequired assignments fuel requiredVars ∅ = some (vars', required') ∧
        Closed assignments requiredVars vars' required' := by
    intro fuel hfuel
    refine closeRequired_run (fun _ h => h) (fun v hv => ⟨v, hv, .refl⟩) (by simp) ?_
    calc ((assignments.map (·.right.var)).toFinset \ requiredVars).card
        ≤ (assignments.map (·.right.var)).toFinset.card := Finset.card_le_card Finset.sdiff_subset
      _ ≤ (assignments.map (·.right.var)).length := List.toFinset_card_le _
      _ = assignments.length := List.length_map _
      _ < fuel := hfuel
  obtain ⟨vars, required, -, hclosed⟩ := hrun (assignments.length + 1) (Nat.lt_succ_self _)
  refine ⟨vars, required, hclosed, fun fuel hfuel => ?_⟩
  obtain ⟨vars', required', heq, hclosed'⟩ := hrun fuel hfuel
  have hvars : vars' = vars := by
    ext v
    rw [hclosed.mem_vars, hclosed'.mem_vars]
  have hrequired : required' = required := by
    ext1 asn
    rw [hclosed.mem_required, hclosed'.mem_required, hvars]
  rw [heq, hvars, hrequired]

end Closure
section Drivers
variable [DecidableEq V] {assignments : List (Assignment V)} {requiredVars : Finset V}

/-- The lists `filterAssignments` ends with, in terms of the joined assignments. -/
structure Filtered (assignments : List (Assignment V)) (requiredVars : Finset V)
    (result : List (Assignment V) × Finset V) : Prop where
  mem_vars : ∀ v, v ∈ result.2 ↔
    Needed (joinTransitive requiredVars assignments) requiredVars v
  mem_kept : ∀ a, a ∈ result.1 ↔
    a ∈ joinTransitive requiredVars assignments ∧ a.left.var ∈ result.2

theorem filterAssignments_spec (assignments : List (Assignment V)) (requiredVars : Finset V) :
    ∃ result, Filtered assignments requiredVars result ∧
      ∀ fuel, assignments.length < fuel →
        filterAssignments fuel assignments requiredVars = some result := by
  obtain ⟨vars, required, hclosed, hrun⟩ :=
    closeRequired_spec (joinTransitive requiredVars assignments) requiredVars
  have hlen : (joinTransitive requiredVars assignments).length ≤ assignments.length :=
    List.length_filterMap_le _ _
  refine ⟨(((joinTransitive requiredVars assignments).zipIdx.filter
      fun asn => asn ∈ required).map (·.1), vars), ⟨hclosed.mem_vars, fun a => ?_⟩,
    fun fuel hfuel => ?_⟩
  · simp only [List.mem_map, List.mem_filter, decide_eq_true_eq, hclosed.mem_required]
    constructor
    · rintro ⟨asn, ⟨hzip, -, hleft⟩, rfl⟩
      exact ⟨List.fst_mem_of_mem_zipIdx hzip, hleft⟩
    · rintro ⟨ha, hleft⟩
      obtain ⟨k, hk, rfl⟩ := List.getElem_of_mem ha
      have hzip : ((joinTransitive requiredVars assignments)[k], k) ∈
          (joinTransitive requiredVars assignments).zipIdx := by
        simp [List.mem_zipIdx_iff_getElem?]
      exact ⟨_, ⟨hzip, hzip, hleft⟩, rfl⟩
  · rw [filterAssignments, hrun fuel (by omega)]
    rfl

/-- Every variable required at the end has the source it had, and every
remaining assignment is between required variables. -/
structure KeepsDrivers (assignments : List (Assignment V)) (requiredVars : Finset V)
    (result : List (Assignment V) × Finset V) : Prop where
  required : requiredVars ⊆ result.2
  declared : ∀ a ∈ result.1, a.left.var ∈ result.2 ∧ a.right.var ∈ result.2
  sources : ∀ v ∈ result.2, ∀ idx src,
    Driven assignments ⟨v, idx⟩ src ↔ Driven result.1 ⟨v, idx⟩ src

/-- A needed assignment that reads a joined variable reads it as a whole, and
that variable is not driven by another joined one. -/
def JoinsOnePair (assignments : List (Assignment V)) (requiredVars : Finset V) : Prop :=
  ∀ a ∈ assignments, Needed assignments requiredVars a.left.var →
    ¬ Joined requiredVars assignments a.left.var → Joined requiredVars assignments a.right.var →
    a.right.idx = [] ∧ ∀ b ∈ assignments, b.left.var = a.right.var →
      ¬ Joined requiredVars assignments b.right.var

namespace Filtered
variable {result : List (Assignment V) × Finset V}

theorem required (h : Filtered assignments requiredVars result) : requiredVars ⊆ result.2 :=
  fun v hv => (h.mem_vars v).mpr ⟨v, hv, .refl⟩

theorem declared (h : Filtered assignments requiredVars result) {a : Assignment V}
    (ha : a ∈ result.1) : a.left.var ∈ result.2 ∧ a.right.var ∈ result.2 := by
  obtain ⟨hjoin, hleft⟩ := (h.mem_kept a).mp ha
  exact ⟨hleft, (h.mem_vars _).mpr (((h.mem_vars _).mp hleft).reads hjoin)⟩

/-- A remaining assignment is one of the list, or one of the list followed by the
driver of its right variable. -/
theorem kept_cases (h : Filtered assignments requiredVars result) {a : Assignment V}
    (ha : a ∈ result.1) :
    ¬ Joined requiredVars assignments a.left.var ∧
      (a ∈ assignments ∨ ∃ b ∈ assignments, ∃ d ∈ assignments,
        b.left = a.left ∧ Joined requiredVars assignments b.right.var ∧
        d.left = ⟨b.right.var, []⟩ ∧ d.right = a.right) := by
  obtain ⟨b, hb, hl, ⟨-, rfl⟩ | ⟨hr, d, hd, hdl, rfl⟩⟩ :=
    mem_joinTransitive.mp ((h.mem_kept a).mp ha).1
  · exact ⟨hl, .inl hb⟩
  · exact ⟨hl, .inr ⟨b, hb, d, hd, rfl, hr, hdl, rfl⟩⟩

theorem keep (h : Filtered assignments requiredVars result) {a : Assignment V}
    (ha : a ∈ assignments) (hleft : a.left.var ∈ result.2)
    (hl : ¬ Joined requiredVars assignments a.left.var)
    (hr : ¬ Joined requiredVars assignments a.right.var) : a ∈ result.1 :=
  (h.mem_kept a).mpr ⟨mem_joinTransitive.mpr ⟨a, ha, hl, .inl ⟨hr, rfl⟩⟩, hleft⟩

theorem join (h : Filtered assignments requiredVars result) {a d : Assignment V}
    (ha : a ∈ assignments) (hleft : a.left.var ∈ result.2)
    (hl : ¬ Joined requiredVars assignments a.left.var)
    (hr : Joined requiredVars assignments a.right.var) (hd : d ∈ assignments)
    (hdl : d.left = ⟨a.right.var, []⟩) : ⟨a.left, d.right⟩ ∈ result.1 :=
  (h.mem_kept _).mpr
    ⟨mem_joinTransitive.mpr ⟨a, ha, hl, .inr ⟨hr, d, hd, hdl, rfl⟩⟩, hleft⟩

section Safe
variable (h : Filtered assignments requiredVars result)
  (hsafe : JoinsOnePair assignments requiredVars)
include h hsafe

/-- Joined variables are not required at the end. -/
theorem vars_needed {v : V} (hv : v ∈ result.2) :
    Needed assignments requiredVars v ∧ ¬ Joined requiredVars assignments v := by
  obtain ⟨w, hw, hpath⟩ := (h.mem_vars v).mp hv
  induction hpath with
  | refl => exact ⟨⟨w, hw, .refl⟩, fun hjoined => hjoined.1 hw⟩
  | @tail u v hbefore hread ih =>
    have hu : u ∈ result.2 := (h.mem_vars u).mpr ⟨w, hw, hbefore⟩
    obtain ⟨hneeded, -⟩ := ih hu
    obtain ⟨a, ha, rfl, rfl⟩ := hread
    obtain ⟨b, hb, hl, ⟨hr, rfl⟩ | ⟨hr, d, hd, hdl, rfl⟩⟩ := mem_joinTransitive.mp ha
    · exact ⟨hneeded.reads hb, hr⟩
    · have hvar : d.left.var = b.right.var := by rw [hdl]
      have hmid : Needed assignments requiredVars d.left.var := hvar ▸ hneeded.reads hb
      have hlast : Needed assignments requiredVars d.right.var := hmid.reads hd
      exact ⟨hlast, (hsafe b hb hneeded hl hr).2 d hd hvar⟩

/-- A step from a required variable in the remaining assignments is one or two
steps in the list. -/
theorem path_of_step {r s : Ref V} (hstep : Step result.1 r s) :
    TransGen (Step assignments) r s ∧ s.var ∈ result.2 := by
  obtain ⟨a, ha, rest, rfl, rfl⟩ := hstep
  obtain ⟨hleft, hright⟩ := h.declared ha
  refine ⟨?_, hright⟩
  obtain ⟨hl, hmem | ⟨b, hb, d, hd, hbl, hr, hdl, hdr⟩⟩ := h.kept_cases ha
  · exact .single (Step.of_mem hmem rest)
  · rw [← hbl] at hl hleft
    have hwhole := (hsafe b hb (h.vars_needed hsafe hleft).1 hl hr).1
    have hmid : b.right = d.left := by
      rw [hdl, ← hwhole]
    have hfirst := Step.of_mem hb rest
    have hsecond := Step.of_mem hd rest
    rw [hmid, hbl] at hfirst
    rw [hdr] at hsecond
    exact .tail (.single hfirst) hsecond

theorem end_of_end {r : Ref V} (hr : r.var ∈ result.2) (hend : ∀ s, ¬ Step result.1 r s) :
    ∀ s, ¬ Step assignments r s := by
  rintro s ⟨a, ha, rest, rfl, -⟩
  have hl := (h.vars_needed hsafe hr).2
  by_cases hright : Joined requiredVars assignments a.right.var
  · obtain ⟨d, hd, hdl⟩ := hright.driver
    exact hend _ (Step.of_mem (h.join ha hr hl hright hd hdl) rest)
  · exact hend _ (Step.of_mem (h.keep ha hr hl hright) rest)

theorem driven_of_kept {r src : Ref V} (hr : r.var ∈ result.2) (hd : Driven result.1 r src) :
    Driven assignments r src := by
  obtain ⟨hpath, hend⟩ := hd
  induction hpath using ReflTransGen.head_induction_on with
  | refl => exact ⟨.refl, h.end_of_end hsafe hr hend⟩
  | head hstep _ ih =>
    obtain ⟨hfirst, hvar⟩ := h.path_of_step hsafe hstep
    obtain ⟨hrest, hterminal⟩ := ih hvar
    exact ⟨hfirst.to_reflTransGen.trans hrest, hterminal⟩

/-- The induction is on the drivers in the list; it also passes through joined
variables, where it speaks of what drives them. -/
theorem kept_of_driven (hsingle : SingleDriver assignments) {r src : Ref V}
    (hr : r.var ∈ result.2) (hd : Driven assignments r src) : Driven result.1 r src := by
  obtain ⟨hpath, hend⟩ := hd
  suffices hboth : (r.var ∈ result.2 → Driven result.1 r src) ∧
      ∀ d ∈ assignments, d.left = ⟨r.var, []⟩ → d.right.var ∈ result.2 →
        Driven result.1 (d.right.elem r.idx) src from hboth.1 hr
  clear hr
  induction hpath using ReflTransGen.head_induction_on with
  | refl =>
    refine ⟨fun hvar => ⟨.refl, fun s hstep => ?_⟩, fun d hd hdl _ => ?_⟩
    · obtain ⟨t, ht, -⟩ := TransGen.head'_iff.mp (h.path_of_step hsafe hstep).1
      exact hend t ht
    · exact absurd (Step.of_whole hd hdl) (hend _)
  | @head r s hstep _ ih =>
    obtain ⟨a, ha, rest, rfl, rfl⟩ := hstep
    refine ⟨fun hvar => ?_, fun d hd hdl hright => ?_⟩
    · obtain ⟨hneeded, hl⟩ := h.vars_needed hsafe hvar
      by_cases hr : Joined requiredVars assignments a.right.var
      · obtain ⟨d, hd, hdl⟩ := hr.driver
        have hjoin := h.join ha hvar hl hr hd hdl
        have hwhole := (hsafe a ha hneeded hl hr).1
        have hrest := ih.2 d hd hdl (h.declared hjoin).2
        simp only [Ref.elem, hwhole, List.nil_append] at hrest
        exact hrest.step (Step.of_mem hjoin rest)
      · have hkeep := h.keep ha hvar hl hr
        exact (ih.1 (h.declared hkeep).2).step (Step.of_mem hkeep rest)
    · -- the joined variable's only driver is `d`
      have hsame := hsingle.rightUnique (Step.of_mem ha rest) (Step.of_whole hd hdl)
      rw [hsame] at ih
      exact ih.1 hright

end Safe

section Kept
variable (h : Filtered assignments requiredVars result)
  (hkeeps : KeepsDrivers assignments requiredVars result)
include h hkeeps

/-- Two joined variables in a row lose the driver of the second one. -/
theorem not_joined_of_keeps {a d : Assignment V} (ha : a ∈ assignments)
    (hleft : a.left.var ∈ result.2) (hl : ¬ Joined requiredVars assignments a.left.var)
    (hr : Joined requiredVars assignments a.right.var) (hd : d ∈ assignments)
    (hdl : d.left = ⟨a.right.var, []⟩) : ¬ Joined requiredVars assignments d.right.var := by
  intro hnext
  have hjoin := h.join ha hleft hl hr hd hdl
  have hend : ∀ s, ¬ Step result.1 d.right s := by
    rintro s ⟨b, hb, rest, heq, -⟩
    have hvar : d.right.var = b.left.var := by rw [heq, Ref.elem_var]
    exact (h.kept_cases hb).1 (hvar ▸ hnext)
  have hdriven : Driven result.1 a.left d.right := by
    refine ⟨.single ?_, hend⟩
    simpa using Step.of_mem hjoin []
  obtain ⟨-, hlast⟩ := (hkeeps.sources a.left.var hleft a.left.idx d.right).mpr hdriven
  obtain ⟨e, he, hel⟩ := hnext.driver
  exact hlast _ (Step.of_whole he hel)

/-- Joining drops the index with which a joined variable is read. -/
theorem whole_of_keeps (hsingle : SingleDriver assignments) (hcycle : NoCycle assignments)
    {a d : Assignment V} (ha : a ∈ assignments) (hleft : a.left.var ∈ result.2)
    (hl : ¬ Joined requiredVars assignments a.left.var)
    (hr : Joined requiredVars assignments a.right.var) (hd : d ∈ assignments)
    (hdl : d.left = ⟨a.right.var, []⟩) : a.right.idx = [] := by
  by_contra hidx
  have hjoin := h.join ha hleft hl hr hd hdl
  have hright := (h.declared hjoin).2
  obtain ⟨src, hsrc⟩ := hcycle.exists_source d.right
  have hdriven : Driven result.1 a.left src := by
    have hkept := (hkeeps.sources d.right.var hright d.right.idx src).mp hsrc
    refine hkept.step ?_
    simpa using Step.of_mem hjoin []
  have hbefore := (hkeeps.sources a.left.var hleft a.left.idx src).mpr hdriven
  have hpath : ReflTransGen (Step assignments) a.left (src.elem a.right.idx) := by
    have hfirst : Step assignments a.left a.right := by simpa using Step.of_mem ha []
    exact .head hfirst (.head (Step.of_whole hd hdl) (path_elem hsrc.1 a.right.idx))
  have hback := hbefore.unique hsingle hpath
  rcases reflTransGen_iff_eq_or_transGen.mp hback with heq | htrans
  · exact hidx (Ref.elem_eq_self heq.symm)
  · exact hcycle _ _ htrans ⟨[], a.right.idx, by simp⟩

theorem needed_of_keeps (hsingle : SingleDriver assignments) {v : V}
    (hv : Needed assignments requiredVars v) :
    (¬ Joined requiredVars assignments v → v ∈ result.2) ∧
      (Joined requiredVars assignments v → ∀ d ∈ assignments, d.left.var = v →
        d.right.var ∈ result.2 ∧ ¬ Joined requiredVars assignments d.right.var) := by
  obtain ⟨w, hw, hpath⟩ := hv
  induction hpath with
  | refl => exact ⟨fun _ => h.required hw, fun hjoined => absurd hw hjoined.1⟩
  | tail _ hread ih =>
    obtain ⟨a, ha, rfl, rfl⟩ := hread
    by_cases hl : Joined requiredVars assignments a.left.var
    · obtain ⟨hin, hnot⟩ := ih.2 hl a ha rfl
      exact ⟨fun _ => hin, fun hjoined => absurd hjoined hnot⟩
    · have hleft := ih.1 hl
      refine ⟨fun hr => (h.declared (h.keep ha hleft hl hr)).2, fun hr d hd hvar => ?_⟩
      obtain ⟨e, he, hel⟩ := hr.driver
      have hsame : d = e := by
        refine hsingle.eq_of_overlap hd he ⟨[], d.left.idx, ?_⟩
        simp [hel, Ref.elem, ← hvar]
      subst hsame
      exact ⟨(h.declared (h.join ha hleft hl hr hd hel)).2,
        h.not_joined_of_keeps hkeeps ha hleft hl hr hd hel⟩

end Kept
end Filtered

/-- The loop of `filterAssignments` ends, and the result keeps the drivers exactly
when no needed join drops an index or the driver of another joined variable. -/
theorem filterAssignments_keeps_iff (assignments : List (Assignment V)) (requiredVars : Finset V)
    (hsingle : SingleDriver assignments) (hcycle : NoCycle assignments) :
    ∃ result, (∀ fuel, assignments.length < fuel →
        filterAssignments fuel assignments requiredVars = some result) ∧
      (KeepsDrivers assignments requiredVars result ↔
        JoinsOnePair assignments requiredVars) := by
  obtain ⟨result, h, hrun⟩ := filterAssignments_spec assignments requiredVars
  refine ⟨result, hrun, fun hkeeps a ha hneeded hl hr => ?_, fun hsafe => ⟨h.required,
    fun a ha => h.declared ha, fun v hv idx src => ⟨?_, ?_⟩⟩⟩
  · have hleft := (h.needed_of_keeps hkeeps hsingle hneeded).1 hl
    obtain ⟨d, hd, hdl⟩ := hr.driver
    refine ⟨h.whole_of_keeps hkeeps hsingle hcycle ha hleft hl hr hd hdl, fun b hb hvar => ?_⟩
    exact ((h.needed_of_keeps hkeeps hsingle (hneeded.reads ha)).2 hr b hb hvar).2
  · exact h.kept_of_driven hsafe hsingle hv
  · exact h.driven_of_kept hsafe hv
/-- One pair `0 = 1`, `1 = 2` and an element of its source. -/
theorem filterAssignments_keeps_pair :
    let pair : List (Assignment Nat) :=
      [⟨⟨0, []⟩, ⟨1, []⟩⟩, ⟨⟨1, []⟩, ⟨2, []⟩⟩, ⟨⟨3, []⟩, ⟨2, [1]⟩⟩]
    ∃ result, filterAssignments 4 pair {0, 3} = some result ∧
      (KeepsDrivers pair {0, 3} result ↔ JoinsOnePair pair {0, 3}) ∧
      result = ([⟨⟨0, []⟩, ⟨2, []⟩⟩, ⟨⟨3, []⟩, ⟨2, [1]⟩⟩], {0, 2, 3}) := by
  intro pair
  have hsingle : SingleDriver pair := .of_nodup (by decide)
  have hcycle : NoCycle pair := .of_rank (fun v => if v = 3 then 0 else v) (by decide)
  obtain ⟨result, hrun, hiff⟩ := filterAssignments_keeps_iff pair {0, 3} hsingle hcycle
  have hresult := hrun 4 (by decide)
  refine ⟨result, hresult, hiff, ?_⟩
  have heval : filterAssignments 4 pair {0, 3} =
      some ([⟨⟨0, []⟩, ⟨2, []⟩⟩, ⟨⟨3, []⟩, ⟨2, [1]⟩⟩], {0, 2, 3}) := by decide
  exact Option.some.inj (hresult.symm.trans heval)

/-- Of the chain `0 = 1`, `1 = 2`, `2 = 3` only `0 = 2` is left. -/
theorem filterAssignments_chain_loses_driver :
    let chain : List (Assignment Nat) :=
      [⟨⟨0, []⟩, ⟨1, []⟩⟩, ⟨⟨1, []⟩, ⟨2, []⟩⟩, ⟨⟨2, []⟩, ⟨3, []⟩⟩]
    SingleDriver chain ∧ NoCycle chain ∧
      filterAssignments 4 chain {0} = some ([⟨⟨0, []⟩, ⟨2, []⟩⟩], {0, 2}) ∧
      ¬ KeepsDrivers chain {0} ([⟨⟨0, []⟩, ⟨2, []⟩⟩], {0, 2}) := by
  intro chain
  refine ⟨.of_nodup (by decide), .of_rank id (by decide), by decide, fun hkeeps => ?_⟩
  have hdriven : Driven [(⟨⟨0, []⟩, ⟨2, []⟩⟩ : Assignment Nat)] ⟨0, []⟩ ⟨2, []⟩ := by
    refine ⟨.single ⟨_, List.mem_singleton_self _, [], rfl, rfl⟩, ?_⟩
    rintro s ⟨a, ha, rest, heq, -⟩
    obtain rfl := List.mem_singleton.mp ha
    have hvar : (2 : Nat) = 0 := congrArg Ref.var heq
    exact absurd hvar (by decide)
  obtain ⟨-, hend⟩ := (hkeeps.sources 0 (by decide) [] ⟨2, []⟩).mpr hdriven
  exact hend ⟨3, []⟩ ⟨⟨⟨2, []⟩, ⟨3, []⟩⟩, by decide, [], rfl, rfl⟩

end Drivers
end SystemcCompiler.Elab
