import Mathlib.Algebra.Order.BigOperators.Group.Finset
import Mathlib.Data.Finset.Card
import SystemcCompiler.Library.SilentNodes
import SystemcCompiler.Scope.ScopeGraph

/-! Which scope is printed next: what `PreparedScopes` holds after some scopes are printed, and
where the loop over scopes gets from there. -/
namespace SystemcCompiler.ScopeGraph
open SilentNodes

variable {g : Graph} {o : Options} {prepared other : PreparedScopes} {rel : ScopeId × List ScopeId}
  {s t u w x : ScopeId} {p p' : Printed} {n : Nat}

theorem isDead_iff : isDead s = true ↔ s = deadScope :=
  beq_iff_eq

/-- Predecessors a scope is prepared by. -/
def edgesTo (prepared : PreparedScopes) (scope : ScopeId) : Nat :=
  (prepared.map fun r => if r.1 = scope then r.2.length else 0).sum

@[simp] theorem edgesTo_nil (scope : ScopeId) : edgesTo [] scope = 0 :=
  rfl

@[simp] theorem edgesTo_cons (rel : ScopeId × List ScopeId) (scope : ScopeId) :
    edgesTo (rel :: prepared) scope =
      (if rel.1 = scope then rel.2.length else 0) + edgesTo prepared scope :=
  rfl

theorem edgesTo_eq_zero (h : scope ∉ prepared.map (·.1)) : edgesTo prepared scope = 0 := by
  induction prepared with
  | nil => rfl
  | cons r rs ih =>
    rw [List.map_cons, List.mem_cons, not_or] at h
    rw [edgesTo_cons, ih h.2, if_neg (Ne.symm h.1)]

/-- One entry for a scope, none without predecessors, sorted by level. -/
structure Sound (g : Graph) (prepared : PreparedScopes) : Prop where
  nodup : (prepared.map (·.1)).Nodup
  sorted : prepared.Pairwise fun a b => (g a.1).level ≤ (g b.1).level
  loaded : ∀ r ∈ prepared, r.2 ≠ [] ∧ r.1 ≠ deadScope

theorem Sound.nil : Sound g [] where
  nodup := List.nodup_nil
  sorted := List.Pairwise.nil
  loaded _ hr := absurd hr List.not_mem_nil

theorem edgesTo_of_mem (hnd : (prepared.map (·.1)).Nodup) (hrel : rel ∈ prepared) :
    edgesTo prepared rel.1 = rel.2.length := by
  induction prepared with
  | nil => exact absurd hrel List.not_mem_nil
  | cons r rs ih =>
    rw [List.map_cons, List.nodup_cons] at hnd
    rw [edgesTo_cons]
    rcases List.mem_cons.mp hrel with rfl | hrel
    · rw [if_pos rfl, edgesTo_eq_zero hnd.1, Nat.add_zero]
    · rw [ih hnd.2 hrel, if_neg, Nat.zero_add]
      exact fun heq => hnd.1 (heq ▸ List.mem_map_of_mem hrel)

theorem any_iff : prepared.any (·.1 == t) = true ↔ t ∈ prepared.map (·.1) := by
  simp

theorem perm_addScope_new (h : ¬prepared.any (·.1 == rel.1) = true) :
    (addScope g prepared rel).Perm (rel :: prepared) := by
  rw [addScope, if_neg h]
  exact List.perm_orderedInsert _ _ _

theorem edgesTo_addScope (hnd : (prepared.map (·.1)).Nodup) :
    edgesTo (addScope g prepared rel) t =
      edgesTo prepared t + if rel.1 = t then rel.2.length else 0 := by
  by_cases h : prepared.any (·.1 == rel.1) = true
  · rw [addScope, if_pos h]
    rw [any_iff] at h
    induction prepared with
    | nil => exact absurd h List.not_mem_nil
    | cons r rs ih =>
      rw [List.map_cons, List.nodup_cons] at hnd
      rw [List.map_cons, edgesTo_cons, edgesTo_cons]
      by_cases hr : r.1 = rel.1
      · have hsame : (rs.map fun r => if r.1 = rel.1 then (r.1, r.2 ++ rel.2) else r) = rs := by
          conv_rhs => rw [← List.map_id rs]
          apply List.map_congr_left
          intro q hq
          rw [if_neg, id]
          exact fun heq => hnd.1 (hr.trans heq.symm ▸ List.mem_map_of_mem hq)
        rw [hsame, if_pos hr]
        by_cases ht : rel.1 = t
        · rw [if_pos (hr.trans ht), if_pos (hr.trans ht), if_pos ht, List.length_append]
          omega
        · rw [if_neg (fun h => ht (hr.symm.trans h)), if_neg (fun h => ht (hr.symm.trans h)),
            if_neg ht]
          omega
      · rw [if_neg hr, ih hnd.2 ((List.mem_cons.mp h).resolve_left (Ne.symm hr))]
        omega
  · rw [edgesTo, ((perm_addScope_new h).map _).sum_eq, List.map_cons, List.sum_cons]
    rw [edgesTo]
    omega

theorem keys_addScope (h : prepared.any (·.1 == rel.1) = true) :
    (addScope g prepared rel).map (·.1) = prepared.map (·.1) := by
  rw [addScope, if_pos h, List.map_map]
  apply List.map_congr_left
  intro r _
  rw [Function.comp_apply]
  split <;> rfl

theorem Sound.addScope (h : Sound g prepared) (hrel : rel.2 ≠ []) (hdead : rel.1 ≠ deadScope) :
    Sound g (addScope g prepared rel) := by
  by_cases hany : prepared.any (·.1 == rel.1) = true
  · have hkeys := keys_addScope (g := g) hany
    constructor
    · rw [hkeys]
      exact h.nodup
    · have hlevels : (prepared.map (·.1)).Pairwise fun a b => (g a).level ≤ (g b).level :=
        List.pairwise_map.mpr h.sorted
      rw [← hkeys] at hlevels
      exact (List.pairwise_map (R := fun a b => (g a).level ≤ (g b).level)).mp hlevels
    · intro r hr
      rw [ScopeGraph.addScope, if_pos hany] at hr
      obtain ⟨q, hq, rfl⟩ := List.mem_map.mp hr
      split
      · exact ⟨List.append_ne_nil_of_left_ne_nil (h.loaded q hq).1 _, (h.loaded q hq).2⟩
      · exact h.loaded q hq
  · have hperm := perm_addScope_new (g := g) hany
    constructor
    · rw [(hperm.map _).nodup_iff, List.map_cons, List.nodup_cons]
      exact ⟨fun hin => hany (any_iff.mpr hin), h.nodup⟩
    · rw [ScopeGraph.addScope, if_neg hany]
      clear * - h
      have hsorted := h.sorted
      clear h
      induction prepared with
      | nil => exact List.pairwise_singleton _ _
      | cons r rs ih =>
        rw [List.orderedInsert_cons]
        split
        · rename_i hlt
          rw [List.pairwise_cons] at hsorted ⊢
          refine ⟨?_, List.pairwise_cons.mpr hsorted⟩
          intro q hq
          rcases List.mem_cons.mp hq with rfl | hq
          · exact hlt.le
          · exact hlt.le.trans (hsorted.1 q hq)
        · rename_i hge
          rw [List.pairwise_cons] at hsorted ⊢
          refine ⟨?_, ih hsorted.2⟩
          intro q hq
          rcases List.mem_cons.mp ((List.perm_orderedInsert _ _ _).mem_iff.mp hq) with rfl | hq
          · exact Nat.not_lt.mp hge
          · exact hsorted.1 q hq
    · intro r hr
      rcases List.mem_cons.mp (hperm.mem_iff.mp hr) with rfl | hr
      · exact ⟨hrel, hdead⟩
      · exact h.loaded r hr

theorem Sound.splice (h : Sound g prepared) (h' : Sound g other) :
    Sound g (splice g prepared other) ∧
      ∀ t, edgesTo (splice g prepared other) t = edgesTo prepared t + edgesTo other t := by
  have hloaded := h'.loaded
  clear h'
  induction other generalizing prepared with
  | nil => exact ⟨h, fun t => rfl⟩
  | cons r rs ih =>
    have hr := hloaded r List.mem_cons_self
    have hstep := ih (h.addScope hr.1 hr.2) fun q hq => hloaded q (List.mem_cons_of_mem _ hq)
    refine ⟨hstep.1, fun t => ?_⟩
    have hsplice : ScopeGraph.splice g prepared (r :: rs) =
      ScopeGraph.splice g (ScopeGraph.addScope g prepared r) rs := rfl
    rw [hsplice, hstep.2 t, edgesTo_addScope h.nodup, edgesTo_cons]
    omega

theorem Sound.addSuccs (h : Sound g p.prepared) (s : ScopeId) :
    Sound g (addSuccs g s p).prepared ∧ ∀ t, t ≠ deadScope →
      edgesTo (addSuccs g s p).prepared t = edgesTo p.prepared t + (g s).succs.count t := by
  rw [ScopeGraph.addSuccs]
  generalize (g s).succs = succs
  dsimp only
  generalize p.prepared = prepared at h
  induction succs generalizing prepared with
  | nil => exact ⟨h, fun _ _ => rfl⟩
  | cons r rs ih =>
    rw [List.foldl_cons]
    by_cases hr : r = deadScope
    · rw [if_pos (isDead_iff.mpr hr)]
      refine ⟨(ih _ h).1, fun t ht => ?_⟩
      rw [(ih _ h).2 t ht, List.count_cons_of_ne (hr ▸ ht.symm)]
    · rw [if_neg (mt isDead_iff.mp hr)]
      have hadd : Sound g (ScopeGraph.addScope g prepared (r, [s])) :=
        h.addScope (List.cons_ne_nil s []) hr
      have hstep := ih _ hadd
      refine ⟨hstep.1, fun t ht => ?_⟩
      rw [hstep.2 t ht, edgesTo_addScope h.nodup, List.count_cons, List.length_singleton]
      simp only [beq_iff_eq]
      omega

/-- A scope that may be printed next. -/
structure Ready (g : Graph) (p : Printed) (t : ScopeId) : Prop where
  unvisited : t ∉ p.visited
  prepared : 0 < edgesTo p.prepared t
  complete : edgesTo p.prepared t = (g t).preds.length
  alive : t ≠ deadScope

theorem exists_of_edgesTo (h : 0 < edgesTo prepared t) : ∃ r ∈ prepared, r.1 = t := by
  by_contra hnone
  rw [edgesTo_eq_zero] at h
  · exact absurd h (Nat.lt_irrefl 0)
  · intro hin
    obtain ⟨r, hr, heq⟩ := List.mem_map.mp hin
    exact hnone ⟨r, hr, heq⟩

theorem nextScope_none (hs : Sound g p.prepared) (h : nextScope g p = none) (t : ScopeId) :
    ¬Ready g p t := by
  intro ht
  obtain ⟨r, hr, rfl⟩ := exists_of_edgesTo ht.prepared
  rw [nextScope, Option.map_eq_none_iff, List.find?_eq_none] at h
  have hnot := h r (List.mem_reverse.mpr hr)
  rw [Bool.and_eq_true, beq_iff_eq, decide_eq_true_eq] at hnot
  exact hnot ⟨(edgesTo_of_mem hs.nodup hr).symm.trans ht.complete, ht.unvisited⟩

theorem nextScope_some (hs : Sound g p.prepared) (h : nextScope g p = some t) :
    Ready g p t ∧ ∀ w, Ready g p w → (g w).level ≤ (g t).level := by
  rw [nextScope, Option.map_eq_some_iff] at h
  obtain ⟨r, hfind, rfl⟩ := h
  rw [List.find?_eq_some_iff_append] at hfind
  obtain ⟨hr, later, earlier, hsplit, hlater⟩ := hfind
  rw [Bool.and_eq_true, beq_iff_eq, decide_eq_true_eq] at hr
  have hmem : r ∈ p.prepared := by
    rw [← List.mem_reverse, hsplit]
    exact List.mem_append_right _ List.mem_cons_self
  have hcount := edgesTo_of_mem hs.nodup hmem
  constructor
  · exact ⟨hr.2, hcount ▸ List.length_pos_of_ne_nil (hs.loaded r hmem).1, hcount.trans hr.1,
      (hs.loaded r hmem).2⟩
  · intro w hw
    obtain ⟨q, hq, rfl⟩ := exists_of_edgesTo hw.prepared
    have hqcount := edgesTo_of_mem hs.nodup hq
    rw [← List.mem_reverse, hsplit, List.mem_append, List.mem_cons] at hq
    rcases hq with hq | rfl | hq
    · have hnot := hlater q hq
      rw [Bool.not_eq_true', Bool.and_eq_false_iff] at hnot
      simp [hw.unvisited, hqcount.symm.trans hw.complete] at hnot
    · exact Nat.le_refl _
    · have hsorted := List.pairwise_reverse.mpr hs.sorted
      rw [hsplit] at hsorted
      exact (List.pairwise_cons.mp (List.pairwise_append.mp hsorted).2.1).1 q hq

def Edge (g : Graph) (u t : ScopeId) : Prop :=
  t ≠ deadScope ∧ t ∈ (g u).succs

/-- Scopes of which nothing is printed, and that do not end `printCurrentScope`. -/
def Silent (g : Graph) (t : ScopeId) : Prop :=
  (g t).items = []

/-- The scopes below `n` are linked to each other, with their predecessors counted. -/
structure Linked (g : Graph) (n : Nat) : Prop where
  preds : ∀ t, t ≠ deadScope →
    (g t).preds.length = ∑ u ∈ Finset.range n, (g u).succs.count t
  bound : ∀ u t, Edge g u t → u < n ∧ t < n

variable {V D D' : Finset ScopeId} {L ℓ level : Nat} {noExit : Bool}

/-- A call of `printCurrentScope` that found the scopes `V` visited has printed the scopes
`D`. -/
structure At (g : Graph) (n : Nat) (V D : Finset ScopeId) (p : Printed) : Prop where
  sound : Sound g p.prepared
  edges : ∀ t, t ≠ deadScope → edgesTo p.prepared t = ∑ u ∈ D, (g u).succs.count t
  visited : p.visited = V ∪ D
  disjoint : Disjoint V D
  closed : ∀ t ∈ V ∪ D, ∀ u, Edge g u t → u ∈ V ∪ D
  bound : V ∪ D ⊆ Finset.range n

theorem At.ready_iff (hg : Linked g n) (h : At g n V D p) :
    Ready g p t ↔ t ∉ V ∪ D ∧ (∃ u, Edge g u t) ∧ ∀ u, Edge g u t → u ∈ D := by
  have hD : D ⊆ Finset.range n := Finset.subset_union_right.trans h.bound
  constructor
  · intro hr
    have hsum := h.edges t hr.alive
    refine ⟨h.visited ▸ hr.unvisited, ?_, ?_⟩
    · have hpos := hr.prepared
      rw [hsum, Finset.sum_pos_iff] at hpos
      obtain ⟨u, _, hcount⟩ := hpos
      exact ⟨u, hr.alive, List.count_pos_iff.mp hcount⟩
    · intro u hu
      by_contra hnot
      have hlt := Finset.sum_lt_sum_of_subset (f := fun u => (g u).succs.count t) hD
        (Finset.mem_range.mpr (hg.bound u t hu).1) hnot (List.count_pos_iff.mpr hu.2)
        fun _ _ _ => Nat.zero_le _
      rw [← hsum, ← hg.preds t hr.alive, hr.complete] at hlt
      exact absurd hlt (Nat.lt_irrefl _)
  · rintro ⟨hnot, ⟨u, hu⟩, hall⟩
    have hsum := h.edges t hu.1
    have hfull : ∑ u ∈ D, (g u).succs.count t = (g t).preds.length := by
      rw [hg.preds t hu.1]
      apply Finset.sum_subset hD
      intro v _ hv
      apply List.count_eq_zero_of_not_mem
      exact fun hin => hv (hall v ⟨hu.1, hin⟩)
    refine ⟨h.visited ▸ hnot, ?_, hsum.trans hfull, hu.1⟩
    rw [hsum, Finset.sum_pos_iff]
    exact ⟨u, hall u hu, List.count_pos_iff.mpr hu.2⟩

/-- The scope being printed is finished. -/
theorem At.finish (h : At g n (insert s V) D p) (hV : s ∉ V) (hD : s ∉ D) :
    At g n V (insert s D) (addSuccs g s p) where
  sound := (h.sound.addSuccs s).1
  edges t ht := by
    rw [(h.sound.addSuccs s).2 t ht, h.edges t ht, Finset.sum_insert hD]
    omega
  visited := by
    rw [Finset.union_insert, ← Finset.insert_union]
    exact h.visited
  disjoint := by
    rw [Finset.disjoint_insert_right]
    exact ⟨hV, (Finset.disjoint_insert_left.mp h.disjoint).2⟩
  closed := by
    rw [Finset.union_insert, ← Finset.insert_union]
    exact h.closed
  bound := by
    rw [Finset.union_insert, ← Finset.insert_union]
    exact h.bound

/-- A scope is entered all of whose predecessors are visited. -/
theorem At.enter (h : At g n V D p) (hs : s ∉ V ∪ D) (hpreds : ∀ u, Edge g u s → u ∈ V ∪ D)
    (hn : s < n) : At g n (insert s V) D { p with visited := insert s p.visited } where
  sound := h.sound
  edges := h.edges
  visited := by rw [h.visited, Finset.insert_union]
  disjoint := by
    rw [Finset.disjoint_insert_left]
    exact ⟨fun hin => hs (Finset.mem_union_right V hin), h.disjoint⟩
  closed := by
    intro t ht u hu
    rw [Finset.insert_union] at ht ⊢
    rcases Finset.mem_insert.mp ht with rfl | ht
    · exact Finset.mem_insert_of_mem (hpreds u hu)
    · exact Finset.mem_insert_of_mem (h.closed t ht u hu)
  bound := by
    rw [Finset.insert_union, Finset.insert_subset_iff]
    exact ⟨Finset.mem_range.mpr hn, h.bound⟩

/-- A call for a branch starts. -/
theorem At.call (h : At g n V D p) : At g n (V ∪ D) ∅ ⟨[], p.visited, []⟩ where
  sound := Sound.nil
  edges _ _ := rfl
  visited := by rw [h.visited, Finset.union_empty]
  disjoint := Finset.disjoint_empty_right _
  closed := by
    rw [Finset.union_empty]
    exact h.closed
  bound := by
    rw [Finset.union_empty]
    exact h.bound

/-- A call for a branch has returned. -/
theorem At.return (h : At g n V D p) {r : Printed} (hr : At g n (V ∪ D) D' r) {os : List Line} :
    At g n V (D ∪ D') ⟨splice g p.prepared r.prepared, r.visited, os⟩ where
  sound := (h.sound.splice hr.sound).1
  edges t ht := by
    have hdisj := Finset.disjoint_of_subset_left Finset.subset_union_right hr.disjoint
    rw [(h.sound.splice hr.sound).2 t, h.edges t ht, hr.edges t ht, Finset.sum_union hdisj]
  visited := by rw [hr.visited, Finset.union_assoc]
  disjoint := by
    rw [Finset.disjoint_union_right]
    exact ⟨h.disjoint, Finset.disjoint_of_subset_left Finset.subset_union_left hr.disjoint⟩
  closed := by
    rw [← Finset.union_assoc]
    exact hr.closed
  bound := by
    rw [← Finset.union_assoc]
    exact hr.bound

/-! Text that is printed with some fuel is printed with more. -/

def printer (g : Graph) (o : Options) (fuel : Nat) : PrintScope :=
  fun s level visited => printCurrentScope g o fuel s level false visited

/-- The loop after a scope is finished. -/
def afterScope (g : Graph) (o : Options) (ℓ : Nat) (noExit : Bool) (level fuel : Nat)
    (p : Printed) : Option Printed :=
  match goesOn g ℓ noExit p with
  | none => some p
  | some next => printScopes g o ℓ noExit level fuel next p

theorem printScopes_succ (fuel : Nat) :
    printScopes g o ℓ noExit level (fuel + 1) s p =
      (printItems g o (printer g o fuel) s level (g s).items
        { p with visited := insert s p.visited }).bind fun p =>
          afterScope g o ℓ noExit level fuel (addSuccs g s p) :=
  rfl

/-- Whatever is printed by the first is printed by the second. -/
def Below (print print' : PrintScope) : Prop :=
  ∀ s level visited r, print s level visited = some r → print' s level visited = some r

section Below
variable {print print' : PrintScope} {succs : List ScopeId} {item : Item} {items : List Item}
  {b : Printed × List Line}

theorem Below.printInner (h : Below print print')
    (hb : printInner g print s level p = some b) : printInner g print' s level p = some b := by
  rw [ScopeGraph.printInner, Option.map_eq_some_iff] at hb ⊢
  obtain ⟨r, hr, hb⟩ := hb
  exact ⟨r, h _ _ _ _ hr, hb⟩

theorem Below.printBranch (h : Below print print')
    (hb : printBranch g print s level p = some b) : printBranch g print' s level p = some b := by
  rw [ScopeGraph.printBranch] at hb ⊢
  split at hb
  · rename_i hdead
    rw [if_pos hdead]
    exact hb
  · rename_i halive
    rw [if_neg halive]
    exact h.printInner hb

theorem Below.printItem (h : Below print print')
    (hp : printItem g o print succs level p item = some p') :
    printItem g o print' succs level p item = some p' := by
  unfold ScopeGraph.printItem at hp ⊢
  split at hp
  · rw [Option.bind_eq_some_iff] at hp ⊢
    obtain ⟨t, ht, hp⟩ := hp
    refine ⟨t, h.printBranch ht, ?_⟩
    rw [Option.map_eq_some_iff] at hp ⊢
    obtain ⟨e, he, hp⟩ := hp
    exact ⟨e, h.printBranch he, hp⟩
  · exact hp
  · exact hp
  · rw [Option.map_eq_some_iff] at hp ⊢
    obtain ⟨b, hb, hp⟩ := hp
    exact ⟨b, h.printInner hb, hp⟩
  · exact hp

theorem Below.printItems (h : Below print print')
    (hp : printItems g o print s level items p = some p') :
    printItems g o print' s level items p = some p' := by
  unfold ScopeGraph.printItems at hp ⊢
  induction items generalizing p with
  | nil => exact hp
  | cons item items ih =>
    rw [List.foldlM_cons, Option.bind_eq_bind, Option.bind_eq_some_iff] at hp ⊢
    obtain ⟨q, hq, hp⟩ := hp
    exact ⟨q, h.printItem hq, ih hp⟩

end Below

theorem printScopes_mono {fuel fuel' : Nat} (hle : fuel ≤ fuel')
    (h : printScopes g o ℓ noExit level fuel s p = some p') :
    printScopes g o ℓ noExit level fuel' s p = some p' := by
  induction fuel generalizing ℓ noExit level s p p' fuel' with
  | zero => exact absurd h (by simp [printScopes])
  | succ fuel ih =>
    obtain ⟨more, rfl⟩ := Nat.exists_eq_add_of_le' hle
    have hmore : fuel ≤ more + fuel := Nat.le_add_left _ _
    rw [← Nat.add_assoc, printScopes_succ, Option.bind_eq_some_iff]
    rw [printScopes_succ, Option.bind_eq_some_iff] at h
    obtain ⟨q, hq, h⟩ := h
    have hbelow : Below (printer g o fuel) (printer g o (more + fuel)) :=
      fun _ _ _ _ hr => ih hmore hr
    refine ⟨q, hbelow.printItems hq, ?_⟩
    unfold afterScope at h ⊢
    split at h
    · exact h
    · exact ih hmore h

theorem printer_mono {fuel fuel' : Nat} (hle : fuel ≤ fuel') :
    Below (printer g o fuel) (printer g o fuel') :=
  fun _ _ _ _ hr => printScopes_mono hle hr

/-- The loop ends like this from here. -/
def Ends (g : Graph) (o : Options) (ℓ : Nat) (noExit : Bool) (level : Nat) (p r : Printed) :
    Prop :=
  ∃ fuel, afterScope g o ℓ noExit level fuel p = some r

/-- Items of a scope are printed like this. -/
def ItemsTo (g : Graph) (o : Options) (s : ScopeId) (level : Nat) (items : List Item)
    (p p' : Printed) : Prop :=
  ∃ fuel, printItems g o (printer g o fuel) s level items p = some p'

theorem afterScope_mono {fuel fuel' : Nat} (hle : fuel ≤ fuel')
    (h : afterScope g o ℓ noExit level fuel p = some p') :
    afterScope g o ℓ noExit level fuel' p = some p' := by
  unfold afterScope at h ⊢
  split at h
  · exact h
  · exact printScopes_mono hle h

/-- What is left of a scope, and the scopes after it, are printed like this. -/
def EndsScope (g : Graph) (o : Options) (ℓ : Nat) (noExit : Bool) (level : Nat) (s : ScopeId)
    (items : List Item) (p r : Printed) : Prop :=
  ∃ p', ItemsTo g o s level items p p' ∧ Ends g o ℓ noExit level (addSuccs g s p') r

theorem EndsScope.printScopes {r : Printed}
    (h : EndsScope g o ℓ noExit level s (g s).items { p with visited := insert s p.visited } r) :
    ∃ fuel, printScopes g o ℓ noExit level fuel s p = some r := by
  obtain ⟨p', ⟨f, hitems⟩, ⟨f', hends⟩⟩ := h
  refine ⟨max f f' + 1, ?_⟩
  rw [printScopes_succ, Option.bind_eq_some_iff]
  exact ⟨p', (printer_mono (Nat.le_max_left f f')).printItems hitems,
    afterScope_mono (Nat.le_max_right f f') hends⟩

theorem EndsScope.ends {r : Printed} (hnext : goesOn g ℓ noExit p = some s)
    (h : EndsScope g o ℓ noExit level s (g s).items { p with visited := insert s p.visited } r) :
    Ends g o ℓ noExit level p r := by
  obtain ⟨fuel, hr⟩ := h.printScopes
  refine ⟨fuel, ?_⟩
  rw [afterScope, hnext]
  exact hr

theorem Ends.stop (h : goesOn g ℓ noExit p = none) : Ends g o ℓ noExit level p p :=
  ⟨0, by rw [afterScope, h]⟩

theorem ItemsTo.nil : ItemsTo g o s level [] p p :=
  ⟨0, rfl⟩

theorem ItemsTo.append {items items' : List Item} {q : Printed}
    (h : ItemsTo g o s level items p q) (h' : ItemsTo g o s level items' q p') :
    ItemsTo g o s level (items ++ items') p p' := by
  obtain ⟨f, h⟩ := h
  obtain ⟨f', h'⟩ := h'
  refine ⟨max f f', ?_⟩
  rw [printItems, List.foldlM_append, Option.bind_eq_bind, Option.bind_eq_some_iff]
  exact ⟨q, (printer_mono (Nat.le_max_left f f')).printItems h,
    (printer_mono (Nat.le_max_right f f')).printItems h'⟩

theorem EndsScope.append {items items' : List Item} {q r : Printed}
    (h : ItemsTo g o s level items p q) (h' : EndsScope g o ℓ noExit level s items' q r) :
    EndsScope g o ℓ noExit level s (items ++ items') p r := by
  obtain ⟨p', hitems, hends⟩ := h'
  exact ⟨p', h.append hitems, hends⟩

/-- A scope of which nothing is printed. -/
theorem Ends.silent {r : Printed} (hnext : goesOn g ℓ noExit p = some s) (hs : Silent g s)
    (h : Ends g o ℓ noExit level (addSuccs g s { p with visited := insert s p.visited }) r) :
    Ends g o ℓ noExit level p r := by
  apply EndsScope.ends hnext
  rw [hs]
  exact ⟨_, ItemsTo.nil, h⟩

theorem goesOn_eq (hnext : nextScope g p = some t)
    (h : Silent g t ∨ ℓ ≤ (g t).level ∨ noExit = true) : goesOn g ℓ noExit p = some t := by
  unfold goesOn
  rw [hnext]
  dsimp only
  rw [if_neg]
  rintro ⟨hloud, hlt, hexit⟩
  rcases h with h | h | h
  · exact hloud h
  · exact absurd hlt (Nat.not_lt.mpr h)
  · rw [hexit] at h
    cases h

/-- Scopes that are, or may silently come to be, visited after these. -/
abbrev reachable (g : Graph) (D : Finset ScopeId) : Set ScopeId :=
  closure (Edge g) (Silent g) ↑D

theorem At.visitSilent (hg : Linked g n) (h : At g n V D p) (ht : Ready g p t)
    (hs : Silent g t) : t ∉ V ∪ D ∧
      At g n V (insert t D) (addSuccs g t { p with visited := insert t p.visited }) ∧
      reachable g (insert t D) = reachable g D := by
  obtain ⟨hnot, ⟨u, hu⟩, hall⟩ := (h.ready_iff hg).mp ht
  have henter := h.enter hnot (fun u hu => Finset.mem_union_right V (hall u hu))
    (hg.bound u t hu).2
  have hsplit : t ∉ V ∧ t ∉ D := by
    rw [Finset.mem_union, not_or] at hnot
    exact hnot
  refine ⟨hnot, henter.finish hsplit.1 hsplit.2, ?_⟩
  rw [reachable, Finset.coe_insert]
  exact closure_insert (.silent hs hu fun u hu => .base (hall u hu))

/-- Visits of silent scopes come to an end. -/
theorem At.settle (o : Options) (ℓ : Nat) (noExit : Bool) (level : Nat) (hg : Linked g n)
    (h : At g n V D p) :
    ∃ D' p', At g n V D' p' ∧ D ⊆ D' ∧ reachable g D' = reachable g D ∧ p'.os = p.os ∧
      (∀ t, nextScope g p' = some t → ¬Silent g t) ∧
      ∀ r, Ends g o ℓ noExit level p' r → Ends g o ℓ noExit level p r := by
  generalize hm : n - (V ∪ D).card = m
  induction m using Nat.strong_induction_on generalizing D p with
  | _ m ih =>
    by_cases hquiet : ∃ t, nextScope g p = some t ∧ Silent g t
    · obtain ⟨t, hnext, hs⟩ := hquiet
      obtain ⟨hnot, hstep, hreach⟩ := h.visitSilent hg (nextScope_some h.sound hnext).1 hs
      have hcard : (V ∪ insert t D).card ≤ n :=
        (Finset.card_le_card hstep.bound).trans_eq (Finset.card_range n)
      have hmore : (V ∪ insert t D).card = (V ∪ D).card + 1 := by
        rw [Finset.union_insert, Finset.card_insert_of_notMem hnot]
      obtain ⟨D', p', hat, hsub, hreach', hos, hloud, hends⟩ := ih _ (by omega) hstep rfl
      refine ⟨D', p', hat, (Finset.subset_insert t D).trans hsub, hreach'.trans hreach, hos,
        hloud, fun r hr => ?_⟩
      exact Ends.silent (goesOn_eq hnext (.inl hs)) hs (hends r hr)
    · refine ⟨D, p, h, Finset.Subset.refl D, rfl, rfl, ?_, fun r hr => hr⟩
      exact fun t ht hs => hquiet ⟨t, ht, hs⟩

/-- Scopes that can be printed after `C`, but for `except`, have lower levels. -/
def OthersLower (g : Graph) (V : Finset ScopeId) (C except : Set ScopeId) (L : Nat) : Prop :=
  ∀ w, ¬Silent g w → w ∉ V → w ∉ C → w ∉ except → (∃ u, Edge g u w) →
    (∀ u, Edge g u w → u ∈ C) → (g w).level < L

/-- What is printed next is not in what was silently reached. -/
theorem At.not_reachable (hnot : t ∉ V ∪ D) (ht : ¬Silent g t) :
    t ∉ V ∧ t ∉ reachable g D := by
  rw [Finset.mem_union, not_or] at hnot
  exact ⟨hnot.1, fun hin => hnot.2 (Finset.mem_coe.mp (mem_of_closure hin ht))⟩

/-- Scopes that can be printed in a call were not visited before it. -/
theorem At.ready (hg : Linked g n) (h : At g n V D p) (hV : PredClosed (Edge g) ↑V)
    (ht : t ∉ D) (hedge : ∃ u, Edge g u t) (hall : ∀ u, Edge g u t → u ∈ D) : Ready g p t := by
  rw [h.ready_iff hg, Finset.mem_union, not_or]
  refine ⟨⟨fun htV => ?_, ht⟩, hedge, hall⟩
  obtain ⟨u, hu⟩ := hedge
  have huV : u ∈ V := Finset.mem_coe.mp (hV t (Finset.mem_coe.mpr htV) u hu)
  exact Finset.disjoint_left.mp h.disjoint huV (hall u hu)

/-- The scope with the highest level is printed next. -/
theorem At.reach (o : Options) (noExit : Bool) (level : Nat) (hg : Linked g n)
    (h : At g n V D p) (hV : PredClosed (Edge g) ↑V)
    (hx : ¬Silent g x) (hnot : x ∉ V ∪ D) (hedge : ∃ u, Edge g u x)
    (hpreds : ∀ u, Edge g u x → u ∈ reachable g D) (hℓ : ℓ ≤ (g x).level)
    (hothers : OthersLower g V (reachable g D) {x} (g x).level)
    (hsilent : (∀ u, Edge g u x → u ∈ D) ∨
      ∀ z, SilentPath (Edge g) (Silent g) z x → (g x).level ≤ (g z).level) :
    ∃ D' p', At g n V D' p' ∧ D ⊆ D' ∧ reachable g D' = reachable g D ∧ p'.os = p.os ∧
      x ∉ V ∪ D' ∧ (∀ u, Edge g u x → u ∈ D') ∧ goesOn g ℓ noExit p' = some x ∧
      ∀ r, Ends g o ℓ noExit level p' r → Ends g o ℓ noExit level p r := by
  obtain ⟨D', p', hat, hsub, hreach, hos, hloud, hends⟩ :=
    h.settle o ℓ noExit level hg
  have hx' : x ∉ V ∪ D' := by
    rw [Finset.mem_union, not_or] at hnot ⊢
    refine ⟨hnot.1, fun hin => hnot.2 ?_⟩
    have hclosure : x ∈ reachable g D := hreach ▸ subset_closure (Finset.mem_coe.mpr hin)
    exact Finset.mem_coe.mp (mem_of_closure hclosure hx)
  -- some scope that can be printed has at least the level of `x`
  have hfront : ∃ z, Ready g p' z ∧ (g x).level ≤ (g z).level := by
    by_cases hall : ∀ u, Edge g u x → u ∈ D'
    · exact ⟨x, (hat.ready_iff hg).mpr ⟨hx', hedge, hall⟩, Nat.le_refl _⟩
    · push Not at hall
      obtain ⟨u, hu, huD⟩ := hall
      have hureach : u ∈ reachable g D' := hreach ▸ hpreds u hu
      obtain ⟨z, hz, hzs, hzpred, hzall, hpath⟩ := exists_front hureach huD
      have hus : Silent g u := by
        by_contra hl
        exact huD (mem_of_closure hureach hl)
      have hlevels := hsilent.resolve_left fun hin => huD (hsub (hin u hu))
      exact ⟨z, hat.ready hg hV hz hzpred hzall, hlevels z (hpath.tail ⟨hus, hu⟩)⟩
  obtain ⟨z, hz, hzlevel⟩ := hfront
  cases hnext : nextScope g p' with
  | none => exact absurd hz (nextScope_none hat.sound hnext z)
  | some t =>
    obtain ⟨ht, hmax⟩ := nextScope_some hat.sound hnext
    obtain ⟨htnot, htedge, htall⟩ := (hat.ready_iff hg).mp ht
    have htx : t = x := by
      by_contra hne
      have hout := At.not_reachable htnot (hloud t hnext)
      have hlt : (g t).level < (g x).level := by
        apply hothers t (hloud t hnext) hout.1 (hreach ▸ hout.2) hne htedge
        exact fun u hu => hreach.subset (subset_closure (Finset.mem_coe.mpr (htall u hu)))
      have hle := hmax z hz
      omega
    subst htx
    exact ⟨D', p', hat, hsub, hreach, hos, hx', htall, goesOn_eq hnext (.inr (.inl hℓ)), hends⟩

/-- A call returns when nothing of its level is left. -/
theorem At.leave (o : Options) (level : Nat) (hg : Linked g n) (h : At g n V D p)
    (hexit : noExit = true → ℓ = 0)
    (hothers : OthersLower g V (reachable g D) ∅ ℓ) :
    ∃ D' p', At g n V D' p' ∧ reachable g D' = reachable g D ∧ p'.os = p.os ∧
      Ends g o ℓ noExit level p p' := by
  obtain ⟨D', p', hat, -, hreach, hos, hloud, hends⟩ :=
    h.settle o ℓ noExit level hg
  refine ⟨D', p', hat, hreach, hos, hends p' (Ends.stop ?_)⟩
  unfold goesOn
  cases hnext : nextScope g p' with
  | none => rfl
  | some t =>
    obtain ⟨ht, -⟩ := nextScope_some hat.sound hnext
    obtain ⟨htnot, htedge, htall⟩ := (hat.ready_iff hg).mp ht
    have hout := At.not_reachable htnot (hloud t hnext)
    have hlt : (g t).level < ℓ := by
      apply hothers t (hloud t hnext) hout.1 (hreach ▸ hout.2) (Set.notMem_empty t) htedge
      exact fun u hu => hreach.subset (subset_closure (Finset.mem_coe.mpr (htall u hu)))
    dsimp only
    rw [if_pos]
    refine ⟨hloud t hnext, hlt, ?_⟩
    cases hne : noExit with
    | false => rfl
    | true => exact absurd (hexit hne) (by omega)

end SystemcCompiler.ScopeGraph
