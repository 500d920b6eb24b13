import SystemcCompiler.Elab.Traversal

/-! Member variables of modular interfaces that differ between the elements of one context have
no integers, nor has what they lead to. -/
namespace SystemcCompiler.ProcBuilder
open Reachable

variable {classes : ClassId → Class}

/-- What `removeIntSubValues` goes on to. -/
def below (classes : ClassId → Class) : SValue → List SValue
  | .array id type size _ => (List.range size).map fun i => .array id type size i
  | .record id cls => getRecordFields classes (.record id cls)
  | .object id type => [.object id type]
  | .var d parent => [.var d parent]
  | _ => []

def layout (classes : ClassId → Class) : Layout SValue SValue where
  below := below classes
  isLeaf := SValue.isInteger
  gone := .unknown
  below_leaf v hv := by
    cases v with
    | integer => rfl
    | _ => contradiction
  below_gone := rfl
  isLeaf_gone := rfl

@[simp] theorem layout_isLeaf (v : SValue) : (layout classes).isLeaf v = v.isInteger := rfl

@[simp] theorem layout_below (v : SValue) : (layout classes).below v = below classes v := rfl

@[simp] theorem layout_gone : (layout classes).gone = .unknown := rfl

theorem removeIntSubValues_eq (fuel : Nat) :
    removeIntSubValues classes fuel true = forget (layout classes) fuel := by
  induction fuel with
  | zero => rfl
  | succ fuel ih =>
    funext s lval
    unfold removeIntSubValues forget
    cases s lval <;> simp [SValue.isInteger, below, ih]

theorem removeIntSubValues_forgets {fuel : Nat} {s s' : SValue → SValue} {d : Decl}
    {parent : SValue} (h : removeIntSubValues classes fuel false s (.var d parent) = some s') :
    Forgets (layout classes) s s' (Reach (layout classes) s (.var d parent)) := by
  cases fuel with
  | zero => contradiction
  | succ fuel =>
    change removeIntSubValues classes fuel true s (.var d parent) = some s' at h
    rw [removeIntSubValues_eq] at h
    exact forget_forgets h

def SValue.decl? : SValue → Option Decl
  | .var d _ => some d
  | _ => none

/-- The values kept agree with the variables met so far. -/
def Collected (s : SValue → SValue) (lvals : List SValue) (values : Decl → Option SValue) : Prop :=
  ∀ d, ∀ lval ∈ lvals, lval.decl? = some d →
    values d = some .unknown ∨ values d = some (s lval)

section
variable {s : SValue → SValue} {lvals : List SValue} {values : Decl → Option SValue} {d d' : Decl}
  {parent : SValue}

theorem collectValue_other (h : d ≠ d') :
    collectValue s values (.var d' parent) d = values d := by
  cases hv : values d' with
  | none =>
    simp only [collectValue, hv]
    exact Function.update_of_ne h ..
  | some v =>
    simp only [collectValue, hv]
    split
    · rfl
    · exact Function.update_of_ne h ..

theorem collectValue_self : collectValue s values (.var d parent) d =
    match values d with
    | none => some (s (.var d parent))
    | some v => some (if v = s (.var d parent) then v else .unknown) := by
  cases hv : values d with
  | none =>
    simp only [collectValue, hv]
    exact Function.update_self ..
  | some v =>
    simp only [collectValue, hv]
    split
    · exact hv
    · exact Function.update_self ..

theorem Collected.step (h : Collected s lvals values) (lval : SValue) :
    Collected s (lvals ++ [lval]) (collectValue s values lval) := by
  intro d other hother hd
  cases lval with
  | var d' parent =>
    by_cases hdd : d = d'
    · subst hdd
      rw [collectValue_self]
      rcases List.mem_append.mp hother with hother | hother
      · rcases h d other hother hd with hv | hv
        · simp only [hv, ite_self, true_or]
        · simp only [hv]
          split
          · exact .inr rfl
          · exact .inl rfl
      · cases List.mem_singleton.mp hother
        split
        · exact .inr rfl
        · split
          · rename_i heq
            exact .inr (congrArg some heq)
          · exact .inl rfl
    · rw [collectValue_other hdd]
      apply h d other _ hd
      apply (List.mem_append.mp hother).resolve_right
      intro hself
      cases List.mem_singleton.mp hself
      exact hdd (Option.some.inj hd).symm
  | _ =>
    apply h d other _ hd
    apply (List.mem_append.mp hother).resolve_right
    intro hself
    cases List.mem_singleton.mp hself
    contradiction

/-- A value kept is that of a variable, or there are two that differ. -/
def Witnessed (s : SValue → SValue) (lvals : List SValue) (values : Decl → Option SValue) : Prop :=
  ∀ d v, values d = some v → (∃ lval ∈ lvals, lval.decl? = some d ∧ s lval = v) ∨
    ∃ lval ∈ lvals, ∃ lval' ∈ lvals, lval.decl? = some d ∧ lval'.decl? = some d ∧
      s lval ≠ s lval'

theorem Witnessed.step (h : Witnessed s lvals values) (lval : SValue) :
    Witnessed s (lvals ++ [lval]) (collectValue s values lval) := by
  have hmono : ∀ d v, values d = some v →
      (∃ l ∈ lvals ++ [lval], l.decl? = some d ∧ s l = v) ∨
      ∃ l ∈ lvals ++ [lval], ∃ l' ∈ lvals ++ [lval], l.decl? = some d ∧ l'.decl? = some d ∧
        s l ≠ s l' := by
    intro d v hv
    rcases h d v hv with ⟨l, hl, hfound⟩ | ⟨l, hl, l', hl', hfound⟩
    · exact .inl ⟨l, List.mem_append_left _ hl, hfound⟩
    · exact .inr ⟨l, List.mem_append_left _ hl, l', List.mem_append_left _ hl', hfound⟩
  have hself : lval ∈ lvals ++ [lval] := List.mem_append_right _ List.mem_cons_self
  intro d v hv
  cases lval with
  | var d' parent =>
    by_cases hdd : d = d'
    · subst hdd
      rw [collectValue_self] at hv
      split at hv
      · exact .inl ⟨_, hself, rfl, Option.some.inj hv⟩
      · rename_i w hw
        split at hv
        · exact hmono d v (hv ▸ hw)
        · rename_i hne
          rcases hmono d w hw with ⟨l, hl, hd, hlw⟩ | hpair
          · exact .inr ⟨l, hl, _, hself, hd, rfl, hlw ▸ hne⟩
          · exact .inr hpair
    · rw [collectValue_other hdd] at hv
      exact hmono d v hv
  | _ => exact hmono d v hv

end

/-- What holds of the values before and is kept by each variable holds of the values of all. -/
theorem varValues_induction {s : SValue → SValue}
    {P : List SValue → (Decl → Option SValue) → Prop} (h : P [] fun _ => none)
    (hstep : ∀ lvals values lval, P lvals values → P (lvals ++ [lval]) (collectValue s values lval))
    (lvals : List SValue) : P lvals (varValues s lvals) := by
  induction lvals using List.reverseRecOn with
  | nil => exact h
  | append_singleton lvals lval ih =>
    unfold varValues at ih ⊢
    rw [List.foldl_append]
    exact hstep lvals _ lval ih

theorem varValues_collected (s : SValue → SValue) (lvals : List SValue) :
    Collected s lvals (varValues s lvals) :=
  varValues_induction (fun _ _ h => (List.not_mem_nil h).elim) (fun _ _ lval h => h.step lval) lvals

theorem varValues_witnessed (s : SValue → SValue) (lvals : List SValue) :
    Witnessed s lvals (varValues s lvals) :=
  varValues_induction nofun (fun _ _ lval h => h.step lval) lvals

theorem varValues_of_ne {s : SValue → SValue} {lvals : List SValue} {lval lval' : SValue}
    {d : Decl} (h : lval ∈ lvals) (h' : lval' ∈ lvals) (hd : lval.decl? = some d)
    (hd' : lval'.decl? = some d) (hne : s lval ≠ s lval') :
    varValues s lvals d = some .unknown := by
  rcases varValues_collected s lvals d lval h hd with hv | hv
  · exact hv
  · rcases varValues_collected s lvals d lval' h' hd' with hv' | hv'
    · exact hv'
    · rw [hv] at hv'
      exact (hne (Option.some.inj hv')).elim

/-- A variable with a value is removed only if another one differs. -/
theorem ne_of_varValues {s : SValue → SValue} {lvals : List SValue} {lval : SValue} {d : Decl}
    (h : varValues s lvals d = some .unknown) (hval : s lval ≠ .unknown) :
    ∃ lval' ∈ lvals, lval'.decl? = some d ∧ s lval ≠ s lval' := by
  rcases varValues_witnessed s lvals d .unknown h with
    ⟨l, hl, hd, hlv⟩ | ⟨l, hl, l', hl', hd, hd', hne⟩
  · exact ⟨l, hl, hd, hlv ▸ hval⟩
  · by_cases heq : s lval = s l
    · exact ⟨l', hl', hd', heq ▸ hne⟩
    · exact ⟨l, hl, hd, heq⟩

/-- The variable is removed with what it leads to. -/
def Removed (classes : ClassId → Class) (s : SValue → SValue) (lvals : List SValue)
    (x : SValue) : Prop :=
  ∃ lval ∈ lvals, ∃ d, lval.decl? = some d ∧ varValues s lvals d = some .unknown ∧
    Reach (layout classes) s lval x

theorem removeVar_forgets {fuel : Nat} {values : Decl → Option SValue} {s s' : SValue → SValue}
    {lval : SValue} (h : removeVar classes fuel values s lval = some s') :
    Forgets (layout classes) s s' fun x => ∃ d, lval.decl? = some d ∧
      values d = some .unknown ∧ Reach (layout classes) s lval x := by
  unfold removeVar at h
  split at h
  · rename_i d parent
    split at h
    · rename_i hv
      exact (removeIntSubValues_forgets h).congr fun x => by simp [SValue.decl?, hv]
    · rename_i hv
      cases h
      exact (Forgets.refl s).congr fun x => by simp [SValue.decl?, hv]
  · rename_i hvar
    cases h
    apply (Forgets.refl s).congr
    intro x
    cases lval with
    | var d parent => exact (hvar d parent rfl).elim
    | _ => simp [SValue.decl?]

theorem removeVars_forgets {fuel : Nat} {s s' : SValue → SValue} {lvals : List SValue}
    (h : removeVars classes fuel s lvals = some s') :
    Forgets (layout classes) s s' (Removed classes s lvals) := by
  apply forgets_foldlM (P := fun lval x => ∃ d, lval.decl? = some d ∧
    varValues s lvals d = some .unknown ∧ Reach (layout classes) s lval x) lvals _ (.refl s) h
  intro lval _ t t' ht hstep
  exact (removeVar_forgets hstep).congr fun x => by simp [ht.reach_iff]

section
variable {b : Builder} {s t t' : SValue → SValue} {fuel : Nat} {order : List (List Decl)}

/-- A variable that differed and does not any more has lost its integer. -/
theorem removeVars_differing {lvals : List SValue} {lval lval' x : SValue} {d : Decl}
    (hs : Erased (layout classes) s t) (h : removeVars classes fuel t lvals = some t')
    (hl : lval ∈ lvals) (hl' : lval' ∈ lvals) (hd : lval.decl? = some d)
    (hd' : lval'.decl? = some d) (hne : s lval ≠ s lval')
    (hx : Reach (layout classes) s lval x) : (t' x).isInteger = false := by
  have hforgets := removeVars_forgets h
  have hx := hs.reach_iff.mpr hx
  by_cases heq : t lval = t lval'
  · have hgone : t lval = .unknown := by
      rcases hs lval with hsame | ⟨_, hgone⟩
      · rcases hs lval' with hsame' | ⟨_, hgone'⟩
        · rw [hsame, hsame'] at heq
          contradiction
        · exact heq.trans hgone'
      · exact hgone
    have hself : x = lval := hx.eq_of_below (by rw [hgone]; rfl)
    by_contra hint
    rw [Bool.not_eq_false, hself] at hint
    have hsame := hforgets.erased.isLeaf hint
    rw [← hsame, hgone] at hint
    contradiction
  · exact hforgets.leaf x ⟨lval, hl, d, hd, varValues_of_ne hl hl' hd hd' heq, hx⟩

/-- What the removal over the contexts leaves, by the values that were there at first. -/
structure Leaves (classes : ClassId → Class) (b : Builder) (order : List (List Decl))
    (s t t' : SValue → SValue) : Prop where
  erased : Erased (layout classes) t t'
  kept : ∀ x, (∀ ctx ∈ order, ∀ lval ∈ mifArrayVarsOf b ctx, ¬Reach (layout classes) s lval x) →
    t' x = t x
  differing : ∀ ctx ∈ order, ∀ lval ∈ mifArrayVarsOf b ctx, ∀ lval' ∈ mifArrayVarsOf b ctx,
    ∀ d, lval.decl? = some d → lval'.decl? = some d → s lval ≠ s lval' →
    ∀ x, Reach (layout classes) s lval x → (t' x).isInteger = false

theorem foldlM_leaves (hs : Erased (layout classes) s t)
    (h : order.foldlM (fun s ctx => removeVars classes fuel s (mifArrayVarsOf b ctx)) t =
      some t') : Leaves classes b order s t t' := by
  induction order generalizing t with
  | nil =>
    cases h
    exact ⟨.refl _, fun _ _ => rfl, fun _ hctx => (List.not_mem_nil hctx).elim⟩
  | cons ctx order ih =>
    rw [List.foldlM_cons] at h
    obtain ⟨t₁, hfirst, hnext⟩ := Option.bind_eq_some_iff.mp h
    have hforgets := removeVars_forgets hfirst
    have hrest := ih (hs.trans hforgets.erased) hnext
    refine ⟨hforgets.erased.trans hrest.erased, fun x hx => ?_, ?_⟩
    · rw [hrest.kept x fun ctx hctx => hx ctx (List.mem_cons_of_mem _ hctx)]
      apply hforgets.kept
      rintro ⟨lval, hl, _, _, _, hreach⟩
      exact hx ctx List.mem_cons_self lval hl (hs.reach_iff.mp hreach)
    · intro ctx' hctx lval hl lval' hl' d hd hd' hne x hx
      rcases List.mem_cons.mp hctx with rfl | hctx
      · have hlost := removeVars_differing hs hfirst hl hl' hd hd' hne hx
        by_contra hint
        rw [Bool.not_eq_false] at hint
        have hsame : t₁ x = t' x := hrest.erased.isLeaf hint
        rw [hsame, hint] at hlost
        contradiction
      · exact hrest.differing ctx' hctx lval hl lval' hl' d hd hd' hne x hx

end

/-! Which removals come to an end, in any order of the contexts. -/

section
variable {b : Builder} {s t t' : SValue → SValue} {fuel : Nat} {order : List (List Decl)}
  {lvals : List SValue} {lval : SValue} {d : Decl}

/-- Two variables of one declaration have different values, and the first leads to `x`. -/
def Differing (classes : ClassId → Class) (s : SValue → SValue) (lvals : List SValue)
    (lval x : SValue) : Prop :=
  lval ∈ lvals ∧ (∃ lval' ∈ lvals, ∃ d, lval.decl? = some d ∧ lval'.decl? = some d ∧
    s lval ≠ s lval') ∧ Reach (layout classes) s lval x

theorem eq_of_erased (hs : Erased (layout classes) s t) (h : t lval ≠ .unknown) :
    t lval = s lval :=
  (hs lval).resolve_right fun hgone => h hgone.2

theorem below_of_ne (hs : Erased (layout classes) s t) (h : t lval ≠ s lval) :
    (s lval).isInteger :=
  ((hs lval).resolve_left h).1

/-- What is removed differed at first, or it is a variable one of whose counterparts has lost
its integer. -/
theorem removed_differing {x : SValue} (hs : Erased (layout classes) s t)
    (h : Removed classes t lvals x) (hx : (t x).isInteger) :
    (∃ lval, Differing classes s lvals lval x) ∨ x ∈ lvals ∧ ∃ lval', t lval' ≠ s lval' := by
  obtain ⟨lval, hl, d, hd, hv, hreach⟩ := h
  have hval : t lval ≠ .unknown := by
    intro hgone
    have hself : x = lval := hreach.eq_of_below (by rw [hgone]; rfl)
    rw [hself, hgone] at hx
    contradiction
  obtain ⟨lval', hl', hd', hne⟩ := ne_of_varValues hv hval
  rw [eq_of_erased hs hval] at hne
  by_cases hsame : t lval' = s lval'
  · rw [hsame] at hne
    exact .inl ⟨lval, hl, ⟨lval', hl', d, hd, hd', hne⟩, hs.reach_iff.mp hreach⟩
  · by_cases heq : s lval = s lval'
    · have hint : (s lval).isInteger := heq ▸ below_of_ne hs hsame
      have hbelow := (layout classes).below_leaf _ hint
      have hself : x = lval := (hs.reach_iff.mp hreach).eq_of_below hbelow
      exact .inr ⟨hself ▸ hl, lval', hsame⟩
    · exact .inl ⟨lval, hl, ⟨lval', hl', d, hd, hd', heq⟩, hs.reach_iff.mp hreach⟩

theorem removeVars_kept {x : SValue} (hs : Erased (layout classes) s t)
    (h : removeVars classes fuel t lvals = some t') (hx : (t x).isInteger)
    (hdiff : ∀ lval, ¬Differing classes s lvals lval x)
    (hmem : x ∈ lvals → ∀ lval', t lval' = s lval') : t' x = t x := by
  apply (removeVars_forgets h).kept
  intro hremoved
  rcases removed_differing hs hremoved hx with ⟨lval, hd⟩ | ⟨hxl, lval', hne⟩
  · exact hdiff lval hd
  · exact hne (hmem hxl lval')

theorem foldlM_kept {x : SValue} (hs : Erased (layout classes) s t)
    (h : order.foldlM (fun s ctx => removeVars classes fuel s (mifArrayVarsOf b ctx)) t =
      some t') (hx : (t x).isInteger)
    (hdiff : ∀ ctx ∈ order, ∀ lval, ¬Differing classes s (mifArrayVarsOf b ctx) lval x)
    (hmem : ∀ ctx ∈ order, x ∉ mifArrayVarsOf b ctx) : t' x = t x := by
  induction order generalizing t with
  | nil =>
    cases h
    rfl
  | cons ctx order ih =>
    rw [List.foldlM_cons] at h
    obtain ⟨t₁, hfirst, hnext⟩ := Option.bind_eq_some_iff.mp h
    have hsame : t₁ x = t x := removeVars_kept hs hfirst hx (hdiff ctx List.mem_cons_self)
      fun hxl => (hmem ctx List.mem_cons_self hxl).elim
    rw [← hsame] at hx ⊢
    exact ih (hs.trans (removeVars_forgets hfirst).erased) hnext hx
      (fun ctx hctx => hdiff ctx (List.mem_cons_of_mem _ hctx))
      (fun ctx hctx => hmem ctx (List.mem_cons_of_mem _ hctx))

theorem decl?_eq_some (h : lval.decl? = some d) : ∃ parent, lval = .var d parent := by
  cases lval with
  | var d' parent =>
    cases h
    exact ⟨parent, rfl⟩
  | _ => contradiction

/-- A removal that ends has ended for every variable that differs. -/
theorem removeVars_ends (hs : Erased (layout classes) s t)
    (h : removeVars classes fuel t lvals = some t') {lval' : SValue} (hl : lval ∈ lvals)
    (hl' : lval' ∈ lvals) (hd : lval.decl? = some d) (hd' : lval'.decl? = some d)
    (hne : s lval ≠ s lval') : Ends (layout classes) s (fuel + 1) lval := by
  by_cases hval : t lval = .unknown
  · exact hs.ends_iff.mp (ends_of_below (by rw [hval]; rfl))
  · have hsame := eq_of_erased hs hval
    have hdiffer : t lval ≠ t lval' := by
      intro heq
      have hsame' := eq_of_erased hs (heq ▸ hval)
      exact hne (hsame.symm.trans (heq.trans hsame'))
    have hv := varValues_of_ne hl hl' hd hd' hdiffer
    obtain ⟨parent, rfl⟩ := decl?_eq_some hd
    obtain ⟨t₁, t₂, ht, hstep⟩ := foldlM_each lvals
      (fun _ _ _ _ _ hstep => (removeVar_forgets hstep).erased) (.refl t) h _ hl
    unfold removeVar at hstep
    simp only [hv, if_true] at hstep
    cases fuel with
    | zero => contradiction
    | succ fuel =>
      change removeIntSubValues classes fuel true t₁ (.var d parent) = some t₂ at hstep
      rw [removeIntSubValues_eq] at hstep
      exact ((hs.trans ht).ends_iff.mp (ends_of_forget hstep)).succ.succ

/-- Where it ends for those that differ at first it ends for all. -/
theorem removeVars_runs (hs : Erased (layout classes) s t)
    (hends : ∀ lval ∈ lvals, ∀ lval' ∈ lvals, ∀ d, lval.decl? = some d → lval'.decl? = some d →
      s lval ≠ s lval' → Ends (layout classes) s (fuel + 1) lval) :
    ∃ t', removeVars classes (fuel + 2) t lvals = some t' ∧ Erased (layout classes) t t' := by
  apply foldlM_runs lvals _ (.refl t)
  intro lval hl t₁ ht
  unfold removeVar
  split
  · rename_i d parent
    split
    · rename_i hv
      have hend : Ends (layout classes) s (fuel + 1) (.var d parent) := by
        by_cases hval : t (.var d parent) = .unknown
        · exact hs.ends_iff.mp (ends_of_below (by rw [hval]; rfl))
        · obtain ⟨lval', hl', hd', hne⟩ := ne_of_varValues hv hval
          rw [eq_of_erased hs hval] at hne
          by_cases hsame : t lval' = s lval'
          · exact hends _ hl lval' hl' d rfl hd' (hsame ▸ hne)
          · by_cases heq : s (.var d parent) = s lval'
            · have hint : (s (.var d parent)).isInteger := heq ▸ below_of_ne hs hsame
              exact ends_of_below ((layout classes).below_leaf _ hint)
            · exact hends _ hl lval' hl' d rfl hd' heq
      obtain ⟨t₂, hforget⟩ := forget_of_ends ((hs.trans ht).ends_iff.mpr hend)
      refine ⟨t₂, ?_, (forget_forgets hforget).erased⟩
      change removeIntSubValues classes (fuel + 1) true t₁ (.var d parent) = some t₂
      rw [removeIntSubValues_eq]
      exact hforget
    · exact ⟨t₁, rfl, .refl t₁⟩
  · exact ⟨t₁, rfl, .refl t₁⟩

end

/-! The claim about the constructor. -/

/-- The constructor has run: the state that the traversal filled, and the one it left. -/
def Built (classes : ClassId → Class) (m : Module) (s s' : SValue → SValue) : Prop :=
  ∃ b order fuel, traverseModule m = some b ∧ IsOrder b order ∧
    removeDifferent classes fuel b order = some s' ∧ b.moduleState = s

/-- A step from a location to an element, a field or a pointee. A field may belong to a base
of the record, or to one of that. -/
inductive Move where
  | elem (i : Nat)
  | field (bases : List Nat) (d : Decl)
  | pointee

def Move.entersBase : Move → Bool
  | .field bases _ => bases != []
  | _ => false

def baseClass (classes : ClassId → Class) : ClassId → List Nat → Option ClassId
  | cls, [] => some cls
  | cls, i :: is => (classes cls).bases[i]?.bind (baseClass classes · is)

def move (classes : ClassId → Class) (s : SValue → SValue) (l : SValue) (mv : Move) :
    Option SValue :=
  match mv, s l with
  | .elem i, .array id type size _ => if i < size then some (.array id type size i) else none
  | .field bases d, .record id cls =>
    (baseClass classes cls bases).bind fun base =>
      if d ∈ (classes base).fields then some (.var d (.record (id ++ bases.map .base) base))
      else none
  | .pointee, .object id type => some (.object id type)
  | .pointee, .var d parent => some (.var d parent)
  | _, _ => none

def follow (classes : ClassId → Class) (s : SValue → SValue) : SValue → List Move → Option SValue
  | l, [] => some l
  | l, mv :: moves => (move classes s l mv).bind (follow classes s · moves)

theorem follow_congr {s : SValue → SValue} {l l' : SValue} (h : s l = s l') {moves : List Move}
    (hmoves : moves ≠ []) : follow classes s l moves = follow classes s l' moves := by
  cases moves with
  | nil => contradiction
  | cons mv moves =>
    unfold follow move
    rw [h]

theorem move_mem_below {s : SValue → SValue} {l x : SValue} {mv : Move}
    (h : move classes s l mv = some x) (hbase : mv.entersBase = false) :
    x ∈ below classes (s l) := by
  unfold move at h
  split at h
  · rename_i i id type size offset hv
    split at h
    · cases h
      rw [hv]
      exact List.mem_map.mpr ⟨i, List.mem_range.mpr ‹_›, rfl⟩
    · contradiction
  · rename_i bases d id cls hv
    have hnil : bases = [] := by simpa [Move.entersBase] using hbase
    subst hnil
    simp only [baseClass, Option.bind_some] at h
    split at h
    · cases h
      rw [hv, List.map_nil, List.append_nil]
      exact List.mem_map.mpr ⟨d, ‹_›, rfl⟩
    · contradiction
  · rename_i hv
    cases h
    rw [hv]
    exact List.mem_cons_self
  · rename_i hv
    cases h
    rw [hv]
    exact List.mem_cons_self
  · contradiction

theorem follow_reach {s : SValue → SValue} {l x : SValue} {moves : List Move}
    (h : follow classes s l moves = some x) (hbase : ∀ mv ∈ moves, mv.entersBase = false) :
    Reach (layout classes) s l x := by
  induction moves generalizing l with
  | nil =>
    cases h
    exact .refl _
  | cons mv moves ih =>
    obtain ⟨l₁, hmove, hnext⟩ := Option.bind_eq_some_iff.mp h
    have hstep := move_mem_below hmove (hbase mv List.mem_cons_self)
    exact .step hstep (ih hnext fun mv hmv => hbase mv (List.mem_cons_of_mem _ hmv))

section
variable (m : Module)

/-- A modular interface that a member is, or that is an element of a member. -/
def IsElement (ctx : List Decl) (path : Path) : Prop :=
  (∃ cls bases fields, Inside m ctx path (.record .modularInterface cls bases fields)) ∧
    ∃ before i, ∃ indices : List Nat, path = before ++ .field i :: indices.map Step.elem

/-- The same member variable of two elements that share the context. -/
def Counterparts (ctx : List Decl) (lval lval' : SValue) : Prop :=
  ∃ elem elem' path d, IsElement m ctx elem ∧ IsElement m ctx elem' ∧
    MemberVar m ctx (elem ++ path) d lval ∧ MemberVar m ctx (elem' ++ path) d lval'

/-- An integer below a member variable is below its counterpart in every element. -/
def OnlyShared (classes : ClassId → Class) (s s' : SValue → SValue) : Prop :=
  ∀ ctx lval lval', Counterparts m ctx lval lval' → ∀ moves x n,
    follow classes s lval moves = some x → s' x = .integer n →
    ∃ x', follow classes s lval' moves = some x' ∧ s x' = .integer n

/-- What no member variable of a modular interface leads to keeps its value. -/
def OthersKept (classes : ClassId → Class) (s s' : SValue → SValue) : Prop :=
  ∀ x, (∀ ctx path d lval, ctx ≠ [] → MemberVar m ctx path d lval →
    ¬Reach (layout classes) s lval x) → s' x = s x

/-- A member variable that differs in its context leads to the location. -/
def UnderDiffering (classes : ClassId → Class) (s : SValue → SValue) (x : SValue) : Prop :=
  ∃ ctx d path path' lval lval', ctx ≠ [] ∧ MemberVar m ctx path d lval ∧
    MemberVar m ctx path' d lval' ∧ s lval ≠ s lval' ∧ Reach (layout classes) s lval x

/-- Integers in the bases of records, and of elements that have no context, are shared or below
a differing member variable. -/
def BasesShared (classes : ClassId → Class) (s : SValue → SValue) : Prop :=
  ∀ ctx lval lval', Counterparts m ctx lval lval' → ∀ moves x n,
    ctx = [] ∨ moves.any Move.entersBase →
    follow classes s lval moves = some x → s x = .integer n →
    (∃ x', follow classes s lval' moves = some x' ∧ s x' = .integer n) ∨
      UnderDiffering m classes s x

end

section
variable {m : Module} {b : Builder} {s s' : SValue → SValue} {ctx : List Decl}

theorem MemberVar.decl? {path : Path} {d : Decl} {lval : SValue}
    (h : MemberVar m ctx path d lval) : lval.decl? = some d := by
  obtain ⟨_, _, _, _, _, _, _, _, _, rfl⟩ := h
  rfl

theorem mem_mifArrayVarsOf {lval : SValue} :
    lval ∈ mifArrayVarsOf b ctx ↔ (ctx, lval) ∈ b.mifArrayVars := by
  simp [mifArrayVarsOf]

/-- What the constructor does to the state it has filled. -/
structure Settled (classes : ClassId → Class) (m : Module) (s s' : SValue → SValue) : Prop where
  erased : Erased (layout classes) s s'
  kept : OthersKept m classes s s'
  differing : ∀ x, UnderDiffering m classes s x → (s' x).isInteger = false

theorem Built.settled (h : Built classes m s s') : Settled classes m s s' := by
  obtain ⟨b, order, fuel, hm, ho, hr, rfl⟩ := h
  have hleaves := foldlM_leaves (.refl b.moduleState) hr
  refine ⟨hleaves.erased, fun x hx => ?_, ?_⟩
  · apply hleaves.kept
    intro ctx hctx lval hl
    obtain ⟨hne, path, d, hvar⟩ := memberVar_of_mem hm (mem_mifArrayVarsOf.mp hl)
    exact hx ctx path d lval hne hvar
  · rintro x ⟨ctx, d, path, path', lval, lval', hctx, hvar, hvar', hne, hx⟩
    have hl := hvar.mem hm hctx
    exact hleaves.differing ctx ((ho.2 ctx).mpr ⟨lval, hl⟩) lval (mem_mifArrayVarsOf.mpr hl)
      lval' (mem_mifArrayVarsOf.mpr (hvar'.mem hm hctx)) d hvar.decl? hvar'.decl? hne x hx

theorem Settled.onlyShared (h : Settled classes m s s') (hbases : BasesShared m classes s) :
    OnlyShared m classes s s' := by
  intro ctx lval lval' hc moves x n hx hn
  have hsx : s x = .integer n := (h.erased.isLeaf (by rw [hn]; rfl)).trans hn
  have hlost : ¬UnderDiffering m classes s x := by
    intro hd
    have := h.differing x hd
    rw [hn] at this
    contradiction
  by_cases hpath : ctx = [] ∨ moves.any Move.entersBase
  · exact (hbases ctx lval lval' hc moves x n hpath hx hsx).resolve_right hlost
  · rw [not_or] at hpath
    by_cases heq : s lval = s lval'
    · cases moves with
      | nil =>
        cases hx
        exact ⟨lval', rfl, heq ▸ hsx⟩
      | cons mv moves => exact ⟨x, follow_congr heq (List.cons_ne_nil _ _) ▸ hx, hsx⟩
    · have hreach := follow_reach hx (by simpa using hpath.2)
      obtain ⟨elem, elem', path, d, _, _, hvar, hvar'⟩ := hc
      exact (hlost ⟨ctx, d, _, _, lval, lval', hpath.1, hvar, hvar', heq, hreach⟩).elim

theorem UnderDiffering.of_differing {lval x : SValue} (hm : traverseModule m = some b)
    (h : Differing classes s (mifArrayVarsOf b ctx) lval x) : UnderDiffering m classes s x := by
  obtain ⟨hl, ⟨lval', hl', d, hd, hd', hne⟩, hreach⟩ := h
  obtain ⟨hctx, path, d₁, hvar⟩ := memberVar_of_mem hm (mem_mifArrayVarsOf.mp hl)
  obtain ⟨_, path', d₂, hvar'⟩ := memberVar_of_mem hm (mem_mifArrayVarsOf.mp hl')
  cases Option.some.inj (hd.symm.trans hvar.decl?)
  cases Option.some.inj (hd'.symm.trans hvar'.decl?)
  exact ⟨ctx, d, path, path', lval, lval', hctx, hvar, hvar', hne, hreach⟩

theorem foldlM_removeVars_runs {order order' : List (List Decl)} {fuel : Nat}
    (h : removeDifferent classes fuel b order = some s') (hsub : order' ⊆ order)
    {t : SValue → SValue} (ht : Erased (layout classes) b.moduleState t) :
    ∃ t', order'.foldlM
      (fun s ctx => removeVars classes (fuel + 2) s (mifArrayVarsOf b ctx)) t = some t' := by
  apply (foldlM_runs order' _ ht).imp fun _ h => h.1
  intro ctx hctx t ht
  apply removeVars_runs ht
  intro lval hl lval' hl' d hd hd' hne
  obtain ⟨t₁, t₂, ht₁, hstep⟩ := foldlM_each order
    (fun _ _ _ _ _ hstep => (removeVars_forgets hstep).erased) (.refl b.moduleState) h ctx
    (hsub hctx)
  exact removeVars_ends ht₁ hstep hl hl' hd hd' hne

/-- An integer that lies below no differing variable survives if the context it is itself a
variable of, if any, comes first. -/
theorem Built.survives {x : SValue} (h : Built classes m s s') (hx : (s x).isInteger)
    (hdiff : ¬UnderDiffering m classes s x) : ∃ s₁, Built classes m s s₁ ∧ s₁ x = s x := by
  obtain ⟨b, order, fuel, hm, ho, hrun, rfl⟩ := h
  have hnot : ∀ ctx lval, ¬Differing classes b.moduleState (mifArrayVarsOf b ctx) lval x :=
    fun ctx lval hd => hdiff (.of_differing hm hd)
  have hrefl : Erased (layout classes) b.moduleState b.moduleState := .refl _
  by_cases hmem : ∃ ctx ∈ order, x ∈ mifArrayVarsOf b ctx
  · obtain ⟨first, hfirst, hxfirst⟩ := hmem
    have hsub : first :: order.erase first ⊆ order := by
      intro ctx hctx
      rcases List.mem_cons.mp hctx with rfl | hctx
      · exact hfirst
      · exact List.mem_of_mem_erase hctx
    obtain ⟨s₁, hs₁⟩ := foldlM_removeVars_runs hrun hsub hrefl
    have horder : IsOrder b (first :: order.erase first) := by
      refine ⟨List.nodup_cons.mpr ⟨ho.1.not_mem_erase, ho.1.erase first⟩, fun ctx => ?_⟩
      rw [← ho.2 ctx]
      refine ⟨fun hctx => hsub hctx, fun hctx => ?_⟩
      by_cases hsame : ctx = first
      · exact hsame ▸ List.mem_cons_self
      · exact List.mem_cons_of_mem _ ((List.mem_erase_of_ne hsame).mpr hctx)
    refine ⟨s₁, ⟨b, _, fuel + 2, hm, horder, hs₁, rfl⟩, ?_⟩
    rw [List.foldlM_cons] at hs₁
    obtain ⟨t, ht, hrest⟩ := Option.bind_eq_some_iff.mp hs₁
    have hkept : t x = b.moduleState x :=
      removeVars_kept hrefl ht hx (hnot first) fun _ _ => rfl
    rw [← hkept] at hx ⊢
    apply foldlM_kept (removeVars_forgets ht).erased hrest hx (fun ctx _ => hnot ctx)
    intro ctx hctx hxctx
    obtain ⟨_, _, _, hvar⟩ := memberVar_of_mem hm (mem_mifArrayVarsOf.mp hxctx)
    obtain ⟨_, _, _, hvar'⟩ := memberVar_of_mem hm (mem_mifArrayVarsOf.mp hxfirst)
    cases hvar.ctx_unique hvar'
    exact ho.1.not_mem_erase hctx
  · obtain ⟨s₁, hs₁⟩ := foldlM_removeVars_runs hrun (List.Subset.refl order) hrefl
    refine ⟨s₁, ⟨b, order, fuel + 2, hm, ho, hs₁, rfl⟩, ?_⟩
    exact foldlM_kept hrefl hs₁ hx (fun ctx _ => hnot ctx) fun ctx hctx hxctx =>
      hmem ⟨ctx, hctx, hxctx⟩

/-- Exactly without integers in bases that differ, nothing of one element only survives in any
order of the contexts. -/
theorem onlyShared_iff_basesShared (h : Built classes m s s') :
    (∀ s₁, Built classes m s s₁ → OnlyShared m classes s s₁ ∧ OthersKept m classes s s₁) ↔
      BasesShared m classes s := by
  apply Iff.intro
  · intro hall ctx lval lval' hc moves x n _ hfollow hn
    by_cases hdiff : UnderDiffering m classes s x
    · exact .inr hdiff
    · obtain ⟨s₁, hbuilt, hkept⟩ := h.survives (by rw [hn]; rfl) hdiff
      exact .inl ((hall s₁ hbuilt).1 ctx lval lval' hc moves x n hfollow (hkept.trans hn))
  · exact fun hbases s₁ hbuilt => ⟨hbuilt.settled.onlyShared hbases, hbuilt.settled.kept⟩

end

/-! Two elements with pointers to records of the module, whose base has a field. -/
namespace PointedBase

def fieldX : Decl := ⟨0, .int 8 true, false⟩
def rec0 : Decl := ⟨1, .record 1, false⟩
def rec1 : Decl := ⟨2, .record 1, false⟩
def pointer : Decl := ⟨3, .pointer (.record 1), false⟩
def elems : Decl := ⟨4, .scVector (.modularInterface 3), false⟩

def classesOf : ClassId → Class
  | 0 => ⟨[rec0, rec1, elems], []⟩
  | 1 => ⟨[], [2]⟩
  | 2 => ⟨[fieldX], []⟩
  | _ => ⟨[pointer], []⟩

def recordOf (n : Int) : Obj :=
  .record .plain 1 [.record .plain 2 [] [(fieldX, .value (.of 8 false n))]] []

def elemAt (i : Nat) : Obj :=
  .record .modularInterface 3 [] [(pointer, .pointer ⟨[.field i], 1, false, false⟩)]

def design : Module :=
  ⟨0, [], [(rec0, recordOf 1), (rec1, recordOf 2),
    (elems, .array (.modularInterface 3) [elemAt 0, elemAt 1])]⟩

def builder : Builder := (traverseModule design).getD .empty

def left : SValue → SValue :=
  (removeDifferent classesOf 4 builder [[elems]]).getD fun _ => .unknown

def pointerOf (i : Nat) : SValue := .var pointer (.record [.field 2, .elem i] 3)

def xOf (i : Nat) : SValue := .var fieldX (.record [.field i, .base 0] 2)

theorem inside_elem (i : Nat) (hi : i < 2) :
    Inside design [elems] [.field 2, .elem i] (elemAt i) := by
  have hfield := Inside.field (m := design) (i := 2) (d := elems) .module nofun rfl
  apply hfield.elem
  match i with
  | 0 => rfl
  | 1 => rfl

theorem isElement_elem (i : Nat) (hi : i < 2) : IsElement design [elems] [.field 2, .elem i] :=
  ⟨⟨3, [], _, inside_elem i hi⟩, [], 2, [i], rfl⟩

theorem memberVar_pointer (i : Nat) (hi : i < 2) :
    MemberVar design [elems] [.field 2, .elem i] pointer (pointerOf i) :=
  ⟨.modularInterface, 3, [], _, _, inside_elem i hi, nofun, List.mem_cons_self, rfl, rfl⟩

theorem counterparts_pointer : Counterparts design [elems] (pointerOf 0) (pointerOf 1) :=
  ⟨[.field 2, .elem 0], [.field 2, .elem 1], [], pointer, isElement_elem 0 (by decide),
    isElement_elem 1 (by decide), memberVar_pointer 0 (by decide),
    memberVar_pointer 1 (by decide)⟩

theorem mifArrayVars_builder :
    builder.mifArrayVars = [([elems], pointerOf 0), ([elems], pointerOf 1)] := by
  decide

theorem built : Built classesOf design builder.moduleState left := by
  refine ⟨builder, [[elems]], 4, rfl, ⟨List.nodup_singleton _, fun ctx => ?_⟩, ?_, rfl⟩
  · rw [mifArrayVars_builder]
    simp only [List.mem_cons, Prod.mk.injEq, List.not_mem_nil, or_false]
    exact ⟨fun h => ⟨pointerOf 0, .inl ⟨h, rfl⟩⟩, fun h => h.elim fun _ hp => hp.elim (·.1) (·.1)⟩
  · obtain ⟨s, hs⟩ := Option.isSome_iff_exists.mp
      (by decide : (removeDifferent classesOf 4 builder [[elems]]).isSome)
    rw [left, hs]
    rfl

theorem onlyShared_iff_basesShared_pointedBase :
    (∀ s₁, Built classesOf design builder.moduleState s₁ →
      OnlyShared design classesOf builder.moduleState s₁ ∧
        OthersKept design classesOf builder.moduleState s₁) ↔
      BasesShared design classesOf builder.moduleState :=
  onlyShared_iff_basesShared built

theorem constant_survives : ¬∀ classes m s s', Built classes m s s' →
    OnlyShared m classes s s' ∧ OthersKept m classes s s' := by
  intro h
  have hshared := (h classesOf design builder.moduleState left built).1
  obtain ⟨x, hx, hn⟩ := hshared [elems] (pointerOf 0) (pointerOf 1) counterparts_pointer
    [.pointee, .field [0] fieldX] (xOf 0) (.of 8 false 1) (by decide) (by decide)
  cases hx
  have hother : builder.moduleState (xOf 1) ≠ .integer (.of 8 false 1) := by decide
  exact hother hn

end PointedBase

end SystemcCompiler.ProcBuilder
