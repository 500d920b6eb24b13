import SystemcCompiler.Scope.PrintOrder
import SystemcCompiler.Scope.StructuredCode

/-! Scope graphs that stand for structured code, and the text printed for them. -/
namespace SystemcCompiler.ScopeGraph
open SilentNodes Code

/-- A scope entered from some scopes only. -/
structure Own (g : Graph) (before : List ScopeId) (x : ScopeId) : Prop where
  alive : x ≠ deadScope
  entered : ∃ u, Edge g u x
  only : ∀ u, Edge g u x → u ∈ before

/-- Levels of a scope of code at a level: empty scopes may have been created deeper. -/
structure AtLevel (g : Graph) (L : Nat) (x : ScopeId) : Prop where
  le : L ≤ (g x).level
  eq : ¬Silent g x → (g x).level = L

/-- The string stored to make a scope not empty. -/
def nullItem : Item := ⟨.other, ""⟩

section Shapes
variable (g : Graph)

/-- The scope `x` of the code after a statement, with the scopes `F` of that code; `k` if there
is none or it is not reached. -/
def Follows (reached : Bool) (rest : Code) (L : Nat) (before : List ScopeId)
    (x k : ScopeId) (F : List ScopeId) (shape : ScopeId → List ScopeId → Prop) : Prop :=
  (rest = .done ∨ reached = false) ∧ x = k ∧ F = [] ∨
    rest ≠ .done ∧ reached = true ∧ Own g before x ∧ AtLevel g L x ∧
      ∃ F', F = x :: F' ∧ shape x F'

/-- The scope `b` of a branch of `s`, with all scopes `F` of the branch. -/
def BranchScope (dead : Bool) (L : Nat) (s b : ScopeId) (F : List ScopeId)
    (shape : List ScopeId → Prop) : Prop :=
  if dead then b = deadScope ∧ F = []
  else Own g [s] b ∧ (g b).level = L ∧ ∃ F', F = b :: F' ∧ shape F'

/-- The code is in a scope of its own, after `s`, or goes on in `s`. -/
def OwnScope (L : Nat) (s : ScopeId) (items : List Item) (F : List ScopeId)
    (shape : ScopeId → List Item → List ScopeId → Prop) : Prop :=
  shape s items F ∨ items = [] ∧ ∃ c F', F = c :: F' ∧ (g s).succs = [c] ∧ Own g [s] c ∧
    (g c).level = L ∧ shape c (g c).items F'

/-- The scopes `F` from the end `t` of an iteration to the exit `x` of a loop: the one of the
transition block and the one of the condition visited again; none if no iteration ends. -/
def Transition (loops : Bool) (L : Nat) (before : List ScopeId) (t x : ScopeId)
    (F : List ScopeId) : Prop :=
  if loops then ∃ c, F = [t, c] ∧ Own g before t ∧ Silent g t ∧ L ≤ (g t).level ∧
    (g t).succs = [c] ∧ Own g [t] c ∧ (g c).items = [nullItem] ∧ (g c).level = L ∧
    (g c).succs = [x]
  else t = x ∧ F = []

/-- The scope of the condition of a `do` loop, if an iteration ends. -/
def DoCondition (loops : Bool) (L : Nat) (before : List ScopeId) (t x : ScopeId)
    (F : List ScopeId) : Prop :=
  if loops then F = [t] ∧ Own g before t ∧ (g t).items = [nullItem] ∧ (g t).level = L ∧
    (g t).succs = [x]
  else t = x ∧ F = []

variable (E : Env)

/-- From its `items` on, the scope `s` with the scopes `F` stands for code of a level that ends
in `k` and jumps to the scopes `jumps` of `break` and `continue`. -/
def Shape : Code → (L : Nat) → (s : ScopeId) → (items : List Item) → (k : ScopeId) →
    (jumps : Option (ScopeId × ScopeId)) → (F : List ScopeId) → Prop
  | done, _, s, items, k, _, F => items = [] ∧ (g s).succs = [k] ∧ F = []
  | stmt ptr rest, L, s, items, k, jumps, F =>
    ∃ items', items = stmtItems E ptr ++ items' ∧ Shape rest L s items' k jumps F
  | ifStmt ptr thenBody elseBody rest, L, s, items, k, jumps, F =>
    ∃ thenScope elseScope x Ft Fe Fr, items = [⟨.ifStmt, E.termStr ptr⟩] ∧
      (g s).succs = [thenScope, elseScope] ∧ F = Ft ++ Fe ++ Fr ∧
      BranchScope g (E.termCond ptr == some false) (L + 1) s thenScope Ft
        (fun F => Shape thenBody (L + 1) thenScope (g thenScope).items x jumps F) ∧
      BranchScope g (E.termCond ptr == some true) (L + 1) s elseScope Fe
        (fun F => Shape elseBody (L + 1) elseScope (g elseScope).items x jumps F) ∧
      Follows g (joins E ptr thenBody elseBody) rest L (s :: Ft ++ Fe) x k Fr
        (fun x F => Shape rest L x (g x).items k jumps F)
  | loop ptr body rest, L, s, items, k, jumps, F =>
    OwnScope g L s items F fun c items F =>
      if E.termCond ptr = some false then
        ∃ x, items = initItems E ptr ++ [nullItem] ∧ (g c).succs = [x] ∧
          Follows g true rest L [c] x k F (fun x F => Shape rest L x (g x).items k jumps F)
      else ∃ e b t x Fb Ft Fr,
        items = [⟨.loop (E.forExtrCntr ptr), E.termStr ptr⟩, nullItem] ∧ (g c).succs = [e] ∧
          Own g [c] e ∧ Silent g e ∧ (g e).level = L + 1 ∧ (g e).succs = [b] ∧
          F = e :: Fb ++ Ft ++ Fr ∧
          Follows g true body (L + 1) [e] b t Fb
            (fun b F => Shape body (L + 1) b (g b).items t (some (x, t)) F) ∧
          Transition g (loops E body) L (e :: Fb) t x Ft ∧
          Follows g true rest L (c :: e :: Fb ++ Ft) x k Fr
            (fun x F => Shape rest L x (g x).items k jumps F)
  | doWhile ptr body rest, L, s, items, k, jumps, F =>
    OwnScope g L s items F fun c items F =>
      ∃ b t x Fb Ft Fr, items = [⟨.doStmt, E.termStr ptr⟩] ∧ (g c).succs = [b] ∧
        Own g [c] b ∧ (g b).level = L + 1 ∧ F = b :: Fb ++ Ft ++ Fr ∧
        Shape body (L + 1) b (g b).items t (some (x, t)) Fb ∧
        DoCondition g (loops E body) L (b :: Fb) t x Ft ∧
        Follows g true rest L (c :: b :: Fb ++ Ft) x k Fr
          (fun x F => Shape rest L x (g x).items k jumps F)
  | breakStmt ptr _, _, s, items, _, jumps, F =>
    items = [⟨.other, E.termStr ptr⟩] ∧ F = [] ∧ ∃ b c, jumps = some (b, c) ∧ (g s).succs = [b]
  | continueStmt ptr _, _, s, items, _, jumps, F =>
    items = [⟨.other, E.termStr ptr⟩] ∧ F = [] ∧ ∃ b c, jumps = some (b, c) ∧ (g s).succs = [c]

end Shapes

variable {g : Graph} {E : Env} {o : Options} {code rest body : Code} {L n level : Nat}
  {s b k t x : ScopeId} {items : List Item} {jumps : Option (ScopeId × ScopeId)}
  {F F₁ F₂ : List ScopeId} {B B₁ B₂ T T₁ T₂ : Set ScopeId}

/-- Scopes entered from `B` and left to `T` only. -/
structure Part (g : Graph) (L : Nat) (B T : Set ScopeId) (F : List ScopeId) : Prop where
  level : ∀ w ∈ F, L ≤ (g w).level
  entered : ∀ w ∈ F, ∃ u, Edge g u w
  only : ∀ w ∈ F, ∀ u, Edge g u w → u ∈ B ∨ u ∈ F
  exits : ∀ u ∈ F, ∀ w, Edge g u w → w ∈ F ∨ w ∈ T

namespace Part

theorem nil : Part g L B T [] where
  level _ hw := absurd hw List.not_mem_nil
  entered _ hw := absurd hw List.not_mem_nil
  only _ hw := absurd hw List.not_mem_nil
  exits _ hw := absurd hw List.not_mem_nil

theorem append (h₁ : Part g L B₁ T₁ F₁) (h₂ : Part g L B₂ T₂ F₂)
    (hB₁ : ∀ u ∈ B₁, u ∈ B ∨ u ∈ F₁ ++ F₂) (hB₂ : ∀ u ∈ B₂, u ∈ B ∨ u ∈ F₁ ++ F₂)
    (hT₁ : ∀ w ∈ T₁, w ∈ F₁ ++ F₂ ∨ w ∈ T) (hT₂ : ∀ w ∈ T₂, w ∈ F₁ ++ F₂ ∨ w ∈ T) :
    Part g L B T (F₁ ++ F₂) where
  level w hw := (List.mem_append.mp hw).elim (h₁.level w) (h₂.level w)
  entered w hw := (List.mem_append.mp hw).elim (h₁.entered w) (h₂.entered w)
  only w hw u hu := by
    rcases List.mem_append.mp hw with hw | hw
    · exact (h₁.only w hw u hu).elim (hB₁ u) fun h => .inr (List.mem_append_left _ h)
    · exact (h₂.only w hw u hu).elim (hB₂ u) fun h => .inr (List.mem_append_right _ h)
  exits u hu w hw := by
    rcases List.mem_append.mp hu with hu | hu
    · exact (h₁.exits u hu w hw).elim (fun h => .inl (List.mem_append_left _ h)) (hT₁ w)
    · exact (h₂.exits u hu w hw).elim (fun h => .inl (List.mem_append_right _ h)) (hT₂ w)

theorem mono (h : Part g L B₁ T₁ F) {L' : Nat} (hL : L' ≤ L) (hB : ∀ u ∈ B₁, u ∈ B ∨ u ∈ F)
    (hT : ∀ w ∈ T₁, w ∈ F ∨ w ∈ T) : Part g L' B T F where
  level w hw := hL.trans (h.level w hw)
  entered := h.entered
  only w hw u hu := (h.only w hw u hu).elim (hB u) .inr
  exits u hu w hw := (h.exits u hu w hw).elim .inl (hT w)

theorem singleton {before : List ScopeId} (hown : Own g before x) (hL : L ≤ (g x).level)
    (hexits : ∀ w, Edge g x w → w ∈ T) : Part g L {u | u ∈ before} T [x] where
  level w hw := by
    obtain rfl := List.mem_singleton.mp hw
    exact hL
  entered w hw := by
    obtain rfl := List.mem_singleton.mp hw
    exact hown.entered
  only w hw u hu := by
    obtain rfl := List.mem_singleton.mp hw
    exact .inl (hown.only u hu)
  exits u hu w hw := by
    obtain rfl := List.mem_singleton.mp hu
    exact .inr (hexits w hw)

end Part

/-- Where code leads: to what follows it, or out of its loop. -/
def targets (k : ScopeId) (jumps : Option (ScopeId × ScopeId)) : Set ScopeId :=
  {w | w = k ∨ ∃ b c, jumps = some (b, c) ∧ (w = b ∨ w = c)}

theorem targets_step (hx : x ∈ F ∨ x = k) :
    ∀ w ∈ targets x jumps, w ∈ F ∨ w ∈ targets k jumps := by
  rintro w (rfl | hw)
  · exact hx.imp_right .inl
  · exact .inr (.inr hw)

/-- Scopes of code, entered through `s`. -/
structure Region (g : Graph) (L : Nat) (s k : ScopeId) (jumps : Option (ScopeId × ScopeId))
    (F : List ScopeId) : Prop where
  part : Part g L {s} (targets k jumps) F
  first : ∀ w, Edge g s w → w ∈ F ∨ w ∈ targets k jumps

theorem Region.cons {before : List ScopeId} (h : Region g L x k jumps F)
    (hown : Own g before x) (hL : L ≤ (g x).level) :
    Part g L {u | u ∈ before} (targets k jumps) (x :: F) := by
  have hx := Part.singleton hown hL (T := {w | w ∈ F} ∪ targets k jumps) h.first
  apply hx.append h.part
  · exact fun u hu => .inl hu
  · intro u hu
    obtain rfl := hu
    exact .inr List.mem_cons_self
  · rintro w (hw | hw)
    · exact .inl (List.mem_cons_of_mem _ hw)
    · exact .inr hw
  · exact fun w hw => .inr hw

theorem Follows.part {reached : Bool} {before : List ScopeId}
    {shape : ScopeId → List ScopeId → Prop} (h : Follows g reached rest L before x k F shape)
    (hshape : ∀ x F, shape x F → Region g L x k jumps F) :
    Part g L {u | u ∈ before} (targets k jumps) F ∧ (x ∈ F ∨ x = k) := by
  rcases h with ⟨-, hx, rfl⟩ | ⟨-, -, hown, hL, F', rfl, h⟩
  · exact ⟨.nil, .inr hx⟩
  · exact ⟨(hshape x F' h).cons hown hL.le, .inl List.mem_cons_self⟩

theorem BranchScope.part {dead : Bool} {shape : List ScopeId → Prop}
    (h : BranchScope g dead L s b F shape) (hshape : ∀ F, shape F → Region g L b k jumps F) :
    Part g L {s} (targets k jumps) F ∧ (b = deadScope ∨ b ∈ F) := by
  unfold BranchScope at h
  split at h
  · obtain ⟨hb, rfl⟩ := h
    exact ⟨.nil, .inl hb⟩
  · obtain ⟨hown, hL, F', rfl, h⟩ := h
    refine ⟨((hshape F' h).cons hown hL.ge).mono (Nat.le_refl L) ?_ fun w hw => .inr hw,
      .inr List.mem_cons_self⟩
    exact fun u hu => .inl (List.mem_singleton.mp hu)

theorem edge_of_succs {u w : ScopeId} (h : Edge g u w) {succs : List ScopeId}
    (hsuccs : (g u).succs = succs) : w ∈ succs :=
  hsuccs ▸ h.2

theorem Transition.part {loops : Bool} {before : List ScopeId}
    (h : Transition g loops L before t x F) :
    Part g L {u | u ∈ before} {x} F ∧ (t ∈ F ∨ t = x) := by
  unfold Transition at h
  split at h
  · obtain ⟨c, rfl, hown, -, hL, hsuccs, hown', -, hL', hsuccs'⟩ := h
    have htransition := Part.singleton hown hL (T := {c}) fun w hw =>
      List.mem_singleton.mp (edge_of_succs hw hsuccs)
    have hcond := Part.singleton hown' hL'.ge (T := {x}) fun w hw =>
      List.mem_singleton.mp (edge_of_succs hw hsuccs')
    refine ⟨htransition.append hcond (fun u hu => .inl hu) ?_ ?_ fun w hw => .inr hw, .inl ?_⟩
    · exact fun u hu => .inr (List.mem_append_left _ hu)
    · intro w hw
      obtain rfl := hw
      exact .inl (List.mem_append_right _ (List.mem_singleton_self _))
    · exact List.mem_cons_self
  · obtain ⟨rfl, rfl⟩ := h
    exact ⟨.nil, .inr rfl⟩

theorem DoCondition.part {loops : Bool} {before : List ScopeId}
    (h : DoCondition g loops L before t x F) :
    Part g L {u | u ∈ before} {x} F ∧ (t ∈ F ∨ t = x) := by
  unfold DoCondition at h
  split at h
  · obtain ⟨rfl, hown, -, hL, hsuccs⟩ := h
    refine ⟨Part.singleton hown hL.ge fun w hw => ?_, .inl (List.mem_singleton_self _)⟩
    exact List.mem_singleton.mp (edge_of_succs hw hsuccs)
  · obtain ⟨rfl, rfl⟩ := h
    exact ⟨.nil, .inr rfl⟩

theorem OwnScope.region {shape : ScopeId → List Item → List ScopeId → Prop}
    (h : OwnScope g L s items F shape)
    (hshape : ∀ c items F, shape c items F → Region g L c k jumps F) :
    Region g L s k jumps F := by
  rcases h with h | ⟨-, c, F', rfl, hsuccs, hown, hL, h⟩
  · exact hshape s items F h
  · have hpart := (hshape c _ F' h).cons hown hL.ge
    constructor
    · exact hpart.mono (Nat.le_refl L) (fun u hu => .inl (List.mem_singleton.mp hu))
        fun w hw => .inr hw
    · intro w hw
      obtain rfl := List.mem_singleton.mp (edge_of_succs hw hsuccs)
      exact .inl List.mem_cons_self

/-- The two branches of an `if` in `s`. -/
theorem Part.branches (ht : Part g (L + 1) {s} T F₁) (he : Part g (L + 1) {s} T F₂) :
    Part g L {s} T (F₁ ++ F₂) :=
  (ht.append he (fun _ hu => .inl hu) (fun _ hu => .inl hu) (fun _ hw => .inr hw)
    fun _ hw => .inr hw).mono (Nat.le_succ L) (fun _ hu => .inl hu) fun _ hw => .inr hw

theorem mem_loop_targets {w : ScopeId} (h : w ∈ targets t (some (x, t))) : w = t ∨ w = x := by
  rcases h with rfl | ⟨_, _, hj, hw⟩
  · exact .inl rfl
  · obtain ⟨rfl, rfl⟩ := Prod.mk.inj (Option.some.inj hj)
    exact hw.symm

/-- A loop without the code after it. -/
theorem Part.iteration (hb : Part g L {s} (targets t (some (x, t))) F₁)
    (ht : Part g L {u | u ∈ F₁} {x} F₂) (hst : t ∈ F₂ ∨ t = x) :
    Part g L {s} {x} (F₁ ++ F₂) := by
  apply hb.append ht (fun u hu => .inl hu) (fun u hu => .inr (List.mem_append_left _ hu)) ?_
    fun w hw => .inr hw
  intro w hw
  rcases mem_loop_targets hw with rfl | rfl
  · exact hst.imp_left (List.mem_append_right _)
  · exact .inr rfl

/-- A loop: its body, the way to the exit `x` and the code after it. -/
theorem Region.loop {c : ScopeId} {Fb Ft Fr : List ScopeId}
    (hb : Part g L {c} (targets t (some (x, t))) Fb) (ht : Part g L {u | u ∈ Fb} {x} Ft)
    (hr : Part g L {u | u ∈ c :: Fb ++ Ft} (targets k jumps) Fr) (hst : t ∈ Ft ∨ t = x)
    (hsr : x ∈ Fr ∨ x = k) (hfirst : ∀ w, Edge g c w → w ∈ Fb) :
    Region g L c k jumps (Fb ++ Ft ++ Fr) := by
  have hexit : x ∈ Fb ++ Ft ++ Fr ∨ x ∈ targets k jumps :=
    hsr.imp (List.mem_append_right _) .inl
  constructor
  · apply (hb.iteration ht hst).append hr (fun u hu => .inl hu) ?_ ?_ fun w hw => .inr hw
    · intro u hu
      exact (List.mem_cons.mp hu).imp_right (List.mem_append_left _)
    · intro w hw
      obtain rfl := hw
      exact hexit
  · exact fun w hw => .inl (List.mem_append_left _ (List.mem_append_left _ (hfirst w hw)))

theorem Shape.region (h : Shape g E code L s items k jumps F) : Region g L s k jumps F := by
  induction code generalizing L s items k jumps F with
  | done =>
    obtain ⟨-, hsuccs, rfl⟩ := h
    refine ⟨.nil, fun w hw => .inr (.inl ?_)⟩
    exact List.mem_singleton.mp (edge_of_succs hw hsuccs)
  | stmt ptr rest ih =>
    obtain ⟨items', -, h⟩ := h
    exact ih h
  | ifStmt ptr thenBody elseBody rest iht ihe ih =>
    obtain ⟨thenScope, elseScope, x, Ft, Fe, Fr, -, hsuccs, rfl, ht, he, hr⟩ := h
    obtain ⟨hpt, hst⟩ := ht.part fun F => iht
    obtain ⟨hpe, hse⟩ := he.part fun F => ihe
    obtain ⟨hpr, hsr⟩ := hr.part fun x F => ih
    have hjoin : ∀ w ∈ targets x jumps, w ∈ Ft ++ Fe ++ Fr ∨ w ∈ targets k jumps :=
      targets_step (hsr.imp_left (List.mem_append_right _))
    constructor
    · apply (hpt.branches hpe).append hpr (fun u hu => .inl hu) ?_ hjoin fun w hw => .inr hw
      intro u hu
      exact (List.mem_cons.mp hu).imp_right (List.mem_append_left _)
    · intro w hw
      have hmem := edge_of_succs hw hsuccs
      rw [List.mem_pair] at hmem
      rcases hmem with rfl | rfl
      · exact .inl (List.mem_append_left _ (List.mem_append_left _ (hst.resolve_left hw.1)))
      · exact .inl (List.mem_append_left _ (List.mem_append_right _ (hse.resolve_left hw.1)))
  | loop ptr body rest ihb ih =>
    apply h.region
    intro c items F h
    split at h
    · obtain ⟨x, -, hsuccs, hr⟩ := h
      obtain ⟨hpr, hsr⟩ := hr.part fun x F => ih
      constructor
      · exact hpr.mono (Nat.le_refl L) (fun u hu => .inl (List.mem_singleton.mp hu))
          fun w hw => .inr hw
      · intro w hw
        obtain rfl := List.mem_singleton.mp (edge_of_succs hw hsuccs)
        exact hsr.imp_right .inl
    · obtain ⟨e, b, t, x, Fb, Ft, Fr, -, hsuccs, hown, -, hlevel, hsuccse, rfl, hb, ht, hr⟩ := h
      obtain ⟨hpb, hsb⟩ := hb.part fun b F => ihb
      obtain ⟨hpt, hst⟩ := ht.part
      obtain ⟨hpr, hsr⟩ := hr.part fun x F => ih
      have hpe := Part.singleton hown hlevel.ge (T := {b}) fun w hw =>
        List.mem_singleton.mp (edge_of_succs hw hsuccse)
      have hbody : Part g L {c} (targets t (some (x, t))) (e :: Fb) := by
        apply (hpe.append hpb (fun u hu => .inl hu) ?_ ?_ fun w hw => .inr hw).mono
          (Nat.le_succ L) (fun u hu => .inl (List.mem_singleton.mp hu)) fun w hw => .inr hw
        · exact fun u hu => .inr (List.mem_append_left _ hu)
        · intro w hw
          obtain rfl := hw
          exact hsb.imp (List.mem_append_right _) .inl
      apply Region.loop hbody hpt hpr hst hsr
      intro w hw
      obtain rfl := List.mem_singleton.mp (edge_of_succs hw hsuccs)
      exact List.mem_cons_self
  | doWhile ptr body rest ihb ih =>
    apply h.region
    intro c items F h
    obtain ⟨b, t, x, Fb, Ft, Fr, -, hsuccs, hown, hlevel, rfl, hb, ht, hr⟩ := h
    obtain ⟨hpt, hst⟩ := ht.part
    obtain ⟨hpr, hsr⟩ := hr.part fun x F => ih
    have hbody : Part g L {c} (targets t (some (x, t))) (b :: Fb) :=
      ((ihb hb).cons hown hlevel.ge).mono (Nat.le_succ L)
        (fun u hu => .inl (List.mem_singleton.mp hu)) fun w hw => .inr hw
    apply Region.loop hbody hpt hpr hst hsr
    intro w hw
    obtain rfl := List.mem_singleton.mp (edge_of_succs hw hsuccs)
    exact List.mem_cons_self
  | breakStmt ptr rest _ =>
    obtain ⟨-, rfl, b, c, hj, hsuccs⟩ := h
    refine ⟨.nil, fun w hw => .inr (.inr ⟨b, c, hj, .inl ?_⟩)⟩
    exact List.mem_singleton.mp (edge_of_succs hw hsuccs)
  | continueStmt ptr rest _ =>
    obtain ⟨-, rfl, b, c, hj, hsuccs⟩ := h
    refine ⟨.nil, fun w hw => .inr (.inr ⟨b, c, hj, .inr ?_⟩)⟩
    exact List.mem_singleton.mp (edge_of_succs hw hsuccs)

/-- Nothing of a level, or a deeper one, comes next. -/
abbrev Low (g : Graph) (L : Nat) (t : ScopeId) : Prop :=
  Descends (Edge g) (Silent g) (fun t => (g t).level < L) t

variable {V D : Finset ScopeId} {base : Set ScopeId} {p q : Printed} {lines : Nat → List Line}
  {noExit : Bool}

/-- What is visited when the scopes `F` are printed after `base`. -/
abbrev span (g : Graph) (base : Set ScopeId) (F : List ScopeId) : Set ScopeId :=
  closure (Edge g) (Silent g) (base ∪ {w | w ∈ F})

/-- The scopes `F` are to be printed after `base` in a call that found `V` visited. -/
structure Fits (g : Graph) (L : Nat) (V : Finset ScopeId) (base : Set ScopeId) (k : ScopeId)
    (jumps : Option (ScopeId × ScopeId)) (F : List ScopeId) : Prop where
  old : PredClosed (Edge g) ↑V
  fresh : ∀ w ∈ F, w ∉ V ∧ w ∉ base
  nodup : F.Nodup
  exits : ∀ w ∈ targets k jumps, Low g L w
  others : OthersLower g V (span g base F) ∅ L

/-- From where the loop over scopes is, it gets to where `F` is visited and `lines` printed. -/
def Continues (g : Graph) (o : Options) (n L : Nat) (noExit : Bool) (level : Nat)
    (V : Finset ScopeId) (base : Set ScopeId) (F : List ScopeId) (lines : List Line)
    (q : Printed) : Prop :=
  ∃ D' p', At g n V D' p' ∧ reachable g D' = span g base F ∧ p'.os = q.os ++ lines ∧
    ∀ r, Ends g o L noExit level p' r → Ends g o L noExit level q r

/-- The same from the items of the scope `s`, provided that `B` was visited. -/
def PrintsFrom (g : Graph) (o : Options) (n : Nat) (B : Set ScopeId) (L : Nat) (s : ScopeId)
    (items : List Item) (k : ScopeId) (jumps : Option (ScopeId × ScopeId)) (F : List ScopeId)
    (lines : Nat → List Line) : Prop :=
  ∀ ⦃V D : Finset ScopeId⦄ ⦃p : Printed⦄ (level : Nat) (noExit : Bool),
    Fits g L V ↑D k jumps (s :: F) → At g n (insert s V) D p → B ⊆ reachable g D →
    items <:+ (g s).items →
    ∃ D' p', At g n V D' p' ∧ reachable g D' = span g ↑D (s :: F) ∧
      p'.os = p.os ++ lines level ∧
      ∀ r, Ends g o L noExit level p' r → EndsScope g o L noExit level s items p r

theorem not_silent_of_suffix (hsuffix : items <:+ (g s).items) (hitems : items ≠ []) :
    ¬Silent g s :=
  fun hs => hitems (List.suffix_nil.mp (hs ▸ hsuffix))

/-- Each scope has a predecessor among these. -/
def Chained (g : Graph) (x : ScopeId) (F : List ScopeId) : Prop :=
  ∀ w ∈ F, ∃ u ∈ x :: F, Edge g u w

theorem Region.chained (h : Region g L x k jumps F) : Chained g x F := by
  intro w hw
  obtain ⟨u, hu⟩ := h.part.entered w hw
  refine ⟨u, ?_, hu⟩
  rcases h.part.only w hw u hu with rfl | hmem
  · exact List.mem_cons_self
  · exact List.mem_cons_of_mem _ hmem

theorem Fits.untouched (hf : Fits g L V base k jumps (x :: F)) (hchain : Chained g x F)
    (hx : x ∉ closure (Edge g) (Silent g) base) {t : ScopeId}
    (ht : t ∈ closure (Edge g) (Silent g) base) : t ∉ x :: F := by
  apply region_untouched (R := {w | w ∈ x :: F}) hx ?_ ?_ ht
  · rw [Set.disjoint_left]
    exact fun w hw => (hf.fresh w hw).2
  · intro w hw hne
    obtain ⟨u, hu, hedge⟩ := hchain w ((List.mem_cons.mp hw).resolve_left hne)
    exact ⟨u, hu, hedge⟩

/-- A scope that is not silent is printed next, with the code that starts there. -/
theorem PrintsFrom.enter (hp : PrintsFrom g o n B L x (g x).items k jumps F lines)
    (level : Nat) (noExit : Bool) (hg : Linked g n) (hf : Fits g L V base k jumps (x :: F)) (hat : At g n V D q)
    (hbase : reachable g D = closure (Edge g) (Silent g) base) (hx : ¬Silent g x)
    (hL : (g x).level = L) (hedge : ∃ u, Edge g u x)
    (hpreds : ∀ u, Edge g u x → u ∈ closure (Edge g) (Silent g) base) (hchain : Chained g x F)
    (hsilent : (∀ u, Edge g u x → u ∈ D) ∨
      ∀ z, SilentPath (Edge g) (Silent g) z x → L ≤ (g z).level)
    (hB : B ⊆ closure (Edge g) (Silent g) base) :
    Continues g o n L noExit level V base (x :: F) (lines level) q := by
  have hxbase : x ∉ closure (Edge g) (Silent g) base := fun hin =>
    (hf.fresh x List.mem_cons_self).2 (mem_of_closure hin hx)
  have hxD : x ∉ V ∪ D := by
    rw [Finset.mem_union, not_or]
    refine ⟨(hf.fresh x List.mem_cons_self).1, fun hin => hxbase ?_⟩
    exact hbase ▸ subset_closure (Finset.mem_coe.mpr hin)
  have hothers : OthersLower g V (reachable g D) {x} (g x).level := by
    rw [hbase, hL]
    intro w hw hwV hwbase hwx hwedge hwpreds
    apply hf.others w hw hwV ?_ (Set.notMem_empty w) hwedge
    · exact fun u hu => closure_mono Set.subset_union_left (hwpreds u hu)
    · intro hin
      rcases mem_of_closure hin hw with hmem | hmem
      · exact hwbase (subset_closure hmem)
      · obtain ⟨u, hu, hedge⟩ := hchain w ((List.mem_cons.mp hmem).resolve_left hwx)
        exact hf.untouched hchain hxbase (hwpreds u hedge) hu
  obtain ⟨D₁, p₁, hat₁, hsub, hreach, hos, hnot, hall, hgoes, hends⟩ :=
    hat.reach o noExit level hg hf.old hx hxD hedge
      (fun u hu => hbase ▸ hpreds u hu) hL.ge hothers (by rw [hL]; exact hsilent)
  have hreach₁ : reachable g D₁ = closure (Edge g) (Silent g) base := hreach.trans hbase
  have hspan : span g ↑D₁ (x :: F) = span g base (x :: F) := closure_union_congr hreach₁ rfl
  have hfits : Fits g L V ↑D₁ k jumps (x :: F) := by
    refine ⟨hf.old, fun w hw => ⟨(hf.fresh w hw).1, fun hin => ?_⟩, hf.nodup, hf.exits, ?_⟩
    · exact hf.untouched hchain hxbase (hreach₁ ▸ subset_closure hin) hw
    · rw [hspan]
      exact hf.others
  obtain ⟨u, hu⟩ := hedge
  have henter := hat₁.enter hnot (fun u hu => Finset.mem_union_right V (hall u hu))
    (hg.bound u x hu).2
  obtain ⟨D₂, p₂, hat₂, hreach₂, hos₂, hends₂⟩ :=
    hp level noExit hfits henter (hreach₁ ▸ hB) List.suffix_rfl
  refine ⟨D₂, p₂, hat₂, hreach₂.trans hspan, hos₂.trans ?_, fun r hr => ?_⟩
  · dsimp only
    rw [hos]
  · exact hends r (EndsScope.ends hgoes (hends₂ r hr))

/-- The scopes of some code are printed as its text. -/
def Prints (g : Graph) (E : Env) (o : Options) (n : Nat) (code : Code) : Prop :=
  ∀ ⦃L : Nat⦄ ⦃s : ScopeId⦄ ⦃items : List Item⦄ ⦃k : ScopeId⦄
    ⦃jumps : Option (ScopeId × ScopeId)⦄ ⦃F : List ScopeId⦄,
    Shape g E code L s items k jumps F →
      PrintsFrom g o n ∅ L s items k jumps F (code.lines E o)

/-- The loop `code` is in a scope of its own that is not silent. -/
structure StartsScope (g : Graph) (E : Env) (code : Code) (L : Nat) (x k : ScopeId)
    (jumps : Option (ScopeId × ScopeId)) (F : List ScopeId) : Prop where
  shape : Shape g E code L x (g x).items k jumps F
  loud : ¬Silent g x
  level : (g x).level = L

/-- Code in a scope without items: nothing is printed, or a loop follows. -/
theorem Shape.silent_cases (h : Shape g E code L x [] k jumps F) :
    (∀ o level, code.lines E o level = []) ∧ (g x).succs = [k] ∧ F = [] ∨
      ∃ loop c F', F = c :: F' ∧ (g x).succs = [c] ∧ Own g [x] c ∧
        StartsScope g E loop L c k jumps F' ∧
        (∀ o level, code.lines E o level = loop.lines E o level) ∧
        ∀ o n, Prints g E o n code → Prints g E o n loop := by
  induction code with
  | done =>
    obtain ⟨-, hsuccs, rfl⟩ := h
    exact .inl ⟨fun _ _ => rfl, hsuccs, rfl⟩
  | stmt ptr rest ih =>
    obtain ⟨items', hitems, h⟩ := h
    obtain ⟨hnone, rfl⟩ := List.append_eq_nil_iff.mp hitems.symm
    have hlines : ∀ o level, (stmt ptr rest).lines E o level = rest.lines E o level := by
      intro o level
      rw [Code.lines, hnone]
      rfl
    have hprints : ∀ o n, Prints g E o n (stmt ptr rest) → Prints g E o n rest := by
      intro o n hp L s items k jumps F hrest
      rw [← funext (hlines o)]
      apply hp
      exact ⟨items, by rw [hnone]; rfl, hrest⟩
    rcases ih h with ⟨hrest, hsuccs, hF⟩ | ⟨loop, c, F', hF, hsuccs, hown, hstart, hrest, hp⟩
    · exact .inl ⟨fun o level => (hlines o level).trans (hrest o level), hsuccs, hF⟩
    · exact .inr ⟨loop, c, F', hF, hsuccs, hown, hstart,
        fun o level => (hlines o level).trans (hrest o level), fun o n h => hp o n (hprints o n h)⟩
  | ifStmt ptr thenBody elseBody rest =>
    obtain ⟨_, _, _, _, _, _, hitems, -⟩ := h
    cases hitems
  | loop ptr body rest =>
    rcases h with h | ⟨-, c, F', rfl, hsuccs, hown, hL, h⟩
    · split at h
      · obtain ⟨_, hitems, -⟩ := h
        exact absurd hitems.symm (List.append_ne_nil_of_right_ne_nil _ (List.cons_ne_nil _ _))
      · obtain ⟨_, _, _, _, _, _, _, hitems, -⟩ := h
        cases hitems
    · have hloud : ¬Silent g c := by
        intro hs
        unfold Silent at hs
        rw [hs] at h
        split at h
        · obtain ⟨_, hitems, -⟩ := h
          exact absurd hitems.symm (List.append_ne_nil_of_right_ne_nil _ (List.cons_ne_nil _ _))
        · obtain ⟨_, _, _, _, _, _, _, hitems, -⟩ := h
          cases hitems
      exact .inr ⟨loop ptr body rest, c, F', rfl, hsuccs, hown, ⟨Or.inl h, hloud, hL⟩,
        fun _ _ => rfl, fun _ _ hp => hp⟩
  | doWhile ptr body rest =>
    rcases h with h | ⟨-, c, F', rfl, hsuccs, hown, hL, h⟩
    · obtain ⟨_, _, _, _, _, _, hitems, -⟩ := h
      cases hitems
    · have hloud : ¬Silent g c := by
        intro hs
        unfold Silent at hs
        rw [hs] at h
        obtain ⟨_, _, _, _, _, _, hitems, -⟩ := h
        cases hitems
      exact .inr ⟨doWhile ptr body rest, c, F', rfl, hsuccs, hown, ⟨Or.inl h, hloud, hL⟩,
        fun _ _ => rfl, fun _ _ hp => hp⟩
  | breakStmt ptr rest | continueStmt ptr rest =>
    obtain ⟨hitems, -⟩ := h
    cases hitems

/-- What starts a scope of a level is lower than what is nested in it. -/
theorem Shape.low (h : Shape g E code L x (g x).items k jumps F) (hL : AtLevel g L x)
    (hk : Low g L k) : Low g (L + 1) x := by
  by_cases hx : Silent g x
  · rw [hx] at h
    apply Descends.silent hx
    intro w hw
    rcases h.silent_cases with ⟨-, hsuccs, -⟩ | ⟨_, c, _, -, hsuccs, -, hstart, -⟩
    · obtain rfl := List.mem_singleton.mp (edge_of_succs hw hsuccs)
      exact hk.imp fun t ht => Nat.lt_succ_of_lt ht
    · obtain rfl := List.mem_singleton.mp (edge_of_succs hw hsuccs)
      exact .low hstart.loud (Nat.lt_succ_of_le hstart.level.le)
  · exact .low hx (Nat.lt_succ_of_le (hL.eq hx).le)

theorem span_cons (hx : x ∈ closure (Edge g) (Silent g) base) :
    span g base (x :: F) = span g base F := by
  have hset : base ∪ {w | w ∈ x :: F} = insert x (base ∪ {w | w ∈ F}) := by
    ext w
    simp only [Set.mem_union, Set.mem_ofPred_eq, List.mem_cons, Set.mem_insert_iff]
    tauto
  rw [span, hset]
  exact closure_insert (closure_mono Set.subset_union_left hx)

theorem Fits.tail (hf : Fits g L V base k jumps (x :: F))
    (hx : x ∈ closure (Edge g) (Silent g) base) : Fits g L V base k jumps F where
  old := hf.old
  fresh w hw := hf.fresh w (List.mem_cons_of_mem x hw)
  nodup := (List.nodup_cons.mp hf.nodup).2
  exits := hf.exits
  others := span_cons hx ▸ hf.others

/-- The code at `x` is printed next, whether or not `x` itself was visited. -/
theorem Prints.start (hp : Prints g E o n code) (level : Nat) (noExit : Bool)
    (hg : Linked g n)
    (h : Shape g E code L x (g x).items k jumps F) (hL : AtLevel g L x)
    (hf : Fits g L V base k jumps (x :: F)) (hat : At g n V D q)
    (hbase : reachable g D = closure (Edge g) (Silent g) base) (hedge : ∃ u, Edge g u x)
    (hpreds : ∀ u, Edge g u x → u ∈ closure (Edge g) (Silent g) base)
    (hsilent : ∀ z, SilentPath (Edge g) (Silent g) z x → L ≤ (g z).level) :
    Continues g o n L noExit level V base (x :: F) (code.lines E o level) q := by
  by_cases hx : Silent g x
  · obtain ⟨u, hu⟩ := hedge
    have hmem : x ∈ closure (Edge g) (Silent g) base := .silent hx hu hpreds
    have htail := hf.tail hmem
    rw [hx] at h
    unfold Continues
    rw [span_cons hmem]
    rcases h.silent_cases with ⟨hlines, -, rfl⟩ |
      ⟨loop, c, F', rfl, hsuccs, hown, hstart, hlines, hprints⟩
    · refine ⟨D, q, hat, hbase.trans ?_, ?_, fun r hr => hr⟩
      · rw [span]
        simp
      · rw [hlines, List.append_nil]
    · rw [hlines]
      apply PrintsFrom.enter (hprints o n hp hstart.shape) level noExit hg htail hat hbase hstart.loud
        hstart.level hown.entered ?_ hstart.shape.region.chained ?_ (Set.empty_subset _)
      · intro v hv
        obtain rfl := List.mem_singleton.mp (hown.only v hv)
        exact hmem
      · refine .inr fun z hz => ?_
        rcases Relation.ReflTransGen.cases_tail hz with rfl | ⟨v, hpath, -, hv⟩
        · exact hstart.level.ge
        · obtain rfl := List.mem_singleton.mp (hown.only v hv)
          exact hsilent z hpath
  · apply PrintsFrom.enter (hp h) level noExit hg hf hat hbase hx (hL.eq hx) hedge hpreds h.region.chained
      (.inr hsilent) (Set.empty_subset _)

theorem silent_levels {R : Set ScopeId} (hL : ∀ w ∈ R, Silent g w → L ≤ (g w).level)
    (hR : ∀ w ∈ R, Silent g w → ∀ u, Edge g u w → u ∈ R) (hx : ∀ u, Edge g u x → u ∈ R)
    (hxL : L ≤ (g x).level) {z : ScopeId} (hz : SilentPath (Edge g) (Silent g) z x) :
    L ≤ (g z).level := by
  have hmem : z = x ∨ z ∈ R ∧ Silent g z := by
    induction hz using Relation.ReflTransGen.head_induction_on with
    | refl => exact .inl rfl
    | @head z y hstep _ ih =>
      rcases ih with rfl | ⟨hy, hys⟩
      · exact .inr ⟨hx z hstep.2, hstep.1⟩
      · exact .inr ⟨hR y hy hys z hstep.2, hstep.1⟩
  rcases hmem with rfl | ⟨hz, hzs⟩
  · exact hxL
  · exact hL z hz hzs

/-- The code after a statement is printed next, if it can be reached. -/
theorem Prints.follow {reached : Bool} {before : List ScopeId} (hp : Prints g E o n rest)
    (level : Nat) (noExit : Bool) (hg : Linked g n) (h : Follows g reached rest L before x k F
      (fun x F => Shape g E rest L x (g x).items k jumps F))
    (hf : Fits g L V base k jumps F) (hat : At g n V D q)
    (hbase : reachable g D = closure (Edge g) (Silent g) base)
    (hbefore : ∀ u ∈ before, u ∈ closure (Edge g) (Silent g) base)
    (hsilent : x ∈ F → ∀ z, SilentPath (Edge g) (Silent g) z x → L ≤ (g z).level) :
    Continues g o n L noExit level V base F (if reached then rest.lines E o level else []) q := by
  rcases h with ⟨hnone, -, rfl⟩ | ⟨-, rfl, hown, hL, F', rfl, h⟩
  · refine ⟨D, q, hat, hbase.trans ?_, ?_, fun r hr => hr⟩
    · rw [span]
      simp
    · rcases hnone with rfl | rfl
      · simp [Code.lines]
      · simp
  · rw [if_pos rfl]
    exact hp.start level noExit hg h hL hf hat hbase hown.entered (fun u hu => hbefore u (hown.only u hu))
      (hsilent List.mem_cons_self)

theorem At.text (h : At g n V D p) (os : List Line) : At g n V D { p with os := os } :=
  ⟨h.sound, h.edges, h.visited, h.disjoint, h.closed, h.bound⟩

theorem ItemsTo.others (hitems : ∀ item ∈ items, item.kind = .other) :
    ItemsTo g o s level items p { p with os := p.os ++ itemsLines level items } := by
  refine ⟨0, ?_⟩
  unfold printItems
  induction items generalizing p with
  | nil => simp [itemsLines]
  | cons item items ih =>
    have hstep : printItem g o (printer g o 0) (g s).succs level p item =
        some { p with os := p.os ++ stmtLines level item.str } := by
      unfold printItem
      rw [hitems item List.mem_cons_self]
    rw [List.foldlM_cons, hstep]
    refine (ih fun i hi => hitems i (List.mem_cons_of_mem _ hi)).trans ?_
    simp [itemsLines, List.append_assoc]

theorem span_insert {c : ScopeId} : span g ↑(insert c D) F = span g ↑D (c :: F) := by
  rw [span, span]
  congr 1
  ext w
  simp only [Finset.coe_insert, Set.mem_union, Set.mem_insert_iff, Finset.mem_coe,
    Set.mem_ofPred_eq, List.mem_cons]
  tauto

theorem Fits.finish {c : ScopeId} (hf : Fits g L V ↑D k jumps (c :: F)) :
    Fits g L V ↑(insert c D) k jumps F where
  old := hf.old
  fresh w hw := by
    have hfresh := hf.fresh w (List.mem_cons_of_mem c hw)
    refine ⟨hfresh.1, fun hin => ?_⟩
    rcases Finset.mem_insert.mp (Finset.mem_coe.mp hin) with rfl | hin
    · exact (List.nodup_cons.mp hf.nodup).1 hw
    · exact hfresh.2 (Finset.mem_coe.mpr hin)
  nodup := (List.nodup_cons.mp hf.nodup).2
  exits := hf.exits
  others := span_insert (g := g) ▸ hf.others

/-- A scope of simple statements, with the code after it. -/
theorem Prints.then {before : List ScopeId} {c : ScopeId} (hp : Prints g E o n rest)
    (hg : Linked g n) (hitems : ∀ item ∈ items, item.kind = .other)
    (h : Follows g true rest L before x k F
      (fun x F => Shape g E rest L x (g x).items k jumps F))
    (hbefore : ∀ u ∈ before, u = c ∨ u ∈ B)
    (hsilent : items <:+ (g c).items → x ∈ F →
      ∀ z, SilentPath (Edge g) (Silent g) z x → L ≤ (g z).level) :
    PrintsFrom g o n B L c items k jumps F
      (fun level => itemsLines level items ++ rest.lines E o level) := by
  intro V D p level noExit hf hat hB hsuffix
  have hc := hf.fresh c List.mem_cons_self
  have hnext := (hat.text (p.os ++ itemsLines level items)).finish hc.1
    (fun hin => hc.2 (Finset.mem_coe.mpr hin))
  obtain ⟨D', p', hat', hreach, hos, hends⟩ := hp.follow level noExit hg h
    hf.finish hnext rfl (fun u hu => by
      rcases hbefore u hu with rfl | hmem
      · exact subset_closure (Finset.mem_coe.mpr (Finset.mem_insert_self _ _))
      · exact closure_mono (Finset.coe_subset.mpr (Finset.subset_insert c D)) (hB hmem))
    (hsilent hsuffix)
  refine ⟨D', p', hat', hreach.trans span_insert, ?_, fun r hr => ?_⟩
  · rw [hos, if_pos rfl, addSuccs, List.append_assoc]
  · exact ⟨_, ItemsTo.others hitems, hends r hr⟩

/-- After the scopes of a region only lower ones follow. -/
theorem Region.othersLower (hr : Region g L b x jumps F)
    (hexits : ∀ w ∈ targets x jumps, Low g L w) : OthersLower g V (span g ∅ (b :: F)) ∅ L := by
  have hexit : ∀ u ∈ {w | w ∈ b :: F}, ∀ w ∉ {w | w ∈ b :: F}, Edge g u w → Low g L w := by
    intro u hu w hw hedge
    rcases List.mem_cons.mp hu with rfl | hu
    · rcases hr.first w hedge with hin | ht
      · exact absurd (List.mem_cons_of_mem _ hin) hw
      · exact hexits w ht
    · rcases hr.part.exits u hu w hedge with hin | ht
      · exact absurd (List.mem_cons_of_mem _ hin) hw
      · exact hexits w ht
  intro w hw _ hwspan _ hwedge hwpreds
  obtain ⟨u, hu⟩ := hwedge
  rw [span, Set.empty_union] at hwspan hwpreds
  apply (Descends.of_closure hexit (hwpreds u hu) ?_ hu).loud hw
  exact fun hin => hwspan (subset_closure hin)

/-- A call of `printCurrentScope` for nested code prints it and returns. -/
theorem PrintsFrom.call (hp : PrintsFrom g o n ∅ L b (g b).items x jumps F lines)
    (level : Nat) (hg : Linked g n) (hr : Region g L b x jumps F) (hat : At g n V D p)
    (hL : (g b).level = L) (hedge : ∃ u, Edge g u b) (hpreds : ∀ u, Edge g u b → u ∈ V ∪ D)
    (hfresh : ∀ w ∈ b :: F, w ∉ V ∪ D) (hnd : (b :: F).Nodup)
    (hexits : ∀ w ∈ targets x jumps, Low g L w) :
    ∃ D₁ r, (∃ fuel, printer g o fuel b level p.visited = some r) ∧ At g n (V ∪ D) D₁ r ∧
      reachable g D₁ = span g ∅ (b :: F) ∧ r.os = lines level := by
  obtain ⟨v, hv⟩ := hedge
  have hin : b ∉ (V ∪ D) ∪ ∅ := by
    rw [Finset.union_empty]
    exact hfresh b List.mem_cons_self
  have henter := hat.call.enter hin (fun u hu => Finset.mem_union_left _ (hpreds u hu))
    (hg.bound v b hv).2
  have hothers := hr.othersLower (V := V ∪ D) hexits
  have hfits : Fits g L (V ∪ D) ↑(∅ : Finset ScopeId) x jumps (b :: F) := by
    refine ⟨fun t ht u hu => hat.closed t ht u hu, fun w hw => ⟨hfresh w hw, ?_⟩, hnd, hexits, ?_⟩
    · exact Finset.notMem_empty w
    · rw [Finset.coe_empty]
      exact hothers
  obtain ⟨D₁, p₁, hat₁, hreach, hos, hends⟩ :=
    hp level false hfits henter (Set.empty_subset _) List.suffix_rfl
  rw [Finset.coe_empty] at hreach
  have hexit : false = true → L = 0 := nofun
  obtain ⟨D₂, r, hat₂, hreach₂, hos₂, hend⟩ := hat₁.leave o level hg hexit
      (by rw [hreach]; exact hothers)
  refine ⟨D₂, r, ?_, hat₂, hreach₂.trans hreach, ?_⟩
  · obtain ⟨fuel, hfuel⟩ := (hends r hend).printScopes
    refine ⟨fuel, ?_⟩
    rw [printer, printCurrentScope, hL]
    exact hfuel
  · rw [hos₂, hos]
    rfl

/-- A branch is printed, or it is dead. -/
theorem BranchScope.print {dead : Bool} {shape : List ScopeId → Prop}
    (h : BranchScope g dead L s b F shape) (level : Nat)
    (hshape : ∀ F, shape F → Region g L b x jumps F ∧
      PrintsFrom g o n ∅ L b (g b).items x jumps F lines)
    (hg : Linked g n) (hat : At g n V D p) (hs : s ∈ V) (hfresh : ∀ w ∈ F, w ∉ V ∪ D)
    (hnd : F.Nodup) (hexits : ∀ w ∈ targets x jumps, Low g L w) :
    isDead b = dead ∧ ∃ D₁ p₁,
      (∃ fuel, printBranch g (printer g o fuel) b level p =
        some (p₁, if dead then [] else lines level)) ∧
      At g n V (D ∪ D₁) p₁ ∧ reachable g D₁ = span g ∅ F ∧ p₁.os = p.os := by
  unfold BranchScope at h
  cases dead with
  | true =>
    obtain ⟨hb, rfl⟩ := h
    have hdead := isDead_iff.mpr hb
    refine ⟨hdead, ∅, p, ⟨0, ?_⟩, ?_, ?_, rfl⟩
    · rw [printBranch, if_pos hdead]
      rfl
    · rw [Finset.union_empty]
      exact hat
    · simp [reachable, span]
  | false =>
    obtain ⟨hown, hL, F', rfl, h⟩ := h
    have halive : isDead b = false := by
      rw [← Bool.not_eq_true, isDead_iff]
      exact hown.alive
    obtain ⟨hregion, hp⟩ := hshape F' h
    obtain ⟨D₁, r, ⟨fuel, hfuel⟩, hat₁, hreach, hos⟩ := hp.call level hg hregion hat hL
      hown.entered (fun u hu => by
        obtain rfl := List.mem_singleton.mp (hown.only u hu)
        exact Finset.mem_union_left D hs) hfresh hnd hexits
    refine ⟨halive, D₁, ⟨splice g p.prepared r.prepared, r.visited, p.os⟩, ⟨fuel, ?_⟩,
      hat.return hat₁, hreach, rfl⟩
    rw [printBranch, halive, if_neg Bool.false_ne_true, printInner, hfuel, Option.map_some, hos]
    rfl

/-- What nested code leads to, when the code around it leads to low scopes. -/
theorem Follows.low {reached : Bool} {before : List ScopeId}
    (h : Follows g reached rest L before x k F
      (fun x F => Shape g E rest L x (g x).items k jumps F))
    (hexits : ∀ w ∈ targets k jumps, Low g L w) : Low g (L + 1) x := by
  have hk : Low g L k := hexits k (.inl rfl)
  rcases h with ⟨-, rfl, -⟩ | ⟨-, -, -, hL, F', -, h⟩
  · exact hk.imp fun t ht => Nat.lt_succ_of_lt ht
  · exact h.low hL hk

theorem Low.targets {y : ScopeId} (hx : Low g (L + 1) x)
    (hexits : ∀ w ∈ targets k jumps, Low g L w) (hy : y ∈ targets x jumps) :
    Low g (L + 1) y := by
  rcases hy with rfl | hj
  · exact hx
  · exact (hexits y (.inr hj)).imp fun t ht => Nat.lt_succ_of_lt ht

theorem printItems_singleton {print : PrintScope} {item : Item} :
    printItems g o print s level [item] p = printItem g o print (g s).succs level p item := by
  rw [printItems, List.foldlM_cons]
  exact bind_pure _

theorem ItemsTo.ifStmt (str : String) {thenScope elseScope : ScopeId} {thenDead elseDead : Bool}
    {t e : Printed} {ts es : List Line} (hsuccs : (g s).succs = [thenScope, elseScope])
    (hthen : isDead thenScope = thenDead) (helse : isDead elseScope = elseDead)
    (ht : ∃ fuel, printBranch g (printer g o fuel) thenScope
      (branchLevel ((thenDead || elseDead) && o.removeEmptyIf) level) p = some (t, ts))
    (he : ∃ fuel, printBranch g (printer g o fuel) elseScope
      (branchLevel ((thenDead || elseDead) && o.removeEmptyIf) level) t = some (e, es)) :
    ItemsTo g o s level [⟨.ifStmt, str⟩] p { e with
      os := p.os ++
        ifLines o ((thenDead || elseDead) && o.removeEmptyIf) thenDead level str ts es } := by
  obtain ⟨f, hf⟩ := ht
  obtain ⟨f', hf'⟩ := he
  refine ⟨max f f', ?_⟩
  have ht := (printer_mono (Nat.le_max_left f f')).printBranch hf
  have he := (printer_mono (Nat.le_max_right f f')).printBranch hf'
  rw [printItems_singleton, hsuccs]
  unfold printItem
  dsimp only
  rw [hthen, helse, ht, Option.bind_some, he, Option.map_some]

theorem span_congr {base' : Set ScopeId}
    (h : ∀ w, w ∈ base ∨ w ∈ F₁ ↔ w ∈ base' ∨ w ∈ F₂) : span g base F₁ = span g base' F₂ := by
  have hset : base ∪ {w | w ∈ F₁} = base' ∪ {w | w ∈ F₂} := by
    ext w
    exact h w
  rw [span, span, hset]

theorem span_append :
    span g (base ∪ {w | w ∈ F₁}) F₂ = span g base (F₁ ++ F₂) := by
  apply span_congr
  intro w
  rw [List.mem_append, Set.mem_union, Set.mem_ofPred_eq, or_assoc]

/-- Scopes that are left after the first ones are visited. -/
theorem Fits.append (hf : Fits g L V base k jumps (F₁ ++ F₂)) :
    Fits g L V (base ∪ {w | w ∈ F₁}) k jumps F₂ where
  old := hf.old
  fresh w hw := by
    have hfresh := hf.fresh w (List.mem_append_right F₁ hw)
    refine ⟨hfresh.1, fun hin => ?_⟩
    rcases hin with hin | hin
    · exact hfresh.2 hin
    · exact (List.nodup_append.mp hf.nodup).2.2 w hin w hw rfl
  nodup := (List.nodup_append.mp hf.nodup).2.1
  exits := hf.exits
  others := span_append (g := g) ▸ hf.others

/-- Silent scopes before one that is entered from a part only. -/
theorem Part.silent_levels (h : Part g L {s} T F) (hloud : ¬Silent g s)
    (hx : ∀ u, Edge g u x → u ∈ s :: F) (hxL : L ≤ (g x).level) {z : ScopeId}
    (hz : SilentPath (Edge g) (Silent g) z x) : L ≤ (g z).level := by
  apply ScopeGraph.silent_levels (R := {w | w ∈ s :: F}) ?_ ?_ hx hxL hz
  · intro w hw hs
    rcases List.mem_cons.mp hw with rfl | hw
    · exact absurd hs hloud
    · exact h.level w hw
  · intro w hw hs u hu
    rcases List.mem_cons.mp hw with rfl | hw
    · exact absurd hs hloud
    · rcases h.only w hw u hu with rfl | hin
      · exact List.mem_cons_self
      · exact List.mem_cons_of_mem _ hin

theorem Follows.own {reached : Bool} {before : List ScopeId}
    {shape : ScopeId → List ScopeId → Prop} (h : Follows g reached rest L before x k F shape)
    (hx : x ∈ F) : Own g before x ∧ AtLevel g L x := by
  rcases h with ⟨-, -, rfl⟩ | ⟨-, -, hown, hL, -⟩
  · exact absurd hx List.not_mem_nil
  · exact ⟨hown, hL⟩

/-- Silent scopes before what follows a part are not below the level of the part. -/
theorem Follows.silent_levels {reached : Bool} {shape : ScopeId → List ScopeId → Prop}
    (h : Follows g reached rest L (s :: F₁) x k F₂ shape) (hpart : Part g L {s} T F₁)
    (hloud : ¬Silent g s) (hx : x ∈ F₂) {z : ScopeId}
    (hz : SilentPath (Edge g) (Silent g) z x) : L ≤ (g z).level := by
  obtain ⟨hown, hL⟩ := h.own hx
  exact hpart.silent_levels hloud hown.only hL.le hz

theorem not_mem_span (hloud : ¬Silent g s) (hs : s ∉ F) : s ∉ span g ∅ F := by
  intro hin
  rw [span, Set.empty_union] at hin
  have hmem : s ∈ {w | w ∈ F} := mem_of_closure hin hloud
  exact hs hmem

/-- Scopes entered from `s` are not visited when others are. -/
theorem Part.untouched (h : Part g L {s} T F₂) (hloud : ¬Silent g s) (hs : s ∉ F₁)
    (hdisj : ∀ w ∈ F₂, w ∉ F₁) (ht : t ∈ span g ∅ F₁) : t ∉ s :: F₂ := by
  apply region_untouched (R := {w | w ∈ s :: F₂}) (not_mem_span hloud hs) ?_ ?_ ht
  · rw [Set.empty_union]
    rw [Set.disjoint_left]
    intro w hw
    rcases List.mem_cons.mp hw with rfl | hw
    · exact hs
    · exact hdisj w hw
  · intro w hw hne
    have hmem := (List.mem_cons.mp hw).resolve_left hne
    obtain ⟨u, hu⟩ := h.entered w hmem
    refine ⟨u, ?_, hu⟩
    rcases h.only w hmem u hu with rfl | hin
    · exact List.mem_cons_self
    · exact List.mem_cons_of_mem _ hin

theorem reachable_union {D₁ D₂ : Finset ScopeId} (h₁ : reachable g D₁ = span g ∅ F₁)
    (h₂ : reachable g D₂ = span g ∅ F₂) : reachable g (D₁ ∪ D₂) = span g ∅ (F₁ ++ F₂) := by
  have hset : (∅ : Set ScopeId) ∪ {w | w ∈ F₁ ++ F₂} = ∅ ∪ {w | w ∈ F₁} ∪ (∅ ∪ {w | w ∈ F₂}) := by
    ext w
    simp
  rw [reachable, Finset.coe_union, span, hset]
  exact closure_union_congr h₁ h₂

/-- The scope `s` with the nested ones is visited. -/
theorem reachable_insert {D₁ : Finset ScopeId} (h : reachable g D₁ = span g ∅ F) :
    reachable g (insert s (D ∪ D₁)) =
      closure (Edge g) (Silent g) (↑D ∪ {w | w ∈ s :: F}) := by
  have hset : (↑D : Set ScopeId) ∪ {w | w ∈ s :: F} = insert s ↑D ∪ (∅ ∪ {w | w ∈ F}) := by
    ext w
    simp only [Set.mem_union, Finset.mem_coe, Set.mem_ofPred_eq, List.mem_cons,
      Set.mem_insert_iff, Set.mem_empty_iff_false]
    tauto
  rw [reachable, Finset.coe_insert, Finset.coe_union, ← Set.insert_union, hset]
  exact closure_union_congr rfl h

theorem prints_ifStmt {ptr : StmtInfo.Ptr} {thenBody elseBody : Code} (hg : Linked g n)
    (ht : Prints g E o n thenBody) (he : Prints g E o n elseBody) (hr : Prints g E o n rest) :
    Prints g E o n (ifStmt ptr thenBody elseBody rest) := by
  intro L s items k jumps F h V D p level noExit hf hat _ hsuffix
  obtain ⟨thenScope, elseScope, x, Ft, Fe, Fr, rfl, hsuccs, rfl, hthen, helse, hrest⟩ := h
  have hloud := not_silent_of_suffix hsuffix (List.cons_ne_nil _ _)
  have hlow : ∀ y ∈ targets x jumps, Low g (L + 1) y := fun y hy =>
    (hrest.low hf.exits).targets hf.exits hy
  have hpt := (hthen.part fun F => Shape.region).1
  have hpe := (helse.part fun F => Shape.region).1
  have hnd := List.nodup_cons.mp hf.nodup
  have hnd' := List.nodup_append.mp hnd.2
  have hnd'' := List.nodup_append.mp hnd'.1
  have hsplit : ∀ w, w ∈ Ft ∨ w ∈ Fe → w ≠ s ∧ w ∉ V ∧ w ∉ D := by
    intro w hw
    have hmem : w ∈ Ft ++ Fe ++ Fr := List.mem_append_left _ (List.mem_append.mpr hw)
    exact ⟨fun heq => hnd.1 (heq ▸ hmem), hf.fresh w (List.mem_cons_of_mem s hmem)⟩
  have hs := hf.fresh s List.mem_cons_self
  have hst : s ∉ Ft := fun hin => (hsplit s (.inl hin)).1 rfl
  have hse : s ∉ Fe := fun hin => (hsplit s (.inr hin)).1 rfl
  -- the two branches
  obtain ⟨hdt, D₁, p₁, hprint₁, hat₁, hreach₁, hos₁⟩ := hthen.print
    (branchLevel ((E.termCond ptr == some false || E.termCond ptr == some true) &&
      o.removeEmptyIf) level)
    (fun F hF => ⟨hF.region, ht hF⟩) hg hat (Finset.mem_insert_self s V) (fun w hw => by
      have := hsplit w (.inl hw)
      simp only [Finset.mem_union, Finset.mem_insert]
      tauto) hnd''.1 hlow
  have hD₁ : ∀ w ∈ D₁, w ∉ s :: Fe := fun w hw =>
    hpe.untouched hloud hst (fun w hw hin => hnd''.2.2 w hin w hw rfl)
      (hreach₁ ▸ subset_closure (Finset.mem_coe.mpr hw))
  obtain ⟨hde, D₂, p₂, hprint₂, hat₂, hreach₂, hos₂⟩ := helse.print
    (branchLevel ((E.termCond ptr == some false || E.termCond ptr == some true) &&
      o.removeEmptyIf) level)
    (fun F hF => ⟨hF.region, he hF⟩) hg hat₁ (Finset.mem_insert_self s V) (fun w hw => by
      have := hsplit w (.inr hw)
      have := fun hin => hD₁ w hin (List.mem_cons_of_mem s hw)
      simp only [Finset.mem_union, Finset.mem_insert]
      tauto) hnd''.2.1 hlow
  have hD₂ : s ∉ D₂ := fun hin =>
    not_mem_span hloud hse (hreach₂ ▸ subset_closure (Finset.mem_coe.mpr hin))
  have hitems := ItemsTo.ifStmt (E.termStr ptr) hsuccs hdt hde hprint₁ hprint₂
  have hsnot : s ∉ D ∪ D₁ ∪ D₂ := by
    simp only [Finset.mem_union, not_or]
    exact ⟨⟨fun hin => hs.2 (Finset.mem_coe.mpr hin), fun hin => hD₁ s hin List.mem_cons_self⟩, hD₂⟩
  -- the code after them
  have hreach : reachable g (insert s (D ∪ D₁ ∪ D₂)) =
      closure (Edge g) (Silent g) (↑D ∪ {w | w ∈ s :: (Ft ++ Fe)}) := by
    rw [Finset.union_assoc]
    exact reachable_insert (reachable_union hreach₁ hreach₂)
  obtain ⟨D', p', hat', hreach', hos', hends'⟩ := hr.follow level noExit
    hg hrest hf.append
    ((hat₂.text _).finish hs.1 hsnot) hreach
    (fun u hu => subset_closure (.inr hu)) (fun hx _ => hrest.silent_levels (hpt.branches hpe) hloud hx)
  refine ⟨D', p', hat', hreach'.trans span_append, ?_, fun r hr => ⟨_, hitems, hends' r hr⟩⟩
  rw [hos', addSuccs, List.append_assoc]
  rfl

/-- A scope of simple statements after which nothing follows. -/
theorem PrintsFrom.others (hitems : ∀ item ∈ items, item.kind = .other) :
    PrintsFrom g o n B L s items k jumps [] (fun level => itemsLines level items) := by
  intro V D p level noExit hf hat _ _
  have hs := hf.fresh s List.mem_cons_self
  refine ⟨insert s D, _, (hat.text (p.os ++ itemsLines level items)).finish hs.1 hs.2, ?_, ?_,
    fun r hr => ⟨_, ItemsTo.others hitems, hr⟩⟩
  · have hnil : {w | w ∈ ([] : List ScopeId)} = ∅ := by
      ext w
      simp
    rw [← span_insert, span, hnil, Set.union_empty]
  · rw [addSuccs]

/-- A scope that ends in `break` or `continue`. -/
theorem PrintsFrom.jump {str : String} :
    PrintsFrom g o n B L s [⟨.other, str⟩] k jumps [] (fun level => stmtLines level str) := by
  have hlines : (fun level => stmtLines level str) =
      fun level => itemsLines level [⟨.other, str⟩] := by
    funext level
    exact (List.append_nil _).symm
  rw [hlines]
  exact PrintsFrom.others fun item hitem => List.mem_singleton.mp hitem ▸ rfl

/-- A loop in a scope of its own, which is the next one. -/
theorem OwnScope.prints {shape : ScopeId → List Item → List ScopeId → Prop}
    (h : OwnScope g L s items F shape) (hg : Linked g n)
    (hshape : ∀ c items F, shape c items F → items ≠ [] ∧ Region g L c k jumps F ∧
      PrintsFrom g o n ∅ L c items k jumps F lines) :
    PrintsFrom g o n ∅ L s items k jumps F lines := by
  rcases h with h | ⟨rfl, c, F', rfl, -, hown, hL, h⟩
  · exact (hshape s items F h).2.2
  · intro V D p level noExit hf hat _ _
    have hs := hf.fresh s List.mem_cons_self
    obtain ⟨hloud, hregion, hp⟩ := hshape c _ F' h
    have hvisited : ∀ u, Edge g u c → u ∈ insert s D := fun u hu =>
      List.mem_singleton.mp (hown.only u hu) ▸ Finset.mem_insert_self s D
    obtain ⟨D', p', hat', hreach, hos, hends⟩ := hp.enter level noExit hg
      hf.finish (hat.finish hs.1 hs.2) rfl hloud hL hown.entered
      (fun u hu => subset_closure (hvisited u hu)) hregion.chained (.inl hvisited)
      (Set.empty_subset _)
    exact ⟨D', p', hat', hreach.trans span_insert, hos, fun r hr => ⟨_, ItemsTo.nil, hends r hr⟩⟩

theorem ItemsTo.loop {kind : ItemKind} {str : String} {r : Printed}
    (hkind : kind = .doStmt ∨ ∃ forExtrCntr, kind = .loop forExtrCntr)
    (hsuccs : (g s).succs = [b])
    (hbody : ∃ fuel, printer g o fuel b (level + 1) p.visited = some r) :
    ItemsTo g o s level [⟨kind, str⟩] p ⟨splice g p.prepared r.prepared, r.visited,
      p.os ++ loopLines o kind level str r.os⟩ := by
  obtain ⟨f, hf⟩ := hbody
  refine ⟨f, ?_⟩
  rw [printItems_singleton, hsuccs]
  have hinner : printInner g (printer g o f) b (level + 1) p =
      some (⟨splice g p.prepared r.prepared, r.visited, p.os⟩, r.os) := by
    rw [printInner, hf, Option.map_some]
  rcases hkind with rfl | ⟨_, rfl⟩
  all_goals
    unfold printItem
    dsimp only
    rw [hinner, Option.map_some]

/-- A loop in `c` whose nested scopes are `F₁`, and what is printed after them. -/
theorem PrintsFrom.loop {c e : ScopeId} {kind : ItemKind} {str : String} {last : List Item}
    {after : Nat → List Line}
    (hp : ¬Silent g c → PrintsFrom g o n ∅ (L + 1) e (g e).items t (some (x, t)) F lines)
    (hg : Linked g n) (hregion : Region g (L + 1) e t (some (x, t)) F)
    (hkind : kind = .doStmt ∨ ∃ forExtrCntr, kind = .loop forExtrCntr)
    (hlast : last = [] ∨ last = [nullItem]) (hsuccs : (g c).succs = [e]) (hown : Own g [c] e)
    (hL : (g e).level = L + 1)
    (hlow : (∀ w ∈ targets k jumps, Low g L w) → Low g (L + 1) t ∧ Low g (L + 1) x)
    (hafter : ¬Silent g c → ∀ ⦃V D : Finset ScopeId⦄ ⦃base : Set ScopeId⦄ ⦃q : Printed⦄
      (level : Nat) (noExit : Bool), Fits g L V base k jumps F₂ → At g n V D q →
      reachable g D = closure (Edge g) (Silent g) base →
      (∀ u ∈ c :: e :: F, u ∈ closure (Edge g) (Silent g) base) →
      Continues g o n L noExit level V base F₂ (after level) q) :
    PrintsFrom g o n ∅ L c (⟨kind, str⟩ :: last) k jumps (e :: F ++ F₂)
      (fun level => loopLines o kind level str (lines (level + 1)) ++ after level) := by
  intro V D p level noExit hf hat _ hsuffix
  have hloud := not_silent_of_suffix hsuffix (List.cons_ne_nil _ _)
  have hs := hf.fresh c List.mem_cons_self
  have hnd := List.nodup_cons.mp hf.nodup
  have hnested : ∀ w ∈ e :: F, w ≠ c ∧ w ∉ V ∧ w ∉ D := by
    intro w hw
    have hmem : w ∈ e :: F ++ F₂ := List.mem_append_left _ hw
    exact ⟨fun heq => hnd.1 (heq ▸ hmem), hf.fresh w (List.mem_cons_of_mem c hmem)⟩
  -- the call for the body
  obtain ⟨D₁, r, hbody, hat₁, hreach₁, hos₁⟩ := (hp hloud).call (level + 1) hg hregion hat hL
    hown.entered (fun u hu => by
      obtain rfl := List.mem_singleton.mp (hown.only u hu)
      exact Finset.mem_union_left D (Finset.mem_insert_self u V))
    (fun w hw => by
      have := hnested w hw
      simp only [Finset.mem_union, Finset.mem_insert]
      tauto) (List.nodup_append.mp hnd.2).1 (fun w hw => by
      have hlows := hlow hf.exits
      rcases mem_loop_targets hw with rfl | rfl
      · exact hlows.1
      · exact hlows.2)
  have hcD : c ∉ D ∪ D₁ := by
    rw [Finset.mem_union, not_or]
    refine ⟨fun hin => hs.2 (Finset.mem_coe.mpr hin), fun hin => ?_⟩
    have hc : c ∉ e :: F := fun hin => (hnested c hin).1 rfl
    exact not_mem_span hloud hc (hreach₁ ▸ subset_closure (Finset.mem_coe.mpr hin))
  have hitems : ∀ item ∈ last, item.kind = .other := by
    rcases hlast with rfl | rfl
    · exact fun item hitem => absurd hitem List.not_mem_nil
    · exact fun item hitem => List.mem_singleton.mp hitem ▸ rfl
  have hquiet : itemsLines level last = [] := by
    rcases hlast with rfl | rfl
    · rfl
    · rfl
  -- what follows it
  obtain ⟨D', p', hat', hreach', hos', hends'⟩ := hafter hloud level noExit
    hf.append
    (((hat.return hat₁).text _).finish hs.1 hcD) (reachable_insert hreach₁)
    (fun u hu => subset_closure (.inr hu))
  refine ⟨D', p', hat', hreach'.trans span_append, ?_, fun r hr =>
    ⟨_, (ItemsTo.loop hkind hsuccs hbody).append (ItemsTo.others hitems), hends' r hr⟩⟩
  rw [hos', addSuccs, hquiet, hos₁, List.append_nil, List.append_assoc]

theorem not_silent_of_null {y : ScopeId} (hitems : (g y).items = [nullItem]) : ¬Silent g y := by
  unfold Silent
  rw [hitems]
  exact List.cons_ne_nil _ _

theorem low_of_null {y : ScopeId} (hitems : (g y).items = [nullItem]) (hL : (g y).level = L) :
    Low g (L + 1) y :=
  Descends.low (not_silent_of_null hitems) (Nat.lt_succ_of_le hL.le)

/-- The condition of a loop visited again, of which nothing is printed. -/
theorem Prints.condition {y : ScopeId} {before again : List ScopeId} (hp : Prints g E o n rest)
    (level : Nat) (noExit : Bool) (hg : Linked g n) (hitems : (g y).items = [nullItem]) (hL : (g y).level = L)
    (hsuccs : (g y).succs = [x]) (hown : Own g again y)
    (hagain : ∀ u ∈ again, u ∈ closure (Edge g) (Silent g) base)
    (h : Follows g true rest L before x k F
      (fun x F => Shape g E rest L x (g x).items k jumps F))
    (hbefore : ∀ u ∈ before, u = y ∨ u ∈ closure (Edge g) (Silent g) base)
    (hf : Fits g L V base k jumps (y :: F)) (hat : At g n V D q)
    (hbase : reachable g D = closure (Edge g) (Silent g) base)
    (hy : ∀ z, SilentPath (Edge g) (Silent g) z y → L ≤ (g z).level)
    (hx : x ∈ F → ∀ z, SilentPath (Edge g) (Silent g) z x → L ≤ (g z).level) :
    Continues g o n L noExit level V base (y :: F) (rest.lines E o level) q := by
  have hloud := not_silent_of_null hitems
  have hchain : Chained g y F := by
    rcases h with ⟨-, -, rfl⟩ | ⟨-, -, hownx, -, F', rfl, h⟩
    · exact fun w hw => absurd hw List.not_mem_nil
    · intro w hw
      rcases List.mem_cons.mp hw with rfl | hw
      · refine ⟨y, List.mem_cons_self, hownx.alive, ?_⟩
        rw [hsuccs]
        exact List.mem_cons_self
      · obtain ⟨u, hu, hedge⟩ := h.region.chained w hw
        exact ⟨u, List.mem_cons_of_mem y hu, hedge⟩
  have hquiet : (fun level => itemsLines level [nullItem] ++ rest.lines E o level) =
    rest.lines E o := rfl
  have hscope : PrintsFrom g o n (closure (Edge g) (Silent g) base) L y (g y).items k jumps F
      (rest.lines E o) := by
    rw [hitems, ← hquiet]
    apply hp.then hg _ h hbefore fun _ => hx
    exact fun item hitem => List.mem_singleton.mp hitem ▸ rfl
  exact hscope.enter level noExit hg hf hat hbase hloud hL hown.entered
    (fun u hu => hagain u (hown.only u hu)) hchain (.inr hy) Set.Subset.rfl

/-- From the end of an iteration to the code after a loop. -/
theorem Transition.print {loops : Bool} {c : ScopeId} {before : List ScopeId}
    (h : Transition g loops L before t x F₁) (level : Nat) (noExit : Bool)
    (hp : Prints g E o n rest) (hg : Linked g n)
    (hr : Follows g true rest L (c :: before ++ F₁) x k F₂
      (fun x F => Shape g E rest L x (g x).items k jumps F))
    (hpart : Part g L {c} {x} (before ++ F₁)) (hloud : ¬Silent g c)
    (hf : Fits g L V base k jumps (F₁ ++ F₂)) (hat : At g n V D q)
    (hbase : reachable g D = closure (Edge g) (Silent g) base)
    (hbefore : ∀ u ∈ c :: before, u ∈ closure (Edge g) (Silent g) base) :
    Continues g o n L noExit level V base (F₁ ++ F₂) (rest.lines E o level) q := by
  have hexit : x ∈ F₂ → ∀ z, SilentPath (Edge g) (Silent g) z x → L ≤ (g z).level :=
    fun hx _ => hr.silent_levels hpart hloud hx
  unfold Transition at h
  split at h
  · obtain ⟨y, rfl, hown, hs, -, hsuccs, hown', hitems, hL, hsuccs'⟩ := h
    obtain ⟨u, hu⟩ := hown.entered
    have ht : t ∈ closure (Edge g) (Silent g) base :=
      .silent hs hu fun u hu => hbefore u (List.mem_cons_of_mem c (hown.only u hu))
    unfold Continues
    rw [List.cons_append, span_cons ht]
    apply hp.condition level noExit hg hitems hL hsuccs' hown' ?_ hr ?_ (hf.tail ht) hat hbase ?_ hexit
    · exact fun u hu => List.mem_singleton.mp hu ▸ ht
    · intro u hu
      rcases List.mem_append.mp hu with hu | hu
      · exact .inr (hbefore u hu)
      · rcases List.mem_pair.mp hu with rfl | rfl
        · exact .inr ht
        · exact .inl rfl
    · intro z hz
      apply hpart.silent_levels hloud ?_ hL.ge hz
      intro u hu
      apply List.mem_cons_of_mem c (List.mem_append_right before _)
      exact List.mem_singleton.mp (hown'.only u hu) ▸ List.mem_cons_self
  · obtain ⟨rfl, rfl⟩ := h
    rw [List.append_nil] at hr
    exact hp.follow level noExit hg hr hf hat hbase hbefore hexit

theorem DoCondition.print {loops : Bool} {c : ScopeId} {before : List ScopeId}
    (h : DoCondition g loops L before t x F₁) (level : Nat) (noExit : Bool)
    (hp : Prints g E o n rest) (hg : Linked g n)
    (hr : Follows g true rest L (c :: before ++ F₁) x k F₂
      (fun x F => Shape g E rest L x (g x).items k jumps F))
    (hpart : Part g L {c} {x} (before ++ F₁)) (hloud : ¬Silent g c)
    (hf : Fits g L V base k jumps (F₁ ++ F₂)) (hat : At g n V D q)
    (hbase : reachable g D = closure (Edge g) (Silent g) base)
    (hbefore : ∀ u ∈ c :: before, u ∈ closure (Edge g) (Silent g) base) :
    Continues g o n L noExit level V base (F₁ ++ F₂) (rest.lines E o level) q := by
  have hexit : x ∈ F₂ → ∀ z, SilentPath (Edge g) (Silent g) z x → L ≤ (g z).level :=
    fun hx _ => hr.silent_levels hpart hloud hx
  unfold DoCondition at h
  split at h
  · obtain ⟨rfl, hown, hitems, hL, hsuccs⟩ := h
    apply hp.condition level noExit hg hitems hL hsuccs hown ?_ hr ?_ hf hat hbase ?_ hexit
    · exact fun u hu => hbefore u (List.mem_cons_of_mem c hu)
    · intro u hu
      rcases List.mem_append.mp hu with hu | hu
      · exact .inr (hbefore u hu)
      · exact .inl (List.mem_singleton.mp hu)
    · intro z hz
      apply hpart.silent_levels hloud ?_ hL.ge hz
      exact fun u hu => List.mem_cons_of_mem c (List.mem_append_left _ (hown.only u hu))
  · obtain ⟨rfl, rfl⟩ := h
    rw [List.append_nil] at hr
    exact hp.follow level noExit hg hr hf hat hbase hbefore hexit

theorem Transition.low {loops : Bool} {before : List ScopeId}
    (h : Transition g loops L before t x F) (hx : Low g (L + 1) x) : Low g (L + 1) t := by
  unfold Transition at h
  split at h
  · obtain ⟨c, -, -, hs, -, hsuccs, -, hitems, hL, -⟩ := h
    apply Descends.silent hs
    intro w hw
    obtain rfl := List.mem_singleton.mp (edge_of_succs hw hsuccs)
    exact low_of_null hitems hL
  · exact h.1 ▸ hx

theorem DoCondition.low {loops : Bool} {before : List ScopeId}
    (h : DoCondition g loops L before t x F) (hx : Low g (L + 1) x) : Low g (L + 1) t := by
  unfold DoCondition at h
  split at h
  · obtain ⟨-, -, hitems, hL, -⟩ := h
    exact low_of_null hitems hL
  · exact h.1 ▸ hx

theorem prints_loop {ptr : StmtInfo.Ptr} (hg : Linked g n) (hb : Prints g E o n body)
    (hr : Prints g E o n rest) : Prints g E o n (loop ptr body rest) := by
  intro L s items k jumps F h
  apply h.prints hg
  intro c items F hc
  have hshape : Shape g E (loop ptr body rest) L c items k jumps F := .inl hc
  have hregion := hshape.region
  split at hc
  · rename_i hdead
    obtain ⟨x, rfl, -, hrest⟩ := hc
    have hitems : initItems E ptr ++ [nullItem] ≠ [] :=
      List.append_ne_nil_of_right_ne_nil _ (List.cons_ne_nil _ _)
    refine ⟨hitems, hregion, ?_⟩
    have hothers : ∀ item ∈ initItems E ptr ++ [nullItem], item.kind = .other := by
      intro item hitem
      rcases List.mem_append.mp hitem with hitem | hitem
      · obtain ⟨str, -, rfl⟩ := List.mem_map.mp hitem
        rfl
      · exact List.mem_singleton.mp hitem ▸ rfl
    have hlines : (loop ptr body rest).lines E o = fun level =>
        itemsLines level (initItems E ptr ++ [nullItem]) ++ rest.lines E o level := by
      funext level
      rw [Code.lines, if_pos hdead]
      simp [itemsLines, nullItem, stmtLines]
    rw [hlines]
    apply hr.then hg hothers hrest
    · exact fun u hu => .inl (List.mem_singleton.mp hu)
    · exact fun hsuffix hx _ =>
        hrest.silent_levels (T := ∅) .nil (not_silent_of_suffix hsuffix hitems) hx
  · rename_i hlive
    obtain ⟨e, b, t, x, Fb, Ft, Fr, rfl, hsuccs, hown, hs, hL, hsuccse, rfl, hbody, ht, hrest⟩ := hc
    refine ⟨List.cons_ne_nil _ _, hregion, ?_⟩
    have hlines : (loop ptr body rest).lines E o = fun level =>
        loopLines o (.loop (E.forExtrCntr ptr)) level (E.termStr ptr)
          (body.lines E o (level + 1)) ++ rest.lines E o level := by
      funext level
      rw [Code.lines, if_neg hlive]
    rw [hlines, List.append_assoc]
    obtain ⟨hpb, hsb⟩ := hbody.part fun b F => Shape.region
    obtain ⟨hpt, hst⟩ := ht.part
    have hpe := Part.singleton hown hL.ge (T := {b}) fun w hw =>
      List.mem_singleton.mp (edge_of_succs hw hsuccse)
    have hentry : Region g (L + 1) e t (some (x, t)) Fb := by
      constructor
      · exact hpb.mono (Nat.le_refl _) (fun u hu => .inl (List.mem_singleton.mp hu))
          fun w hw => .inr hw
      · intro w hw
        obtain rfl := List.mem_singleton.mp (edge_of_succs hw hsuccse)
        exact hsb.imp_right .inl
    have hnested : Part g L {c} (targets t (some (x, t))) (e :: Fb) :=
      (hentry.cons hown hL.ge).mono (Nat.le_succ L)
        (fun u hu => .inl (List.mem_singleton.mp hu)) fun w hw => .inr hw
    have hentered : ¬Silent g c →
        PrintsFrom g o n ∅ (L + 1) e (g e).items t (some (x, t)) Fb (body.lines E o) := by
      intro hloud
      rw [hs]
      apply Prints.then hb hg (fun item hitem => absurd hitem List.not_mem_nil) hbody
      · exact fun u hu => .inl (List.mem_singleton.mp hu)
      · intro _ hx z hz
        obtain ⟨hown', hL'⟩ := hbody.own hx
        apply (hpe.mono (Nat.le_refl _) (fun u hu => .inl (List.mem_singleton.mp hu))
          fun w hw => .inr hw).silent_levels hloud ?_ hL'.le hz
        exact fun u hu => List.mem_cons_of_mem c (hown'.only u hu)
    apply PrintsFrom.loop hentered hg hentry (.inr ⟨_, rfl⟩) (.inr rfl) hsuccs hown hL
    · intro hexits
      exact ⟨ht.low (hrest.low hexits), hrest.low hexits⟩
    · intro hloud V D base q level noExit hf hat hbase hbefore
      exact ht.print level noExit hr hg hrest (hnested.iteration hpt hst) hloud hf hat hbase hbefore

theorem prints_doWhile {ptr : StmtInfo.Ptr} (hg : Linked g n) (hb : Prints g E o n body)
    (hr : Prints g E o n rest) : Prints g E o n (doWhile ptr body rest) := by
  intro L s items k jumps F h
  apply h.prints hg
  intro c items F hc
  have hshape : Shape g E (doWhile ptr body rest) L c items k jumps F := .inl hc
  have hregion := hshape.region
  obtain ⟨b, t, x, Fb, Ft, Fr, rfl, hsuccs, hown, hL, rfl, hbody, ht, hrest⟩ := hc
  refine ⟨List.cons_ne_nil _ _, hregion, ?_⟩
  have hlines : (doWhile ptr body rest).lines E o = fun level =>
      loopLines o .doStmt level (E.termStr ptr) (body.lines E o (level + 1)) ++
        rest.lines E o level := rfl
  rw [hlines, List.append_assoc]
  obtain ⟨hpt, hst⟩ := ht.part
  have hnested : Part g L {c} (targets t (some (x, t))) (b :: Fb) :=
    (hbody.region.cons hown hL.ge).mono (Nat.le_succ L)
      (fun u hu => .inl (List.mem_singleton.mp hu)) fun w hw => .inr hw
  apply PrintsFrom.loop (fun _ => hb hbody) hg hbody.region (.inl rfl) (.inl rfl) hsuccs hown hL
  · intro hexits
    exact ⟨ht.low (hrest.low hexits), hrest.low hexits⟩
  · intro hloud V D base q level noExit hf hat hbase hbefore
    exact ht.print level noExit hr hg hrest (hnested.iteration hpt hst) hloud hf hat hbase hbefore

/-- Every graph of this shape prints the text of the code. -/
theorem prints_code (hg : Linked g n) (code : Code) : Prints g E o n code := by
  induction code with
  | done =>
    intro L s items k jumps F h
    obtain ⟨rfl, -, rfl⟩ := h
    exact PrintsFrom.others fun item hitem => absurd hitem List.not_mem_nil
  | stmt ptr rest ih =>
    intro L s items k jumps F h
    obtain ⟨items', rfl, h⟩ := h
    intro V D p level noExit hf hat hB hsuffix
    have hitems : ∀ item ∈ stmtItems E ptr, item.kind = .other := by
      intro item hitem
      unfold stmtItems at hitem
      split at hitem
      · obtain ⟨str, -, rfl⟩ := List.mem_map.mp hitem
        rfl
      · exact absurd hitem List.not_mem_nil
    obtain ⟨D', p', hat', hreach, hos, hends⟩ := ih h level noExit hf
      (hat.text (p.os ++ itemsLines level (stmtItems E ptr))) hB
      ((List.suffix_append _ _).trans hsuffix)
    refine ⟨D', p', hat', hreach, ?_, fun r hr =>
      EndsScope.append (ItemsTo.others hitems) (hends r hr)⟩
    rw [hos, List.append_assoc]
    rfl
  | ifStmt ptr thenBody elseBody rest iht ihe ih => exact prints_ifStmt hg iht ihe ih
  | loop ptr body rest ihb ih => exact prints_loop hg ihb ih
  | doWhile ptr body rest ihb ih => exact prints_doWhile hg ihb ih
  | breakStmt ptr rest | continueStmt ptr rest =>
    intro L s items k jumps F h
    obtain ⟨rfl, rfl, -⟩ := h
    exact PrintsFrom.jump

/-- The graph stands for the code after its first scope, which is empty. -/
structure Stands (g : Graph) (E : Env) (code : Code) (first x k : ScopeId)
    (F : List ScopeId) : Prop where
  silent : Silent g first
  succs : (g first).succs = [x]
  level : (g first).level = 0
  entry : ∀ u, ¬Edge g u first
  follows : Follows g true code 0 [first] x k F
    (fun x F => Shape g E code 0 x (g x).items k none F)
  nodup : (first :: F).Nodup
  exit : Silent g k
  ends : (g k).succs = []

/-- The text of the whole graph is that of the code. -/
theorem Stands.printAllScopes {first : ScopeId} (h : Stands g E code first x k F)
    (hg : Linked g n) (hfirst : first < n) (o : Options) (level : Nat) :
    ∃ least, ∀ fuel ≥ least,
      printAllScopes g o fuel first level = some (code.lines E o level) := by
  have hexits : ∀ w ∈ targets k none, Low g 0 w := by
    rintro w (rfl | ⟨_, _, hj, -⟩)
    · apply Descends.silent h.exit
      intro t ht
      exact absurd (edge_of_succs ht h.ends) List.not_mem_nil
    · cases hj
  obtain ⟨hpart, hx⟩ := h.follows.part fun x F => Shape.region
  have hregion : Region g 0 first k none F := by
    constructor
    · exact hpart.mono (Nat.le_refl 0) (fun u hu => .inl (List.mem_singleton.mp hu))
        fun w hw => .inr hw
    · intro w hw
      obtain rfl := List.mem_singleton.mp (edge_of_succs hw h.succs)
      exact hx.imp_right .inl
  have hothers : OthersLower g ∅ (span g ∅ (first :: F)) ∅ 0 := hregion.othersLower hexits
  have hstart : At g n ∅ ∅ ⟨[], ∅, []⟩ :=
    ⟨Sound.nil, fun _ _ => rfl, rfl, Finset.disjoint_empty_right _,
      fun t ht => absurd ht (Finset.notMem_empty t), Finset.empty_subset _⟩
  have henter := hstart.enter (Finset.notMem_empty first) (fun u hu => absurd hu (h.entry u)) hfirst
  have hfits : Fits g 0 ∅ ↑(∅ : Finset ScopeId) k none (first :: F) := by
    refine ⟨fun t ht => absurd ht (Finset.notMem_empty t), fun w _ => ?_, h.nodup, hexits, ?_⟩
    · exact ⟨Finset.notMem_empty w, Finset.notMem_empty w⟩
    · rw [Finset.coe_empty]
      exact hothers
  have hprints : PrintsFrom g o n ∅ 0 first (g first).items k none F (code.lines E o) := by
    rw [h.silent]
    apply (prints_code hg code).then hg (fun item hitem => absurd hitem List.not_mem_nil) h.follows
    · exact fun u hu => .inl (List.mem_singleton.mp hu)
    · exact fun _ _ z _ => Nat.zero_le _
  obtain ⟨D₁, p₁, hat₁, hreach, hos, hends⟩ :=
    hprints level true hfits henter (Set.empty_subset _) List.suffix_rfl
  rw [Finset.coe_empty] at hreach
  have hexit : true = true → 0 = 0 := fun _ => rfl
  obtain ⟨D₂, r, -, -, hos₂, hend⟩ := hat₁.leave o level hg hexit (by rw [hreach]; exact hothers)
  obtain ⟨least, hleast⟩ := (hends r hend).printScopes
  refine ⟨least, fun fuel hfuel => ?_⟩
  rw [ScopeGraph.printAllScopes, printCurrentScope, h.level, printScopes_mono hfuel hleast,
    Option.map_some, hos₂, hos]
  rfl

end SystemcCompiler.ScopeGraph
