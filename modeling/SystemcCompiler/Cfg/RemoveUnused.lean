import Mathlib.Data.Finset.Card
import Mathlib.Data.Finset.Image
import Mathlib.Data.Finset.Option
import Mathlib.Data.Fintype.Basic
import SystemcCompiler.Library.Slice

/-! Removal of statements whose results are not used. The maps of variables to
their defining and using statements are finite relations; no statement stands
for the null statement of a terminator with constant condition. -/
namespace SystemcCompiler.Cfg

/-- Kinds of statement that `removeUnusedStmt` tells apart. The call kinds are
overloaded operators, `bindIncDec` is one bound to a temporary. -/
inductive StmtKind where
  | incDec
  | bindIncDec
  | callIncDec
  | callCompound
  | compound
  | other
  deriving DecidableEq

def StmtKind.isIncDec : StmtKind → Bool
  | .incDec | .bindIncDec | .callIncDec => true
  | _ => false

def StmtKind.isCompound : StmtKind → Bool
  | .callCompound | .compound => true
  | _ => false

/-- What constant propagation has recorded of a process. `useKey` takes a field
of a modular interface array to its first element, `refVar` a reference to the
variable it refers to, `fixed` are pointers, records and record fields. -/
structure Recording (V S : Type) [DecidableEq V] [DecidableEq S] where
  defVarStmts : Finset (V × Option S)
  useVarStmts : Finset (V × Option S)
  liveStmts : Finset S
  simpleStmts : Finset S
  refDeclStmts : Finset (V × S)
  refArgStmts : Finset (V × S)
  kind : S → StmtKind
  useKey : V → V
  refVar : V → V
  isChan : V → Bool
  fixed : V → Bool
  def_live : ∀ v s, (v, some s) ∈ defVarStmts → s ∈ liveStmts
  use_live : ∀ v s, (v, some s) ∈ useVarStmts → s ∈ liveStmts
  /-- A statement that writes a channel is required. -/
  chan_required : ∀ v s, isChan v → (v, some s) ∈ defVarStmts → s ∉ simpleStmts
  chan_refDecl : ∀ v s r, isChan v → (v, some s) ∈ defVarStmts → (r, s) ∉ refDeclStmts

/-- What the removal changes. -/
structure Removal (V S : Type) where
  defVarStmts : Finset (V × Option S)
  useVarStmts : Finset (V × Option S)
  liveStmts : Finset S
  removedArgExprs : Finset S
  deriving DecidableEq

namespace Recording
variable {V S : Type} [DecidableEq V] [DecidableEq S]

def start (m : Recording V S) : Removal V S :=
  ⟨m.defVarStmts, m.useVarStmts, m.liveStmts, ∅⟩

/-- The use is skipped by `isUsed`. Only a compound assignment is checked to
define the variable. -/
def ignoresUse (m : Recording V S) (r : Removal V S) (v : V) : Option S → Bool
  | none => false
  | some s => (m.kind s).isIncDec || (m.kind s).isCompound && (v, some s) ∈ r.defVarStmts

/-- Used variables with the same key. -/
def usedMifVals (m : Recording V S) (r : Removal V S) (v : V) : Finset V :=
  (r.useVarStmts.filter fun p => m.useKey p.1 = m.useKey v).image Prod.fst

def isUsed (m : Recording V S) (r : Removal V S) (v : V) : Bool :=
  ((m.usedMifVals r v).Nonempty ∧ (1 < (m.usedMifVals r v).card ∨ v ∉ m.usedMifVals r v)) ∨
    ∃ p ∈ r.useVarStmts, p.1 = v ∧ m.ignoresUse r v p.2 = false

/-- The variable is passed to a reference parameter. -/
def isRefArg (m : Recording V S) (v : V) : Bool :=
  v ∈ m.refArgStmts.image Prod.fst

def usedRefDefStmts (m : Recording V S) (r : Removal V S) : Finset (Option S) :=
  (r.defVarStmts.filter fun p => m.isRefArg p.1 ∧ m.isUsed r p.1).image Prod.snd

/-- A definition of the variable is required. The null statement always is. -/
def hasReqStmt (m : Recording V S) (r : Removal V S) (v : V) : Bool :=
  ∃ p ∈ r.defVarStmts, p.1 = v ∧ ∀ s ∈ m.simpleStmts, p.2 ≠ some s

def keeps (m : Recording V S) (r : Removal V S) (v : V) : Bool :=
  m.isUsed r v ∨ (m.isRefArg v ∧ ∃ p ∈ r.defVarStmts, p.1 = v ∧ p.2 ∈ m.usedRefDefStmts r) ∨
    m.isChan v ∨ m.fixed v ∨ m.hasReqStmt r v

/-- Variables that lose their definitions in this round. -/
def removedVars (m : Recording V S) (r : Removal V S) : Finset V :=
  (r.defVarStmts.image Prod.fst).filter fun v => m.keeps r v = false

/-- The definitions of these variables and the declarations of references to them. -/
def removeStmts (m : Recording V S) (r : Removal V S) : Finset S :=
  ((r.defVarStmts.filter fun p => p.1 ∈ m.removedVars r).image Prod.snd).eraseNone ∪
    (m.refDeclStmts.filter fun p => m.refVar p.1 ∈ m.removedVars r).image Prod.snd

/-- One pass of the loop with statements to remove. -/
def round (m : Recording V S) (r : Removal V S) : Removal V S where
  defVarStmts := r.defVarStmts.filter fun p => p.1 ∉ m.removedVars r
  useVarStmts := r.useVarStmts.filter fun p => ∀ s ∈ m.removeStmts r, p.2 ≠ some s
  liveStmts := r.liveStmts \ m.removeStmts r
  removedArgExprs := r.removedArgExprs ∪
    (m.refArgStmts.filter fun p => p.1 ∈ m.removedVars r).image Prod.snd

/-- The loop, `none` if it has not ended within the given number of passes. -/
def loop (m : Recording V S) : Nat → Removal V S → Option (Removal V S)
  | 0, _ => none
  | n + 1, r => if m.removeStmts r = ∅ then some r else m.loop n (m.round r)

def removeUnusedStmt (m : Recording V S) (passes : Nat) : Option (Removal V S) :=
  m.loop passes m.start

/-- Removed together with the definitions of the variable. -/
def RemovedWith (m : Recording V S) (v : V) (d : S) : Prop :=
  (v, some d) ∈ m.defVarStmts ∨
    (∃ s, (v, s) ∈ m.defVarStmts) ∧ ∃ x, (x, d) ∈ m.refDeclStmts ∧ m.refVar x = v

/-- The recording as if only these statements and the null statement had uses. -/
def restrict (m : Recording V S) (A : Finset S) : Removal V S where
  defVarStmts := m.defVarStmts
  useVarStmts := m.useVarStmts.filter fun p => p.2 ∈ A.insertNone
  liveStmts := A
  removedArgExprs := ∅

/-- The uses within the set are reason enough to keep each of its statements. -/
def Justified (m : Recording V S) (A : Finset S) : Prop :=
  A ⊆ m.liveStmts ∧ ∀ v, ∀ d ∈ A, m.RemovedWith v d → m.keeps (m.restrict A) v = true

theorem isUsed_iff (m : Recording V S) (r : Removal V S) (v : V) :
    m.isUsed r v = true ↔
      (∃ w s, w ≠ v ∧ (w, s) ∈ r.useVarStmts ∧ m.useKey w = m.useKey v) ∨
        ∃ s, (v, s) ∈ r.useVarStmts ∧ m.ignoresUse r v s = false := by
  have hmem : ∀ w, w ∈ m.usedMifVals r v ↔
      ∃ s, (w, s) ∈ r.useVarStmts ∧ m.useKey w = m.useKey v := by
    intro w
    simp [usedMifVals]
  have hother : ((m.usedMifVals r v).Nonempty ∧
      (1 < (m.usedMifVals r v).card ∨ v ∉ m.usedMifVals r v)) ↔ ∃ w ∈ m.usedMifVals r v, w ≠ v := by
    constructor
    · rintro ⟨⟨w, hw⟩, hcard | hv⟩
      · exact Finset.exists_mem_ne hcard v
      · exact ⟨w, hw, fun h => hv (h ▸ hw)⟩
    · rintro ⟨w, hw, hne⟩
      refine ⟨⟨w, hw⟩, ?_⟩
      by_cases hv : v ∈ m.usedMifVals r v
      · exact .inl (Finset.one_lt_card.mpr ⟨w, hw, v, hv, hne⟩)
      · exact .inr hv
  simp only [isUsed, hother, decide_eq_true_eq]
  constructor
  · rintro (⟨w, hw, hne⟩ | ⟨⟨w, s⟩, hs, rfl, hi⟩)
    · obtain ⟨s, hs, hk⟩ := (hmem w).mp hw
      exact .inl ⟨w, s, hne, hs, hk⟩
    · exact .inr ⟨s, hs, hi⟩
  · rintro (⟨w, s, hne, hs, hk⟩ | ⟨s, hs, hi⟩)
    · exact .inl ⟨w, (hmem w).mpr ⟨s, hs, hk⟩, hne⟩
    · exact .inr ⟨(v, s), hs, rfl, hi⟩

theorem mem_usedRefDefStmts (m : Recording V S) (r : Removal V S) (s : Option S) :
    s ∈ m.usedRefDefStmts r ↔
      ∃ v, (v, s) ∈ r.defVarStmts ∧ m.isRefArg v = true ∧ m.isUsed r v = true := by
  simp [usedRefDefStmts]

theorem keeps_iff (m : Recording V S) (r : Removal V S) (v : V) :
    m.keeps r v = true ↔ m.isUsed r v = true ∨
      (m.isRefArg v = true ∧ ∃ s, (v, s) ∈ r.defVarStmts ∧ s ∈ m.usedRefDefStmts r) ∨
        m.isChan v = true ∨ m.fixed v = true ∨ m.hasReqStmt r v = true := by
  simp [keeps]

theorem hasReqStmt_iff (m : Recording V S) (r : Removal V S) (v : V) :
    m.hasReqStmt r v = true ↔ ∃ s, (v, s) ∈ r.defVarStmts ∧ ∀ t ∈ m.simpleStmts, s ≠ some t := by
  simp [hasReqStmt]

theorem mem_restrict (m : Recording V S) (A : Finset S) (v : V) (s : Option S) :
    (v, s) ∈ (m.restrict A).useVarStmts ↔ (v, s) ∈ m.useVarStmts ∧ s ∈ A.insertNone := by
  simp [restrict]

theorem isUsed_mono (m : Recording V S) {A B : Finset S} (h : A ⊆ B) {v : V}
    (hu : m.isUsed (m.restrict A) v = true) : m.isUsed (m.restrict B) v = true := by
  have hsub : ∀ w s, (w, s) ∈ (m.restrict A).useVarStmts → (w, s) ∈ (m.restrict B).useVarStmts := by
    intro w s hs
    rw [mem_restrict] at hs ⊢
    exact ⟨hs.1, Finset.insertNone.monotone h hs.2⟩
  rw [isUsed_iff] at hu ⊢
  rcases hu with ⟨w, s, hne, hs, hk⟩ | ⟨s, hs, hi⟩
  · exact .inl ⟨w, s, hne, hsub w s hs, hk⟩
  · exact .inr ⟨s, hsub v s hs, hi⟩

/-- More remaining statements keep more variables. -/
theorem keeps_mono (m : Recording V S) {A B : Finset S} (h : A ⊆ B) {v : V}
    (hk : m.keeps (m.restrict A) v = true) : m.keeps (m.restrict B) v = true := by
  rw [keeps_iff] at hk ⊢
  rcases hk with hu | ⟨ha, s, hs, hd⟩ | hc | hf | hr
  · exact .inl (m.isUsed_mono h hu)
  · rw [mem_usedRefDefStmts] at hd
    obtain ⟨w, hw, hwa, hwu⟩ := hd
    refine .inr (.inl ⟨ha, s, hs, ?_⟩)
    rw [mem_usedRefDefStmts]
    exact ⟨w, hw, hwa, m.isUsed_mono h hwu⟩
  · exact .inr (.inr (.inl hc))
  · exact .inr (.inr (.inr (.inl hf)))
  · exact .inr (.inr (.inr (.inr hr)))

/-- What holds before every pass of the loop. -/
structure Consistent (m : Recording V S) (r : Removal V S) : Prop where
  use_eq : r.useVarStmts = (m.restrict r.liveStmts).useVarStmts
  live_sub : r.liveStmts ⊆ m.liveStmts
  def_sub : r.defVarStmts ⊆ m.defVarStmts
  def_whole : ∀ v s t, (v, t) ∈ r.defVarStmts → (v, s) ∈ m.defVarStmts → (v, s) ∈ r.defVarStmts
  erased : ∀ v s, (v, s) ∈ m.defVarStmts → (v, s) ∉ r.defVarStmts →
    m.keeps (m.restrict r.liveStmts) v = false ∧ ∀ d, m.RemovedWith v d → d ∉ r.liveStmts
  gone : ∀ d ∈ m.liveStmts, d ∉ r.liveStmts →
    ∃ v, m.RemovedWith v d ∧ m.keeps (m.restrict r.liveStmts) v = false
  largest : ∀ A, m.Justified A → A ⊆ r.liveStmts

namespace Consistent
variable {m : Recording V S} {r : Removal V S}

theorem start (m : Recording V S) : Consistent m m.start where
  use_eq := by
    ext ⟨v, s⟩
    rw [mem_restrict]
    constructor
    · intro h
      refine ⟨h, ?_⟩
      rw [Finset.mem_insertNone]
      intro t ht
      cases ht
      exact m.use_live v t h
    · exact And.left
  live_sub := Finset.Subset.refl _
  def_sub := Finset.Subset.refl _
  def_whole _ _ _ _ h := h
  erased _ _ h hn := absurd h hn
  gone _ h hn := absurd h hn
  largest _ h := h.1

theorem mem_def (h : Consistent m r) {v : V} {t : Option S} (ht : (v, t) ∈ r.defVarStmts)
    (s : Option S) : (v, s) ∈ r.defVarStmts ↔ (v, s) ∈ m.defVarStmts :=
  ⟨fun hs => h.def_sub hs, h.def_whole v s t ht⟩

theorem isUsed_eq (h : Consistent m r) {v : V} {t : Option S} (ht : (v, t) ∈ r.defVarStmts) :
    m.isUsed r v = m.isUsed (m.restrict r.liveStmts) v := by
  have hi : ∀ s, m.ignoresUse r v s = m.ignoresUse (m.restrict r.liveStmts) v s := by
    intro s
    cases s with
    | none => rfl
    | some s => simp only [ignoresUse, h.mem_def ht]; rfl
  rw [Bool.eq_iff_iff, isUsed_iff, isUsed_iff, ← h.use_eq]
  simp only [hi]

/-- An erased variable is not used, so that the statements of used reference
arguments are found in what is left of the definitions. -/
theorem mem_usedRefDefStmts_iff (h : Consistent m r) (s : Option S) :
    s ∈ m.usedRefDefStmts r ↔ s ∈ m.usedRefDefStmts (m.restrict r.liveStmts) := by
  rw [mem_usedRefDefStmts, mem_usedRefDefStmts]
  constructor
  · rintro ⟨w, hw, ha, hu⟩
    exact ⟨w, h.def_sub hw, ha, h.isUsed_eq hw ▸ hu⟩
  · rintro ⟨w, hw, ha, hu⟩
    have hin : (w, s) ∈ r.defVarStmts := by
      by_contra hout
      have hk := (h.erased w s hw hout).1
      have : m.keeps (m.restrict r.liveStmts) w = true := (m.keeps_iff _ _).mpr (.inl hu)
      rw [hk] at this
      exact Bool.false_ne_true this
    exact ⟨w, hin, ha, (h.isUsed_eq hin).trans hu⟩

theorem keeps_eq (h : Consistent m r) {v : V} {t : Option S} (ht : (v, t) ∈ r.defVarStmts) :
    m.keeps r v = m.keeps (m.restrict r.liveStmts) v := by
  rw [Bool.eq_iff_iff, keeps_iff, keeps_iff, hasReqStmt_iff, hasReqStmt_iff, h.isUsed_eq ht]
  simp only [h.mem_def ht, h.mem_usedRefDefStmts_iff]
  rfl

theorem mem_removedVars (h : Consistent m r) (v : V) :
    v ∈ m.removedVars r ↔
      (∃ s, (v, s) ∈ r.defVarStmts) ∧ m.keeps (m.restrict r.liveStmts) v = false := by
  simp only [removedVars, Finset.mem_filter, Finset.mem_image, Prod.exists, exists_and_right,
    exists_eq_right]
  constructor
  · rintro ⟨⟨s, hs⟩, hk⟩
    exact ⟨⟨s, hs⟩, h.keeps_eq hs ▸ hk⟩
  · rintro ⟨⟨s, hs⟩, hk⟩
    exact ⟨⟨s, hs⟩, (h.keeps_eq hs).trans hk⟩

theorem mem_removeStmts (h : Consistent m r) (d : S) :
    d ∈ m.removeStmts r ↔ ∃ v ∈ m.removedVars r, m.RemovedWith v d := by
  simp only [removeStmts, Finset.mem_union, Finset.mem_eraseNone, Finset.mem_image,
    Finset.mem_filter, Prod.exists, exists_eq_right]
  constructor
  · rintro (⟨v, hd, hv⟩ | ⟨x, hx, hv⟩)
    · exact ⟨v, hv, .inl (h.def_sub hd)⟩
    · obtain ⟨s, hs⟩ := ((h.mem_removedVars _).mp hv).1
      exact ⟨m.refVar x, hv, .inr ⟨⟨s, h.def_sub hs⟩, x, hx, rfl⟩⟩
  · rintro ⟨v, hv, hd | ⟨-, x, hx, rfl⟩⟩
    · obtain ⟨s, hs⟩ := ((h.mem_removedVars v).mp hv).1
      exact .inl ⟨v, h.def_whole v _ s hs hd, hv⟩
    · exact .inr ⟨x, hx, hv⟩

theorem round (h : Consistent m r) : Consistent m (m.round r) := by
  have hsub : (m.round r).liveStmts ⊆ r.liveStmts := Finset.sdiff_subset
  have hfalse : ∀ v, m.keeps (m.restrict r.liveStmts) v = false →
      m.keeps (m.restrict (m.round r).liveStmts) v = false := by
    intro v hv
    by_contra hk
    have := m.keeps_mono hsub (eq_true_of_ne_false hk)
    rw [hv] at this
    exact Bool.false_ne_true this
  have hdef : ∀ v s, (v, s) ∈ (m.round r).defVarStmts ↔
      (v, s) ∈ r.defVarStmts ∧ v ∉ m.removedVars r := by
    intro v s
    simp [Recording.round]
  constructor
  · ext ⟨v, s⟩
    simp only [Recording.round, Finset.mem_filter, h.use_eq, mem_restrict, and_assoc]
    refine and_congr_right fun _ => ?_
    cases s with
    | none => simp
    | some t => simp [Finset.mem_sdiff]
  · exact hsub.trans h.live_sub
  · intro p hp
    exact h.def_sub ((hdef p.1 p.2).mp hp).1
  · intro v s t ht hs
    rw [hdef] at ht ⊢
    exact ⟨h.def_whole v s t ht.1 hs, ht.2⟩
  · intro v s hs hn
    rw [hdef] at hn
    by_cases hr : (v, s) ∈ r.defVarStmts
    · have hv : v ∈ m.removedVars r := by
        by_contra hv
        exact hn ⟨hr, hv⟩
      refine ⟨hfalse v ((h.mem_removedVars v).mp hv).2, ?_⟩
      intro d hd hlive
      exact (Finset.mem_sdiff.mp hlive).2 ((h.mem_removeStmts d).mpr ⟨v, hv, hd⟩)
    · have herased := h.erased v s hs hr
      exact ⟨hfalse v herased.1, fun d hd hlive => herased.2 d hd (hsub hlive)⟩
  · intro d hd hn
    by_cases hr : d ∈ r.liveStmts
    · have hrem : d ∈ m.removeStmts r := by
        by_contra hrem
        exact hn (Finset.mem_sdiff.mpr ⟨hr, hrem⟩)
      obtain ⟨v, hv, hw⟩ := (h.mem_removeStmts d).mp hrem
      exact ⟨v, hw, hfalse v ((h.mem_removedVars v).mp hv).2⟩
    · obtain ⟨v, hw, hk⟩ := h.gone d hd hr
      exact ⟨v, hw, hfalse v hk⟩
  · intro A hA d hd
    have hAr := h.largest A hA
    refine Finset.mem_sdiff.mpr ⟨hAr hd, ?_⟩
    intro hrem
    obtain ⟨v, hv, hw⟩ := (h.mem_removeStmts d).mp hrem
    -- a justified set keeps the variable, and what remains is no smaller
    have hk := m.keeps_mono hAr (hA.2 v d hd hw)
    rw [((h.mem_removedVars v).mp hv).2] at hk
    exact Bool.false_ne_true hk

theorem justified (h : Consistent m r) (hstop : m.removeStmts r = ∅) :
    m.Justified r.liveStmts := by
  refine ⟨h.live_sub, ?_⟩
  intro v d hd hw
  by_contra hk
  have hk := eq_false_of_ne_true hk
  have hdef : ∃ s, (v, s) ∈ m.defVarStmts := by
    rcases hw with hw | hw
    · exact ⟨_, hw⟩
    · exact hw.1
  obtain ⟨s, hs⟩ := hdef
  by_cases hr : (v, s) ∈ r.defVarStmts
  · have hmem : d ∈ m.removeStmts r :=
      (h.mem_removeStmts d).mpr ⟨v, (h.mem_removedVars v).mpr ⟨⟨s, hr⟩, hk⟩, hw⟩
    rw [hstop] at hmem
    exact absurd hmem (Finset.notMem_empty d)
  · exact (h.erased v s hs hr).2 d hw hd

/-- A pass that removes a statement erases a variable. -/
theorem round_card (h : Consistent m r) (hgo : m.removeStmts r ≠ ∅) :
    (m.round r).defVarStmts.card < r.defVarStmts.card := by
  obtain ⟨d, hd⟩ := Finset.nonempty_iff_ne_empty.mpr hgo
  obtain ⟨v, hv, -⟩ := (h.mem_removeStmts d).mp hd
  obtain ⟨s, hs⟩ := ((h.mem_removedVars v).mp hv).1
  apply Finset.card_lt_card
  apply (Finset.ssubset_iff_of_subset (Finset.filter_subset _ _)).mpr
  refine ⟨(v, s), hs, ?_⟩
  simp [hv]

end Consistent

theorem loop_consistent (m : Recording V S) (n : Nat) {r q : Removal V S} (h : Consistent m r)
    (hq : m.loop n r = some q) : Consistent m q ∧ m.removeStmts q = ∅ := by
  induction n generalizing r with
  | zero => cases hq
  | succ n ih =>
    unfold loop at hq
    split at hq
    · rename_i hstop
      cases hq
      exact ⟨h, hstop⟩
    · exact ih h.round hq

theorem loop_ends (m : Recording V S) (n : Nat) {r : Removal V S} (h : Consistent m r)
    (hn : r.defVarStmts.card < n) : ∃ q, m.loop n r = some q := by
  induction n generalizing r with
  | zero => omega
  | succ n ih =>
    unfold loop
    split
    · exact ⟨r, rfl⟩
    · rename_i hgo
      have := h.round_card hgo
      exact ih h.round (by omega)

theorem loop_le (m : Recording V S) {n k : Nat} (h : n ≤ k) {r q : Removal V S}
    (hq : m.loop n r = some q) : m.loop k r = some q := by
  induction n generalizing k r with
  | zero => cases hq
  | succ n ih =>
    cases k with
    | zero => omega
    | succ k =>
      unfold loop at hq ⊢
      split at hq
      · rename_i hstop
        rw [if_pos hstop, hq]
      · rename_i hgo
        rw [if_neg hgo]
        exact ih (by omega) hq

/-- A process of which all reads and writes have been recorded. A condition is
read by its terminator, which defines nothing. -/
structure Process (m : Recording V S) (ι P D : Type) extends Slice.Program ι P S V D where
  term : P → Option S
  reads_recorded : ∀ s v, v ∈ reads s → (v, some s) ∈ m.useVarStmts
  writes_recorded : ∀ s v, v ∈ writes s → (v, some s) ∈ m.defVarStmts
  cond_recorded : ∀ p v, v ∈ condReads p → (v, term p) ∈ m.useVarStmts
  term_required : ∀ p s v, term p = some s → ¬ m.RemovedWith v s

/-- Every definition of a variable read by a remaining statement remains. -/
def ReadersKept (m : Recording V S) (q : Removal V S) : Prop :=
  ∀ v t d, (v, t) ∈ m.useVarStmts → t ∈ q.liveStmts.insertNone → (v, some d) ∈ m.defVarStmts →
    d ∈ q.liveStmts

/-- Channels, the variables that remaining statements read and those that have
lost no definition. -/
def observed (m : Recording V S) (q : Removal V S) : Set V :=
  { v | m.isChan v ∨ (∃ t ∈ q.liveStmts.insertNone, (v, t) ∈ m.useVarStmts) ∨
    ∀ d, (v, some d) ∈ m.defVarStmts → d ∈ q.liveStmts }

/-- With and without the removal the process shows the same values after every step. -/
def SameBehaviour (m : Recording V S) (q : Removal V S) : Prop :=
  ∀ (ι P D : Type) (g : m.Process ι P D) (p : P) (e : V → D) (inputs : List ι),
    (g.machine (fun _ => True) (m.observed q)).trace (p, e) inputs =
      (g.machine (· ∈ q.liveStmts) (m.observed q)).trace (p, e) inputs

/-- A use that may outlive the definitions of its variable: `++` or `--` of
something else, or a definition that goes with another variable. -/
def AtRisk (m : Recording V S) (v : V) (t : Option S) : Prop :=
  (∃ s, t = some s ∧ (m.kind s).isIncDec = true ∧ (v, t) ∉ m.defVarStmts) ∨
    ∃ d u, u ≠ v ∧ (v, some d) ∈ m.defVarStmts ∧ m.RemovedWith u d

/-- Every justified set with a use at risk extends to one that has the
definitions of its variable as well. -/
def Supported (m : Recording V S) : Prop :=
  ∀ v t A, (v, t) ∈ m.useVarStmts → m.AtRisk v t → m.Justified A → t ∈ A.insertNone →
    ∃ B, m.Justified B ∧ A ⊆ B ∧ ∀ d, (v, some d) ∈ m.defVarStmts → d ∈ B

theorem supported_of_not_atRisk (m : Recording V S)
    (h : ∀ v t, (v, t) ∈ m.useVarStmts → ¬ m.AtRisk v t) : m.Supported := by
  intro v t _ hu hr
  exact absurd hr (h v t hu)

section Ended
variable {m : Recording V S} {q : Removal V S}

/-- A remaining use keeps its variable unless it is at risk. -/
theorem keeps_of_use (hc : Consistent m q) (hstop : m.removeStmts q = ∅) {v : V} {t : Option S}
    (hu : (v, t) ∈ m.useVarStmts) (ht : t ∈ q.liveStmts.insertNone) (hr : ¬ m.AtRisk v t) :
    m.keeps (m.restrict q.liveStmts) v = true := by
  by_cases hi : m.ignoresUse (m.restrict q.liveStmts) v t = false
  · refine (m.keeps_iff _ v).mpr (.inl ((m.isUsed_iff _ v).mpr (.inr ⟨t, ?_, hi⟩)))
    exact (m.mem_restrict _ v t).mpr ⟨hu, ht⟩
  · cases t with
    | none => exact absurd rfl hi
    | some s =>
      -- an ignored use that is not at risk defines the variable itself
      have hdef : (v, some s) ∈ m.defVarStmts := by
        by_contra hdef
        apply hi
        have hno : (m.kind s).isIncDec = false := by
          by_contra hk
          exact hr (.inl ⟨s, rfl, eq_true_of_ne_false hk, hdef⟩)
        simp [ignoresUse, hno, restrict, hdef]
      have hs : s ∈ q.liveStmts := by simpa using ht
      exact (hc.justified hstop).2 v s hs (.inl hdef)

theorem readersKept_of_supported (hc : Consistent m q) (hstop : m.removeStmts q = ∅)
    (h : m.Supported) : m.ReadersKept q := by
  intro v t d hu ht hd
  by_cases hr : m.AtRisk v t
  · obtain ⟨B, hB, -, hdefs⟩ := h v t q.liveStmts hu hr (hc.justified hstop) ht
    exact hc.largest B hB (hdefs d hd)
  · by_contra hgone
    obtain ⟨u, hw, hk⟩ := hc.gone d (m.def_live v d hd) hgone
    by_cases huv : u = v
    · rw [huv, keeps_of_use hc hstop hu ht hr] at hk
      exact Bool.false_ne_true hk.symm
    · exact hr (.inr ⟨d, u, huv, hd, hw⟩)

theorem supported_of_readersKept (hc : Consistent m q) (hstop : m.removeStmts q = ∅)
    (h : m.ReadersKept q) : m.Supported := by
  intro v t A hu _ hA ht
  refine ⟨q.liveStmts, hc.justified hstop, hc.largest A hA, ?_⟩
  intro d hd
  exact h v t d hu (Finset.insertNone.monotone (hc.largest A hA) ht) hd

/-- A channel loses no definition. -/
theorem chan_kept (hc : Consistent m q) {v : V} {d : S} (hv : m.isChan v = true)
    (hd : (v, some d) ∈ m.defVarStmts) : d ∈ q.liveStmts := by
  by_contra hgone
  obtain ⟨u, hw, hk⟩ := hc.gone d (m.def_live v d hd) hgone
  rcases hw with hw | ⟨-, x, hx, -⟩
  · have hreq : m.hasReqStmt (m.restrict q.liveStmts) u = true := by
      rw [hasReqStmt_iff]
      refine ⟨some d, hw, ?_⟩
      intro t ht heq
      cases heq
      exact m.chan_required v d hv hd ht
    have := (m.keeps_iff (m.restrict q.liveStmts) u).mpr (.inr (.inr (.inr (.inr hreq))))
    rw [hk] at this
    exact Bool.false_ne_true this
  · exact m.chan_refDecl v d x hv hd hx

theorem sameBehaviour_of_readersKept (hc : Consistent m q) (h : m.ReadersKept q) :
    m.SameBehaviour q := by
  intro ι P D g p e inputs
  apply g.slicing_trace
  intro s hs v hw hrel
  have hd := g.writes_recorded s v hw
  rcases hrel with (hchan | ⟨t, ht, hu⟩ | hall) | ⟨t, ht, hread⟩ | ⟨p, hcond⟩
  · exact hs (chan_kept hc hchan hd)
  · exact hs (h v t s hu ht hd)
  · exact hs (hall s hd)
  · exact hs (h v (some t) s (g.reads_recorded t v hread) (by simpa using ht) hd)
  · refine hs (h v (g.term p) s (g.cond_recorded p v hcond) ?_ hd)
    rw [Finset.mem_insertNone]
    intro t ht
    by_contra hgone
    have hu := g.cond_recorded p v hcond
    rw [ht] at hu
    obtain ⟨u, hw, -⟩ := hc.gone t (m.use_live v t hu) hgone
    exact g.term_required p t u ht hw

end Ended

/-- The loop ends, and what it leaves behaves as before exactly if no increment
or shared definition leaves a use without its definitions. -/
theorem removeUnusedStmt_preserves_iff (m : Recording V S) :
    ∃ q, (∀ n, m.defVarStmts.card < n → m.removeUnusedStmt n = some q) ∧
      ((m.ReadersKept q ∧ m.SameBehaviour q) ↔ m.Supported) := by
  obtain ⟨q, hq⟩ := m.loop_ends _ (Consistent.start m) (Nat.lt_succ_self m.defVarStmts.card)
  have hend := m.loop_consistent _ (Consistent.start m) hq
  refine ⟨q, fun n hn => m.loop_le hn hq, ?_⟩
  constructor
  · intro h
    exact supported_of_readersKept hend.1 hend.2 h.1
  · intro h
    have hkept := readersKept_of_supported hend.1 hend.2 h
    exact ⟨hkept, sameBehaviour_of_readersKept hend.1 hkept⟩

end Recording

/-! A method that uses a local only to select the array element to increment. -/
namespace IndexIncrement

inductive Var where
  | i
  | arr
  | out
  deriving DecidableEq

/-- `int i = in.read();`, `arr[i]++;` and `out.write(arr[0]);` -/
inductive Stmt where
  | decl
  | incr
  | write
  deriving DecidableEq

def recording : Recording Var Stmt where
  defVarStmts := {(.i, some .decl), (.arr, some .incr), (.out, some .write)}
  useVarStmts := {(.i, some .incr), (.arr, some .incr), (.arr, some .write)}
  liveStmts := {.decl, .incr, .write}
  simpleStmts := {.decl, .incr}
  refDeclStmts := ∅
  refArgStmts := ∅
  kind
    | .incr => .incDec
    | _ => .other
  useKey := id
  refVar := id
  isChan v := v = .out
  fixed _ := false
  def_live := by rintro (_ | _ | _) (_ | _ | _) <;> decide
  use_live := by rintro (_ | _ | _) (_ | _ | _) <;> decide
  chan_required := by rintro (_ | _ | _) (_ | _ | _) <;> decide
  chan_refDecl := by simp

def effect (s : Stmt) (input : Nat) (e : Var → List Nat) : Var → List Nat :=
  match s with
  | .decl => fun v => if v = .i then [input] else e v
  | .incr => fun v => if v = .arr then (e .arr).modify ((e .i).headD 0) (· + 1) else e v
  | .write => fun v => if v = .out then [(e .arr).headD 0] else e v

def process : recording.Process Nat Nat (List Nat) where
  stmt p := [Stmt.decl, .incr, .write][p]?
  effect := effect
  next p _ _ := p + 1
  reads s := { v | (v, some s) ∈ recording.useVarStmts }
  writes s := { v | (v, some s) ∈ recording.defVarStmts }
  condReads _ := ∅
  term _ := none
  effect_congr s i e f v hread hv := by
    cases s with
    | decl => simp only [effect, hv]
    | incr =>
      have hi : e .i = f .i := hread .i (by decide)
      simp only [effect, hv, hi]
      have harr : e .arr = f .arr := hread .arr (by decide)
      rw [harr]
    | write =>
      have harr : e .arr = f .arr := hread .arr (by decide)
      simp only [effect, hv, harr]
  effect_frame s i e v hw := by
    cases s <;> cases v <;> first | rfl | exact absurd (by decide) hw
  next_congr _ _ _ _ _ := rfl
  reads_recorded _ _ h := h
  writes_recorded _ _ h := h
  cond_recorded _ _ h := absurd h (Set.notMem_empty _)
  term_required _ _ _ h := nomatch h

def result : Removal Var Stmt where
  defVarStmts := {(.arr, some .incr), (.out, some .write)}
  useVarStmts := recording.useVarStmts
  liveStmts := {.incr, .write}
  removedArgExprs := ∅

def start : Var → List Nat
  | .i => [0]
  | .arr => [0, 0]
  | .out => [0]

/-- The declaration of `i` is removed, `arr[i]++` stays, and the channel gets
another value. -/
theorem removeUnusedStmt_indexIncrement_differs :
    recording.removeUnusedStmt 4 = some result ∧ ¬ recording.ReadersKept result ∧
      ¬ recording.SameBehaviour result := by
  refine ⟨by decide, ?_, ?_⟩
  · intro h
    exact absurd (h .i (some .incr) .decl (by decide) (by decide) (by decide)) (by decide)
  · intro h
    have hout : Var.out ∈ recording.observed result := .inl rfl
    have htrace : [[0], [0], [0]] = [[0], [0], [1]] :=
      congrArg (fun t => t.map (fun o => o ⟨.out, hout⟩))
        (h Nat Nat (List Nat) process 0 start [1, 0, 0])
    exact absurd htrace (by decide)

end IndexIncrement
end SystemcCompiler.Cfg
