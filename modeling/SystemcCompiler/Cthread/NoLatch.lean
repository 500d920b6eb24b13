import SystemcCompiler.Cthread.RegisterInference

/-! Default assignments `x_next = x` at the top of the thread function. They are
dropped for channels that are defined on all paths to every wait. -/
namespace SystemcCompiler.Cthread
open Cfg InsertionOrderSet

variable {α L : Type} [DecidableEq α]

/-- What decides on the default assignment of a register besides its definitions. -/
structure RegisterTraits where
  isArrayType : Bool
  sctClearSignal : Bool
  inMifArray : Bool
  deriving DecidableEq

section Traits
variable (kind : α → ValueKind) (traits : α → RegisterTraits)

/-- All channels defined anywhere in the process. -/
def defChans (tv : ThreadVars α) : List α :=
  tv.defVals.filter fun v => (kind v).isScChannel

/-- Channels which are not defined on all paths in all states. -/
def threadNotAllPathDefChans (states : List (UseDef α)) (tv : ThreadVars α) : List α :=
  (defChans kind tv).filter fun v => states.any fun s => decide (v ∉ s.defallpath)

/-- Single channel defined before used in every state. -/
def isDefChan (states : List (UseDef α)) (tv : ThreadVars α) (v : α) : Bool :=
  (kind v).isScChannel && !(traits v).isArrayType && !(kind v).isScToolCombSignal &&
    !(traits v).sctClearSignal && decide (v ∉ threadNotAllPathDefChans kind states tv) &&
    !(traits v).inMifArray

end Traits

/-! ## Printed code -/

/-- A control path through the code of state `id`: the values assigned on it are
those of `path`. The entrance of a `wait(N)` state returns before anything else
while it counts; all other paths lead from the wait of the state to the next one. -/
inductive StatePath (σ : Storage α L) (p : Prog α) (isWaitNStmt : Nat → Bool) :
    Nat → History α L → Prop where
  | count {id : Nat} (hid : ∃ s, (id, s) ∈ (p.analyze UseDef.empty).waits)
      (hn : isWaitNStmt id = true) : StatePath σ p isWaitNStmt id []
  | body {o : Outcome} {t u w : Segment α L} {before after : List (Nat × Segment α L)}
      {id next : Nat} (hrun : p.Run σ o t (before ++ (id, u) :: (next, w) :: after)) :
      StatePath σ p isWaitNStmt id (w.after [])

/-- Wait states with their joined sets. -/
def waitSets (p : Prog α) : List (UseDef α) :=
  (waitStates (p.analyze UseDef.empty).waits).map Prod.snd

/-- The default assignment of a register is printed. -/
def hasNextAssign (kind : α → ValueKind) (traits : α → RegisterTraits) (p : Prog α) (v : α) :
    Bool :=
  !isDefChan kind traits (waitSets p) (ThreadVars.ofProg kind p) v

/-- Every next value is assigned on every path, by default or by the state's own code. -/
def NoLatch (kind : α → ValueKind) (traits : α → RegisterTraits) (σ : Storage α L) (p : Prog α)
    (isWaitNStmt : Nat → Bool) : Prop :=
  ∀ id path, StatePath σ p isWaitNStmt id path →
    ∀ v ∈ (ThreadVars.ofProg kind p).threadRegVars,
      hasNextAssign kind traits p v = true ∨ Assigned path v

/-! ## Channels defined on all paths -/

section DefVals
variable (kind : α → ValueKind)

omit [DecidableEq α] in
theorem foldl_defVals {step : ThreadVars α → α → ThreadVars α}
    (hstep : ∀ tv x, (step tv x).defVals = tv.defVals) (l : List α) (tv : ThreadVars α) :
    (l.foldl step tv).defVals = tv.defVals := by
  induction l generalizing tv with
  | nil => rfl
  | cons x l ih => rw [List.foldl_cons, ih, hstep]

theorem processDefined_defVals (clearRnDs : List α) (tv : ThreadVars α) (x : α) :
    (ThreadVars.processDefined kind clearRnDs tv x).defVals = insert tv.defVals x := by
  simp only [ThreadVars.processDefined]
  split
  · rfl
  · split <;> rfl

theorem mem_foldl_processDefined (clearRnDs l : List α) (tv : ThreadVars α) (w : α) :
    w ∈ (l.foldl (ThreadVars.processDefined kind clearRnDs) tv).defVals ↔
      w ∈ tv.defVals ∨ w ∈ l := by
  induction l generalizing tv with
  | nil => simp
  | cons x l ih =>
    rw [List.foldl_cons, ih, processDefined_defVals, mem_insert, List.mem_cons, or_assoc]

theorem analyzeUseDefResults_defVals (tv : ThreadVars α) (s : UseDef α) (w : α) :
    w ∈ (ThreadVars.analyzeUseDefResults kind tv s).defVals ↔
      w ∈ tv.defVals ∨ w ∈ s.arraydefined := by
  simp only [ThreadVars.analyzeUseDefResults]
  rw [foldl_defVals, mem_foldl_processDefined, foldl_defVals, foldl_defVals]
  · intro tv x
    simp only [ThreadVars.processRead]
    split
    · rfl
    · split <;> rfl
  · intro tv x
    simp only [ThreadVars.processReadNotDefined]
    split
    · split <;> rfl
    · split
      · split
        · split <;> rfl
        · rfl
      · rfl
  · intro tv x
    simp only [ThreadVars.processDeclared]
    split <;> rfl

theorem mem_classify_defVals {states : List (UseDef α)} {w : α} :
    w ∈ (ThreadVars.classify kind states).defVals ↔ ∃ s ∈ states, w ∈ s.arraydefined := by
  unfold ThreadVars.classify
  induction states using List.reverseRecOn with
  | nil => simp [ThreadVars.empty]
  | append_singleton l s ih =>
    rw [List.foldl_append, List.foldl_cons, List.foldl_nil, analyzeUseDefResults_defVals, ih]
    simp [or_and_right, exists_or]

/-- A channel is a register only if it is defined somewhere. -/
theorem mem_defChans_of_reg {states : List (UseDef α)} {v : α}
    (hreg : v ∈ (ThreadVars.classify kind states).threadRegVars)
    (hchan : (kind v).isScChannel = true) :
    v ∈ defChans kind (ThreadVars.classify kind states) := by
  have hkind : (kind v).isChannel = true := by simp [ValueKind.isChannel, hchan]
  obtain ⟨s, hs, hev⟩ := (ThreadVars.mem_classify_reg kind).mp hreg
  have hdef : v ∈ s.arraydefined := by
    rcases hev with ⟨-, h⟩ | ⟨h, -⟩
    · simp [ValueKind.regIfReadNotDefined, hkind] at h
    · exact h
  exact List.mem_filter.mpr ⟨(mem_classify_defVals kind).mpr ⟨s, hs, hdef⟩, hchan⟩

end DefVals

section Paths
variable {kind : α → ValueKind} {traits : α → RegisterTraits}

theorem mem_defallpath_of_isDefChan {states : List (UseDef α)} {v : α}
    (hreg : v ∈ (ThreadVars.classify kind states).threadRegVars)
    (h : isDefChan kind traits states (ThreadVars.classify kind states) v = true)
    {s : UseDef α} (hs : s ∈ states) : v ∈ s.defallpath := by
  simp only [isDefChan, Bool.and_eq_true, decide_eq_true_eq] at h
  obtain ⟨⟨⟨⟨⟨hchan, -⟩, -⟩, -⟩, hall⟩, -⟩ := h
  by_contra hno
  apply hall
  refine List.mem_filter.mpr ⟨mem_defChans_of_reg kind hreg hchan, ?_⟩
  exact List.any_eq_true.mpr ⟨s, hs, by simpa using hno⟩

/-- Paths of the source between two waits assign every channel without default. -/
theorem body_assigns {σ : Storage α L} {p : Prog α} {o : Outcome} {t : Segment α L}
    {ws : List (Nat × Segment α L)} (hrun : p.Run σ o t ws) {w : Nat × Segment α L} (hw : w ∈ ws)
    {v : α} (hreg : v ∈ (ThreadVars.ofProg kind p).threadRegVars)
    (hskip : hasNextAssign kind traits p v = false) : Assigned (w.2.after []) v := by
  obtain ⟨s, hs, hsound⟩ := (p.analyze_covers σ UseDef.empty [] o t ws (Sound.empty σ) hrun).2 w hw
  obtain ⟨u, hu, hweak⟩ := waitStates_weaker hs
  have hdef : isDefChan kind traits (waitSets p) (ThreadVars.ofProg kind p) v = true := by
    simpa [hasNextAssign] using hskip
  have hmem : v ∈ u.2.defallpath :=
    mem_defallpath_of_isDefChan hreg hdef (List.mem_map_of_mem hu)
  exact hsound.assigned v (hweak.defallpath v hmem)

end Paths

/-- The thread logic is free of latches exactly if it keeps all default
assignments or has no state that starts at a `wait(N)`. -/
theorem noLatch_iff (kind : α → ValueKind) (traits : α → RegisterTraits) (σ : Storage α L)
    (p : Prog α) (isWaitNStmt : Nat → Bool) :
    NoLatch kind traits σ p isWaitNStmt ↔
      (∀ v ∈ (ThreadVars.ofProg kind p).threadRegVars,
        isDefChan kind traits (waitSets p) (ThreadVars.ofProg kind p) v = false) ∨
      ∀ id, (∃ s, (id, s) ∈ (p.analyze UseDef.empty).waits) → isWaitNStmt id = false := by
  constructor
  · intro h
    by_contra hno
    simp only [not_or, not_forall] at hno
    obtain ⟨⟨v, hreg, hdef⟩, id, hid, hn⟩ := hno
    rcases h id [] (.count hid (by simpa using hn)) v hreg with hd | ⟨act, hact, -⟩
    · simp [hasNextAssign] at hd
      exact hdef hd
    · cases hact
  · intro h id path hpath v hreg
    rcases h with hall | hplain
    · left
      simp [hasNextAssign, hall v hreg]
    · cases hpath with
      | count hid hn =>
        rw [hplain id hid] at hn
        cases hn
      | @body o t u w before after _ next hrun =>
        have hmem : (next, w) ∈ before ++ (id, u) :: (next, w) :: after := by simp
        cases hs : hasNextAssign kind traits p v with
        | true => exact Or.inl rfl
        | false => exact Or.inr (body_assigns hrun hmem hreg hs)

/-- `usig = 0; while (1) { wait(3); usig = 1; }` -/
def waitnFirst : Prog Nat :=
  let usig : Access Nat := ⟨true, 0, 0, 0, 0, false, false⟩
  .seq (.event (.write usig false))
    (.loop 0 (fun _ => false) (.seq (.wait 0) (.event (.write usig false))))

/-- While state 0 counts, `usig_next` is assigned nowhere. -/
theorem noLatch_waitnFirst_fails :
    let chan : ValueKind := ⟨false, false, true, false, false, false, false, false, false, false,
      false, true, false, false, false⟩
    ¬ NoLatch (fun _ => chan) (fun _ => ⟨false, false, false⟩) (⟨fun v => {v}⟩ : Storage Nat Nat)
      waitnFirst (fun id => id == 0) := by
  intro chan h
  have hstate : ∃ s, (0, s) ∈ (waitnFirst.analyze UseDef.empty).waits :=
    ⟨_, List.mem_cons_self⟩
  rcases h 0 [] (.count hstate rfl) 0 (by decide) with hd | ⟨act, hact, -⟩
  · revert hd
    decide
  · cases hact

end SystemcCompiler.Cthread
