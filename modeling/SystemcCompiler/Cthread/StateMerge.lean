import SystemcCompiler.Cthread.StateCode

/-! Merging of thread states with equal code. The first stage generates the code
of every state; states whose text equals that of an earlier one are replaced by
it, and the second stage generates the code again for the remaining states. -/
namespace SystemcCompiler.Cthread
open Lockstep

variable {τ ι ρ ε : Type}

/-- Thread code by wait state. In `body` and `reset` a state assignment stands
for a `wait()` call; `waitNLoc` is the place of the `wait(N)` a state starts at. -/
structure ThreadCode (τ : Type) where
  numStates : Nat
  numStates_pos : 0 < numStates
  waitNLoc : Nat → Option τ
  body : Nat → List (Line τ)
  reset : List (Line τ)
  body_targets : ∀ i < numStates, ∀ id loc, Line.stateAssign id loc ∈ body i → id < numStates
  reset_targets : ∀ id loc, Line.stateAssign id loc ∈ reset → id < numStates
  /-- The counter check is printed at a state entrance only. -/
  body_noCheck : ∀ i, Line.waitNCheck ∉ body i

/-- Identifier a wait is printed with. -/
def representative (replaced : List (Nat × Nat)) (id : Nat) : Nat :=
  (replaced.lookup id).getD id

def putWaitScopeGraph (replaced : List (Nat × Nat)) (isSingleState : Bool) (id : Nat) (loc : τ) :
    List (Line τ) :=
  if isSingleState then [] else [.stateAssign (representative replaced id) loc]

def Line.place (replaced : List (Nat × Nat)) (isSingleState : Bool) : Line τ → List (Line τ)
  | .stateAssign id loc => putWaitScopeGraph replaced isSingleState id loc
  | line => [line]

namespace ThreadCode

def entry (T : ThreadCode τ) (id : Nat) : List (Line τ) :=
  match T.waitNLoc id with
  | some loc => putWaitNScopeGraph id loc
  | none => []

def generateCode (T : ThreadCode τ) (replaced : List (Nat × Nat)) (isSingleState : Bool)
    (id : Nat) : List (Line τ) :=
  T.entry id ++ (T.body id).flatMap (Line.place replaced isSingleState)

end ThreadCode

section Replaced
variable [DecidableEq τ] (code : Nat → List (Line τ))

/-- Inner loop: later states with the code of state `i`. -/
def replaceLater (i : Nat) : List (Nat × Nat) → List Nat → List (Nat × Nat)
  | replaced, [] => replaced
  | replaced, j :: js =>
    replaceLater i
      (if (replaced.lookup j).isSome then replaced
      else if code i ≠ code j then replaced
      else (j, i) :: replaced) js

def replaceEqual : List (Nat × Nat) → List Nat → List (Nat × Nat)
  | replaced, [] => replaced
  | replaced, i :: js =>
    replaceEqual
      (if (replaced.lookup i).isSome then replaced else replaceLater code i replaced js) js

end Replaced

namespace ThreadCode
variable [DecidableEq τ] (T : ThreadCode τ)

def firstStage (id : Nat) : List (Line τ) :=
  T.generateCode [] false id

def replacedStates : List (Nat × Nat) :=
  replaceEqual T.firstStage [] (List.range T.numStates)

/-- Two states with one replaced are taken as a single state thread. -/
def collapses : Bool :=
  !T.replacedStates.isEmpty && T.numStates == 2

end ThreadCode

/-- Reset code and the code executed in each state. -/
structure Fsm (τ : Type) where
  reset : List (Line τ)
  code : Nat → List (Line τ)

namespace ThreadCode
variable [DecidableEq τ] (T : ThreadCode τ)

def unmerged : Fsm τ where
  reset := T.reset.flatMap (Line.place [] false)
  code := T.firstStage

/-- State that is generated in the second stage. -/
def printed (id : Nat) : Bool :=
  decide (id < T.numStates) && (T.replacedStates.lookup id).isNone

def merged : Fsm τ where
  reset := T.reset.flatMap (Line.place T.replacedStates T.collapses)
  code id :=
    -- Without the state variable the code of the only printed state is executed
    if T.collapses then T.generateCode T.replacedStates true 0
    else if T.printed id then T.generateCode T.replacedStates false id
    else []

end ThreadCode

/-- Registers, the wait counter and the state register. -/
structure Regs (ρ : Type) where
  regs : ρ
  waitN : Nat
  procState : Nat

/-- One clock cycle: the next values of the state code go into the registers. -/
def Fsm.step (F : Fsm τ) (I : Interp τ ι ρ ε) (C : Counter) (s : Regs ρ) (i : ι) : Regs ρ :=
  let r := exec I C true (F.code s.procState) .start ⟨I.load s.regs i, s.waitN, s.waitN⟩
  ⟨I.store r.vars.env, r.vars.waitNNext, r.target.getD s.procState⟩

def Fsm.machine (F : Fsm τ) (I : Interp τ ι ρ ε) (C : Counter) : Machine ι (ρ × Nat) where
  State := Regs ρ
  step := F.step I C
  observe s := (s.regs, s.waitN)

/-- `J` gives the meaning of the reset section, executed at a clock edge in reset. -/
def Fsm.afterReset (F : Fsm τ) (J : Interp τ ι ρ ε) (C : Counter) (s : Regs ρ) (i : ι) : Regs ρ :=
  let r := exec J C false F.reset .start ⟨J.load s.regs i, s.waitN, s.waitN⟩
  ⟨J.store r.vars.env, r.vars.waitNNext, r.target.getD 0⟩

/-! ## The replacement map -/

section Replaced
variable [DecidableEq τ] (code : Nat → List (Line τ))

/-- Every replaced state has the code of an earlier state, which is itself kept. -/
structure Consistent (seen : List Nat) (replaced : List (Nat × Nat)) : Prop where
  code_eq : ∀ j i, replaced.lookup j = some i → code j = code i
  seen : ∀ j i, replaced.lookup j = some i → i ∈ seen
  lt : ∀ j i, replaced.lookup j = some i → i < j
  kept : ∀ j i, replaced.lookup j = some i → replaced.lookup i = none

theorem lookup_cons_pair (j k i : Nat) (replaced : List (Nat × Nat)) :
    List.lookup k ((j, i) :: replaced) = if k = j then some i else replaced.lookup k := by
  by_cases h : k = j
  · subst h
    simp
  · rw [if_neg h, List.lookup_cons, beq_eq_false_iff_ne.mpr h]

omit [DecidableEq τ] in
theorem Consistent.add {seen : List Nat} {replaced : List (Nat × Nat)} {i j : Nat}
    (h : Consistent code seen replaced) (hi : i ∈ seen) (hki : replaced.lookup i = none)
    (hj : ∀ k ∈ seen, k < j) (he : code i = code j) :
    Consistent code seen ((j, i) :: replaced) := by
  refine ⟨?_, ?_, ?_, ?_⟩
  · intro k m hk
    rw [lookup_cons_pair] at hk
    split at hk
    · rename_i hkj
      cases hk
      rw [hkj, he]
    · exact h.code_eq k m hk
  · intro k m hk
    rw [lookup_cons_pair] at hk
    split at hk
    · cases hk
      exact hi
    · exact h.seen k m hk
  · intro k m hk
    rw [lookup_cons_pair] at hk
    split at hk
    · rename_i hkj
      cases hk
      exact hkj ▸ hj i hi
    · exact h.lt k m hk
  · intro k m hk
    rw [lookup_cons_pair] at hk ⊢
    split at hk
    · cases hk
      rw [if_neg (Nat.ne_of_lt (hj i hi)), hki]
    · rw [if_neg (Nat.ne_of_lt (hj m (h.seen k m hk))), h.kept k m hk]

theorem replaceLater_consistent {seen js : List Nat} {replaced : List (Nat × Nat)} {i : Nat}
    (h : Consistent code seen replaced) (hi : i ∈ seen) (hki : replaced.lookup i = none)
    (hjs : ∀ k ∈ seen, ∀ j ∈ js, k < j) :
    Consistent code seen (replaceLater code i replaced js) := by
  induction js generalizing replaced with
  | nil => exact h
  | cons j js ih =>
    have hj : ∀ k ∈ seen, k < j := fun k hk => hjs k hk j List.mem_cons_self
    have hrest : ∀ k ∈ seen, ∀ m ∈ js, k < m :=
      fun k hk m hm => hjs k hk m (List.mem_cons_of_mem _ hm)
    unfold replaceLater
    by_cases hl : (replaced.lookup j).isSome = true
    · rw [if_pos hl]
      exact ih h hki hrest
    · rw [if_neg hl]
      by_cases he : code i = code j
      · rw [if_neg (not_not.mpr he)]
        refine ih (h.add code hi hki hj he) ?_ hrest
        rw [lookup_cons_pair, if_neg (Nat.ne_of_lt (hj i hi)), hki]
      · rw [if_pos he]
        exact ih h hki hrest

omit [DecidableEq τ] in
theorem Consistent.mono {seen seen' : List Nat} {replaced : List (Nat × Nat)}
    (h : Consistent code seen replaced) (hs : ∀ i ∈ seen, i ∈ seen') :
    Consistent code seen' replaced :=
  ⟨h.code_eq, fun j i hj => hs i (h.seen j i hj), h.lt, h.kept⟩

theorem replaceEqual_consistent {seen js : List Nat} {replaced : List (Nat × Nat)}
    (h : Consistent code seen replaced) (hn : (seen ++ js).Pairwise (· < ·)) :
    Consistent code (seen ++ js) (replaceEqual code replaced js) := by
  induction js generalizing seen replaced with
  | nil => simpa [replaceEqual] using h
  | cons i js ih =>
    have happ : seen ++ i :: js = (seen ++ [i]) ++ js := by simp
    rw [happ] at hn ⊢
    have hseen : ∀ k ∈ seen, k ∈ seen ++ [i] := fun k hk => List.mem_append_left _ hk
    have hlater : ∀ k ∈ seen ++ [i], ∀ j ∈ js, k < j := (List.pairwise_append.mp hn).2.2
    unfold replaceEqual
    split
    · exact ih (h.mono code hseen) hn
    · rename_i hk
      have hki : replaced.lookup i = none := Option.not_isSome_iff_eq_none.mp hk
      exact ih (replaceLater_consistent code (h.mono code hseen) (by simp) hki hlater) hn

end Replaced

namespace ThreadCode
variable [DecidableEq τ] (T : ThreadCode τ)

theorem replacedStates_consistent :
    Consistent T.firstStage (List.range T.numStates) T.replacedStates := by
  have h : Consistent T.firstStage [] [] := ⟨by simp, by simp, by simp, by simp⟩
  have hrange : ([] ++ List.range T.numStates).Pairwise (· < ·) := by
    simpa using List.pairwise_lt_range
  simpa [replacedStates] using replaceEqual_consistent T.firstStage h hrange

/-- State that stands for `id` after merging. -/
def rep (id : Nat) : Nat :=
  representative T.replacedStates id

theorem firstStage_rep (id : Nat) : T.firstStage (T.rep id) = T.firstStage id := by
  unfold rep representative
  cases h : T.replacedStates.lookup id with
  | none => rfl
  | some i => exact (T.replacedStates_consistent.code_eq id i h).symm

theorem lookup_rep (id : Nat) : T.replacedStates.lookup (T.rep id) = none := by
  unfold rep representative
  cases h : T.replacedStates.lookup id with
  | none => exact h
  | some i => exact T.replacedStates_consistent.kept id i h

theorem rep_lt {id : Nat} (h : id < T.numStates) : T.rep id < T.numStates := by
  unfold rep representative
  cases hl : T.replacedStates.lookup id with
  | none => exact h
  | some i => exact List.mem_range.mp (T.replacedStates_consistent.seen id i hl)

theorem rep_zero : T.rep 0 = 0 := by
  unfold rep representative
  cases h : T.replacedStates.lookup 0 with
  | none => rfl
  | some i => exact absurd (T.replacedStates_consistent.lt 0 i h) (Nat.not_lt_zero i)

theorem rep_eq_self {id : Nat} (h : T.replacedStates.lookup id = none) : T.rep id = id := by
  simp [rep, representative, h]

theorem printed_rep {id : Nat} (h : id < T.numStates) : T.printed (T.rep id) = true := by
  simp [printed, T.rep_lt h, T.lookup_rep]

end ThreadCode

/-! ## Execution of redirected code -/

section Exec
variable (I : Interp τ ι ρ ε) (C : Counter)

theorem advance_stateAssign (id : Nat) (loc : τ) (cur : Cursor τ) (v : Vars ε) :
    (Line.stateAssign id loc).advance I C cur v = (cur, v) := by
  obtain ⟨mode, bs⟩ := cur
  cases mode with
  | run => rfl
  | skip depth toElse => cases depth <;> rfl
  | seek depth sel => cases depth <;> rfl
  | leave depth => cases depth <;> rfl

def Result.redirect (f : Nat → Nat) (r : Result ε) : Result ε :=
  ⟨r.vars, r.target.map f⟩

theorem exec_cons_of_ne {line : Line τ} {cur : Cursor τ}
    (h : (∀ id loc, line ≠ .stateAssign id loc) ∨ cur.mode ≠ .run) (returns : Bool)
    (rest : List (Line τ)) (v : Vars ε) :
    exec I C returns (line :: rest) cur v =
      exec I C returns rest (line.advance I C cur v).1 (line.advance I C cur v).2 := by
  conv => lhs; unfold exec
  split
  · rename_i id loc hm
    rcases h with h | h
    · exact absurd rfl (h id loc)
    · exact absurd hm h
  · rfl

/-- A state assignment in a region that is not executed. -/
theorem exec_stateAssign_skipped {cur : Cursor τ} (h : cur.mode ≠ .run) (returns : Bool)
    (id : Nat) (loc : τ) (rest : List (Line τ)) (v : Vars ε) :
    exec I C returns (.stateAssign id loc :: rest) cur v =
      exec I C returns rest cur v := by
  rw [exec_cons_of_ne I C (Or.inr h), advance_stateAssign]

theorem exec_stateAssign_run {cur : Cursor τ} (h : cur.mode = .run) (id : Nat) (loc : τ)
    (returns : Bool) (rest : List (Line τ)) (v : Vars ε) :
    exec I C returns (.stateAssign id loc :: rest) cur v =
      if returns then ⟨v, some id⟩
      else ⟨(exec I C returns rest cur v).vars,
        some ((exec I C returns rest cur v).target.getD id)⟩ := by
  conv => lhs; unfold exec
  rw [h]

theorem place_of_ne {line : Line τ} (h : ∀ id loc, line ≠ .stateAssign id loc)
    (replaced : List (Nat × Nat)) (isSingleState : Bool) :
    line.place replaced isSingleState = [line] := by
  cases line <;> first | rfl | exact absurd rfl (h _ _)

theorem exec_place (replaced : List (Nat × Nat)) (returns : Bool) (lines : List (Line τ))
    (cur : Cursor τ) (v : Vars ε) :
    exec I C returns (lines.flatMap (Line.place replaced false)) cur v =
      (exec I C returns lines cur v).redirect (representative replaced) := by
  induction lines generalizing cur v with
  | nil => rfl
  | cons line rest ih =>
    rw [List.flatMap_cons]
    by_cases hline : ∃ id loc, line = .stateAssign id loc
    · obtain ⟨id, loc, rfl⟩ := hline
      change exec I C returns (.stateAssign (representative replaced id) loc ::
        rest.flatMap (Line.place replaced false)) cur v = _
      by_cases hm : cur.mode = .run
      · rw [exec_stateAssign_run I C hm, exec_stateAssign_run I C hm, ih]
        cases returns with
        | true => rfl
        | false =>
          simp only [Result.redirect, Bool.false_eq_true, if_false, Option.map_some]
          cases (exec I C false rest cur v).target <;> rfl
      · rw [exec_stateAssign_skipped I C hm, exec_stateAssign_skipped I C hm, ih]
    · have hne : ∀ id loc, line ≠ .stateAssign id loc := fun id loc h => hline ⟨id, loc, h⟩
      rw [place_of_ne hne, List.singleton_append, exec_cons_of_ne I C (Or.inl hne),
        exec_cons_of_ne I C (Or.inl hne), ih]

/-! ## Code without state assignments -/

/-- Lines that do nothing when they are executed, except for ending a block and,
with `waits`, for a state assignment. -/
def Line.closes (waits : Bool) : Line τ → Bool
  | .elseBegin | .close | .armBegin _ | .endcase => true
  | .stateAssign _ _ => waits
  | _ => false

/-- No statement or condition is executed from here on. -/
def quiet (waits : Bool) : List (Line τ) → Cursor τ → Vars ε → Bool
  | [], _, _ => true
  | line :: rest, cur, v =>
    match cur.mode with
    | .run => line.closes waits && quiet waits rest (line.advance I C cur v).1 v
    | _ => quiet waits rest (line.advance I C cur v).1 v

/-- The first wait that is reached is the last thing executed, with or without
`return`. With `waits` further state assignments do not count. -/
def waitEndsPath (waits : Bool) : List (Line τ) → Cursor τ → Vars ε → Bool
  | [], _, _ => true
  | line :: rest, cur, v =>
    match line, cur.mode with
    | .stateAssign _ _, .run => quiet I C waits rest cur v
    | line, _ => waitEndsPath waits rest (line.advance I C cur v).1 (line.advance I C cur v).2

theorem closes_advance {line : Line τ} {waits : Bool} (h : line.closes waits = true)
    (bs : List Block) (v : Vars ε) : (line.advance I C ⟨.run, bs⟩ v).2 = v := by
  cases line <;> first | rfl | cases h

theorem skipped_advance {cur : Cursor τ} (h : cur.mode ≠ .run) (line : Line τ) (v : Vars ε) :
    (line.advance I C cur v).2 = v := by
  obtain ⟨mode, bs⟩ := cur
  cases mode with
  | run => exact absurd rfl h
  | skip depth toElse => rfl
  | seek depth sel => rfl
  | leave depth => rfl

theorem quiet_advance {waits : Bool} {line : Line τ} {rest : List (Line τ)} {cur : Cursor τ}
    {v : Vars ε} (h : quiet I C waits (line :: rest) cur v = true) :
    (line.advance I C cur v).2 = v ∧
      quiet I C waits rest (line.advance I C cur v).1 v = true := by
  unfold quiet at h
  split at h
  · rename_i hm
    rw [Bool.and_eq_true] at h
    obtain ⟨mode, bs⟩ := cur
    cases hm
    exact ⟨closes_advance I C h.1 bs v, h.2⟩
  · rename_i hm
    exact ⟨skipped_advance I C (fun hr => hm hr) line v, h⟩

theorem quiet_exec (replaced : List (Nat × Nat)) {lines : List (Line τ)} {cur : Cursor τ}
    {v : Vars ε} (h : quiet I C true lines cur v = true) :
    exec I C true (lines.flatMap (Line.place replaced true)) cur v = ⟨v, none⟩ := by
  induction lines generalizing cur with
  | nil => rfl
  | cons line rest ih =>
    rw [List.flatMap_cons]
    have hsame := quiet_advance I C h
    by_cases hline : ∃ id loc, line = .stateAssign id loc
    · obtain ⟨id, loc, rfl⟩ := hline
      rw [advance_stateAssign] at hsame
      exact ih hsame.2
    · have hne : ∀ id loc, line ≠ .stateAssign id loc := fun id loc h => hline ⟨id, loc, h⟩
      rw [place_of_ne hne, List.singleton_append, exec_cons_of_ne I C (Or.inl hne),
        hsame.1]
      exact ih hsame.2

theorem exec_place_single (replaced : List (Nat × Nat)) {lines : List (Line τ)} {cur : Cursor τ}
    {v : Vars ε} (h : waitEndsPath I C true lines cur v = true) :
    exec I C true (lines.flatMap (Line.place replaced true)) cur v =
      ⟨(exec I C true lines cur v).vars, none⟩ := by
  induction lines generalizing cur v with
  | nil => rfl
  | cons line rest ih =>
    rw [List.flatMap_cons]
    by_cases hline : ∃ id loc, line = .stateAssign id loc
    · obtain ⟨id, loc, rfl⟩ := hline
      change exec I C true (rest.flatMap (Line.place replaced true)) cur v = _
      by_cases hm : cur.mode = .run
      · have hq : quiet I C true rest cur v = true := by
          simpa only [waitEndsPath, hm] using h
        rw [exec_stateAssign_run I C hm, quiet_exec I C replaced hq, if_pos rfl]
      · rw [exec_stateAssign_skipped I C hm]
        apply ih
        unfold waitEndsPath at h
        split at h
        · rename_i hr
          exact absurd hr hm
        · rwa [advance_stateAssign] at h
    · have hne : ∀ id loc, line ≠ .stateAssign id loc := fun id loc h => hline ⟨id, loc, h⟩
      rw [place_of_ne hne, List.singleton_append, exec_cons_of_ne I C (Or.inl hne),
        exec_cons_of_ne I C (Or.inl hne)]
      apply ih
      unfold waitEndsPath at h
      split at h
      · exact absurd rfl (hne _ _)
      · exact h

end Exec

namespace ThreadCode

section Stages
variable (T : ThreadCode τ)

theorem flatMap_place_nil (lines : List (Line τ)) :
    lines.flatMap (Line.place [] false) = lines := by
  induction lines with
  | nil => rfl
  | cons line rest ih =>
    rw [List.flatMap_cons, ih]
    cases line <;> rfl

theorem firstStage_eq (id : Nat) : T.firstStage id = T.entry id ++ T.body id := by
  rw [firstStage, generateCode, flatMap_place_nil]

/-- The self loop of a kept `wait(N)` state needs no redirection. -/
theorem generateCode_eq {replaced : List (Nat × Nat)} {id : Nat}
    (h : representative replaced id = id) :
    T.generateCode replaced false id = (T.firstStage id).flatMap (Line.place replaced false) := by
  rw [firstStage_eq, List.flatMap_append, generateCode]
  congr 1
  unfold entry
  cases T.waitNLoc id with
  | none => rfl
  | some loc => simp [putWaitNScopeGraph, Line.place, putWaitScopeGraph, h]

/-- A state that starts at a `wait(N)` has its own number in its text. -/
theorem entry_eq_of_firstStage_eq {i j : Nat} (hij : i ≠ j)
    (h : T.firstStage i = T.firstStage j) : T.entry i = [] := by
  rw [firstStage_eq, firstStage_eq] at h
  unfold entry at h ⊢
  cases hi : T.waitNLoc i with
  | none => rfl
  | some loc =>
    rw [hi] at h
    cases hj : T.waitNLoc j with
    | some loc' =>
      rw [hj] at h
      simp only [putWaitNScopeGraph, List.cons_append, List.cons.injEq, Line.stateAssign.injEq] at h
      exact absurd h.2.2.1.1 hij
    | none =>
      rw [hj] at h
      have hmem : Line.waitNCheck ∈ T.body j := by
        rw [← List.nil_append (T.body j), ← h]
        exact List.mem_append_left _ List.mem_cons_self
      exact absurd hmem (T.body_noCheck j)

end Stages

/-! ## Bisimulation -/

section Targets
variable (I : Interp τ ι ρ ε) (C : Counter)

theorem exec_target_mem {returns : Bool} {lines : List (Line τ)} {cur : Cursor τ} {v : Vars ε}
    {id : Nat} (h : (exec I C returns lines cur v).target = some id) :
    ∃ loc, Line.stateAssign id loc ∈ lines := by
  induction lines generalizing cur v with
  | nil => cases h
  | cons line rest ih =>
    have hrest : ∀ {cur v}, (exec I C returns rest cur v).target = some id →
        ∃ loc, Line.stateAssign id loc ∈ line :: rest := fun h =>
      (ih h).imp fun _ hloc => List.mem_cons_of_mem _ hloc
    unfold exec at h
    split at h
    · rename_i id' loc hm
      split at h
      · cases h
        exact ⟨loc, List.mem_cons_self⟩
      · cases ht : (exec I C returns rest cur v).target with
        | none =>
          simp only [ht, Option.getD_none, Option.some.injEq] at h
          exact ⟨loc, h ▸ List.mem_cons_self⟩
        | some t =>
          simp only [ht, Option.getD_some] at h
          exact hrest (ht.trans h)
    · exact hrest h

end Targets

variable (T : ThreadCode τ)

theorem firstStage_targets {i : Nat} (hi : i < T.numStates) {id : Nat} {loc : τ}
    (h : Line.stateAssign id loc ∈ T.firstStage i) : id < T.numStates := by
  rw [firstStage_eq] at h
  rcases List.mem_append.mp h with h | h
  · unfold entry at h
    cases hw : T.waitNLoc i with
    | none => simp [hw] at h
    | some loc' =>
      simp only [hw, putWaitNScopeGraph, List.mem_cons, Line.stateAssign.injEq, reduceCtorEq,
        List.not_mem_nil, false_or, or_false] at h
      exact h.1 ▸ hi
  · exact T.body_targets i hi id loc h

theorem unmerged_step_lt (I : Interp τ ι ρ ε) (C : Counter) (s : Regs ρ) (i : ι)
    [DecidableEq τ] (hs : s.procState < T.numStates) :
    (T.unmerged.step I C s i).procState < T.numStates := by
  change (Option.getD _ _) < _
  cases ht : (exec I C true (T.unmerged.code s.procState) .start
      ⟨I.load s.regs i, s.waitN, s.waitN⟩).target with
  | none => exact hs
  | some id =>
    obtain ⟨loc, hloc⟩ := exec_target_mem I C ht
    exact T.firstStage_targets hs hloc

section Bisimulation
variable [DecidableEq τ] (I : Interp τ ι ρ ε) (C : Counter)

theorem exec_merged_rep (hc : T.collapses = false) {id : Nat} (hid : id < T.numStates)
    (v : Vars ε) :
    exec I C true (T.merged.code (T.rep id)) .start v =
      (exec I C true (T.unmerged.code id) .start v).redirect T.rep := by
  have hcode : T.merged.code (T.rep id) =
      (T.firstStage id).flatMap (Line.place T.replacedStates false) := by
    simp only [merged, hc, T.printed_rep hid, if_true, Bool.false_eq_true, if_false]
    rw [T.generateCode_eq (T.rep_eq_self (T.lookup_rep id)), T.firstStage_rep]
  rw [hcode, exec_place]
  rfl

/-- Without collapse every state corresponds to its representative. -/
def bisimulation (hc : T.collapses = false) :
    Simulation (T.unmerged.machine I C) (T.merged.machine I C) (fun _ _ => True) where
  Rel s t := t = ⟨s.regs, s.waitN, T.rep s.procState⟩ ∧ s.procState < T.numStates
  step s t i h _ := by
    obtain ⟨rfl, hs⟩ := h
    refine ⟨?_, T.unmerged_step_lt I C s i hs⟩
    simp only [Fsm.machine, Fsm.step, T.exec_merged_rep I C hc hs, Result.redirect]
    cases (exec I C true (T.unmerged.code s.procState) .start
      ⟨I.load s.regs i, s.waitN, s.waitN⟩).target <;> rfl
  observe s t h := by rw [h.1]; rfl

theorem rep_of_collapses (hc : T.collapses = true) {id : Nat} (hid : id < T.numStates) :
    T.firstStage id = T.firstStage 0 ∧ T.entry 0 = [] := by
  unfold collapses at hc
  rw [Bool.and_eq_true, beq_iff_eq] at hc
  obtain ⟨hne, htwo⟩ := hc
  have heq : T.firstStage 1 = T.firstStage 0 := by
    by_contra hdiff
    have hnil : T.replacedStates = [] := by
      rw [replacedStates, htwo]
      simp [List.range_succ, replaceEqual, replaceLater, Ne.symm hdiff]
    simp [hnil] at hne
  refine ⟨?_, T.entry_eq_of_firstStage_eq (by decide) heq.symm⟩
  have : id = 0 ∨ id = 1 := by omega
  rcases this with rfl | rfl
  · rfl
  · exact heq

theorem exec_collapsed (hc : T.collapses = true) {id : Nat} (hid : id < T.numStates)
    (state : Nat) {v : Vars ε}
    (hok : waitEndsPath I C true (T.firstStage id) .start v = true) :
    exec I C true (T.merged.code state) .start v =
      ⟨(exec I C true (T.unmerged.code id) .start v).vars, none⟩ := by
  obtain ⟨heq, hentry⟩ := T.rep_of_collapses hc hid
  have hcode : T.merged.code state =
      (T.firstStage id).flatMap (Line.place T.replacedStates true) := by
    simp only [merged, hc, if_true]
    rw [generateCode, hentry, heq, firstStage_eq, hentry, List.nil_append, List.nil_append]
  rw [hcode, exec_place_single I C _ hok]
  rfl

/-- Condition on a step of the thread: its wait is the last thing on the path. -/
def StepEndsAtWait (s : Regs ρ) (i : ι) : Prop :=
  waitEndsPath I C true (T.firstStage s.procState) .start
    ⟨I.load s.regs i, s.waitN, s.waitN⟩ = true

/-- A collapsed thread has no state register; its code is that of both states. -/
def collapsedSimulation (hc : T.collapses = true) :
    Simulation (T.unmerged.machine I C) (T.merged.machine I C)
      (T.StepEndsAtWait I C) where
  Rel s t := (t.regs = s.regs ∧ t.waitN = s.waitN) ∧ s.procState < T.numStates
  step s t i h hok := by
    obtain ⟨⟨hregs, hcnt⟩, hs⟩ := h
    refine ⟨?_, T.unmerged_step_lt I C s i hs⟩
    simp only [Fsm.machine, Fsm.step, hregs, hcnt, T.exec_collapsed I C hc hs _ hok, and_self]
  observe s t h := by simp only [Fsm.machine, h.1.1, h.1.2]

omit [DecidableEq τ] in
theorem afterReset_lt (J : Interp τ ι ρ ε) (s : Regs ρ) (i : ι) :
    (T.unmerged.afterReset J C s i).procState < T.numStates := by
  change (Option.getD _ _) < _
  cases ht : (exec J C false T.unmerged.reset .start
      ⟨J.load s.regs i, s.waitN, s.waitN⟩).target with
  | none => exact T.numStates_pos
  | some id =>
    obtain ⟨loc, hloc⟩ := exec_target_mem J C ht
    rw [unmerged, flatMap_place_nil] at hloc
    exact T.reset_targets id loc hloc

theorem afterReset_merged (hc : T.collapses = false) (J : Interp τ ι ρ ε) (s : Regs ρ) (i : ι) :
    T.merged.afterReset J C s i =
      ⟨(T.unmerged.afterReset J C s i).regs, (T.unmerged.afterReset J C s i).waitN,
        T.rep (T.unmerged.afterReset J C s i).procState⟩ := by
  simp only [Fsm.afterReset, merged, unmerged, hc, exec_place, flatMap_place_nil, Result.redirect]
  cases (exec J C false T.reset .start ⟨J.load s.regs i, s.waitN, s.waitN⟩).target with
  | none => simp [T.rep_zero]
  | some id => rfl

theorem exec_reset_dropped (J : Interp τ ι ρ ε) (replaced : List (Nat × Nat))
    (lines : List (Line τ)) (cur : Cursor τ) (v : Vars ε) :
    (exec J C false (lines.flatMap (Line.place replaced true)) cur v).vars =
      (exec J C false lines cur v).vars := by
  induction lines generalizing cur v with
  | nil => rfl
  | cons line rest ih =>
    rw [List.flatMap_cons]
    by_cases hline : ∃ id loc, line = .stateAssign id loc
    · obtain ⟨id, loc, rfl⟩ := hline
      change (exec J C false (rest.flatMap (Line.place replaced true)) cur v).vars = _
      rw [ih]
      by_cases hm : cur.mode = .run
      · rw [exec_stateAssign_run J C hm]
        rfl
      · rw [exec_stateAssign_skipped J C hm]
    · have hne : ∀ id loc, line ≠ .stateAssign id loc := fun id loc h => hline ⟨id, loc, h⟩
      rw [place_of_ne hne, List.singleton_append, exec_cons_of_ne J C (Or.inl hne),
        exec_cons_of_ne J C (Or.inl hne), ih]

theorem afterReset_collapsed (hc : T.collapses = true) (J : Interp τ ι ρ ε) (s : Regs ρ) (i : ι) :
    (T.merged.afterReset J C s i).regs = (T.unmerged.afterReset J C s i).regs ∧
    (T.merged.afterReset J C s i).waitN = (T.unmerged.afterReset J C s i).waitN := by
  simp only [Fsm.afterReset, merged, unmerged, hc, exec_reset_dropped, flatMap_place_nil, and_self]

omit [DecidableEq τ] in
theorem place_targets {replaced : List (Nat × Nat)} {lines : List (Line τ)}
    {isSingleState : Bool} {id : Nat} {loc : τ}
    (h : Line.stateAssign id loc ∈ lines.flatMap (Line.place replaced isSingleState)) :
    isSingleState = false ∧
      ∃ id', Line.stateAssign id' loc ∈ lines ∧ id = representative replaced id' := by
  obtain ⟨line, hline, hmem⟩ := List.mem_flatMap.mp h
  cases line with
  | stateAssign id' loc' =>
    cases isSingleState with
    | true => cases hmem
    | false =>
      simp only [Line.place, putWaitScopeGraph, Bool.false_eq_true, if_false, List.mem_singleton,
        Line.stateAssign.injEq] at hmem
      exact ⟨rfl, id', hmem.2 ▸ hline, hmem.1⟩
  | _ => simp [Line.place] at hmem

/-- Every state assignment of the result is to a printed state. -/
theorem merged_targets_printed (state id : Nat) (loc : τ) :
    (Line.stateAssign id loc ∈ T.merged.reset → T.printed id = true) ∧
    (Line.stateAssign id loc ∈ T.merged.code state → T.printed id = true) := by
  constructor
  · intro h
    obtain ⟨-, id', hid', rfl⟩ := place_targets h
    exact T.printed_rep (T.reset_targets id' loc hid')
  · intro h
    unfold merged at h
    cases hc : T.collapses with
    | true =>
      simp only [hc, if_true, generateCode, (T.rep_of_collapses hc T.numStates_pos).2,
        List.nil_append] at h
      exact absurd (place_targets h).1 (by decide)
    | false =>
      simp only [hc, Bool.false_eq_true, if_false] at h
      split at h
      · rename_i hp
        have hself : T.rep state = state := by
          apply T.rep_eq_self
          simpa [printed] using (Bool.and_eq_true_iff.mp hp).2
        rw [T.generateCode_eq hself] at h
        obtain ⟨-, id', hid', rfl⟩ := place_targets h
        have hlt : state < T.numStates := by
          simpa using (Bool.and_eq_true_iff.mp hp).1
        exact T.printed_rep (T.firstStage_targets hlt hid')
      · cases h

end Bisimulation
end ThreadCode

/-- Merging keeps the values of registers, channels and the wait counter in every
cycle. A thread collapsed to a single state loses the `return` after each wait,
so there the wait has to be the last thing on every path that is taken. -/
theorem merge_keeps_cycles [DecidableEq τ] {ε' : Type} (T : ThreadCode τ) (I : Interp τ ι ρ ε)
    (J : Interp τ ι ρ ε') (C : Counter) (s : Regs ρ) (rst : ι) (inputs : List ι)
    (hok : T.collapses = true → (T.unmerged.machine I C).EveryStep (T.StepEndsAtWait I C)
      (T.unmerged.afterReset J C s rst) inputs) :
    (T.merged.machine I C).trace (T.merged.afterReset J C s rst) inputs =
      (T.unmerged.machine I C).trace (T.unmerged.afterReset J C s rst) inputs ∧
    ∀ (state id : Nat) (loc : τ),
      (Line.stateAssign id loc ∈ T.merged.reset → T.printed id = true) ∧
      (Line.stateAssign id loc ∈ T.merged.code state → T.printed id = true) := by
  refine ⟨?_, T.merged_targets_printed⟩
  have hlt := T.afterReset_lt C J s rst
  cases hc : T.collapses with
  | false =>
    refine ((T.bisimulation I C hc).trace_eq ?_ inputs ?_).symm
    · exact ⟨T.afterReset_merged C hc J s rst, hlt⟩
    · exact Machine.everyStep_of_forall (fun _ _ => trivial) _ _
  | true =>
    refine ((T.collapsedSimulation I C hc).trace_eq ?_ inputs (hok hc)).symm
    exact ⟨T.afterReset_collapsed C hc J s rst, hlt⟩

/-- `while (true) { while (a) { z = 3; wait(); }  y = in; wait(); }`. Both states have
the same text. -/
def nestedLoop : ThreadCode String where
  numStates := 2
  numStates_pos := by decide
  waitNLoc _ := none
  body _ := [.ifBegin "a", .stmt "z = 3", .stateAssign 0 "7:13", .close, .stmt "y = in",
    .stateAssign 1 "10:9"]
  reset := [.ifBegin "a", .stmt "z = 3", .stateAssign 0 "7:13", .close, .stmt "y = in",
    .stateAssign 1 "10:9"]
  body_targets i hi id loc h := by
    simp only [List.mem_cons, reduceCtorEq, Line.stateAssign.injEq, List.not_mem_nil, false_or,
      or_false] at h
    rcases h with ⟨rfl, -⟩ | ⟨rfl, -⟩ <;> decide
  reset_targets id loc h := by
    simp only [List.mem_cons, reduceCtorEq, Line.stateAssign.injEq, List.not_mem_nil, false_or,
      or_false] at h
    rcases h with ⟨rfl, -⟩ | ⟨rfl, -⟩ <;> decide
  body_noCheck i := by simp

/-- Inputs `a` and `in`, registers `z` and `y`. -/
def nestedLoopInterp : Interp String (Bool × Nat) (Nat × Nat) ((Bool × Nat) × Nat × Nat) where
  load r i := (i, r)
  store e := e.2
  store_load _ _ := rfl
  stmt text e := if text = "z = 3" then (e.1, 3, e.2.2) else (e.1, e.2.1, e.1.2)
  cond _ e := e.1.1
  arm _ _ _ := false
  arg _ _ := 0

/-- With `a` set only `z` is assigned, the merged code also assigns `y`. -/
theorem merge_nestedLoop_differs :
    let C := Counter.ofWidth 1
    let start := nestedLoop.unmerged.afterReset nestedLoopInterp C ⟨(0, 0), 0, 0⟩ (false, 0)
    let start' := nestedLoop.merged.afterReset nestedLoopInterp C ⟨(0, 0), 0, 0⟩ (false, 0)
    (nestedLoop.unmerged.machine nestedLoopInterp C).trace start [(true, 5)] = [((3, 0), 0)] ∧
    (nestedLoop.merged.machine nestedLoopInterp C).trace start' [(true, 5)] = [((3, 5), 0)] := by
  decide

/-- With `a` low the wait is the last thing executed. -/
theorem merge_keeps_cycles_nestedLoop :
    let C := Counter.ofWidth 1
    let start := nestedLoop.unmerged.afterReset nestedLoopInterp C ⟨(0, 0), 0, 0⟩ (false, 0)
    let start' := nestedLoop.merged.afterReset nestedLoopInterp C ⟨(0, 0), 0, 0⟩ (false, 0)
    nestedLoop.collapses = true ∧
    (nestedLoop.merged.machine nestedLoopInterp C).trace start' [(false, 5), (false, 6)] =
      (nestedLoop.unmerged.machine nestedLoopInterp C).trace start [(false, 5), (false, 6)] := by
  intro C start start'
  have hsteps : (nestedLoop.unmerged.machine nestedLoopInterp C).EveryStep
      (nestedLoop.StepEndsAtWait nestedLoopInterp C) start [(false, 5), (false, 6)] := by
    unfold ThreadCode.StepEndsAtWait
    exact ⟨by decide, by decide, trivial⟩
  exact ⟨by decide, (merge_keeps_cycles nestedLoop nestedLoopInterp nestedLoopInterp C
    ⟨(0, 0), 0, 0⟩ (false, 0) [(false, 5), (false, 6)] fun _ => hsteps).1⟩

end SystemcCompiler.Cthread
