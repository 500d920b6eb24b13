import Mathlib.Logic.Function.Basic
import Mathlib.Data.List.Infix
import Mathlib.Data.List.Nodup
import Mathlib.Algebra.Group.Nat.Defs
import SystemcCompiler.Library.ClockedProcess

/-! `sc_thread_process` of the simulator: what its resets and its clock do to a
thread, and how `wait(n)` counts. -/
namespace SystemcCompiler.Kernel
open Clocked

inductive ThrowStatus where
  | none | asyncReset | syncReset
  deriving DecidableEq

/-- `started`: the coroutine has been entered. -/
structure ThreadProcess where
  activeAresetN : Int
  activeResetN : Int
  throwStatus : ThrowStatus
  waitCycleN : Nat
  isRunnable : Bool
  started : Bool
  deriving DecidableEq

namespace ThreadProcess
variable (p : ThreadProcess)

def initiallyInReset (async : Bool) : ThreadProcess :=
  if async then { p with activeAresetN := p.activeAresetN + 1 }
  else { p with activeResetN := p.activeResetN + 1 }

/-- In the update phase an asynchronous reset queues the thread. -/
def throwReset (async : Bool) : ThreadProcess :=
  { p with
    throwStatus := if async then .asyncReset else .syncReset
    waitCycleN := 0
    isRunnable := p.isRunnable || async }

/-- The status is cleared if no reset is active. -/
def clearThrow : ThreadProcess :=
  if p.throwStatus ≠ .none ∧ p.activeAresetN = 0 ∧ p.activeResetN = 0 then
    { p with throwStatus := .none }
  else p

def resetChanged (async asserted : Bool) : ThreadProcess :=
  if asserted then ((p.initiallyInReset async).throwReset async).clearThrow
  else if async then { p with activeAresetN := p.activeAresetN - 1 }.clearThrow
  else { p with activeResetN := p.activeResetN - 1 }.clearThrow

def triggerStatic : ThreadProcess :=
  if p.isRunnable then p
  else if 0 < p.waitCycleN ∧ p.throwStatus = .none then
    { p with waitCycleN := p.waitCycleN - 1 }
  else { p with isRunnable := true }

theorem clearThrow_fields : p.clearThrow.started = p.started ∧
    p.clearThrow.waitCycleN = p.waitCycleN ∧ p.clearThrow.isRunnable = p.isRunnable := by
  rw [clearThrow]
  split <;> exact ⟨rfl, rfl, rfl⟩

theorem resetChanged_fields (async asserted : Bool) :
    (p.resetChanged async asserted).started = p.started ∧
    ((p.resetChanged async asserted).waitCycleN = if asserted then 0 else p.waitCycleN) ∧
    (p.resetChanged async asserted).isRunnable = (p.isRunnable || asserted && async) := by
  cases asserted <;> cases async <;>
    simp [resetChanged, clearThrow_fields, throwReset, initiallyInReset]

def semantics : ThreadProcess :=
  { p with
    throwStatus :=
      if p.activeAresetN ≠ 0 then .asyncReset
      else if p.activeResetN ≠ 0 then .syncReset else .none
    started := true }

def waitCycles (n : Nat) : ThreadProcess := { p with waitCycleN := n - 1 }

end ThreadProcess

variable {σ ι S : Type} [DecidableEq σ]

/-- `sc_reset::notify_processes`, for the entries of one process. -/
def notifyProcesses (targets : List (Reset σ)) (value : Bool) (p : ThreadProcess) :
    ThreadProcess :=
  targets.foldl (fun p target => p.resetChanged target.isAsync (target.level == value)) p

/-- Signals, the process, and what its thread works on with the place where it waits. -/
structure State (σ S : Type) where
  values : σ → Bool
  proc : ThreadProcess
  store : S

namespace State
variable (P : Process σ) (B : Body S ι)

/-- `sc_signal<bool>::do_update`: the value first, then the processes it resets. -/
def doUpdate (st : State σ S) (s : σ) : State σ S :=
  { st with
    values := Function.update st.values s (!st.values s)
    proc := notifyProcesses (P.resets.filter (·.source = s)) (!st.values s) st.proc }

/-- A thread that is resumed throws the reset in `suspend_me` and is started again. -/
def dispatch (st : State σ S) (inputs : ι) : State σ S :=
  if st.proc.isRunnable then
    let proc := { st.proc with isRunnable := false }
    if proc.started ∧ proc.throwStatus = .none then
      let r := B.resume st.store inputs
      { st with proc := proc.waitCycles r.2, store := r.1 }
    else
      let r := B.start st.store inputs
      { st with proc := proc.semantics.waitCycles r.2, store := r.1 }
  else st

/-- Update phase and notification phase. -/
def performUpdate (st : State σ S) (u : Update σ ι) : State σ S :=
  let updated := u.changed.foldl (doUpdate P) st
  { updated with
    proc := if P.clock.Occurs st.values u then updated.proc.triggerStatic else updated.proc }

/-- Up to the end of the next evaluation phase. -/
def deltaCycle (st : State σ S) (u : Update σ ι) : State σ S :=
  (st.performUpdate P u).dispatch B u.inputs

def run (st : State σ S) (us : List (Update σ ι)) : State σ S := us.foldl (deltaCycle P B) st

/-- Resets that are active when they are registered. -/
def elaborated (values : σ → Bool) (store : S) : State σ S where
  values := values
  proc := P.resets.foldl
    (fun p r => if r.Active values then p.initiallyInReset r.isAsync else p)
    ⟨0, 0, .none, 0, false, false⟩
  store := store

/-- The first evaluation phase. Clocked threads do not run in it. -/
def prepareToSimulate (isCThread : Bool) (st : State σ S) (inputs : ι) : State σ S :=
  if isCThread then st
  else dispatch B { st with proc := { st.proc with isRunnable := true } } inputs

end State

/-- The counters have these values, and once started the thread is to throw a reset
exactly if one of them is not zero. -/
structure Counts (p : ThreadProcess) (n : Bool → Nat) : Prop where
  areset : p.activeAresetN = n true
  reset : p.activeResetN = n false
  throwStatus : p.started = true → (p.throwStatus = .none ↔ n true = 0 ∧ n false = 0)

/-- One reset of a kind. -/
def single (async : Bool) : Bool → Nat := fun kind => if async = kind then 1 else 0

namespace Counts
variable {p : ThreadProcess} {n : Bool → Nat} {async : Bool}

theorem clearThrow (hareset : p.activeAresetN = n true) (hreset : p.activeResetN = n false)
    (hthrow : p.started = true → p.throwStatus = .none → n true = 0 ∧ n false = 0) :
    Counts p.clearThrow n := by
  rw [ThreadProcess.clearThrow, hareset, hreset]
  split
  case isTrue hclear =>
    refine ⟨rfl, rfl, fun _ => ⟨fun _ => ?_, fun _ => rfl⟩⟩
    omega
  case isFalse hclear =>
    refine ⟨hareset, hreset, fun hstarted => ⟨hthrow hstarted, fun hzero => ?_⟩⟩
    by_contra hnone
    exact hclear ⟨hnone, by omega, by omega⟩

theorem initiallyInReset (h : Counts p n) (hstarted : p.started = false) :
    Counts (p.initiallyInReset async) fun kind => single async kind + n kind := by
  have hareset := h.areset
  have hreset := h.reset
  cases async <;>
    refine ⟨?_, ?_, fun h => by simp [ThreadProcess.initiallyInReset, hstarted] at h⟩ <;>
    simp [ThreadProcess.initiallyInReset, single, hareset, hreset, Int.add_comm]

theorem asserted (h : Counts p n) :
    Counts (p.resetChanged async true) fun kind => single async kind + n kind := by
  have hareset := h.areset
  have hreset := h.reset
  rw [ThreadProcess.resetChanged, if_pos rfl]
  cases async <;> apply clearThrow <;>
    simp [ThreadProcess.throwReset, ThreadProcess.initiallyInReset, single, hareset, hreset,
      Int.add_comm]

/-- A reset that was active, so the thread was to throw one. -/
theorem deasserted (h : Counts p fun kind => single async kind + n kind) :
    Counts (p.resetChanged async false) n := by
  have hareset := h.areset
  have hreset := h.reset
  have hthrow : p.started = true → p.throwStatus ≠ .none := by
    intro hstarted hnone
    have hzero := (h.throwStatus hstarted).mp hnone
    cases async <;> simp [single] at hzero
  rw [ThreadProcess.resetChanged, if_neg (by simp)]
  cases async
  case true =>
    refine clearThrow ?_ ?_ fun hstarted hnone => absurd hnone (hthrow hstarted)
    · simp only [single, if_true] at hareset
      change p.activeAresetN - 1 = _
      omega
    · simpa [single] using hreset
  case false =>
    refine clearThrow ?_ ?_ fun hstarted hnone => absurd hnone (hthrow hstarted)
    · simpa [single] using hareset
    · simp only [single, if_true] at hreset
      change p.activeResetN - 1 = _
      omega

theorem triggerStatic (h : Counts p n) : Counts p.triggerStatic n := by
  rw [ThreadProcess.triggerStatic]
  split
  · exact h
  · split
    · exact ⟨h.areset, h.reset, h.throwStatus⟩
    · exact ⟨h.areset, h.reset, h.throwStatus⟩

/-- The status follows the counters when the thread is started. -/
theorem semantics (h : Counts p n) : Counts p.semantics n := by
  refine ⟨h.areset, h.reset, fun _ => ?_⟩
  rw [ThreadProcess.semantics, h.areset, h.reset]
  split
  · simp only [reduceCtorEq, false_iff]
    omega
  · split
    · simp only [reduceCtorEq, false_iff]
      omega
    · simp only [true_iff]
      omega

end Counts

/-- Active resets of a kind. -/
def countActive (rs : List (Reset σ)) (values : σ → Bool) (async : Bool) : Nat :=
  rs.countP fun r => decide (r.isAsync = async ∧ r.Active values)

section Notify
variable {values : σ → Bool} {s : σ}

omit [DecidableEq σ] in
theorem countActive_cons (r : Reset σ) (rs : List (Reset σ)) (values : σ → Bool) (async : Bool) :
    countActive (r :: rs) values async =
      (if r.Active values then single r.isAsync async else 0) + countActive rs values async := by
  by_cases hactive : r.Active values
  · simp [countActive, List.countP_cons, single, hactive, Nat.add_comm]
  · simp [countActive, hactive]

/-- The resets of one signal follow its value. -/
theorem counts_notifyProcesses (rs : List (Reset σ)) {p : ThreadProcess} {m : Bool → Nat}
    (h : Counts p fun kind => countActive rs values kind + m kind) :
    Counts (notifyProcesses (rs.filter (·.source = s)) (!values s) p) fun kind =>
      countActive rs (Function.update values s (!values s)) kind + m kind := by
  induction rs generalizing p m with
  | nil => exact h
  | cons r rs ih =>
    simp only [countActive_cons, Nat.add_assoc, Nat.add_left_comm _ (countActive _ _ _)] at h ⊢
    by_cases hsource : r.source = s
    · subst hsource
      rw [List.filter_cons_of_pos (by simp), notifyProcesses, List.foldl_cons]
      by_cases hlevel : r.level = !values r.source
      · have hbefore : ¬ r.Active values := by simp [Reset.Active, hlevel]
        have hafter : r.Active (Function.update values r.source (!values r.source)) := by
          simp [Reset.Active, hlevel]
        rw [beq_iff_eq.mpr hlevel]
        simp only [if_neg hbefore, if_pos hafter, Nat.zero_add] at h ⊢
        apply ih
        simpa only [Nat.add_left_comm] using h.asserted
      · have hbefore : r.Active values := by
          simpa [Reset.Active, eq_comm] using hlevel
        have hafter : ¬ r.Active (Function.update values r.source (!values r.source)) := by
          simpa [Reset.Active, eq_comm] using hlevel
        rw [beq_eq_false_iff_ne.mpr hlevel]
        simp only [if_pos hbefore, if_neg hafter, Nat.zero_add] at h ⊢
        apply ih
        apply Counts.deasserted
        simpa only [Nat.add_left_comm] using h
    · have hsame : r.Active (Function.update values s (!values s)) ↔ r.Active values := by
        rw [Reset.Active, Function.update_of_ne hsource, Reset.Active]
      rw [List.filter_cons_of_neg (by simpa using hsource)]
      simp only [hsame]
      exact ih h

omit [DecidableEq σ] in
/-- What the resets of one signal change besides the counters and the status. -/
theorem notifyProcesses_fields (targets : List (Reset σ)) (value : Bool) (p : ThreadProcess) :
    (notifyProcesses targets value p).started = p.started ∧
    ((notifyProcesses targets value p).waitCycleN =
      if ∃ r ∈ targets, r.level = value then 0 else p.waitCycleN) ∧
    ((notifyProcesses targets value p).isRunnable = true ↔
      p.isRunnable = true ∨ ∃ r ∈ targets, r.isAsync = true ∧ r.level = value) := by
  induction targets generalizing p with
  | nil => simp [notifyProcesses]
  | cons r targets ih =>
    obtain ⟨hstarted, hwait, hrunnable⟩ := ih (p.resetChanged r.isAsync (r.level == value))
    obtain ⟨hstarted', hwait', hrunnable'⟩ :=
      p.resetChanged_fields r.isAsync (r.level == value)
    rw [notifyProcesses, List.foldl_cons]
    rw [notifyProcesses] at hstarted hwait hrunnable
    refine ⟨hstarted.trans hstarted', ?_, ?_⟩
    · rw [hwait, hwait']
      by_cases hlevel : r.level = value <;> simp [hlevel]
    · rw [hrunnable, hrunnable']
      by_cases hlevel : r.level = value <;> simp [hlevel, or_assoc]

end Notify
namespace State
variable {P : Process σ} {B : Body S ι}

/-- What an update phase in which these signals change does. -/
structure Updated (P : Process σ) (st : State σ S) (changed : List σ) (st' : State σ S) :
    Prop where
  values : ∀ s, st'.values s = if s ∈ changed then !st.values s else st.values s
  store : st'.store = st.store
  started : st'.proc.started = st.proc.started
  waitCycleN : st'.proc.waitCycleN =
    if ∃ r ∈ P.resets, r.source ∈ changed ∧ r.Active st'.values then 0 else st.proc.waitCycleN
  isRunnable : st'.proc.isRunnable = true ↔ st.proc.isRunnable = true ∨
    ∃ r ∈ P.resets.filter (·.isAsync), r.source ∈ changed ∧ r.Active st'.values
  counts : Counts st.proc (countActive P.resets st.values) →
    Counts st'.proc (countActive P.resets st'.values)

theorem Updated.nil (st : State σ S) : Updated P st [] st :=
  ⟨by simp, rfl, rfl, by simp, by simp, id⟩

theorem updated_doUpdate (st : State σ S) (s : σ) : Updated P st [s] (st.doUpdate P s) := by
  obtain ⟨hstarted, hwait, hrunnable⟩ :=
    notifyProcesses_fields (P.resets.filter (·.source = s)) (!st.values s) st.proc
  have htargets : ∀ r : Reset σ, (r.source = s ∧ r.level = !st.values s) ↔
      (r.source = s ∧ r.Active (Function.update st.values s (!st.values s))) := by
    intro r
    refine and_congr_right fun hsource => ?_
    rw [Reset.Active, hsource, Function.update_self, eq_comm]
  refine ⟨?_, rfl, hstarted, ?_, ?_, ?_⟩
  · intro t
    by_cases ht : t = s
    · simp [doUpdate, ht]
    · simp [doUpdate, ht]
  · rw [doUpdate, hwait]
    simp only [List.mem_filter, decide_eq_true_eq, List.mem_singleton, and_assoc, htargets]
  · rw [doUpdate, hrunnable]
    simp only [List.mem_filter, decide_eq_true_eq, List.mem_singleton, and_assoc]
    refine or_congr_right (exists_congr fun r => and_congr_right fun _ => ?_)
    rw [and_left_comm]
    exact and_congr_right fun _ => htargets r
  · intro hcounts
    exact counts_notifyProcesses P.resets (m := fun _ => 0) hcounts

theorem Updated.trans {st st' st'' : State σ S} {changed changed' : List σ}
    (h : Updated P st changed st') (h' : Updated P st' changed' st'')
    (hdisjoint : ∀ s ∈ changed, s ∉ changed') : Updated P st (changed ++ changed') st'' := by
  have hsplit : ∀ rs : List (Reset σ),
      (∃ r ∈ rs, r.source ∈ changed ++ changed' ∧ r.Active st''.values) ↔
        (∃ r ∈ rs, r.source ∈ changed ∧ r.Active st'.values) ∨
          ∃ r ∈ rs, r.source ∈ changed' ∧ r.Active st''.values := by
    intro rs
    have hkept : ∀ r : Reset σ, r.source ∈ changed →
        (r.Active st''.values ↔ r.Active st'.values) := by
      intro r hr
      rw [Reset.Active, h'.values, if_neg (hdisjoint _ hr), Reset.Active]
    simp only [List.mem_append, or_and_right, and_or_left, exists_or]
    refine or_congr_left (exists_congr fun r => and_congr_right fun _ => ?_)
    exact and_congr_right (hkept r)
  refine ⟨?_, h'.store.trans h.store, h'.started.trans h.started, ?_, ?_, h'.counts ∘ h.counts⟩
  · intro s
    rw [h'.values, h.values]
    by_cases hs : s ∈ changed
    · simp [hs, hdisjoint s hs]
    · simp [hs]
  · rw [h'.waitCycleN, h.waitCycleN]
    simp only [hsplit]
    split <;> simp [*]
  · rw [h'.isRunnable, h.isRunnable, hsplit, or_assoc]

theorem updated_foldl (changed : List σ) (hnodup : changed.Nodup) (st : State σ S) :
    Updated P st changed (changed.foldl (doUpdate P) st) := by
  induction changed generalizing st with
  | nil => exact .nil st
  | cons s changed ih =>
    obtain ⟨hs, hnodup⟩ := List.nodup_cons.mp hnodup
    apply (updated_doUpdate st s).trans (ih hnodup (st.doUpdate P s))
    intro t ht
    rwa [List.mem_singleton.mp ht]

/-- Between delta cycles. A thread that has not been started is not counting. -/
structure Inv (P : Process σ) (st : State σ S) : Prop where
  counts : Counts st.proc (countActive P.resets st.values)
  isRunnable : st.proc.isRunnable = false
  waitCycleN : st.proc.started = false → st.proc.waitCycleN = 0

omit [DecidableEq σ] in
theorem countActive_eq_zero (rs : List (Reset σ)) (values : σ → Bool) :
    countActive rs values true = 0 ∧ countActive rs values false = 0 ↔
      ¬ ∃ r ∈ rs, r.Active values := by
  simp only [countActive, List.countP_eq_zero, decide_eq_true_eq, not_and, not_exists]
  refine ⟨fun ⟨hasync, hsync⟩ r hr => ?_, fun h => ⟨fun r hr _ => h r hr, fun r hr _ => h r hr⟩⟩
  cases hkind : r.isAsync with
  | true => exact hasync r hr hkind
  | false => exact hsync r hr hkind

/-- The thread has run up to a wait. -/
structure Entered (P : Process σ) (values : σ → Bool) (r : S × Nat) (st : State σ S) :
    Prop where
  inv : Inv P st
  values : st.values = values
  store : st.store = r.1
  started : st.proc.started = true
  waitCycleN : st.proc.waitCycleN = r.2 - 1

/-- The thread before the evaluation phase. -/
structure Notified (P : Process σ) (st : State σ S) (u : Update σ ι) (st' : State σ S) :
    Prop where
  values : st'.values = u.apply st.values
  store : st'.store = st.store
  started : st'.proc.started = st.proc.started
  counts : Counts st'.proc (countActive P.resets st'.values)

theorem notified_performUpdate {st : State σ S} (h : Inv P st) (u : Update σ ι) :
    Notified P st u (st.performUpdate P u) := by
  have hupd := updated_foldl (P := P) u.changed u.nodup st
  refine ⟨funext hupd.values, hupd.store, ?_, ?_⟩
  · rw [← hupd.started, performUpdate]
    simp only [ThreadProcess.triggerStatic]
    split
    · split
      · rfl
      · split <;> rfl
    · rfl
  · rw [performUpdate]
    simp only
    split
    · exact (hupd.counts h.counts).triggerStatic
    · exact hupd.counts h.counts

namespace Notified
variable {st st' : State σ S} {u : Update σ ι}

theorem throwStatus (h : Notified P st u st') (hstarted : st.proc.started = true) :
    st'.proc.throwStatus = .none ↔ ¬ P.InReset (u.apply st.values) := by
  rw [h.counts.throwStatus (h.started.trans hstarted), countActive_eq_zero, h.values,
    Process.InReset]

/-- A thread that is started or thrown a reset runs from the beginning. -/
theorem start (h : Notified P st u st') (hrunnable : st'.proc.isRunnable = true)
    (hstart : st.proc.started = true → P.InReset (u.apply st.values)) :
    Entered P (u.apply st.values) (B.start st.store u.inputs) (st'.dispatch B u.inputs) := by
  have hcase : ¬ (st'.proc.started = true ∧ st'.proc.throwStatus = .none) := by
    rintro ⟨hstarted, hnone⟩
    rw [h.started] at hstarted
    exact (h.throwStatus hstarted).mp hnone (hstart hstarted)
  have hcounts := h.counts.semantics
  rw [dispatch, if_pos hrunnable, if_neg hcase, h.store]
  exact ⟨⟨⟨hcounts.areset, hcounts.reset, hcounts.throwStatus⟩, rfl, fun hno => by cases hno⟩,
    h.values, rfl, rfl, rfl⟩

theorem resume (h : Notified P st u st') (hrunnable : st'.proc.isRunnable = true)
    (hstarted : st.proc.started = true) (hreset : ¬ P.InReset (u.apply st.values)) :
    Entered P (u.apply st.values) (B.resume st.store u.inputs) (st'.dispatch B u.inputs) := by
  have hcase : st'.proc.started = true ∧ st'.proc.throwStatus = .none :=
    ⟨h.started.trans hstarted, (h.throwStatus hstarted).mpr hreset⟩
  rw [dispatch, if_pos hrunnable, if_pos hcase, h.store]
  exact ⟨⟨⟨h.counts.areset, h.counts.reset, h.counts.throwStatus⟩, rfl,
    fun hno => absurd (hcase.1.symm.trans hno) (by simp)⟩, h.values, rfl, hcase.1, rfl⟩

theorem idle (h : Notified P st u st') (hrunnable : st'.proc.isRunnable = false)
    (hwait : st.proc.started = false → st'.proc.waitCycleN = 0) :
    Inv P st' ∧ st'.dispatch B u.inputs = st' := by
  refine ⟨⟨h.counts, hrunnable, fun hno => hwait (h.started.symm.trans hno)⟩, ?_⟩
  rw [dispatch, hrunnable, if_neg (by simp)]

end Notified

section Step
variable {st : State σ S} {u : Update σ ι}

/-- The thread behind the update phase. -/
theorem updated_facts (h : Inv P st) (u : Update σ ι) :
    let p := (u.changed.foldl (doUpdate P) st).proc
    (p.isRunnable = true ↔ P.Asserts true st.values u) ∧
    (p.waitCycleN =
      if P.Asserts true st.values u ∨ P.Asserts false st.values u then 0
      else st.proc.waitCycleN) ∧
    (st.proc.started = true → (p.throwStatus = .none ↔ ¬ P.InReset (u.apply st.values))) := by
  have hupd := updated_foldl (P := P) u.changed u.nodup st
  have hvalues : (u.changed.foldl (doUpdate P) st).values = u.apply st.values := funext hupd.values
  have hany : (∃ r ∈ P.resets, r.source ∈ u.changed ∧ r.Active (u.apply st.values)) ↔
      P.Asserts true st.values u ∨ P.Asserts false st.values u := by
    refine ⟨?_, ?_⟩
    · rintro ⟨r, hr, hasserted⟩
      cases hkind : r.isAsync with
      | true => exact .inl ⟨r, hr, hkind, hasserted⟩
      | false => exact .inr ⟨r, hr, hkind, hasserted⟩
    · rintro (⟨r, hr, -, hasserted⟩ | ⟨r, hr, -, hasserted⟩) <;> exact ⟨r, hr, hasserted⟩
  refine ⟨?_, ?_, fun hstarted => ?_⟩
  · rw [hupd.isRunnable, hvalues, h.isRunnable]
    simp [Process.Asserts, Reset.Asserted, and_assoc]
  · rw [hupd.waitCycleN, hvalues]
    simp only [hany]
  · rw [(hupd.counts h.counts).throwStatus (hupd.started.trans hstarted), countActive_eq_zero,
      hvalues, Process.InReset]

theorem isRunnable_of_asserts (h : Inv P st) (hasserts : P.Asserts true st.values u) :
    (st.performUpdate P u).proc.isRunnable = true := by
  have hrunnable := (updated_facts h u).1.mpr hasserts
  rw [performUpdate]
  simp only [ThreadProcess.triggerStatic, hrunnable, if_true]
  split <;> exact hrunnable

/-- At the clock a thread in a wait counts, any other one is queued. -/
theorem counts_at_clock (h : Inv P st) (hclock : P.clock.Occurs st.values u)
    (hreset : ¬ P.InReset (u.apply st.values)) (hstarted : st.proc.started = true)
    (hwait : 0 < st.proc.waitCycleN) :
    (st.performUpdate P u).proc.isRunnable = false ∧
      (st.performUpdate P u).proc.waitCycleN = st.proc.waitCycleN - 1 := by
  obtain ⟨hrunnable, hcycles, hthrow⟩ := updated_facts h u
  have hnone := (hthrow hstarted).mpr hreset
  have hno : ∀ kind, ¬ P.Asserts kind st.values u :=
    fun kind hasserts => hreset (P.inReset_of_asserts hasserts)
  have hidle : (u.changed.foldl (doUpdate P) st).proc.isRunnable = false := by
    simpa using fun hrun => hno true (hrunnable.mp hrun)
  rw [if_neg (by simp [hno])] at hcycles
  rw [performUpdate]
  simp only [if_pos hclock, ThreadProcess.triggerStatic, hidle, Bool.false_eq_true, if_false]
  rw [if_pos ⟨hcycles ▸ hwait, hnone⟩, hcycles]
  exact ⟨rfl, rfl⟩

theorem isRunnable_at_clock (h : Inv P st) (hclock : P.clock.Occurs st.values u)
    (hready : st.proc.started = true → P.InReset (u.apply st.values) ∨ st.proc.waitCycleN = 0) :
    (st.performUpdate P u).proc.isRunnable = true := by
  obtain ⟨-, hcycles, hthrow⟩ := updated_facts h u
  have hzero : st.proc.waitCycleN = 0 →
      (u.changed.foldl (doUpdate P) st).proc.waitCycleN = 0 := by
    intro hwait
    rw [hcycles, hwait]
    split <;> rfl
  rw [performUpdate]
  simp only [if_pos hclock, ThreadProcess.triggerStatic]
  split
  case isTrue hrunnable => exact hrunnable
  case isFalse =>
    rw [if_neg]
    rintro ⟨hwait, hnone⟩
    cases hstarted : st.proc.started with
    | false =>
      rw [hzero (h.waitCycleN hstarted)] at hwait
      exact absurd hwait (Nat.lt_irrefl 0)
    | true =>
      rcases hready hstarted with hreset | hdone
      · exact (hthrow hstarted).mp hnone hreset
      · rw [hzero hdone] at hwait
        exact absurd hwait (Nat.lt_irrefl 0)

/-- Between clock events a synchronous reset ends the wait without running the thread. -/
theorem idle_between_clocks (h : Inv P st) (hclock : ¬ P.clock.Occurs st.values u)
    (hasserts : ¬ P.Asserts true st.values u) :
    (st.performUpdate P u).proc.isRunnable = false ∧
      (st.performUpdate P u).proc.waitCycleN =
        if P.Asserts false st.values u then 0 else st.proc.waitCycleN := by
  obtain ⟨hrunnable, hcycles, -⟩ := updated_facts h u
  rw [performUpdate]
  simp only [if_neg hclock]
  refine ⟨by simpa using fun hrun => hasserts (hrunnable.mp hrun), ?_⟩
  rw [hcycles]
  simp only [hasserts, false_or]

end Step

/-- The thread waits where the registers do, for as many cycles unless a reset that no
clock event has seen ended its wait. -/
structure Follows (pending : Bool) (st : State σ S) (r : S × Nat) : Prop where
  store : st.store = r.1
  started : st.proc.started = true
  waitCycleN : st.proc.waitCycleN = if pending then 0 else r.2

section Follows
variable {st : State σ S} {u : Update σ ι} {r : S × Nat} {pending : Bool}

omit [DecidableEq σ] in
theorem Entered.follows {values : σ → Bool} {r : S × Nat} (h : Entered P values r st) :
    Follows false st (r.1, r.2 - 1) :=
  ⟨h.store, h.started, h.waitCycleN⟩

theorem entered_of_restarts (h : Inv P st) (hrestarts : P.Restarts st.values u) :
    Entered P (u.apply st.values) (B.start st.store u.inputs) (st.deltaCycle P B u) := by
  have hreset := (P.restarts_iff.mp hrestarts).2
  rw [P.flipFlops_holds] at hreset
  apply (notified_performUpdate h u).start _ fun _ => hreset
  rcases hrestarts with hasserts | ⟨hclock, -⟩
  · exact isRunnable_of_asserts h hasserts
  · exact isRunnable_at_clock h hclock fun _ => .inl hreset

theorem not_inReset (hclock : P.clock.Occurs st.values u)
    (hrestarts : ¬ P.Restarts st.values u) : ¬ P.InReset (u.apply st.values) :=
  fun hreset => hrestarts (.inr ⟨hclock, hreset⟩)

/-- A clock event without reset: the wait goes on, or the thread. -/
theorem counts_of_clock (h : Inv P st) (hclock : P.clock.Occurs st.values u)
    (hrestarts : ¬ P.Restarts st.values u) (hstarted : st.proc.started = true)
    (hwait : 0 < st.proc.waitCycleN) :
    Entered P (u.apply st.values) (st.store, st.proc.waitCycleN) (st.deltaCycle P B u) := by
  have hnotified := notified_performUpdate h u
  obtain ⟨hrunnable, hcycles⟩ :=
    counts_at_clock h hclock (not_inReset hclock hrestarts) hstarted hwait
  obtain ⟨hinv, hsame⟩ := hnotified.idle (B := B) hrunnable
    fun hno => absurd (hstarted.symm.trans hno) (by simp)
  rw [deltaCycle, hsame]
  exact ⟨hinv, hnotified.values, hnotified.store, hnotified.started.trans hstarted, hcycles⟩

theorem entered_of_clock (h : Inv P st) (hclock : P.clock.Occurs st.values u)
    (hrestarts : ¬ P.Restarts st.values u) (hstarted : st.proc.started = true)
    (hdone : st.proc.waitCycleN = 0) :
    Entered P (u.apply st.values) (B.resume st.store u.inputs) (st.deltaCycle P B u) :=
  (notified_performUpdate h u).resume (isRunnable_at_clock h hclock fun _ => .inr hdone) hstarted
    (not_inReset hclock hrestarts)

/-- The first clock event of a clocked thread. -/
theorem entered_of_first (h : Inv P st) (hclock : P.clock.Occurs st.values u)
    (hstarted : st.proc.started = false) :
    Entered P (u.apply st.values) (B.start st.store u.inputs) (st.deltaCycle P B u) :=
  have hno (hyes : st.proc.started = true) : False := by simp [hstarted] at hyes
  (notified_performUpdate h u).start
    (isRunnable_at_clock h hclock fun hyes => (hno hyes).elim) fun hyes => (hno hyes).elim

theorem idle_deltaCycle (h : Inv P st) (hclock : ¬ P.clock.Occurs st.values u)
    (hrestarts : ¬ P.Restarts st.values u) :
    Inv P (st.deltaCycle P B u) ∧ (st.deltaCycle P B u).values = u.apply st.values ∧
      (st.deltaCycle P B u).store = st.store ∧
      (st.deltaCycle P B u).proc.started = st.proc.started ∧
      (st.deltaCycle P B u).proc.waitCycleN =
        if P.Asserts false st.values u then 0 else st.proc.waitCycleN := by
  have hnotified := notified_performUpdate h u
  obtain ⟨hrunnable, hcycles⟩ :=
    idle_between_clocks h hclock fun hasserts => hrestarts (.inl hasserts)
  obtain ⟨hinv, hsame⟩ := hnotified.idle (B := B) hrunnable fun hno => by
    rw [hcycles, h.waitCycleN hno, ite_self]
  rw [deltaCycle, hsame]
  exact ⟨hinv, hnotified.values, hnotified.store, hnotified.started, hcycles⟩

/-- The invariant of delta cycles. -/
theorem inv_deltaCycle (h : Inv P st) (u : Update σ ι) :
    Inv P (st.deltaCycle P B u) ∧ (st.deltaCycle P B u).values = u.apply st.values := by
  by_cases hrestarts : P.Restarts st.values u
  · have hnext := entered_of_restarts (B := B) h hrestarts
    exact ⟨hnext.inv, hnext.values⟩
  · by_cases hclock : P.clock.Occurs st.values u
    · cases hstarted : st.proc.started with
      | false =>
        have hnext := entered_of_first (B := B) h hclock hstarted
        exact ⟨hnext.inv, hnext.values⟩
      | true =>
        rcases Nat.eq_zero_or_pos st.proc.waitCycleN with hdone | hwait
        · have hnext := entered_of_clock (B := B) h hclock hrestarts hstarted hdone
          exact ⟨hnext.inv, hnext.values⟩
        · have hnext := counts_of_clock (B := B) h hclock hrestarts hstarted hwait
          exact ⟨hnext.inv, hnext.values⟩
    · have hnext := idle_deltaCycle (B := B) h hclock hrestarts
      exact ⟨hnext.1, hnext.2.1⟩

theorem inv_run (h : Inv P st) (us : List (Update σ ι)) :
    Inv P (st.run P B us) ∧ (st.run P B us).values = applyAll st.values us := by
  induction us generalizing st with
  | nil => exact ⟨h, rfl⟩
  | cons u us ih =>
    obtain ⟨hinv, hvalues⟩ := inv_deltaCycle (B := B) h u
    obtain ⟨hrest, hall⟩ := ih hinv
    exact ⟨hrest, hall.trans (by rw [hvalues]; rfl)⟩

/-- One update keeps thread and registers together if no clock event finds a reset pending. -/
theorem follows_deltaCycle (h : Inv P st) (hfollows : Follows pending st r)
    (hseen : P.clock.Occurs st.values u → ¬ P.Restarts st.values u → pending = false) :
    Follows (P.pendingAfter pending st.values u) (st.deltaCycle P B u)
      (P.flipFlops.step B.block st.values r u) := by
  by_cases hrestarts : P.Restarts st.values u
  · have hpending : P.pendingAfter pending st.values u = false := by
      simp [Process.pendingAfter, hrestarts]
    rw [Process.step_of_restarts B.block r hrestarts, hpending]
    simp only [Body.block, ← hfollows.store]
    exact (entered_of_restarts h hrestarts).follows
  · by_cases hclock : P.clock.Occurs st.values u
    · have hnone := hseen hclock hrestarts
      have hpending : P.pendingAfter pending st.values u = false := by
        have hno : ¬ P.Asserts false st.values u :=
          fun hasserts => not_inReset hclock hrestarts (P.inReset_of_asserts hasserts)
        simp [Process.pendingAfter, hnone, hno]
      have hcycles := hfollows.waitCycleN
      rw [hnone, if_neg (by simp)] at hcycles
      rw [Process.step_of_clock B.block r hclock hrestarts, hpending]
      simp only [Body.block, ← hcycles, ← hfollows.store]
      split
      case isTrue hwait => exact (counts_of_clock h hclock hrestarts hfollows.started hwait).follows
      case isFalse hdone =>
        apply Entered.follows
        exact entered_of_clock h hclock hrestarts hfollows.started (Nat.eq_zero_of_not_pos hdone)
    · obtain ⟨-, -, hstore, hstarted, hcycles⟩ := idle_deltaCycle (B := B) h hclock hrestarts
      rw [Process.step_of_idle B.block r hclock hrestarts]
      refine ⟨hstore.trans hfollows.store, hstarted.trans hfollows.started, ?_⟩
      rw [hcycles, hfollows.waitCycleN]
      by_cases hasserts : P.Asserts false st.values u <;>
        simp [Process.pendingAfter, hrestarts, hasserts]

theorem follows_run (h : Inv P st) (hfollows : Follows pending st r) (us : List (Update σ ι))
    (hsees : P.SeesResets pending st.values us) (vs : List (Update σ ι)) (hvs : vs <+: us) :
    (st.run P B vs).store = (P.flipFlops.run B.block st.values r vs).1 := by
  induction us generalizing st r pending vs with
  | nil =>
    rw [List.prefix_nil.mp hvs]
    exact hfollows.store
  | cons u us ih =>
    cases vs with
    | nil => exact hfollows.store
    | cons v vs =>
      obtain ⟨rfl, hrest⟩ := List.cons_prefix_cons.mp hvs
      obtain ⟨hinv, hvalues⟩ := inv_deltaCycle (B := B) h v
      have hnext := ih hinv (follows_deltaCycle h hfollows hsees.1) (hvalues ▸ hsees.2) vs hrest
      rw [hvalues] at hnext
      exact hnext

/-- Counts how often it is resumed; waits long. -/
def countingBody (cycles : Nat) : Body Nat ι where
  start _ _ := (0, cycles)
  resume s _ := (s + 1, cycles)

theorem seesResets_of_follows (cycles : Nat) {st : State σ Nat} {r : Nat × Nat} (h : Inv P st)
    (hfollows : Follows pending st r) (us : List (Update σ ι)) (hleft : us.length ≤ r.2)
    (hcycles : us.length < cycles)
    (hagree : ∀ vs, vs <+: us → (st.run P (countingBody cycles) vs).store =
      (P.flipFlops.run (countingBody cycles).block st.values r vs).1) :
    P.SeesResets pending st.values us := by
  induction us generalizing st r pending with
  | nil => trivial
  | cons u us ih =>
    rw [List.length_cons] at hleft hcycles
    have hseen : P.clock.Occurs st.values u → ¬ P.Restarts st.values u → pending = false := by
      intro hclock hrestarts
      by_contra hpending
      rw [Bool.not_eq_false] at hpending
      have hdone := hfollows.waitCycleN
      rw [hpending, if_pos rfl] at hdone
      have hone := hagree [u] (List.cons_prefix_cons.mpr ⟨rfl, List.nil_prefix⟩)
      have hkernel : (st.run P (countingBody cycles) [u]).store = r.1 + 1 := by
        have hentered := entered_of_clock (B := countingBody cycles) h hclock hrestarts
          hfollows.started hdone
        exact hentered.store.trans (by rw [hfollows.store]; rfl)
      have hregs : (P.flipFlops.run (countingBody cycles).block st.values r [u]).1 = r.1 := by
        rw [FlipFlops.run, Process.step_of_clock _ r hclock hrestarts, FlipFlops.run, Body.block]
        simp only
        rw [if_pos (by omega)]
      rw [hkernel, hregs] at hone
      omega
    obtain ⟨hinv, hvalues⟩ := inv_deltaCycle (B := countingBody cycles) h u
    refine ⟨hseen, ?_⟩
    rw [← hvalues]
    apply ih hinv (follows_deltaCycle h hfollows hseen) _ (by omega)
    · intro vs hvs
      have hnext := hagree (u :: vs) (List.cons_prefix_cons.mpr ⟨rfl, hvs⟩)
      rw [hvalues]
      exact hnext
    · by_cases hrestarts : P.Restarts st.values u
      · rw [Process.step_of_restarts _ r hrestarts]
        simp only [Body.block, countingBody]
        omega
      · by_cases hclock : P.clock.Occurs st.values u
        · rw [Process.step_of_clock _ r hclock hrestarts]
          simp only [Body.block]
          rw [if_pos (by omega)]
          simp only
          omega
        · rw [Process.step_of_idle _ r hclock hrestarts]
          omega

end Follows

section Reachable

omit [DecidableEq σ] in
theorem inv_elaborated (P : Process σ) (values : σ → Bool) (store : S) :
    Inv P (elaborated P values store) := by
  have hfold : ∀ (rs : List (Reset σ)) (p : ThreadProcess) (n : Bool → Nat), Counts p n →
      p.started = false → p.isRunnable = false → p.waitCycleN = 0 →
      let q := rs.foldl (fun p r => if r.Active values then p.initiallyInReset r.isAsync else p) p
      Counts q (fun kind => countActive rs values kind + n kind) ∧ q.isRunnable = false ∧
        q.waitCycleN = 0 := by
    intro rs
    induction rs with
    | nil => exact fun p n h _ hrun hwait => ⟨by simpa [countActive] using h, hrun, hwait⟩
    | cons r rs ih =>
      intro p n h hstarted hrun hwait
      simp only [List.foldl_cons, countActive_cons, Nat.add_assoc,
        Nat.add_left_comm _ (countActive _ _ _)]
      by_cases hactive : r.Active values
      · simp only [if_pos hactive]
        apply ih _ _ (h.initiallyInReset hstarted) <;>
          rw [ThreadProcess.initiallyInReset] <;> split <;> assumption
      · simp only [if_neg hactive, Nat.zero_add]
        exact ih p n h hstarted hrun hwait
  obtain ⟨hcounts, hrun, hwait⟩ := hfold P.resets ⟨0, 0, .none, 0, false, false⟩ (fun _ => 0)
    ⟨rfl, rfl, by simp⟩ rfl rfl rfl
  exact ⟨hcounts, hrun, fun _ => hwait⟩

omit [DecidableEq σ] in
theorem inv_prepareToSimulate (isCThread : Bool) {st : State σ S} (h : Inv P st) (i : ι) :
    Inv P (st.prepareToSimulate B isCThread i) ∧
      (st.prepareToSimulate B isCThread i).values = st.values := by
  cases isCThread with
  | true => exact ⟨h, rfl⟩
  | false =>
    rw [prepareToSimulate, if_neg (by simp)]
    by_cases hresume : st.proc.started = true ∧ st.proc.throwStatus = .none
    · rw [dispatch, if_pos rfl, if_pos hresume]
      exact ⟨⟨⟨h.counts.areset, h.counts.reset, h.counts.throwStatus⟩, rfl,
        fun hno => absurd (hresume.1.symm.trans hno) (by simp)⟩, rfl⟩
    · have hcounts := h.counts.semantics
      rw [dispatch, if_pos rfl, if_neg hresume]
      exact ⟨⟨⟨hcounts.areset, hcounts.reset, hcounts.throwStatus⟩, rfl, fun hno => by cases hno⟩,
        rfl⟩

/-- From elaboration on. -/
def simulate (P : Process σ) (B : Body S ι) (isCThread : Bool) (values : σ → Bool) (store : S)
    (i : ι) (us : List (Update σ ι)) : State σ S :=
  ((elaborated P values store).prepareToSimulate B isCThread i).run P B us

theorem inv_simulate (isCThread : Bool) (values : σ → Bool) (store : S) (i : ι)
    (us : List (Update σ ι)) :
    Inv P (simulate P B isCThread values store i us) ∧
      (simulate P B isCThread values store i us).values = applyAll values us := by
  obtain ⟨hinv, hvalues⟩ :=
    inv_prepareToSimulate (B := B) isCThread (inv_elaborated P values store) i
  obtain ⟨hrun, hall⟩ := inv_run (B := B) hinv us
  exact ⟨hrun, hall.trans (by rw [hvalues]; rfl)⟩

end Reachable
end State

section Restarted
variable {P : Process σ} {values : σ → Bool} {before : List (Update σ ι)} {u : Update σ ι}

/-- An update of a run from elaboration that resets the thread. -/
theorem restarted (B : Body S ι) (isCThread : Bool) (store : S) (i : ι) (left : Nat)
    (hrestarts : P.Restarts (applyAll values before) u) :
    let st := State.simulate P B isCThread values store i before
    st.values = applyAll values before ∧ P.Restarts st.values u ∧
      State.Inv P (st.deltaCycle P B u) ∧ (st.deltaCycle P B u).values = u.apply st.values ∧
      State.Follows false (st.deltaCycle P B u)
        (P.flipFlops.step B.block st.values (st.store, left) u) := by
  intro st
  obtain ⟨hinv, hvalues⟩ := State.inv_simulate (B := B) (P := P) isCThread values store i before
  have hrestarts' : P.Restarts st.values u := hvalues ▸ hrestarts
  have hentered := State.entered_of_restarts (B := B) hinv hrestarts'
  rw [Process.step_of_restarts B.block _ hrestarts']
  exact ⟨hvalues, hrestarts', hentered.inv, hentered.values, hentered.follows⟩

theorem follows_of_seesResets (B : Body S ι) (isCThread : Bool) (store : S) (i : ι) (left : Nat)
    (hrestarts : P.Restarts (applyAll values before) u) (us : List (Update σ ι))
    (hsees : P.SeesResets false (u.apply (applyAll values before)) us) (vs : List (Update σ ι))
    (hvs : vs <+: us) :
    let st := State.simulate P B isCThread values store i before
    (st.run P B (u :: vs)).store =
      (P.flipFlops.run B.block st.values (st.store, left) (u :: vs)).1 := by
  obtain ⟨hvalues, -, hinv, hnext, hfollows⟩ := restarted B isCThread store i left hrestarts
  rw [← hvalues, ← hnext] at hsees
  have hrun := State.follows_run (B := B) hinv hfollows us hsees vs hvs
  rw [hnext] at hrun
  exact hrun

end Restarted

/-- From the first reset on a thread of the simulator and registers that wait in cycles are the
same, for every thread body, exactly in the runs in which no synchronous reset comes and goes
between two clock events: such a reset ends a `wait(n)` in the simulator. -/
theorem thread_follows_registers_iff (P : Process σ) (isCThread : Bool) (values : σ → Bool)
    (i : ι) (before : List (Update σ ι)) (u : Update σ ι) (us : List (Update σ ι))
    (hrestarts : P.Restarts (applyAll values before) u) :
    (∀ (S : Type) (B : Body S ι) (store : S) (left : Nat) (vs : List (Update σ ι)), vs <+: us →
      let st := State.simulate P B isCThread values store i before
      (st.run P B (u :: vs)).store =
        (P.flipFlops.run B.block st.values (st.store, left) (u :: vs)).1) ↔
      P.SeesResets false (u.apply (applyAll values before)) us := by
  refine ⟨fun hagree => ?_, fun hsees S B store left vs hvs => ?_⟩
  · obtain ⟨hvalues, hrestarts', hinv, hnext, hfollows⟩ :=
      restarted (State.countingBody (us.length + 2)) isCThread 0 i 0 hrestarts
    rw [← hvalues, ← hnext]
    apply State.seesResets_of_follows (us.length + 2) hinv hfollows us _ (by omega)
    · intro vs hvs
      rw [hnext]
      exact hagree Nat (State.countingBody (us.length + 2)) 0 0 vs hvs
    · rw [Process.step_of_restarts _ _ hrestarts']
      exact Nat.le_succ us.length
  · exact follows_of_seesResets B isCThread store i left hrestarts us hsees vs hvs

/-- A rising clock and a synchronous reset. -/
inductive Line where
  | clk | rst
  deriving DecidableEq

def clocked : Process Line := ⟨⟨.clk, some true⟩, [⟨.rst, false, true⟩]⟩

def toggle (line : Line) : Update Line Unit := ⟨[line], List.nodup_singleton line, ()⟩

theorem clocked_restarts : clocked.Restarts (· = .rst) (toggle .clk) := by
  decide

/-- After the reset it comes once more while the clock is low. -/
theorem resetPulse_not_followed : ¬ ∀ (S : Type) (B : Body S Unit) (store : S) (left : Nat)
    (vs : List (Update Line Unit)),
    vs <+: [toggle .rst, toggle .clk, toggle .rst, toggle .rst, toggle .clk] →
      let st := State.simulate clocked B true (· = .rst) store () []
      (st.run clocked B (toggle .clk :: vs)).store =
        (clocked.flipFlops.run B.block st.values (st.store, left) (toggle .clk :: vs)).1 :=
  (not_congr (thread_follows_registers_iff clocked true (· = .rst) () [] (toggle .clk)
    [toggle .rst, toggle .clk, toggle .rst, toggle .rst, toggle .clk] clocked_restarts)).mpr
    (by decide)

end SystemcCompiler.Kernel
