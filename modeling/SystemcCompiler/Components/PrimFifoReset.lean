import SystemcCompiler.Components.PrimFifo
import Mathlib.Data.List.Induction

/-! Reset of the approximate time `sct_prim_fifo`. A run is a list of delta cycles, each
with the calls that any processes make in it, in any order. `reset_core` asks for a reset
by a toggle: `has_reset` against `hasReset`, as the delta cycle started. -/
namespace SystemcCompiler.PrimFifo.Reset
open Channel

inductive Call (T : Type) where
  | resetCore (reset : Bool)
  | resetPut
  | clearPut
  | put (data : T) (mask : Bool)
  | resetGet
  | clearGet
  | get (call : GetCall)
  deriving DecidableEq

/-- The FIFO with the signal `has_reset` and the field `hasReset`. -/
structure Fifo (T : Type) where
  core : State T
  hasResetSignal : Bool
  hasReset : Bool
  deriving Inhabited

/-- What the calls of a delta cycle leave for its end: the next values of the
`sct_prim_signal`s, and whether one has notified `update_event`. -/
structure Next (T : Type) where
  hasReset : Bool
  putReq : Bool
  putData : T
  getReq : Bool
  notified : Bool

/-- A delta cycle, with the calls before and after `updateProc` where that runs in it. -/
structure Cycle (T : Type) where
  updates : Bool
  before : List (Call T)
  after : List (Call T)
  deriving DecidableEq

/-- The data of the puts and gets that succeed, and of these gets those after `updateProc`. -/
structure Outcome (T : Type) where
  stored : List T
  returned : List T
  late : List T
  deriving DecidableEq

variable {T : Type}

section
variable (c : Config)

/-- All calls read the signals as the delta cycle started. -/
def Call.run [Inhabited T] (s : Fifo T) (n : Next T) : Call T → Next T
  | .resetCore reset =>
    if reset then { n with hasReset := !s.hasResetSignal, notified := true } else n
  | .resetPut =>
    if c.cthreadPut then n else { n with putReq := s.core.putReqD, putData := default }
  | .clearPut =>
    { n with
      putReq := if c.cthreadPut then s.core.putReq else s.core.putReqD
      putData := default }
  | .put data mask =>
    if mask && s.core.putReady c then
      { n with
        putReq := if c.cthreadPut then !s.core.putReq else !s.core.putReqD
        putData := data
        notified := true }
    else { n with putReq := if c.cthreadPut then s.core.putReq else s.core.putReqD }
  | .resetGet => if c.cthreadGet then n else { n with getReq := s.core.getReqD }
  | .clearGet => { n with getReq := if c.cthreadGet then s.core.getReq else s.core.getReqD }
  | .get call =>
    if call.enabled && s.core.outValid c then
      { n with
        getReq := if c.cthreadGet then !s.core.getReq else !s.core.getReqD
        notified := true }
    else { n with getReq := if c.cthreadGet then s.core.getReq else s.core.getReqD }

def Call.stored (s : Fifo T) : Call T → Option T
  | .put data mask => if mask && s.core.putReady c then some data else none
  | _ => none

def Call.returned (s : Fifo T) : Call T → Option T
  | .get call =>
    if call.enabled && s.core.outValid c then some (s.core.getData c) else none
  | _ => none

/-- METHODs of the put and get side do not run in the delta cycle of `updateProc`:
they are notified with no time or by signals. -/
def Call.runs (updates : Bool) : Call T → Bool
  | .resetCore _ => true
  | .resetPut | .clearPut | .put _ _ => c.cthreadPut || !updates
  | .resetGet | .clearGet | .get _ => c.cthreadGet || !updates

def Fifo.updateProc [Inhabited T] (s : Fifo T) : Fifo T :=
  { core :=
      if s.hasResetSignal != s.hasReset then s.core.reset c else s.core.updateProc c
    hasResetSignal := s.hasResetSignal
    hasReset := s.hasResetSignal }

def Fifo.updated [Inhabited T] (s : Fifo T) (updates : Bool) : Fifo T :=
  if updates then s.updateProc c else s

/-- The calls of a delta cycle; a failed assertion of `updateProc` ends the simulation. -/
def Fifo.lateCalls [Inhabited T] (s : Fifo T) (cycle : Cycle T) : List (Call T) :=
  if (s.updated c cycle.updates).core.asserted then []
  else cycle.after.filter (Call.runs c cycle.updates)

def Fifo.calls [Inhabited T] (s : Fifo T) (cycle : Cycle T) : List (Call T) :=
  cycle.before.filter (Call.runs c cycle.updates) ++ s.lateCalls c cycle

def Fifo.next [Inhabited T] (s : Fifo T) (calls : List (Call T)) : Next T :=
  calls.foldl (Call.run c s)
    { hasReset := s.hasResetSignal
      putReq := s.core.putReq
      putData := s.core.putData
      getReq := s.core.getReq
      notified := false }

def Fifo.step [Inhabited T] (s : Fifo T) (cycle : Cycle T) : Fifo T :=
  let updated := s.updated c cycle.updates
  let next := s.next c (s.calls c cycle)
  { updated with
    core :=
      { updated.core with
        putReq := next.putReq
        putData := next.putData
        getReq := next.getReq
        updateDue := updated.core.updateDue || next.notified }
    hasResetSignal := next.hasReset }

def machine (T : Type) [Inhabited T] (c : Config) : Mealy (Cycle T) (Outcome T) where
  State := Fifo T
  step s cycle :=
    if s.core.asserted then (s, ⟨[], [], []⟩)
    else
      (s.step c cycle,
        { stored := (s.calls c cycle).filterMap (Call.stored c s)
          returned := (s.calls c cycle).filterMap (Call.returned c s)
          late := (s.lateCalls c cycle).filterMap (Call.returned c s) })

def Call.asserts : Call T → Bool
  | .resetCore reset => reset
  | _ => false

def Cycle.asserts (cycle : Cycle T) : Bool :=
  cycle.before.any Call.asserts || cycle.after.any Call.asserts

/-- `reset_core` was called with an asserted reset since the last `updateProc`. -/
def called (cycles : List (Cycle T)) : Bool :=
  cycles.foldl (fun called cycle =>
    (!cycle.updates && (called || cycle.before.any Call.asserts)) ||
      cycle.after.any Call.asserts) false

/-- The delta cycles with such calls, from that of the last `updateProc` on. -/
def resetCycles (cycles : List (Cycle T)) : Nat :=
  cycles.foldl (fun n cycle =>
    (if cycle.updates then 0 else n) + cycle.asserts.toNat) 0

/-- The FIFO after a run from its construction. -/
def after [Inhabited T] (cycles : List (Cycle T)) : Fifo T :=
  (machine T c).run (default : Fifo T) cycles

/-- What a reset promises at an `updateProc` of a run: it empties the FIFO, and a get
after it returns an item of a put from its delta cycle on, or the `T{}` of a clear. -/
def Clears [Inhabited T] (earlier : List (Cycle T)) (cycle : Cycle T)
    (later : List (Cycle T)) : Prop :=
  (after c earlier).core.asserted = false → cycle.updates = true →
    (called earlier || cycle.before.any Call.asserts) = true →
      let s := after c (earlier ++ [cycle])
      let now := ((machine T c).step (after c earlier) cycle).2
      let rest := (machine T c).outputs s later
      s.core.elemNum = 0 ∧ s.core.getIndx = s.core.putIndx ∧
        ∀ data ∈ now.late ++ rest.flatMap Outcome.returned,
          data ∈ now.stored ++ rest.flatMap Outcome.stored ∨ data = default

/-- The calls toggle the request an odd number of times, and no get takes an item of the
old signals in the delta cycle of the update. -/
def Toggled [Inhabited T] (earlier : List (Cycle T)) (cycle : Cycle T) : Prop :=
  cycle.updates = true → (called earlier || cycle.before.any Call.asserts) = true →
    resetCycles earlier % 2 = 1 ∧ ((machine T c).step (after c earlier) cycle).2.late = []

end

section
variable {c : Config}

/-- The items a FIFO holds, and that of its pending put, meet `P`. -/
structure Holds (c : Config) (P : T → Prop) (s : Fifo T) : Prop where
  updated : s.core.Updated c
  ring : ∀ data ∈ s.core.ring c, P data
  put : s.core.doPut = true → P s.core.putData

namespace Holds
variable {P : T → Prop} {s : Fifo T}

/-- What a get returns is stored or pending. -/
theorem getData (h : Holds c P s) (hv : s.core.outValid c = true) : P (s.core.getData c) := by
  have hnum := h.updated.num
  have hhead (hn : 0 < s.core.elemNum) : P s.core.getDataD :=
    h.ring _ (List.mem_of_getElem? (h.updated.ring_head hn))
  have hsecond (hn : 1 < s.core.elemNum) : P s.core.getDataNext :=
    h.ring _ (List.mem_of_getElem? (h.updated.ring_second hn))
  have hput := h.put
  simp only [State.outValid, State.getData, State.doPut, hnum] at hv hput ⊢
  split
  · split
    · exact hsecond ‹_›
    · exact hput (by grind)
  · split
    · exact hhead ‹_›
    · exact hput (by grind)

theorem content (h : Holds c P s) : ∀ data ∈ s.core.content c, P data := by
  intro data hd
  rcases List.mem_append.mp (List.mem_of_mem_drop hd) with hr | hp
  · exact h.ring data hr
  · obtain ⟨hpos, rfl⟩ := List.mem_replicate.mp hp
    refine h.put ?_
    cases hdo : s.core.doPut with
    | true => rfl
    | false => simp [hdo] at hpos

end Holds

theorem updateProc_room {s : State T} (h : s.Updated c)
    (hok : (s.updateProc c).asserted = false) :
    s.elemNum + s.doPut.toNat ≤ c.fifoSize + s.doGet.toNat ∧
      s.doGet.toNat ≤ s.elemNum + s.doPut.toNat := by
  have hle := h.le
  cases hp : s.doPut <;> cases hg : s.doGet <;>
    simp [State.updateProc, hp, hg, h.noAssert] at hok ⊢ <;> omega

end

section
variable [Inhabited T] {c : Config}

theorem calls_run (s : Fifo T) (cycle : Cycle T) {call : Call T} {updates : Bool}
    (h : call ∈ s.calls c cycle) (hu : cycle.updates = updates) :
    call.runs c updates = true := by
  subst hu
  unfold Fifo.calls Fifo.lateCalls at h
  split at h <;> simp only [List.mem_append, List.mem_filter, List.not_mem_nil, or_false] at h
  · exact h.2
  · exact h.elim And.right And.right

theorem Call.run_hasReset (s : Fifo T) (n : Next T) (call : Call T) :
    (call.run c s n).hasReset = if call.asserts then !s.hasResetSignal else n.hasReset := by
  cases call with
  | resetCore reset => cases reset <;> rfl
  | clearPut | clearGet => rfl
  | resetPut | put | resetGet | get =>
    simp only [Call.run, Call.asserts, Bool.false_eq_true, if_false]
    split <;> rfl

/-- The toggle of `reset_core`, whatever else is called. -/
theorem next_hasReset (s : Fifo T) (calls : List (Call T)) :
    (s.next c calls).hasReset = (s.hasResetSignal != calls.any Call.asserts) := by
  suffices h : ∀ n : Next T, (calls.foldl (Call.run c s) n).hasReset =
      if calls.any Call.asserts then !s.hasResetSignal else n.hasReset by
    rw [Fifo.next, h]
    cases calls.any Call.asserts <;> cases s.hasResetSignal <;> rfl
  intro n
  induction calls generalizing n with
  | nil => rfl
  | cons call calls ih =>
    rw [List.foldl_cons, ih, Call.run_hasReset, List.any_cons]
    cases call.asserts <;> cases calls.any Call.asserts <;> rfl

/-- The put request at the end of a delta cycle: its data are those of a put of the
cycle or `T{}`, or it is the request of the start. `base` is the next `put_req_d`. -/
theorem next_put {s : Fifo T} {calls : List (Call T)} {updates base : Bool} {P : T → Prop}
    (hbase : base = if updates then s.core.putReq else s.core.putReqD)
    (hruns : ∀ call ∈ calls, call.runs c updates = true) (hdefault : P default)
    (hstored : ∀ data ∈ calls.filterMap (Call.stored c s), P data) :
    P (s.next c calls).putData ∨ ((s.next c calls).putData = s.core.putData ∧
      ((s.next c calls).putReq = s.core.putReq ∨ (s.next c calls).putReq = base)) := by
  suffices h : ∀ n : Next T,
      (P n.putData ∨ (n.putData = s.core.putData ∧
        (n.putReq = s.core.putReq ∨ n.putReq = base))) →
      let last := calls.foldl (Call.run c s) n
      P last.putData ∨ (last.putData = s.core.putData ∧
        (last.putReq = s.core.putReq ∨ last.putReq = base)) from
    h _ (.inr ⟨rfl, .inl rfl⟩)
  intro n hn
  induction calls generalizing n with
  | nil => exact hn
  | cons call calls ih =>
    rw [List.foldl_cons]
    apply ih (fun call hc => hruns call (List.mem_cons_of_mem _ hc))
      (fun data hd => hstored data (by
        rw [List.mem_filterMap] at hd ⊢
        exact hd.imp fun _ h => ⟨List.mem_cons_of_mem _ h.1, h.2⟩))
    have hrun := hruns call List.mem_cons_self
    have hput : ∀ data, call.stored c s = some data → P data := fun data h =>
      hstored data (List.mem_filterMap.mpr ⟨call, List.mem_cons_self, h⟩)
    cases call with
    | put data mask =>
      simp only [Call.run]
      simp only [Call.stored] at hput
      simp only [Call.runs] at hrun
      split
      · rename_i hok
        exact .inl (hput data (by rw [if_pos hok]))
      · refine hn.imp_right fun h => ⟨h.1, ?_⟩
        cases hm : c.cthreadPut with
        | true => exact .inl rfl
        | false =>
          have hu : updates = false := by simpa [hm] using hrun
          exact .inr (by simp [hbase, hu])
    | resetPut | clearPut =>
      simp only [Call.run]
      split <;> first | exact hn | exact .inl hdefault
    | clearGet => exact hn
    | resetCore | resetGet | get =>
      simp only [Call.run]
      split <;> exact hn

/-- A reset empties the FIFO, and an ordinary update performs the pending requests. -/
theorem updated_holds {P : T → Prop} {s : Fifo T} (h : Holds c P s) {updates : Bool}
    (hok : (s.updated c updates).core.asserted = false) :
    (s.updated c updates).core.Updated c ∧
      ∀ data ∈ (s.updated c updates).core.ring c, P data := by
  cases updates with
  | false => exact ⟨h.updated, h.ring⟩
  | true =>
    simp only [Fifo.updated, Fifo.updateProc, if_true] at hok ⊢
    split at hok
    · rename_i hreset
      rw [if_pos hreset]
      refine ⟨(reset_inv s.core).toUpdated, ?_⟩
      simp [State.ring, State.reset, Ring.contents]
    · rename_i hreset
      rw [if_neg hreset]
      obtain ⟨hput, hget⟩ := updateProc_room h.updated hok
      obtain ⟨hupdated, hring⟩ := h.updated.updateProc_spec hput hget
      refine ⟨hupdated, ?_⟩
      rw [hring]
      exact h.content

theorem updated_putReqD (s : Fifo T) (updates : Bool) :
    (s.updated c updates).core.putReqD =
      if updates then s.core.putReq else s.core.putReqD := by
  cases updates with
  | false => rfl
  | true =>
    simp only [Fifo.updated, Fifo.updateProc, if_true]
    split <;> rfl

/-- A delta cycle after whose update all items meet `P`, with puts of such items. -/
theorem step_holds {P : T → Prop} {s : Fifo T} {cycle : Cycle T} (hdefault : P default)
    (hup : (s.updated c cycle.updates).core.Updated c)
    (hring : ∀ data ∈ (s.updated c cycle.updates).core.ring c, P data)
    (hput : cycle.updates = false → s.core.doPut = true → P s.core.putData)
    (hstored : ∀ data ∈ (s.calls c cycle).filterMap (Call.stored c s), P data) :
    Holds c P (s.step c cycle) := by
  refine ⟨⟨hup.num, hup.le, hup.getIndx_lt, hup.putIndx_eq, hup.getDataD, hup.getDataNext,
    hup.noAssert⟩, hring, fun hdo => ?_⟩
  have hne : (s.next c (s.calls c cycle)).putReq ≠ (s.updated c cycle.updates).core.putReqD :=
    bne_iff_ne.mp hdo
  have hbase := @updated_putReqD T _ c s cycle.updates
  rcases next_put hbase (fun call hc => calls_run s cycle hc rfl) hdefault hstored with
    hP | ⟨hdata, hreq | hreq⟩
  · exact hP
  · rw [hreq, hbase] at hne
    cases hu : cycle.updates with
    | true => simp [hu] at hne
    | false =>
      change P (s.next c (s.calls c cycle)).putData
      rw [hdata]
      exact hput hu (bne_iff_ne.mpr (by simpa [hu] using hne))
  · exact absurd hreq hne

theorem step_running {s : Fifo T} (h : s.core.asserted = false) (cycle : Cycle T) :
    (machine T c).step s cycle = (s.step c cycle,
      { stored := (s.calls c cycle).filterMap (Call.stored c s)
        returned := (s.calls c cycle).filterMap (Call.returned c s)
        late := (s.lateCalls c cycle).filterMap (Call.returned c s) }) :=
  if_neg (by simp [h])

theorem step_stopped {s : Fifo T} (h : s.core.asserted = true) (cycle : Cycle T) :
    (machine T c).step s cycle = (s, ⟨[], [], []⟩) :=
  if_pos h

/-- From a FIFO whose items meet `P`, with puts of such items, so do the gets. -/
theorem run_returned {P : T → Prop} {s : Fifo T} (hdefault : P default)
    (h : s.core.asserted = true ∨ Holds c P s) {cycles : List (Cycle T)}
    (hstored : ∀ data ∈ ((machine T c).outputs s cycles).flatMap Outcome.stored, P data) :
    ∀ data ∈ ((machine T c).outputs s cycles).flatMap Outcome.returned, P data := by
  induction cycles generalizing s with
  | nil => simp [Mealy.outputs]
  | cons cycle cycles ih =>
    simp only [Mealy.outputs, List.flatMap_cons, List.mem_append] at hstored ⊢
    cases hstop : s.core.asserted with
    | true =>
      rw [step_stopped hstop] at hstored ⊢
      intro data hd
      exact ih (.inl hstop) (fun data hd => hstored data (.inr hd)) data
        (hd.resolve_left List.not_mem_nil)
    | false =>
      have hholds : Holds c P s := h.resolve_left (by simp [hstop])
      rw [step_running hstop] at hstored ⊢
      rintro data (hd | hd)
      · obtain ⟨call, -, hcall⟩ := List.mem_filterMap.mp hd
        cases call with
        | get call =>
          simp only [Call.returned, Option.ite_none_right_eq_some, Option.some.injEq,
            Bool.and_eq_true] at hcall
          exact hcall.2 ▸ hholds.getData hcall.1.2
        | _ => simp [Call.returned] at hcall
      · refine ih ?_ (fun data hd => hstored data (.inr hd)) data hd
        cases hlast : (s.step c cycle).core.asserted with
        | true => exact .inl rfl
        | false =>
          obtain ⟨hup, hring⟩ := updated_holds hholds hlast
          exact .inr (step_holds hdefault hup hring (fun _ => hholds.put)
            (fun data hd => hstored data (.inl hd)))

theorem after_concat (cycles : List (Cycle T)) (cycle : Cycle T) :
    after c (cycles ++ [cycle]) = ((machine T c).step (after c cycles) cycle).1 :=
  Mealy.run_concat _ _ _ _

theorem calls_asserts (s : Fifo T) {cycle : Cycle T}
    (hok : (s.step c cycle).core.asserted = false) :
    (s.calls c cycle).any Call.asserts = cycle.asserts := by
  have hfilter (calls : List (Call T)) (updates : Bool) :
      (calls.filter (Call.runs c updates)).any Call.asserts = calls.any Call.asserts := by
    rw [List.any_filter]
    congr 1
    funext call
    cases call <;> simp [Call.runs, Call.asserts]
  have hlate : s.lateCalls c cycle = cycle.after.filter (Call.runs c cycle.updates) :=
    if_neg (by simpa [Fifo.step] using hok)
  rw [Fifo.calls, hlate, List.any_append, hfilter, hfilter, Cycle.asserts]

/-- A reset is pending when the calls since the last update have toggled its request in
an odd number of delta cycles. -/
theorem after_toggle {cycles : List (Cycle T)} (hrun : (after c cycles).core.asserted = false) :
    ((after c cycles).hasResetSignal != (after c cycles).hasReset) =
      decide (resetCycles cycles % 2 = 1) := by
  induction cycles using List.reverseRecOn with
  | nil => rfl
  | append_singleton cycles cycle ih =>
    rw [after_concat] at hrun ⊢
    cases hstop : (after c cycles).core.asserted with
    | true =>
      rw [step_stopped hstop] at hrun
      simp [hstop] at hrun
    | false =>
      rw [step_running hstop] at hrun ⊢
      have hold := ih hstop
      have hnext : ((after c cycles).step c cycle).hasResetSignal =
          ((after c cycles).hasResetSignal != cycle.asserts) := by
        rw [← calls_asserts _ hrun, ← next_hasReset]
        rfl
      have hfield : ((after c cycles).step c cycle).hasReset =
          if cycle.updates then (after c cycles).hasResetSignal
          else (after c cycles).hasReset := by
        cases hu : cycle.updates <;> simp [Fifo.step, Fifo.updated, Fifo.updateProc, hu]
      have hcount : resetCycles (cycles ++ [cycle]) =
          (if cycle.updates then 0 else resetCycles cycles) + cycle.asserts.toNat := by
        simp [resetCycles]
      rw [hnext, hfield, hcount]
      generalize (after c cycles).hasResetSignal = signal at hold ⊢
      generalize (after c cycles).hasReset = field at hold ⊢
      cases cycle.updates <;> cases cycle.asserts <;> cases signal <;> cases field <;>
        simp at hold ⊢ <;> omega

/-- A reset that toggles its request an odd number of times empties the FIFO: nothing put
before is returned after it. -/
theorem reset_core_clears (c : Config) {earlier : List (Cycle T)} {cycle : Cycle T}
    (h : Toggled c earlier cycle) (later : List (Cycle T)) : Clears c earlier cycle later := by
  intro hrun hupdates hcalled
  obtain ⟨hodd, hlate⟩ := h hupdates hcalled
  have hreset : ((after c earlier).hasResetSignal != (after c earlier).hasReset) = true := by
    rw [after_toggle hrun]
    exact decide_eq_true hodd
  have hcore : ((after c earlier).updated c cycle.updates).core =
      (after c earlier).core.reset c := by
    simp [Fifo.updated, Fifo.updateProc, hupdates, hreset]
  intro s now rest
  have hs : s = (after c earlier).step c cycle := by
    change after c (earlier ++ [cycle]) = _
    rw [after_concat, step_running hrun]
  have hnow : now.stored = ((after c earlier).calls c cycle).filterMap
      (Call.stored c (after c earlier)) := by
    change ((machine T c).step (after c earlier) cycle).2.stored = _
    rw [step_running hrun]
  rw [hs, show now.late = [] from hlate, List.nil_append]
  refine ⟨congrArg State.elemNum hcore, ?_, ?_⟩
  · exact (congrArg State.getIndx hcore).trans (congrArg State.putIndx hcore).symm
  · let fresh (data : T) : Prop :=
      data ∈ now.stored ++ rest.flatMap Outcome.stored ∨ data = default
    have hholds : Holds c fresh s := by
      rw [hs]
      apply step_holds (.inr rfl)
      · rw [hcore]
        exact (reset_inv _).toUpdated
      · rw [hcore]
        simp [State.ring, State.reset, Ring.contents]
      · simp [hupdates]
      · exact fun data hd => .inl (List.mem_append_left _ (hnow ▸ hd))
    exact run_returned (P := fresh) (.inr rfl) (.inr hholds)
      (fun data hd => .inl (List.mem_append_right _ hd))

private def threads : Config where
  fifoSize := 2
  fifoSize_pos := Nat.two_pos
  cthreadPut := true
  cthreadGet := true
  syncValid := false
  syncReady := false

/-- A stored item and, in the next period, a reset in each of the delta cycles. -/
private def stored (resets : List Bool) : List (Cycle Nat) :=
  [⟨false, [.put 5 true], []⟩, ⟨true, [], []⟩] ++
    resets.map fun reset => ⟨false, [.resetCore reset], []⟩

private def update : Cycle Nat := ⟨true, [], []⟩

/-- One call empties the FIFO, and the get of the next item finds no other. -/
theorem reset_core_clears_once :
    (after threads (stored [true])).core.elemNum = 1 ∧
      Clears threads (stored [true]) update
        [⟨false, [.put 7 true], []⟩, ⟨true, [], []⟩, ⟨false, [.get .get], []⟩] ∧
      ((machine Nat threads).outputs (after threads (stored [true] ++ [update]))
        [⟨false, [.put 7 true], []⟩, ⟨true, [], []⟩, ⟨false, [.get .get], []⟩]).flatMap
          Outcome.returned = [7] := by
  refine ⟨by decide +kernel, ?_, by decide +kernel⟩
  exact reset_core_clears threads (fun _ _ => ⟨by decide +kernel, by decide +kernel⟩) _

/-- Two calls in two delta cycles of a period take each other back. -/
theorem reset_core_cancels :
    ¬∀ (c : Config) (earlier : List (Cycle Nat)) (cycle : Cycle Nat)
      (later : List (Cycle Nat)), Clears c earlier cycle later := by
  intro h
  have hempty := (h threads (stored [true, true]) update [] (by decide +kernel)
    (by decide +kernel) (by decide +kernel)).1
  revert hempty
  decide +kernel

end
end SystemcCompiler.PrimFifo.Reset
