import SystemcCompiler.Components.PrimFifo

/-! The wake-ups of `sct_prim_fifo`: whether a step that makes `ready()` or `request()`
true notifies the event that the waiting process sleeps on. -/
namespace SystemcCompiler.PrimFifo
open Channel

variable {T : Type}

/-- The event of the put side is notified: for the next clock edge when it is a thread,
for the next delta cycle when it is a METHOD. -/
def Delta.putWoken (c : Config) (d : Delta T) : Bool :=
  if c.cthreadPut then d.putDue else d.putNotified

def Delta.getWoken (c : Config) (d : Delta T) : Bool :=
  if c.cthreadGet then d.getDue else d.getNotified

/-- Whatever the step has turned true, its side is woken for it. -/
def wakes (c : Config) (before : State T) (after : Delta T) : Bool :=
  (before.putReady c || !after.sig.putReady c || after.putWoken c) &&
    (before.outValid c || !after.sig.outValid c || after.getWoken c)

/-- Where `ready()` of a target waits for a get: in an almost full FIFO before a put
thread, and with a put METHOD before a get thread. -/
def State.needsGet (c : Config) (s : State T) : Bool :=
  (c.targInit && c.cthreadPut && s.elementNumD == c.fifoSize - 1) ||
    (c.targInitSync && !c.cthreadPut && c.cthreadGet)

/-- The get a waiting put side needs is made, and does not notify it. -/
def State.silentGet (c : Config) (s : State T) (eval : GetEval) : Bool :=
  !s.putReady c && s.needsGet c && s.taken c eval && !s.getWakes c eval

/-- A silent get of a thread; a pending put would wake the put side itself. -/
def silentEdge (c : Config) (s : State T) (period : Period T) : Bool :=
  c.cthreadGet && !s.doPut && s.silentGet c period.getThread

/-- A silent get of a METHOD, when the put thread is not woken anyway. -/
def silentDelta (c : Config) (d : Delta T) (runs : Runs T) : Bool :=
  !c.cthreadGet && !d.putDue && runs.get.any (d.sig.silentGet c)

section
variable [Inhabited T] (c : Config)

def wakesInDeltas : List (Runs T) → Delta T → Bool
  | [], _ => true
  | runs :: rest, d => wakes c d.sig (delta c runs d) && wakesInDeltas rest (delta c runs d)

/-- No step of the period loses a wake-up. -/
def wakesInPeriod (s : State T) (period : Period T) : Bool :=
  wakes c s (start c period s) && wakesInDeltas c period.deltas (start c period s)

def silentInDeltas : List (Runs T) → Delta T → Bool
  | [], _ => false
  | runs :: rest, d => silentDelta c d runs || silentInDeltas rest (delta c runs d)

def silentInPeriod (s : State T) (period : Period T) : Bool :=
  silentEdge c s period || silentInDeltas c period.deltas (start c period s)

end

/-- `ready()` from the number of elements, the pending requests and `put_done`. -/
def Config.readyAt (c : Config) (num : Nat) (put get done : Bool) : Bool :=
  if c.targInitSync && !c.cthreadPut && c.cthreadGet && get then true
  else if c.targInitSync && !c.cthreadPut && !done && num != 0 then false
  else
    (num != c.fifoSize &&
      (!c.cthreadPut || (if c.targInit then get else !put) || num != c.fifoSize - 1)) ||
    (!c.syncReady && get)

def Config.validAt (c : Config) (num : Nat) (put get : Bool) : Bool :=
  (num != 0 && (!c.cthreadGet || !get || num != 1)) || (!c.syncValid && put)

section
variable {c : Config} {num : Nat} {put get done : Bool}

theorem Config.readyAt_thread (hm : c.cthreadPut = true) :
    c.readyAt num put get done = true ↔
      (num ≠ c.fifoSize ∧ ((if c.targInit then get else !put) = true ∨ num ≠ c.fifoSize - 1)) ∨
        (c.syncReady = false ∧ get = true) := by
  simp [readyAt, hm]

theorem Config.readyAt_method (hm : c.cthreadPut = false) (hmode : c.targInitSync = false) :
    c.readyAt num put get done = true ↔
      num ≠ c.fifoSize ∨ (c.syncReady = false ∧ get = true) := by
  simp [readyAt, hm, hmode]

theorem Config.readyAt_methodSync (hm : c.cthreadPut = false) (hmode : c.targInitSync = true) :
    c.readyAt num put get done = true ↔
      (c.cthreadGet = true ∧ get = true) ∨
        ((done = true ∨ num = 0) ∧
          (num ≠ c.fifoSize ∨ (c.syncReady = false ∧ get = true))) := by
  unfold readyAt
  rw [hm, hmode]
  cases c.cthreadGet <;> cases get <;> cases done <;> simp

/-- Only a get makes a put side ready between two updates. -/
theorem Config.readyAt_get {put' get' : Bool} (hnot : c.readyAt num put get done = false)
    (hready : c.readyAt num put' get' done = true) (hput : c.cthreadPut = true → put' = put) :
    get = false ∧ get' = true := by
  rw [← Bool.not_eq_true] at hnot
  cases hm : c.cthreadPut with
  | true =>
    rw [hput hm] at hready
    rw [readyAt_thread hm] at hnot hready
    grind
  | false =>
    cases hmode : c.targInitSync with
    | false =>
      rw [readyAt_method hm hmode] at hnot hready
      grind
    | true =>
      rw [readyAt_methodSync hm hmode] at hnot hready
      grind

end

theorem Config.validAt_eq_false {c : Config} {num : Nat} {put get : Bool} :
    c.validAt num put get = false ↔
      (num = 0 ∨ (c.cthreadGet = true ∧ get = true ∧ num = 1)) ∧
        (c.syncValid = true ∨ put = false) := by
  unfold validAt
  cases c.cthreadGet <;> cases get <;> cases c.syncValid <;> cases put <;> simp <;> omega

theorem Config.validAt_idle {c : Config} {num : Nat} {put : Bool} :
    c.validAt num put false = true ↔ num ≠ 0 ∨ (c.syncValid = false ∧ put = true) := by
  unfold validAt
  cases c.syncValid <;> cases put <;> simp

namespace State

theorem putReady_eq (c : Config) (s : State T) :
    s.putReady c = c.readyAt s.elementNumD s.doPut s.doGet s.putDone := by
  have hput : (s.putReq == s.putReqD) = !s.doPut := by
    cases hp : s.putReq <;> cases hd : s.putReqD <;> simp [doPut, hp, hd]
  simp only [putReady, Config.readyAt, hput, doGet]
  rfl

theorem outValid_eq (c : Config) (s : State T) :
    s.outValid c = c.validAt s.elementNumD s.doPut s.doGet := by
  have hget : (s.getReq == s.getReqD) = !s.doGet := by
    cases hp : s.getReq <;> cases hd : s.getReqD <;> simp [doGet, hp, hd]
  simp only [outValid, Config.validAt, hget, doPut]

/-- What holds of the number of elements in every run, whatever the METHODs do. -/
structure Filled (c : Config) (s : State T) : Prop where
  num : s.elementNumD = s.elemNum
  due : s.doPut = true ∨ s.doGet = true → s.updateDue = true
  room : c.cthreadPut = true → s.elemNum + s.doPut.toNat ≤ c.fifoSize
  have_ : c.cthreadGet = true → s.doGet = true → 1 ≤ s.elemNum

end State

section
variable [Inhabited T] {c : Config} {s : State T}

/-- The signals after a clock edge. -/
structure EdgeView (c : Config) (s : State T) (period : Period T) : Prop where
  elementNumD : (start c period s).sig.elementNumD =
    s.elementNumD + s.doPut.toNat - s.doGet.toNat
  elemNum : (start c period s).sig.elemNum = s.elementNumD + s.doPut.toNat - s.doGet.toNat
  doPut : (start c period s).sig.doPut =
    (c.cthreadPut && (s.stored c period.putThread).isSome)
  doGet : (start c period s).sig.doGet = (c.cthreadGet && s.taken c period.getThread)
  putDone : (start c period s).sig.putDone = true →
    s.doPut = true ∨ s.doGet = true ∨ s.putDone = true

theorem State.Filled.edgeView (h : s.Filled c) (period : Period T) : EdgeView c s period := by
  have hreqs : (s.updated c).putReqD = s.putReq ∧ (s.updated c).getReqD = s.getReq ∧
      (s.updated c).elementNumD = s.elementNumD + s.doPut.toNat - s.doGet.toNat ∧
      (s.updated c).elemNum = s.elementNumD + s.doPut.toNat - s.doGet.toNat ∧
      ((s.updated c).putDone = true → s.doPut = true ∨ s.doGet = true ∨ s.putDone = true) := by
    unfold State.updated
    split
    · refine ⟨rfl, rfl, ?_, ?_, ?_⟩
      · rw [h.num]
        cases hp : s.doPut <;> cases hg : s.doGet <;> simp [State.updateProc, hp, hg]
      · rw [h.num]
        cases hp : s.doPut <;> cases hg : s.doGet <;> simp [State.updateProc, hp, hg]
      · simp only [State.updateProc]
        split
        · simp only [Bool.or_eq_true]
          exact fun hor => hor.elim .inl fun hg => .inr (.inl hg)
        · exact fun hd => .inr (.inr hd)
    · rename_i hdue
      have hp : s.doPut = false := by
        by_contra hp
        exact hdue (h.due (.inl (by simpa using hp)))
      have hg : s.doGet = false := by
        by_contra hg
        exact hdue (h.due (.inr (by simpa using hg)))
      refine ⟨(bne_eq_false_iff_eq.mp hp).symm, (bne_eq_false_iff_eq.mp hg).symm, ?_, ?_, ?_⟩
      · simp [hp, hg]
      · simp [hp, hg, h.num]
      · exact fun hd => .inr (.inr hd)
  obtain ⟨hputD, hgetD, hnumD, hnum, hdone⟩ := hreqs
  refine ⟨hnumD, hnum, ?_, ?_, hdone⟩
  · change ((if (if c.cthreadPut then s.stored c period.putThread else none).isSome
      then !s.putReq else s.putReq) != (s.updated c).putReqD) = _
    rw [hputD]
    cases c.cthreadPut <;> cases s.stored c period.putThread <;> cases s.putReq <;> rfl
  · change ((if c.cthreadGet && s.taken c period.getThread then !s.getReq else s.getReq) !=
      (s.updated c).getReqD) = _
    rw [hgetD]
    cases c.cthreadGet && s.taken c period.getThread <;> cases s.getReq <;> rfl

omit [Inhabited T] in
/-- A side that is not ready puts nothing. -/
theorem State.stored_none {eval : PutEval T} (h : s.putReady c = false) :
    s.stored c eval = none := by
  unfold State.stored
  cases eval.call with
  | none => rfl
  | some call => simp [h]

omit [Inhabited T] in
theorem State.taken_false {eval : GetEval} (h : s.outValid c = false) :
    s.taken c eval = false := by
  unfold State.taken
  cases eval.call with
  | none => rfl
  | some call => simp [h]

omit [Inhabited T] in
theorem State.Filled.changed (h : s.Filled c) :
    (s.updateDue && (s.doPut || s.doGet)) = (s.doPut || s.doGet) := by
  have hdue := h.due
  cases hp : s.doPut <;> cases hg : s.doGet <;> simp [hp, hg] at hdue ⊢ <;> exact hdue

/-- A get side that a clock edge gives a request is woken. -/
theorem edge_getWoken (h : s.Filled c) {period : Period T} (hv : s.outValid c = false)
    (hv' : (start c period s).sig.outValid c = true) :
    (start c period s).getWoken c = true := by
  have hview := h.edgeView period
  have htaken := @State.taken_false T c s period.getThread hv
  have hchanged := h.changed
  rw [State.outValid_eq] at hv hv'
  rw [hview.elementNumD, hview.doPut, hview.doGet, htaken, Bool.and_false] at hv'
  have hwoken : (start c period s).getWoken c =
      if c.cthreadGet then
        (s.doPut && c.syncValid) ||
          ((if c.cthreadPut then s.stored c period.putThread else none).isSome && putNotifies c s)
      else (s.doPut || s.doGet) ||
        ((if c.cthreadPut then s.stored c period.putThread else none).isSome &&
          putNotifies c s) := by
    simp only [Delta.getWoken, start, hchanged, htaken]
    cases c.cthreadGet <;> cases s.doPut <;> simp
  rw [hwoken]
  obtain ⟨hnum, hput⟩ := Config.validAt_eq_false.mp hv
  rcases Config.validAt_idle.mp hv' with hnum' | ⟨hsync, hput'⟩
  · -- an element that was put becomes visible
    have hp : s.doPut = true := by
      by_contra hno
      rw [Bool.not_eq_true] at hno
      rcases hnum with hz | ⟨-, hg, ho⟩
      · simp [hno, hz] at hnum'
      · simp [hno, hg, ho] at hnum'
    have hsync : c.syncValid = true := hput.resolve_right (by simp [hp])
    simp [hp, hsync]
  · -- a put of the edge can be taken at once
    obtain ⟨hthread, hstored⟩ := Bool.and_eq_true_iff.mp hput'
    have hnotifies : putNotifies c s = true := by
      unfold putNotifies
      rcases hnum with hz | ⟨-, hg, ho⟩
      · simp [hsync, hz]
      · simp [hsync, hg, ho, hthread]
    simp [hthread, hstored, hnotifies]

omit [Inhabited T] in
/-- A get of a full FIFO notifies the put side, as does that of a get thread when the
pending put fills it. -/
theorem State.getWakes_of_full {eval : GetEval} (htaken : s.taken c eval = true)
    (hsync : c.syncReady = false)
    (hfull : s.elementNumD = c.fifoSize ∨
      (c.cthreadGet = true ∧ s.doPut = true ∧ s.elementNumD = c.fifoSize - 1)) :
    s.getWakes c eval = true := by
  unfold State.getWakes
  rw [htaken, Bool.true_and]
  unfold State.taken at htaken
  cases hcall : eval.call with
  | none => simp [hcall] at htaken
  | some call =>
    rcases hfull with hn | ⟨hm, hp, hn⟩
    · simp [getNotifies, hsync, hn]
    · simp [getNotifies, hsync, hm, hp, hn]

/-- The put side after an edge at which it was not ready. -/
theorem edge_putWoken_eq (h : s.Filled c) {period : Period T} (hr : s.putReady c = false) :
    (start c period s).putWoken c =
      ((if c.cthreadPut then s.doGet && c.syncReady else s.doPut || s.doGet) ||
        (c.cthreadGet && s.getWakes c period.getThread)) := by
  have hstored := @State.stored_none T c s period.putThread hr
  have hchanged := h.changed
  simp only [Delta.putWoken, start, hchanged, hstored]
  cases c.cthreadPut <;> cases s.doGet <;> simp

omit [Inhabited T] in
/-- A get thread's call that a put side needs is silent or notifies it. -/
theorem silentEdge_or_wakes {period : Period T} (hr : s.putReady c = false)
    (hneeds : s.needsGet c = true) (hp : s.doPut = false)
    (hg : (c.cthreadGet && s.taken c period.getThread) = true) :
    (c.cthreadGet && s.getWakes c period.getThread) = true ∨ silentEdge c s period = true := by
  obtain ⟨hm, htaken⟩ := Bool.and_eq_true_iff.mp hg
  cases hw : s.getWakes c period.getThread with
  | true => exact .inl (by simp [hm])
  | false =>
    right
    simp [silentEdge, State.silentGet, hm, hp, hr, hneeds, htaken, hw]

/-- A put thread that a clock edge makes ready is woken, but for a silent get. -/
theorem edge_putThread (h : s.Filled c) (hm : c.cthreadPut = true) {period : Period T}
    (hr : s.putReady c = false)
    (hr' : c.readyAt (s.elementNumD + s.doPut.toNat - s.doGet.toNat) false
      (c.cthreadGet && s.taken c period.getThread) (start c period s).sig.putDone = true) :
    ((s.doGet && c.syncReady) || (c.cthreadGet && s.getWakes c period.getThread)) = true ∨
      silentEdge c s period = true := by
  have hroom := h.room hm
  rw [← h.num] at hroom
  have hpos := c.fifoSize_pos
  have hnot := hr
  rw [State.putReady_eq, ← Bool.not_eq_true, Config.readyAt_thread hm] at hnot
  rw [Config.readyAt_thread hm] at hr'
  cases hg : s.doGet with
  | true =>
    have hsync : c.syncReady = true := by simpa [hg] using fun h => hnot (.inr h)
    simp [hsync]
  | false =>
    rw [hg] at hr'
    simp only [Bool.toNat_false, Nat.sub_zero] at hr'
    have hwakes (hget : (c.cthreadGet && s.taken c period.getThread) = true)
        (hsync : c.syncReady = false)
        (hfull : s.elementNumD = c.fifoSize ∨
          (s.doPut = true ∧ s.elementNumD = c.fifoSize - 1)) :
        ((false && c.syncReady) || (c.cthreadGet && s.getWakes c period.getThread)) = true := by
      obtain ⟨hmg, htaken⟩ := Bool.and_eq_true_iff.mp hget
      have := State.getWakes_of_full htaken hsync (hfull.imp_right fun hf => ⟨hmg, hf⟩)
      simp [hmg, this]
    by_cases hfull : s.elementNumD = c.fifoSize
    · -- a full FIFO waits for a get of the edge
      have hp : s.doPut = false := by
        cases hp : s.doPut with
        | false => rfl
        | true => simp [hp] at hroom; omega
      rw [hp] at hr'
      rcases hr' with ⟨hne, -⟩ | ⟨hsync, hget⟩
      · simp [hfull] at hne
      · exact .inl (hwakes hget hsync (.inl hfull))
    · have hless : s.elementNumD = c.fifoSize - 1 := by
        by_contra hne
        exact hnot (.inl ⟨hfull, .inr hne⟩)
      cases hp : s.doPut with
      | true =>
        -- the pending put fills the FIFO at the edge
        rw [hp] at hr'
        rcases hr' with ⟨hne, -⟩ | ⟨hsync, hget⟩
        · simp only [Bool.toNat_true, hless] at hne
          omega
        · exact .inl (hwakes hget hsync (.inr ⟨hp, hless⟩))
      | false =>
        have hmode : c.targInit = true := by
          by_contra hno
          exact hnot (.inl ⟨hfull, .inl (by simp [hno, hp])⟩)
        have hget : (c.cthreadGet && s.taken c period.getThread) = true := by
          rw [hp, hmode] at hr'
          rcases hr' with ⟨-, hget | hne⟩ | ⟨-, hget⟩
          · exact hget
          · simp [hless] at hne
          · exact hget
        have hneeds : s.needsGet c = true := by
          simp [State.needsGet, hmode, hm, hless]
        rw [Bool.false_and, Bool.false_or]
        exact silentEdge_or_wakes hr hneeds hp hget

/-- A put METHOD that a clock edge makes ready is notified, but for a silent get. -/
theorem edge_putMethod (hm : c.cthreadPut = false) {period : Period T}
    (hview : EdgeView c s period) (hr : s.putReady c = false)
    (hr' : c.readyAt (s.elementNumD + s.doPut.toNat - s.doGet.toNat) false
      (c.cthreadGet && s.taken c period.getThread) (start c period s).sig.putDone = true) :
    ((s.doPut || s.doGet) || (c.cthreadGet && s.getWakes c period.getThread)) = true ∨
      silentEdge c s period = true := by
  cases hp : s.doPut with
  | true => simp
  | false =>
    cases hg : s.doGet with
    | true => simp
    | false =>
      -- nothing was updated
      rw [hp, hg] at hr'
      simp only [Bool.toNat_false, Nat.sub_zero, Nat.add_zero] at hr'
      have hnot := hr
      rw [State.putReady_eq, hp, hg, ← Bool.not_eq_true] at hnot
      have hdone := hview.putDone
      rw [Bool.or_self, Bool.false_or]
      cases hmode : c.targInitSync with
      | false =>
        rw [Config.readyAt_method hm hmode] at hnot hr'
        have hfull : s.elementNumD = c.fifoSize := by
          by_contra hne
          exact hnot (.inl hne)
        obtain ⟨hsync, hget⟩ := hr'.resolve_left (not_not_intro hfull)
        obtain ⟨hmg, htaken⟩ := Bool.and_eq_true_iff.mp hget
        left
        simp [hmg, State.getWakes_of_full htaken hsync (.inl hfull)]
      | true =>
        rw [Config.readyAt_methodSync hm hmode] at hnot hr'
        cases hget : c.cthreadGet && s.taken c period.getThread with
        | true =>
          have hmg := (Bool.and_eq_true_iff.mp hget).1
          have hneeds : s.needsGet c = true := by
            simp [State.needsGet, hmode, hm, hmg]
          exact silentEdge_or_wakes hr hneeds hp hget
        | false =>
          exfalso
          apply hnot
          rw [hget] at hr'
          right
          simpa [hp, hg] using (hr'.resolve_left (by simp)).imp_left (Or.imp_left hdone)

/-- A put side that a clock edge makes ready is woken, but for a silent get. -/
theorem edge_putWoken (h : s.Filled c) {period : Period T} (hr : s.putReady c = false)
    (hr' : (start c period s).sig.putReady c = true) :
    (start c period s).putWoken c = true ∨ silentEdge c s period = true := by
  have hview := h.edgeView period
  rw [edge_putWoken_eq h hr]
  rw [State.putReady_eq, hview.elementNumD, hview.doPut, hview.doGet, State.stored_none hr,
    Option.isSome_none, Bool.and_false] at hr'
  cases hm : c.cthreadPut with
  | true => exact edge_putThread h hm hr hr'
  | false => exact edge_putMethod hm hview hr hr'

/-- A silent get makes the put side ready, and does not wake it. -/
theorem edge_silent (h : s.Filled c) {period : Period T} (hs : silentEdge c s period = true) :
    s.putReady c = false ∧ (start c period s).sig.putReady c = true ∧
      (start c period s).putWoken c = false := by
  have hview := h.edgeView period
  have hpos := c.fifoSize_pos
  simp only [silentEdge, State.silentGet, Bool.and_eq_true, Bool.not_eq_true'] at hs
  obtain ⟨⟨hmg, hp⟩, ⟨⟨hr, hneeds⟩, htaken⟩, hwakes⟩ := hs
  have hnot := hr
  rw [State.putReady_eq, ← Bool.not_eq_true] at hnot
  simp only [State.needsGet, Bool.or_eq_true, Bool.and_eq_true, beq_iff_eq,
    Bool.not_eq_true'] at hneeds
  have hg : s.doGet = false := by
    by_contra hg
    rw [Bool.not_eq_false] at hg
    apply hnot
    rcases hneeds with ⟨⟨hmode, hm⟩, hnum⟩ | ⟨⟨hmode, hm⟩, -⟩
    · rw [Config.readyAt_thread hm]
      exact .inl ⟨by omega, .inl (by simpa [hmode] using hg)⟩
    · rw [Config.readyAt_methodSync hm hmode]
      exact .inl ⟨hmg, hg⟩
  refine ⟨hr, ?_, ?_⟩
  · rw [State.putReady_eq, hview.elementNumD, hview.doPut, hview.doGet, hp, hg, hmg, htaken]
    rcases hneeds with ⟨⟨hmode, hm⟩, hnum⟩ | ⟨⟨hmode, hm⟩, -⟩
    · rw [Config.readyAt_thread hm]
      exact .inl ⟨by simp only [Bool.toNat_false]; omega, .inl (by simp [hmode])⟩
    · rw [Config.readyAt_methodSync hm hmode]
      exact .inl ⟨hmg, rfl⟩
  · rw [edge_putWoken_eq h hr, hp, hg, hwakes]
    simp

theorem edge_wakes_iff (h : s.Filled c) (period : Period T) :
    wakes c s (start c period s) = true ↔ silentEdge c s period = false := by
  constructor
  · intro hw
    by_contra hs
    obtain ⟨hr, hr', hnot⟩ := edge_silent h (by simpa using hs)
    simp [wakes, hr, hr', hnot] at hw
  · intro hs
    simp only [wakes, Bool.and_eq_true, Bool.or_eq_true, Bool.not_eq_true']
    refine ⟨?_, ?_⟩
    · by_contra hno
      simp only [not_or, Bool.not_eq_true, Bool.not_eq_false] at hno
      obtain ⟨⟨hr, hr'⟩, hnot⟩ := hno
      have hwoken := (edge_putWoken h hr hr').resolve_right (by simp [hs])
      simp [hnot] at hwoken
    · by_contra hno
      simp only [not_or, Bool.not_eq_true, Bool.not_eq_false] at hno
      obtain ⟨⟨hv, hv'⟩, hnot⟩ := hno
      have hwoken := edge_getWoken h hv hv'
      simp [hnot] at hwoken

end

/-- A thread with a pending request has woken itself. -/
structure SelfWoken (c : Config) (d : Delta T) : Prop where
  put : c.cthreadPut = true → d.sig.doPut = true → d.putDue = true
  get : c.cthreadGet = true → d.sig.doGet = true → d.getDue = true

section
variable [Inhabited T] {c : Config} {d : Delta T} {runs : Runs T}

/-- The put request after a delta cycle: a thread's stays, a METHOD's is new or was there. -/
theorem delta_doPut :
    (c.cthreadPut = true → (delta c runs d).sig.doPut = d.sig.doPut) ∧
      ((delta c runs d).sig.doPut = true → d.sig.doPut = false →
        c.cthreadPut = false ∧ (runs.put.bind (d.sig.stored c)).isSome = true) := by
  cases hm : c.cthreadPut with
  | true =>
    have hsame : (delta c runs d).sig.doPut = d.sig.doPut := by simp [delta, hm, State.doPut]
    exact ⟨fun _ => hsame, fun hp hn => by simp [hsame, hn] at hp⟩
  | false =>
    refine ⟨by simp, fun hp hn => ⟨rfl, ?_⟩⟩
    have heq : d.sig.putReq = d.sig.putReqD := bne_eq_false_iff_eq.mp hn
    cases hput : runs.put with
    | none => simp [delta, hm, hput, State.doPut, heq] at hp
    | some eval =>
      cases hs : d.sig.stored c eval with
      | none => simp [delta, hm, hput, State.doPut, putMethod, hs, heq] at hp
      | some data => simp [hs]

theorem delta_doGet :
    (c.cthreadGet = true → (delta c runs d).sig.doGet = d.sig.doGet) ∧
      ((delta c runs d).sig.doGet = true → d.sig.doGet = false →
        c.cthreadGet = false ∧ runs.get.any (d.sig.taken c) = true) := by
  cases hm : c.cthreadGet with
  | true =>
    have hsame : (delta c runs d).sig.doGet = d.sig.doGet := by simp [delta, hm, State.doGet]
    exact ⟨fun _ => hsame, fun hg hn => by simp [hsame, hn] at hg⟩
  | false =>
    refine ⟨by simp, fun hg hn => ⟨rfl, ?_⟩⟩
    have heq : d.sig.getReq = d.sig.getReqD := bne_eq_false_iff_eq.mp hn
    cases hget : runs.get with
    | none => simp [delta, hm, hget, State.doGet, heq] at hg
    | some eval =>
      cases hs : d.sig.taken c eval with
      | false => simp [delta, hm, hget, State.doGet, getMethod, hs, heq] at hg
      | true => simp [hs]

theorem delta_getWoken (hself : SelfWoken c d) (hv : d.sig.outValid c = false)
    (hv' : (delta c runs d).sig.outValid c = true) : (delta c runs d).getWoken c = true := by
  obtain ⟨hkept, hnew⟩ := @delta_doPut T _ c d runs
  rw [State.outValid_eq] at hv hv'
  obtain ⟨hnum, hput⟩ := Config.validAt_eq_false.mp hv
  have hput' : ¬(c.syncValid = true ∨ (delta c runs d).sig.doPut = false) := by
    intro hor
    have hget : d.sig.elementNumD = 0 ∨
        (c.cthreadGet = true ∧ (delta c runs d).sig.doGet = true ∧ d.sig.elementNumD = 1) :=
      hnum.imp_right fun ⟨hm, hg, hn⟩ => ⟨hm, (delta_doGet.1 hm).trans hg, hn⟩
    have hno := Config.validAt_eq_false.mpr ⟨hget, hor⟩
    exact Bool.false_ne_true (hno.symm.trans hv')
  rw [not_or, Bool.not_eq_true, Bool.not_eq_false] at hput'
  obtain ⟨hsync, hp⟩ := hput'
  obtain ⟨hm, hstored⟩ := hnew hp (hput.resolve_left (by simp [hsync]))
  rcases hnum with hz | ⟨hmg, hg, -⟩
  · have hnotifies : putNotifies c d.sig = true := by simp [putNotifies, hsync, hz]
    cases hmg : c.cthreadGet <;> simp [Delta.getWoken, delta, hm, hmg, hstored, hnotifies]
  · have hdue := hself.get hmg hg
    simp [Delta.getWoken, delta, hmg, hdue]

/-- A METHOD's get that wakes the put side. -/
theorem delta_putWoken_of_wakes {eval : GetEval} (hm : c.cthreadGet = false)
    (hget : runs.get = some eval) (hwakes : d.sig.getWakes c eval = true) :
    (delta c runs d).putWoken c = true := by
  cases hp : c.cthreadPut <;> simp [Delta.putWoken, delta, hm, hp, hget, hwakes]

/-- A put side that a delta cycle makes ready is woken, but for a silent get. -/
theorem delta_putWoken (hself : SelfWoken c d) (hr : d.sig.putReady c = false)
    (hr' : (delta c runs d).sig.putReady c = true) :
    (delta c runs d).putWoken c = true ∨ silentDelta c d runs = true := by
  have hnot := hr
  have hready := hr'
  rw [State.putReady_eq] at hnot hready
  obtain ⟨hg, hg'⟩ := Config.readyAt_get hnot hready fun hm => delta_doPut.1 hm
  obtain ⟨hmg, htaken⟩ := delta_doGet.2 hg' hg
  rw [Option.any_eq_true] at htaken
  obtain ⟨eval, hget, htaken⟩ := htaken
  rw [← Bool.not_eq_true] at hnot
  rw [hg'] at hready
  rw [hg] at hnot
  have hfullWakes (hfull : d.sig.elementNumD = c.fifoSize) (hsync : c.syncReady = false) :=
    delta_putWoken_of_wakes hmg hget (State.getWakes_of_full htaken hsync (.inl hfull))
  have hnum : (delta c runs d).sig.elementNumD = d.sig.elementNumD := rfl
  have hdone : (delta c runs d).sig.putDone = d.sig.putDone := rfl
  rw [hnum, hdone] at hready
  cases hm : c.cthreadPut with
  | true =>
    rw [Config.readyAt_thread hm] at hnot hready
    by_cases hfull : d.sig.elementNumD = c.fifoSize
    · have hsync := (hready.resolve_left fun hn => hn.1 hfull).1
      exact .inl (hfullWakes hfull hsync)
    · have hless : d.sig.elementNumD = c.fifoSize - 1 := by
        by_contra hne
        exact hnot (.inl ⟨hfull, .inr hne⟩)
      cases hdue : d.putDue with
      | true =>
        left
        simp [Delta.putWoken, delta, hm, hdue]
      | false =>
        have hp : d.sig.doPut = false := by
          by_contra hp
          simp [hself.put hm (by simpa using hp)] at hdue
        have hmode : c.targInit = true := by
          by_contra hno
          exact hnot (.inl ⟨hfull, .inl (by simp [hno, hp])⟩)
        cases hwakes : d.sig.getWakes c eval with
        | true => exact .inl (delta_putWoken_of_wakes hmg hget hwakes)
        | false =>
          right
          simp [silentDelta, State.silentGet, State.needsGet, hmg, hdue, hget, hr, hmode, hm,
            hless, htaken, hwakes]
  | false =>
    left
    cases hmode : c.targInitSync with
    | false =>
      rw [Config.readyAt_method hm hmode] at hnot hready
      have hfull : d.sig.elementNumD = c.fifoSize := by
        by_contra hne
        exact hnot (.inl hne)
      exact hfullWakes hfull (hready.resolve_left fun hn => hn hfull).1
    | true =>
      rw [Config.readyAt_methodSync hm hmode] at hnot hready
      obtain ⟨hdone, hcase⟩ := hready.resolve_left (by simp [hmg])
      have hfull : d.sig.elementNumD = c.fifoSize := by
        by_contra hne
        exact hnot (.inr ⟨hdone, .inl hne⟩)
      exact hfullWakes hfull (hcase.resolve_left fun hn => hn hfull).1

theorem delta_silent (hs : silentDelta c d runs = true) :
    d.sig.putReady c = false ∧ (delta c runs d).sig.putReady c = true ∧
      (delta c runs d).putWoken c = false := by
  have hpos := c.fifoSize_pos
  simp only [silentDelta, Bool.and_eq_true, Bool.not_eq_true', Option.any_eq_true] at hs
  obtain ⟨⟨hmg, hdue⟩, eval, hget, hs⟩ := hs
  simp only [State.silentGet, State.needsGet, hmg, Bool.and_eq_true, Bool.not_eq_true',
    Bool.and_false, Bool.or_false, beq_iff_eq] at hs
  obtain ⟨⟨⟨hr, ⟨hmode, hm⟩, hnum⟩, htaken⟩, hwakes⟩ := hs
  have hg' : (delta c runs d).sig.doGet = true := by
    simp [delta, State.doGet, hmg, hget, getMethod, htaken]
  refine ⟨hr, ?_, ?_⟩
  · rw [State.putReady_eq, hg', Config.readyAt_thread hm]
    left
    refine ⟨?_, .inl (by simp [hmode])⟩
    change d.sig.elementNumD ≠ c.fifoSize
    omega
  · simp [Delta.putWoken, delta, hm, hmg, hget, hdue, hwakes]

theorem delta_wakes_iff (hself : SelfWoken c d) :
    wakes c d.sig (delta c runs d) = true ↔ silentDelta c d runs = false := by
  constructor
  · intro hw
    by_contra hs
    obtain ⟨hr, hr', hnot⟩ := delta_silent (by simpa using hs)
    simp [wakes, hr, hr', hnot] at hw
  · intro hs
    simp only [wakes, Bool.and_eq_true, Bool.or_eq_true, Bool.not_eq_true']
    refine ⟨?_, ?_⟩
    · by_contra hno
      simp only [not_or, Bool.not_eq_true, Bool.not_eq_false] at hno
      obtain ⟨⟨hr, hr'⟩, hnot⟩ := hno
      have hwoken := (delta_putWoken hself hr hr').resolve_right (by simp [hs])
      simp [hnot] at hwoken
    · by_contra hno
      simp only [not_or, Bool.not_eq_true, Bool.not_eq_false] at hno
      obtain ⟨⟨hv, hv'⟩, hnot⟩ := hno
      have hwoken := delta_getWoken hself hv hv'
      simp [hnot] at hwoken

theorem delta_filled (h : d.sig.Filled c) (hself : SelfWoken c d) :
    (delta c runs d).sig.Filled c ∧ SelfWoken c (delta c runs d) := by
  obtain ⟨hputKept, hputNew⟩ := @delta_doPut T _ c d runs
  obtain ⟨hgetKept, hgetNew⟩ := @delta_doGet T _ c d runs
  have hkeep : d.sig.updateDue = true → (delta c runs d).sig.updateDue = true := by
    intro hdue
    simp [delta, hdue]
  refine ⟨⟨h.num, ?_, ?_, ?_⟩, ?_, ?_⟩
  · rintro (hp | hg)
    · cases hold : d.sig.doPut with
      | true => exact hkeep (h.due (.inl hold))
      | false =>
        obtain ⟨hm, hstored⟩ := hputNew hp hold
        simp [delta, hm, hstored]
    · cases hold : d.sig.doGet with
      | true => exact hkeep (h.due (.inr hold))
      | false =>
        obtain ⟨hm, htaken⟩ := hgetNew hg hold
        simp [delta, hm, htaken]
  · intro hm
    rw [hputKept hm]
    exact h.room hm
  · intro hm hg
    exact h.have_ hm ((hgetKept hm).symm.trans hg)
  · intro hm hp
    have hdue := hself.put hm ((hputKept hm).symm.trans hp)
    simp [delta, hdue]
  · intro hm hg
    have hdue := hself.get hm ((hgetKept hm).symm.trans hg)
    simp [delta, hdue]

theorem start_filled {s : State T} (h : s.Filled c) (period : Period T) :
    (start c period s).sig.Filled c ∧ SelfWoken c (start c period s) := by
  have hview := h.edgeView period
  have hpos := c.fifoSize_pos
  refine ⟨⟨hview.elementNumD.trans hview.elemNum.symm, ?_, ?_, ?_⟩, ?_, ?_⟩
  · rw [hview.doPut, hview.doGet]
    intro hor
    change (_ || (if c.cthreadPut then s.stored c period.putThread else none).isSome ||
      (c.cthreadGet && s.taken c period.getThread)) = true
    rcases hor with hp | hg
    · obtain ⟨hm, hstored⟩ := Bool.and_eq_true_iff.mp hp
      simp [hm, hstored]
    · simp [hg]
  · intro hm
    have hroom := h.room hm
    have hput := Bool.toNat_le s.doPut
    rw [hview.elemNum, hview.doPut, hm, Bool.true_and]
    rw [← h.num] at hroom
    cases hs : s.stored c period.putThread with
    | none =>
      simp only [Option.isSome_none, Bool.toNat_false]
      omega
    | some data =>
      have hready := State.stored_ready hs
      rw [State.putReady_eq, Config.readyAt_thread hm] at hready
      simp only [Option.isSome_some, Bool.toNat_true]
      rcases hready with ⟨hne, hcase | hless⟩ | ⟨-, hg⟩
      · split at hcase
        · simp only [hcase, Bool.toNat_true]
          omega
        · have hp : s.doPut = false := by simpa using hcase
          simp only [hp, Bool.toNat_false]
          omega
      · omega
      · simp only [hg, Bool.toNat_true]
        omega
  · intro hm hg
    rw [hview.doGet, hm, Bool.true_and] at hg
    have hhave := h.have_ hm
    have hvalid := State.taken_valid hg
    rw [← h.num] at hhave
    rw [hview.elemNum]
    have hno : ¬((s.elementNumD = 0 ∨ (c.cthreadGet = true ∧ s.doGet = true ∧
        s.elementNumD = 1)) ∧ (c.syncValid = true ∨ s.doPut = false)) := by
      rw [← Config.validAt_eq_false, ← State.outValid_eq, hvalid]
      decide
    cases hp : s.doPut <;> cases hget : s.doGet <;> simp [hm, hp, hget] at hno hhave ⊢ <;> omega
  · intro hm hp
    rw [hview.doPut, hm, Bool.true_and] at hp
    simp [start, hm, hp]
  · intro hm hg
    rw [hview.doGet, hm, Bool.true_and] at hg
    simp [start, hm, hg]

theorem deltas_wakes_iff {runs : List (Runs T)} (h : d.sig.Filled c) (hself : SelfWoken c d) :
    (wakesInDeltas c runs d = true ↔ silentInDeltas c runs d = false) ∧
      (deltas c runs d).sig.Filled c := by
  induction runs generalizing d with
  | nil => exact ⟨by simp [wakesInDeltas, silentInDeltas], h⟩
  | cons run rest ih =>
    obtain ⟨hfilled, hself'⟩ := @delta_filled T _ c d run h hself
    obtain ⟨hiff, hlast⟩ := ih hfilled hself'
    refine ⟨?_, hlast⟩
    rw [wakesInDeltas, silentInDeltas, Bool.and_eq_true, Bool.or_eq_false_iff,
      delta_wakes_iff hself, hiff]

theorem period_wakes_iff {s : State T} (h : s.Filled c) (period : Period T) :
    wakesInPeriod c s period = true ↔ silentInPeriod c s period = false := by
  obtain ⟨hfilled, hself⟩ := start_filled h period
  rw [wakesInPeriod, silentInPeriod, Bool.and_eq_true, Bool.or_eq_false_iff, edge_wakes_iff h,
    (deltas_wakes_iff hfilled hself).1]

theorem step_filled {s : State T} (h : s.Filled c) (period : Period T) :
    ((machine T c).step s period).1.Filled c := by
  obtain ⟨hfilled, hself⟩ := start_filled h period
  exact (@deltas_wakes_iff T _ c _ period.deltas hfilled hself).2

theorem reset_filled (s : State T) : (s.reset c).Filled c := by
  have hidle : (s.reset c).doPut = false ∧ (s.reset c).doGet = false := by
    simp [State.reset, State.doPut, State.doGet]
  refine ⟨rfl, ?_, ?_, ?_⟩
  · simp [hidle]
  · intro _
    rw [hidle.1]
    exact Nat.zero_le _
  · simp [hidle]

end

/-- No wake-up is lost in a run, in any mode and with any processes, exactly when no
silent get is made. -/
theorem no_lost_wake_up_iff [Inhabited T] (c : Config) (s : State T)
    (periods : List (Period T)) :
    (machine T c).EveryStep (fun s period => wakesInPeriod c s period = true) (s.reset c)
        periods ↔
      (machine T c).EveryStep (fun s period => silentInPeriod c s period = false) (s.reset c)
        periods := by
  have hfilled := @reset_filled T _ c s
  generalize s.reset c = start at hfilled ⊢
  induction periods generalizing start with
  | nil => exact Iff.rfl
  | cons period periods ih =>
    exact and_congr (period_wakes_iff hfilled period) (ih _ (step_filled hfilled period))

/-- The FIFO of a target between two threads. -/
private def targetThreads : Config where
  fifoSize := 2
  fifoSize_pos := Nat.two_pos
  cthreadPut := true
  cthreadGet := true
  syncValid := false
  syncReady := false
  mode := .targInit

/-- The put thread meets an almost full FIFO at the edge of the get. -/
private def almostFullPeriods (call : GetCall) : List (Period Nat) :=
  [⟨⟨false, some (1, true)⟩, ⟨false, none⟩, []⟩, ⟨⟨false, none⟩, ⟨false, none⟩, []⟩,
   ⟨⟨false, some (2, true)⟩, ⟨false, some call⟩, []⟩]

/-- `get(data, enable)` does not wake the put thread it makes ready, `get()` does. -/
theorem get_overload_loses_wake_up :
    let c := targetThreads
    let s : State Nat := (default : State Nat).reset c
    let last : State Nat := (machine Nat c).run s (almostFullPeriods (.getData true))
    ¬(machine Nat c).EveryStep (fun s period => wakesInPeriod c s period = true) s
        (almostFullPeriods (.getData true)) ∧
      last.putReady c = true ∧
      (machine Nat c).EveryStep (fun s period => wakesInPeriod c s period = true) s
        (almostFullPeriods .get) := by
  intro c s last
  refine ⟨fun h => ?_, rfl, rfl, rfl, rfl, trivial⟩
  exact absurd h.2.2.1 (by decide)

end SystemcCompiler.PrimFifo
