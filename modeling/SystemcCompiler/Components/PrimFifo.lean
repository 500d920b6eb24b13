import Mathlib.Algebra.Group.Nat.Defs
import SystemcCompiler.Library.Channel
import SystemcCompiler.Library.Ring

/-! The approximate time `sct_prim_fifo`. A clock period starts with `updateProc`
and the threads, all on the old signals; then METHODs run in delta cycles, at any
time and always in the delta cycle after their event was notified. -/
namespace SystemcCompiler.PrimFifo
open Channel

/-- A plain FIFO, or the one inside a target: `setTargInit(false)` and `setTargInit(true)`. -/
inductive Mode where
  | plain
  | targInit
  | targInitSync
  deriving DecidableEq

structure Config where
  fifoSize : Nat
  fifoSize_pos : 0 < fifoSize
  cthreadPut : Bool
  cthreadGet : Bool
  syncValid : Bool
  syncReady : Bool
  useElemNum : Bool := false
  mode : Mode := .plain

def Config.targInit (c : Config) : Bool := c.mode == .targInit
def Config.targInitSync (c : Config) : Bool := c.mode == .targInitSync

/-- The overloads of get. -/
inductive GetCall where
  | get
  | getData (enable : Bool)
  deriving DecidableEq

def GetCall.enabled : GetCall → Bool
  | .get => true
  | .getData enable => enable

/-- One run of the put side: whether it starts with `reset_put` or `clear_put`,
and the data and mask of its put. -/
structure PutEval (T : Type) where
  cleared : Bool
  call : Option (T × Bool)
  deriving DecidableEq

/-- One run of the get side, with its get call. -/
structure GetEval where
  cleared : Bool
  call : Option GetCall
  deriving DecidableEq

variable {T : Type}

/-- Signals and fields between two delta cycles. -/
structure State (T : Type) where
  putReq : Bool
  getReq : Bool
  putReqD : Bool
  getReqD : Bool
  putData : T
  elementNumD : Nat
  getDataD : T
  getDataNext : T
  getIndx : Nat
  putIndx : Nat
  elemNum : Nat
  buffer : Nat → T
  putDone : Bool
  /-- `update_event` is due at the next clock edge. -/
  updateDue : Bool
  /-- An assertion of `updateProc` has failed. -/
  asserted : Bool
  deriving Inhabited

namespace State
variable (c : Config)

def doPut (s : State T) : Bool := s.putReq != s.putReqD
def doGet (s : State T) : Bool := s.getReq != s.getReqD

def putReady (s : State T) : Bool :=
  if c.targInitSync && !c.cthreadPut && c.cthreadGet && s.getReq != s.getReqD then true
  else if c.targInitSync && !c.cthreadPut && !s.putDone && s.elementNumD != 0 then false
  else
    (s.elementNumD != c.fifoSize &&
      (!c.cthreadPut ||
        (if c.targInit then s.getReq != s.getReqD else s.putReq == s.putReqD) ||
        s.elementNumD != c.fifoSize - 1)) ||
    (!c.syncReady && s.getReq != s.getReqD)

def outValid (s : State T) : Bool :=
  (s.elementNumD != 0 && (!c.cthreadGet || s.getReq == s.getReqD || s.elementNumD != 1)) ||
  (!c.syncValid && s.putReq != s.putReqD)

def getData (s : State T) : T :=
  if c.cthreadGet && s.getReq != s.getReqD then
    if 1 < s.elementNumD then s.getDataNext else s.putData
  else
    if 0 < s.elementNumD then s.getDataD else s.putData

def nextIndx (i : Nat) : Nat := if i = c.fifoSize - 1 then 0 else i + 1

def updateProc (s : State T) : State T :=
  let buffer := if s.doPut then Function.update s.buffer s.putIndx s.putData else s.buffer
  let getIndx := if s.doGet then nextIndx c s.getIndx else s.getIndx
  let afterPut := if s.doPut then s.elemNum + 1 else s.elemNum
  let elemNum := if s.doGet then afterPut - 1 else afterPut
  { s with
    buffer
    getIndx
    putIndx := if s.doPut then nextIndx c s.putIndx else s.putIndx
    elemNum
    asserted := s.asserted ||
      (s.doPut && !(decide (s.elemNum < c.fifoSize) || s.doGet)) ||
      (s.doGet && !decide (0 < afterPut))
    elementNumD := elemNum
    getDataD := buffer getIndx
    getDataNext := buffer (nextIndx c getIndx)
    putReqD := s.putReq
    getReqD := s.getReq
    putDone := if c.targInitSync then s.doPut || s.doGet else s.putDone
    updateDue := c.targInitSync && !c.cthreadPut && (s.doPut || s.doGet) }

/-- The data of a put call that succeeds. -/
def stored (s : State T) (eval : PutEval T) : Option T :=
  match eval.call with
  | some (data, mask) => if mask && s.putReady c then some data else none
  | none => none

/-- A get call that succeeds. -/
def taken (s : State T) (eval : GetEval) : Bool :=
  match eval.call with
  | some call => call.enabled && s.outValid c
  | none => false

end State

/-- A period in progress: the events notified for the next delta cycle, which METHODs
wait for, and for the next clock edge, which threads wait for, and the results of the
last run of each side. -/
structure Delta (T : Type) where
  sig : State T
  putNotified : Bool
  getNotified : Bool
  putDue : Bool
  getDue : Bool
  putResult : Option T
  getResult : Option T

/-- The METHODs that run in a delta cycle. -/
structure Runs (T : Type) where
  put : Option (PutEval T)
  get : Option GetEval
  deriving DecidableEq

/-- A clock period: the runs of the threads and the delta cycles after them. -/
structure Period (T : Type) where
  putThread : PutEval T
  getThread : GetEval
  deltas : List (Runs T)

/-- The results of a period: for a METHOD, those of its last run. -/
structure Result (T : Type) where
  put : Option T
  get : Option T
  deriving DecidableEq

def ports {T : Type} : Ports (Result T) T where
  accepted r := r.put.toList
  delivered r := r.get.toList

section
variable (c : Config)

/-- A put notifies the get side when it may have changed `request()`. -/
def putNotifies (s : State T) : Bool :=
  !c.syncValid && (c.useElemNum || s.elementNumD == 0 ||
    (c.cthreadPut && s.doGet && s.elementNumD == 1))

/-- A get notifies the put side when it may have changed `ready()`. The last two
cases are in `get()` only. -/
def getNotifies (call : GetCall) (s : State T) : Bool :=
  !c.syncReady && (c.useElemNum || s.elementNumD == c.fifoSize ||
    (c.cthreadGet && s.doPut && s.elementNumD == c.fifoSize - 1) ||
    (match call with
      | .get => (c.targInit && c.cthreadPut && s.elementNumD == c.fifoSize - 1) ||
          (c.targInitSync && !c.cthreadPut && c.cthreadGet)
      | .getData _ => false))

/-- The get call of a run is successful and notifies the put side. -/
def State.getWakes (s : State T) (eval : GetEval) : Bool :=
  s.taken c eval && eval.call.any fun call => getNotifies c call s

/-- Delta cycle 0, all on the old signals. -/
def start [Inhabited T] (period : Period T) (s : State T) : Delta T :=
  let updated := if s.updateDue then s.updateProc c else s
  let stored := if c.cthreadPut then s.stored c period.putThread else none
  let taken := c.cthreadGet && s.taken c period.getThread
  let changed := s.updateDue && (s.doPut || s.doGet)
  { sig :=
      { updated with
        putReq := if stored.isSome then !s.putReq else s.putReq
        putData :=
          match stored with
          | some data => data
          | none => if c.cthreadPut && period.putThread.cleared then default else s.putData
        getReq := if taken then !s.getReq else s.getReq
        updateDue := (s.updateDue && updated.updateDue) || stored.isSome || taken }
    putNotified := !c.cthreadPut &&
      (changed || (c.cthreadGet && s.getWakes c period.getThread))
    getNotified := !c.cthreadGet && (changed || (stored.isSome && putNotifies c s))
    putDue := c.cthreadPut && (stored.isSome || (changed && s.doGet && c.syncReady) ||
      (c.cthreadGet && s.getWakes c period.getThread))
    getDue := c.cthreadGet && (taken || (changed && s.doPut && c.syncValid) ||
      (stored.isSome && putNotifies c s))
    putResult := stored
    getResult := if taken then some (s.getData c) else none }

/-- The put side's METHOD runs: `put_req`, `put_data`. -/
def putMethod [Inhabited T] (s : State T) (eval : PutEval T) : Bool × T :=
  match s.stored c eval with
  | some data => (!s.putReqD, data)
  | none =>
    (if eval.cleared || eval.call.isSome then s.putReqD else s.putReq,
     if eval.cleared then default else s.putData)

/-- The get side's METHOD runs: `get_req`. -/
def getMethod (s : State T) (eval : GetEval) : Bool :=
  if s.taken c eval then !s.getReqD
  else if eval.cleared || eval.call.isSome then s.getReqD else s.getReq

/-- A later delta cycle. -/
def delta [Inhabited T] (runs : Runs T) (d : Delta T) : Delta T :=
  let put := if c.cthreadPut then none else runs.put
  let get := if c.cthreadGet then none else runs.get
  let stored := put.bind (d.sig.stored c)
  let taken := get.any (d.sig.taken c)
  { sig :=
      { d.sig with
        putReq := (put.elim d.sig.putReq fun eval => (putMethod c d.sig eval).1)
        putData := (put.elim d.sig.putData fun eval => (putMethod c d.sig eval).2)
        getReq := (get.elim d.sig.getReq fun eval => getMethod c d.sig eval)
        updateDue := d.sig.updateDue || stored.isSome || taken }
    putNotified := !c.cthreadPut &&
      ((get.any GetEval.cleared && !c.syncReady && d.sig.doGet) ||
        get.any (d.sig.getWakes c))
    getNotified := !c.cthreadGet &&
      ((put.any PutEval.cleared && !c.syncValid && d.sig.doPut) ||
        (stored.isSome && putNotifies c d.sig))
    putDue := d.putDue || (c.cthreadPut && get.any (d.sig.getWakes c))
    getDue := d.getDue || (c.cthreadGet && stored.isSome && putNotifies c d.sig)
    putResult := if put.isSome then stored else d.putResult
    getResult :=
      if get.isSome then (if taken then some (d.sig.getData c) else none) else d.getResult }

def deltas [Inhabited T] (runs : List (Runs T)) (d : Delta T) : Delta T :=
  runs.foldl (fun d runs => delta c runs d) d

/-- A notified METHOD runs in the next delta cycle, and none is left notified. -/
def scheduled [Inhabited T] : List (Runs T) → Delta T → Bool
  | [], d => !d.putNotified && !d.getNotified
  | runs :: rest, d =>
    (!d.putNotified || runs.put.isSome) && (!d.getNotified || runs.get.isSome) &&
      scheduled rest (delta c runs d)

/-- Every run of a METHOD starts with a reset or clear. -/
def allCleared (runs : List (Runs T)) : Bool :=
  runs.all fun r =>
    (c.cthreadPut || r.put.all PutEval.cleared) && (c.cthreadGet || r.get.all GetEval.cleared)

/-- Every METHOD runs at most once. -/
def runsOnce (runs : List (Runs T)) : Bool :=
  (c.cthreadPut || decide (runs.countP (·.put.isSome) ≤ 1)) &&
    (c.cthreadGet || decide (runs.countP (·.get.isSome) ≤ 1))

def allowed [Inhabited T] (s : State T) (period : Period T) : Bool :=
  scheduled c period.deltas (start c period s) && allCleared c period.deltas

/-- The reset branch of `updateProc`, from any state. -/
def State.reset [Inhabited T] (s : State T) : State T :=
  let buffer := Function.update s.buffer 0 default
  { s with
    getIndx := 0
    putIndx := 0
    elemNum := 0
    buffer
    elementNumD := 0
    getDataD := buffer 0
    getDataNext := buffer (State.nextIndx c 0)
    putReqD := s.putReq
    getReqD := s.getReq
    putDone := if c.targInitSync then s.doPut || s.doGet else s.putDone
    updateDue := c.targInitSync && !c.cthreadPut && (s.doPut || s.doGet)
    asserted := false }

def machine (T : Type) [Inhabited T] (c : Config) : Mealy (Period T) (Result T) where
  State := State T
  step s period :=
    let d := deltas c period.deltas (start c period s)
    (d.sig, { put := d.putResult, get := d.getResult })

end

namespace State
variable {c : Config}

/-- The stored elements, oldest first. -/
def ring (c : Config) (s : State T) : List T :=
  Ring.contents c.fifoSize s.buffer s.getIndx s.elemNum

/-- The elements with the pending put and without the pending get. -/
def content (c : Config) (s : State T) : List T :=
  (s.ring c ++ List.replicate s.doPut.toNat s.putData).drop s.doGet.toNat

/-- `updateProc` has left its signals in step with its fields. -/
structure Updated (c : Config) (s : State T) : Prop where
  num : s.elementNumD = s.elemNum
  le : s.elemNum ≤ c.fifoSize
  getIndx_lt : s.getIndx < c.fifoSize
  putIndx_eq : s.putIndx = (s.getIndx + s.elemNum) % c.fifoSize
  getDataD : s.getDataD = s.buffer s.getIndx
  getDataNext : s.getDataNext = s.buffer (nextIndx c s.getIndx)
  noAssert : s.asserted = false

/-- Between two periods: pending requests have room and an element. -/
structure Inv (c : Config) (s : State T) : Prop extends Updated c s where
  due : s.doPut = true ∨ s.doGet = true → s.updateDue = true
  room : s.doPut = true → s.elemNum < c.fifoSize ∨ (c.cthreadPut = false ∧ s.doGet = true)
  have_ : s.doGet = true → 0 < s.elemNum ∨ (c.cthreadGet = false ∧ s.doPut = true)

theorem ring_length (s : State T) : (s.ring c).length = s.elemNum := by
  simp [ring]

theorem nextIndx_eq {i : Nat} (h : i < c.fifoSize) : nextIndx c i = (i + 1) % c.fifoSize :=
  Ring.next_eq h

theorem Updated.ring_head {s : State T} (h : s.Updated c) (hn : 0 < s.elemNum) :
    (s.ring c)[0]? = some s.getDataD := by
  rw [ring, Ring.contents_get _ _ _ _ _ hn, Nat.add_zero, Nat.mod_eq_of_lt h.getIndx_lt,
    h.getDataD]

theorem Updated.ring_second {s : State T} (h : s.Updated c) (hn : 1 < s.elemNum) :
    (s.ring c)[1]? = some s.getDataNext := by
  rw [ring, Ring.contents_get _ _ _ _ _ hn, ← nextIndx_eq h.getIndx_lt, h.getDataNext]

theorem Inv.get_le {s : State T} (h : s.Inv c) :
    s.doGet.toNat ≤ s.elemNum + s.doPut.toNat := by
  have hhave := h.have_
  cases hg : s.doGet with
  | false => simp
  | true =>
    rcases hhave hg with hn | ⟨-, hp⟩
    · simp
      omega
    · simp [hp]

theorem Inv.put_le {s : State T} (h : s.Inv c) :
    s.elemNum + s.doPut.toNat ≤ c.fifoSize + s.doGet.toNat := by
  have hroom := h.room
  have hle := h.le
  cases hp : s.doPut with
  | false => simp; omega
  | true =>
    rcases hroom hp with hn | ⟨-, hg⟩
    · simp
      omega
    · simp [hg]
      omega

theorem content_length (s : State T) :
    (s.content c).length = s.elemNum + s.doPut.toNat - s.doGet.toNat := by
  simp [content, ring_length]

theorem putReady_thread (hm : c.cthreadPut = true) (s : State T) :
    s.putReady c = ((s.elementNumD != c.fifoSize &&
      ((if c.targInit then s.doGet else !s.doPut) || s.elementNumD != c.fifoSize - 1)) ||
      (!c.syncReady && s.doGet)) := by
  have hput : (s.putReq == s.putReqD) = !s.doPut := by
    cases hp : s.putReq <;> cases hd : s.putReqD <;> simp [doPut, hp, hd]
  simp only [putReady, hm, hput, doGet, Bool.not_true, Bool.and_false, Bool.false_and,
    Bool.false_or, Bool.false_eq_true, if_false]

/-- A METHOD is ready to put for a free place or for a get. -/
theorem putReady_method {s : State T} (hm : c.cthreadPut = false) (hr : s.putReady c = true) :
    s.elementNumD ≠ c.fifoSize ∨
      ((c.syncReady = false ∨ c.cthreadGet = true) ∧ s.doGet = true) := by
  unfold putReady at hr
  unfold doGet
  split at hr
  · right
    rename_i hc
    simp only [Bool.and_eq_true] at hc
    exact ⟨.inr hc.1.2, hc.2⟩
  · split at hr
    · cases hr
    · simp only [hm, Bool.not_false, Bool.true_or, Bool.and_true, Bool.or_eq_true,
        Bool.and_eq_true, bne_iff_ne, ne_eq, Bool.not_eq_true'] at hr ⊢
      exact hr.imp_right fun hg => ⟨.inl hg.1, hg.2⟩

/-- A thread's put that reports success leaves room for its element. -/
theorem Inv.length_of_putReady {s : State T} (h : s.Inv c) (hm : c.cthreadPut = true)
    (hr : s.putReady c = true) : (s.content c).length < c.fifoSize := by
  have hroom := h.room
  have hle := h.le
  have hput := h.put_le
  have hhave := h.get_le
  have hpos := c.fifoSize_pos
  rw [content_length]
  rw [putReady_thread hm, h.num] at hr
  simp only [Bool.or_eq_true, Bool.and_eq_true, bne_iff_ne, ne_eq, Bool.not_eq_true'] at hr
  rcases hr with ⟨hn, hcase⟩ | ⟨-, hget⟩
  · have hput1 := Bool.toNat_le s.doPut
    rcases hcase with hfree | hless
    · split at hfree
      · rw [hfree] at hhave ⊢
        simp only [Bool.toNat_true] at hhave ⊢
        omega
      · have hp : s.doPut = false := by simpa using hfree
        rw [hp]
        simp only [Bool.toNat_false]
        omega
    · omega
  · rcases Nat.lt_or_ge s.elemNum c.fifoSize with hlt | hge
    · simp [hget] at hput hhave ⊢
      cases hp : s.doPut <;> simp [hp] at hput hhave ⊢ <;> omega
    · have hnp : s.doPut = false := by
        by_contra hnot
        rw [Bool.not_eq_false] at hnot
        rcases hroom hnot with hlt | ⟨hfalse, -⟩
        · omega
        · simp [hm] at hfalse
      simp [hget, hnp]
      omega

/-- A thread's get that reports a request returns the oldest element. -/
theorem Inv.head_of_outValid {s : State T} (h : s.Inv c) (hm : c.cthreadGet = true)
    (hv : s.outValid c = true) : (s.content c).head? = some (s.getData c) := by
  have hhave := h.have_
  simp only [outValid, hm, h.num, Bool.or_eq_true, Bool.and_eq_true, bne_iff_ne, ne_eq,
    beq_iff_eq, Bool.not_eq_true', Bool.not_true, Bool.false_eq_true, false_or] at hv
  have hputpend : s.putReq ≠ s.putReqD → s.doPut = true := by simp [doPut]
  rw [content, List.head?_drop]
  cases hg : s.doGet with
  | true =>
    have hne : s.getReq ≠ s.getReqD := by simpa [doGet] using hg
    have hpos : 0 < s.elemNum := by
      rcases hhave hg with hn | ⟨hfalse, -⟩
      · exact hn
      · simp [hm] at hfalse
    have hdata : s.getData c = if 1 < s.elemNum then s.getDataNext else s.putData := by
      simp [getData, hm, hne, h.num]
    rw [hdata]
    by_cases hn : 1 < s.elemNum
    · rw [if_pos hn, List.getElem?_append_left (by simpa [ring_length] using hn)]
      exact h.toUpdated.ring_second hn
    · have hone : s.elemNum = 1 := by omega
      have hp : s.doPut = true := by
        rcases hv with ⟨-, hcase⟩ | ⟨-, hput⟩
        · simp [hne, hone] at hcase
        · exact hputpend hput
      rw [if_neg hn, List.getElem?_append_right (by simp [ring_length, hone])]
      simp [ring_length, hone, hp]
  | false =>
    have heq : s.getReq = s.getReqD := by simpa [doGet] using hg
    have hdata : s.getData c = if 0 < s.elemNum then s.getDataD else s.putData := by
      simp [getData, heq, h.num]
    rw [hdata]
    by_cases hn : 0 < s.elemNum
    · rw [if_pos hn, List.getElem?_append_left (by simpa [ring_length] using hn)]
      exact h.toUpdated.ring_head hn
    · have hzero : s.elemNum = 0 := by omega
      have hp : s.doPut = true := by
        rcases hv with ⟨hcase, -⟩ | ⟨-, hput⟩
        · exact absurd hzero hcase
        · exact hputpend hput
      rw [if_neg hn, List.getElem?_append_right (by simp [ring_length, hzero])]
      simp [ring_length, hzero, hp]

/-- `updateProc` performs pending requests that have room and an element. -/
theorem Updated.updateProc_spec {s : State T} (h : s.Updated c)
    (hput : s.elemNum + s.doPut.toNat ≤ c.fifoSize + s.doGet.toNat)
    (hget : s.doGet.toNat ≤ s.elemNum + s.doPut.toNat) :
    (s.updateProc c).Updated c ∧ (s.updateProc c).ring c = s.content c := by
  have hnum : (s.updateProc c).elemNum = s.elemNum + s.doPut.toNat - s.doGet.toNat := by
    cases hp : s.doPut <;> cases hg : s.doGet <;> simp [updateProc, hp, hg]
  have hgetIndx : (s.updateProc c).getIndx = (s.getIndx + s.doGet.toNat) % c.fifoSize := by
    have hmod := nextIndx_eq h.getIndx_lt
    cases hg : s.doGet
    · simp [updateProc, hg, Nat.mod_eq_of_lt h.getIndx_lt]
    · simp [updateProc, hg, hmod]
  have hlt : s.putIndx < c.fifoSize := by
    rw [h.putIndx_eq]
    exact Nat.mod_lt _ c.fifoSize_pos
  have hputIndx : (s.updateProc c).putIndx =
      (s.getIndx + s.elemNum + s.doPut.toNat) % c.fifoSize := by
    have hmod := nextIndx_eq hlt
    rw [h.putIndx_eq, Nat.mod_add_mod] at hmod
    cases hp : s.doPut
    · simp [updateProc, hp, h.putIndx_eq]
    · simp [updateProc, hp, h.putIndx_eq, hmod]
  have hbuffer : (s.updateProc c).buffer =
      if s.doPut.toNat = 1 then
        Function.update s.buffer ((s.getIndx + s.elemNum) % c.fifoSize) s.putData
      else s.buffer := by
    rw [← h.putIndx_eq]
    cases hp : s.doPut <;> simp [updateProc, hp]
  refine ⟨⟨rfl, ?_, ?_, ?_, rfl, rfl, ?_⟩, ?_⟩
  · rw [hnum]
    omega
  · rw [hgetIndx]
    exact Nat.mod_lt _ c.fifoSize_pos
  · rw [hputIndx, hgetIndx, hnum, Nat.mod_add_mod]
    congr 1
    omega
  · have hno := h.noAssert
    cases hp : s.doPut <;> cases hg : s.doGet <;>
      simp [updateProc, hp, hg, hno] at hput hget ⊢
    · omega
    · omega
  · rw [ring, hbuffer, hgetIndx, hnum,
      Ring.contents_pushPop _ _ (Bool.toNat_le _) hput hget]
    rfl

/-- `updateProc` performs the pending requests and no assertion fails. -/
theorem updateProc_spec {s : State T} (h : s.Inv c) :
    (s.updateProc c).Updated c ∧ (s.updateProc c).ring c = s.content c :=
  h.toUpdated.updateProc_spec h.put_le h.get_le

/-- The update of a period that starts, when it is due. -/
def updated (c : Config) (s : State T) : State T :=
  if s.updateDue then s.updateProc c else s

theorem updated_spec {s : State T} (h : s.Inv c) :
    (s.updated c).Updated c ∧ (s.updated c).ring c = s.content c ∧
      (s.updated c).putReqD = s.putReq ∧ (s.updated c).getReqD = s.getReq := by
  unfold updated
  split
  · obtain ⟨hupdated, hring⟩ := updateProc_spec h
    exact ⟨hupdated, hring, rfl, rfl⟩
  · rename_i hdue
    have hnone : s.doPut = false ∧ s.doGet = false := by
      have := h.due
      grind
    refine ⟨h.toUpdated, ?_, ?_, ?_⟩
    · simp [content, hnone]
    · exact (bne_eq_false_iff_eq.mp hnone.1).symm
    · exact (bne_eq_false_iff_eq.mp hnone.2).symm

end State

/-- Within a period, with `r` the elements stored at its start: the results are
those of the pending requests. -/
structure DeltaInv (c : Config) (r : List T) (d : Delta T) : Prop where
  updated : d.sig.Updated c
  ring : d.sig.ring c = r
  due : d.sig.doPut = true ∨ d.sig.doGet = true → d.sig.updateDue = true
  putResult : d.putResult.isSome = d.sig.doPut
  putData : ∀ data, d.putResult = some data → d.sig.putData = data
  getResult : d.getResult.isSome = d.sig.doGet
  putThread : c.cthreadPut = true → d.sig.doPut = true → d.sig.elemNum < c.fifoSize
  getThread : c.cthreadGet = true → d.sig.doGet = true → r.head? = d.getResult

/-- The request of a put METHOD has a place: a free one, or that of a get. -/
def PutBacked (c : Config) (d : Delta T) : Prop :=
  c.cthreadPut = false → d.sig.doPut = true →
    d.sig.elemNum < c.fifoSize ∨
      ((c.syncReady = false ∨ c.cthreadGet = true) ∧ d.sig.doGet = true)

/-- The result of a get METHOD is the oldest element, or that of a put. -/
def GetBacked (c : Config) (d : Delta T) : Prop :=
  c.cthreadGet = false → d.sig.doGet = true →
    (0 < d.sig.elemNum ∧ d.getResult = some d.sig.getDataD) ∨
    (d.sig.elemNum = 0 ∧ c.syncValid = false ∧ d.sig.doPut = true ∧
      d.getResult = some d.sig.putData)

theorem State.stored_ready {c : Config} {s : State T} {eval : PutEval T} {data : T}
    (h : s.stored c eval = some data) : s.putReady c = true := by
  unfold State.stored at h
  cases hcall : eval.call with
  | none => simp [hcall] at h
  | some call => grind

theorem State.taken_valid {c : Config} {s : State T} {eval : GetEval}
    (h : s.taken c eval = true) : s.outValid c = true := by
  unfold State.taken at h
  cases hcall : eval.call with
  | none => simp [hcall] at h
  | some enable => grind

namespace DeltaInv
variable {c : Config} {r : List T} {d : Delta T}

theorem length_eq (h : DeltaInv c r d) : r.length = d.sig.elemNum := by
  rw [← h.ring, State.ring_length]

theorem putResult_toList (h : DeltaInv c r d) :
    d.putResult.toList = List.replicate d.sig.doPut.toNat d.sig.putData := by
  rw [← h.putResult]
  cases hput : d.putResult with
  | none => rfl
  | some data =>
    rw [h.putData data hput]
    rfl

/-- At the end of a period a successful get has returned the oldest element. -/
theorem head_eq (h : DeltaInv c r d) (hb : GetBacked c d) (hg : d.sig.doGet = true) :
    (r ++ d.putResult.toList).head? = d.getResult := by
  have hlen := h.length_eq
  cases hm : c.cthreadGet with
  | true =>
    have hhead := h.getThread hm hg
    have hsome : r.head?.isSome = true := by rw [hhead, h.getResult, hg]
    rw [List.head?_append, ← hhead]
    exact Option.or_of_isSome hsome
  | false =>
    rcases hb hm hg with ⟨hpos, hres⟩ | ⟨hzero, -, hp, hres⟩
    · have hhead := h.updated.ring_head hpos
      rw [h.ring] at hhead
      rw [List.head?_append, List.head?_eq_getElem?, hhead, hres]
      rfl
    · have hnil : r = [] := List.length_eq_zero_iff.mp (hlen.trans hzero)
      rw [hnil, h.putResult_toList, hp, hres]
      rfl

theorem toInv (h : DeltaInv c r d) (hput : PutBacked c d) (hget : GetBacked c d) :
    d.sig.Inv c := by
  refine ⟨h.updated, h.due, ?_, ?_⟩
  · intro hp
    cases hm : c.cthreadPut with
    | true => exact .inl (h.putThread hm hp)
    | false => exact (hput hm hp).imp_right fun hg => ⟨rfl, hg.2⟩
  · intro hg
    cases hm : c.cthreadGet with
    | true =>
      have hsome : r.head?.isSome = true := by rw [h.getThread hm hg, h.getResult, hg]
      have hne : r ≠ [] := by
        rintro rfl
        simp at hsome
      have hpos : 0 < r.length := List.length_pos_iff.mpr hne
      exact .inl (h.length_eq ▸ hpos)
    | false => exact (hget hm hg).imp (·.1) fun hp => ⟨rfl, hp.2.2.1⟩

theorem law (h : DeltaInv c r d) (hget : GetBacked c d) :
    r ++ d.putResult.toList = d.getResult.toList ++ d.sig.content c := by
  have hcontent : d.sig.content c = (r ++ d.putResult.toList).drop d.sig.doGet.toNat := by
    rw [State.content, h.ring, h.putResult_toList]
  rw [hcontent]
  cases hg : d.sig.doGet with
  | false =>
    have hnone : d.getResult = none := by
      rw [← Option.not_isSome_iff_eq_none, h.getResult, hg]
      decide
    rw [hnone]
    rfl
  | true =>
    have hhead := h.head_eq hget hg
    obtain ⟨data, hres⟩ := Option.isSome_iff_exists.mp (h.getResult.trans hg)
    rw [hres] at hhead ⊢
    obtain ⟨rest, hcons⟩ := List.head?_eq_some_iff.mp hhead
    rw [hcons]
    rfl

end DeltaInv

section
variable [Inhabited T] {c : Config}

theorem start_inv {s : State T} (h : s.Inv c) (period : Period T) :
    DeltaInv c (s.content c) (start c period s) := by
  obtain ⟨hup, hring, hputD, hgetD⟩ := State.updated_spec h
  have hdoPut : (start c period s).sig.doPut = (start c period s).putResult.isSome := by
    change ((if (start c period s).putResult.isSome then !s.putReq else s.putReq) !=
      (s.updated c).putReqD) = _
    rw [hputD]
    cases (start c period s).putResult.isSome <;> cases s.putReq <;> rfl
  have hdoGet : (start c period s).sig.doGet =
      (c.cthreadGet && s.taken c period.getThread) := by
    change ((if c.cthreadGet && s.taken c period.getThread then !s.getReq else s.getReq) !=
      (s.updated c).getReqD) = _
    rw [hgetD]
    cases c.cthreadGet && s.taken c period.getThread <;> cases s.getReq <;> rfl
  have hresult : (start c period s).getResult =
      if c.cthreadGet && s.taken c period.getThread then some (s.getData c) else none := rfl
  have hstored : (start c period s).putResult =
      if c.cthreadPut then s.stored c period.putThread else none := rfl
  refine ⟨⟨hup.num, hup.le, hup.getIndx_lt, hup.putIndx_eq, hup.getDataD, hup.getDataNext,
    hup.noAssert⟩, hring, ?_, hdoPut.symm, ?_, ?_, ?_, ?_⟩
  · rw [hdoPut, hdoGet]
    intro hor
    change (_ || (start c period s).putResult.isSome ||
      (c.cthreadGet && s.taken c period.getThread)) = _
    rw [Bool.or_assoc, Bool.or_eq_true_iff]
    right
    simpa using hor
  · intro data hdata
    change (match (start c period s).putResult with
      | some data => data
      | none => if c.cthreadPut && period.putThread.cleared then default else s.putData) = data
    rw [hdata]
  · rw [hresult, hdoGet]
    cases c.cthreadGet && s.taken c period.getThread <;> rfl
  · intro hm hp
    have hlen : (s.updated c).elemNum = (s.content c).length := by
      rw [← hring, State.ring_length]
    rw [hdoPut, hstored, if_pos hm] at hp
    obtain ⟨data, hdata⟩ := Option.isSome_iff_exists.mp hp
    change (s.updated c).elemNum < c.fifoSize
    rw [hlen]
    exact h.length_of_putReady hm (State.stored_ready hdata)
  · intro hm hg
    rw [hdoGet, hm, Bool.true_and] at hg
    rw [hresult, hm, hg]
    exact h.head_of_outValid hm (State.taken_valid hg)

/-- METHODs have no request at the start of a period. -/
theorem start_idle {s : State T} (h : s.Inv c) (period : Period T) :
    (c.cthreadPut = false → (start c period s).sig.doPut = false) ∧
      (c.cthreadGet = false → (start c period s).sig.doGet = false) := by
  obtain ⟨-, -, hputD, hgetD⟩ := State.updated_spec h
  refine ⟨fun hm => ?_, fun hm => ?_⟩
  · change ((if (if c.cthreadPut then s.stored c period.putThread else none).isSome
      then !s.putReq else s.putReq) != (s.updated c).putReqD) = false
    rw [hputD, hm]
    simp
  · change ((if c.cthreadGet && s.taken c period.getThread then !s.getReq else s.getReq) !=
      (s.updated c).getReqD) = false
    rw [hgetD, hm]
    simp

/-- The runs of a delta cycle start with a clear, or with no request to clear. -/
structure Clears (c : Config) (runs : Runs T) (d : Delta T) : Prop where
  put : c.cthreadPut = false → ∀ eval, runs.put = some eval →
    eval.cleared = true ∨ d.sig.doPut = false
  get : c.cthreadGet = false → ∀ eval, runs.get = some eval →
    eval.cleared = true ∨ d.sig.doGet = false

/-- The put side of a delta cycle: left alone, or run by a METHOD that notifies
the get side when it takes back a request. -/
theorem delta_put {d : Delta T} {runs : Runs T} (hclear : Clears c runs d) :
    ((delta c runs d).sig.doPut = d.sig.doPut ∧
      (delta c runs d).sig.putData = d.sig.putData ∧
      (delta c runs d).putResult = d.putResult ∧ (c.cthreadPut = true ∨ runs.put = none)) ∨
    (c.cthreadPut = false ∧ ∃ eval, runs.put = some eval ∧
      (delta c runs d).sig.doPut = (d.sig.stored c eval).isSome ∧
      (delta c runs d).putResult = d.sig.stored c eval ∧
      (∀ data, d.sig.stored c eval = some data → (delta c runs d).sig.putData = data) ∧
      ((d.sig.stored c eval).isSome = true → (delta c runs d).sig.updateDue = true) ∧
      (c.cthreadGet = false → c.syncValid = false → d.sig.doPut = true →
        (delta c runs d).getNotified = true)) := by
  cases hm : c.cthreadPut with
  | true =>
    left
    simp [delta, hm, State.doPut]
  | false =>
    cases hput : runs.put with
    | none =>
      left
      simp [delta, hm, hput, State.doPut]
    | some eval =>
      right
      have hcl := hclear.put hm eval hput
      refine ⟨rfl, eval, rfl, ?_, ?_, ?_, ?_, ?_⟩
      · cases hs : d.sig.stored c eval with
        | none =>
          rcases hcl with hcl | hidle
          · simp [delta, hm, hput, State.doPut, putMethod, hs, hcl]
          · have heq : d.sig.putReq = d.sig.putReqD := bne_eq_false_iff_eq.mp hidle
            simp [delta, hm, hput, State.doPut, putMethod, hs, heq]
        | some data => simp [delta, hm, hput, State.doPut, putMethod, hs]
      · simp [delta, hm, hput]
      · intro data hs
        simp [delta, hm, hput, putMethod, hs]
      · intro hs
        simp [delta, hm, hput, hs]
      · intro hget hsync hp
        have hcleared : eval.cleared = true := hcl.resolve_right (by simp [hp])
        simp [delta, hm, hput, hget, hsync, hp, hcleared]

theorem delta_get {d : Delta T} {runs : Runs T} (hclear : Clears c runs d) :
    ((delta c runs d).sig.doGet = d.sig.doGet ∧
      (delta c runs d).getResult = d.getResult ∧ (c.cthreadGet = true ∨ runs.get = none)) ∨
    (c.cthreadGet = false ∧ ∃ eval, runs.get = some eval ∧
      (delta c runs d).sig.doGet = d.sig.taken c eval ∧
      (delta c runs d).getResult =
        (if d.sig.taken c eval then some (d.sig.getData c) else none) ∧
      (d.sig.taken c eval = true → (delta c runs d).sig.updateDue = true) ∧
      (c.cthreadPut = false → c.syncReady = false → d.sig.doGet = true →
        (delta c runs d).putNotified = true)) := by
  cases hm : c.cthreadGet with
  | true =>
    left
    simp [delta, hm, State.doGet]
  | false =>
    cases hget : runs.get with
    | none =>
      left
      simp [delta, hm, hget, State.doGet]
    | some eval =>
      right
      have hcl := hclear.get hm eval hget
      refine ⟨rfl, eval, rfl, ?_, ?_, ?_, ?_⟩
      · cases hs : d.sig.taken c eval with
        | false =>
          rcases hcl with hcl | hidle
          · simp [delta, hm, hget, State.doGet, getMethod, hs, hcl]
          · have heq : d.sig.getReq = d.sig.getReqD := bne_eq_false_iff_eq.mp hidle
            simp [delta, hm, hget, State.doGet, getMethod, hs, heq]
        | true => simp [delta, hm, hget, State.doGet, getMethod, hs]
      · simp [delta, hm, hget]
      · intro hs
        simp [delta, hm, hget, hs]
      · intro hput hsync hg
        have hcleared : eval.cleared = true := hcl.resolve_right (by simp [hg])
        simp [delta, hm, hget, hput, hsync, hg, hcleared]

theorem delta_inv {r : List T} {d : Delta T} (h : DeltaInv c r d) {runs : Runs T}
    (hclear : Clears c runs d) : DeltaInv c r (delta c runs d) := by
  have hputs := delta_put hclear
  have hgets := delta_get hclear
  have hup := h.updated
  have hkeep : d.sig.updateDue = true → (delta c runs d).sig.updateDue = true := by
    intro hdue
    simp [delta, hdue]
  refine ⟨⟨hup.num, hup.le, hup.getIndx_lt, hup.putIndx_eq, hup.getDataD, hup.getDataNext,
    hup.noAssert⟩, h.ring, ?_, ?_, ?_, ?_, ?_, ?_⟩
  · intro hor
    rcases hor with hp | hg
    · rcases hputs with ⟨hsame, -⟩ | ⟨-, eval, -, hdo, -, -, hdue, -⟩
      · exact hkeep (h.due (.inl (hsame ▸ hp)))
      · exact hdue (hdo ▸ hp)
    · rcases hgets with ⟨hsame, -⟩ | ⟨-, eval, -, hdo, -, hdue, -⟩
      · exact hkeep (h.due (.inr (hsame ▸ hg)))
      · exact hdue (hdo ▸ hg)
  · rcases hputs with ⟨hsame, -, hres, -⟩ | ⟨-, eval, -, hdo, hres, -⟩
    · rw [hres, hsame, h.putResult]
    · rw [hres, hdo]
  · intro data hdata
    rcases hputs with ⟨-, hsame, hres, -⟩ | ⟨-, eval, -, -, hres, hin, -⟩
    · rw [hsame]
      exact h.putData data (hres ▸ hdata)
    · exact hin data (hres ▸ hdata)
  · rcases hgets with ⟨hsame, hres, -⟩ | ⟨-, eval, -, hdo, hres, -⟩
    · rw [hres, hsame, h.getResult]
    · rw [hres, hdo]
      cases d.sig.taken c eval <;> rfl
  · intro hm hp
    rcases hputs with ⟨hsame, -⟩ | ⟨hfalse, -⟩
    · exact h.putThread hm (hsame ▸ hp)
    · simp [hm] at hfalse
  · intro hm hg
    rcases hgets with ⟨hsame, hres, -⟩ | ⟨hfalse, -⟩
    · rw [hres]
      exact h.getThread hm (hsame ▸ hg)
    · simp [hm] at hfalse

/-- A put request stays backed, or is made anew, when the get it relies on stays. -/
theorem delta_putBacked {r : List T} {d : Delta T} (h : DeltaInv c r d) {runs : Runs T}
    (hclear : Clears c runs d) (hold : PutBacked c d ∨ runs.put.isSome = true)
    (hstays : c.cthreadPut = false → c.syncReady = false ∨ c.cthreadGet = true →
      d.sig.doGet = true → (delta c runs d).sig.doGet = true) :
    PutBacked c (delta c runs d) := by
  intro hm hp
  have hbacked : d.sig.elemNum < c.fifoSize ∨
      ((c.syncReady = false ∨ c.cthreadGet = true) ∧ d.sig.doGet = true) := by
    rcases delta_put hclear with ⟨hsame, -, -, hnone⟩ | ⟨-, eval, -, hdo, -⟩
    · have hidle : runs.put = none := hnone.resolve_left (by simp [hm])
      exact hold.resolve_right (by simp [hidle]) hm (hsame ▸ hp)
    · obtain ⟨data, hdata⟩ := Option.isSome_iff_exists.mp (hdo ▸ hp)
      have hle := h.updated.le
      rcases State.putReady_method hm (State.stored_ready hdata) with hn | hg
      · rw [h.updated.num] at hn
        exact .inl (by omega)
      · exact .inr hg
  rcases hbacked with hroom | ⟨hsync, hg⟩
  · exact .inl hroom
  · exact .inr ⟨hsync, hstays hm hsync hg⟩

theorem delta_getBacked {r : List T} {d : Delta T} (h : DeltaInv c r d) {runs : Runs T}
    (hclear : Clears c runs d) (hold : GetBacked c d ∨ runs.get.isSome = true)
    (hstays : c.cthreadGet = false → c.syncValid = false → d.sig.doPut = true →
      (delta c runs d).sig.doPut = true ∧ (delta c runs d).sig.putData = d.sig.putData) :
    GetBacked c (delta c runs d) := by
  intro hm hg
  have hbacked : (0 < d.sig.elemNum ∧ (delta c runs d).getResult = some d.sig.getDataD) ∨
      (d.sig.elemNum = 0 ∧ c.syncValid = false ∧ d.sig.doPut = true ∧
        (delta c runs d).getResult = some d.sig.putData) := by
    rcases delta_get hclear with ⟨hsame, hres, hnone⟩ | ⟨-, eval, -, hdo, hres, -⟩
    · have hidle : runs.get = none := hnone.resolve_left (by simp [hm])
      rw [hres]
      exact hold.resolve_right (by simp [hidle]) hm (hsame ▸ hg)
    · have htaken : d.sig.taken c eval = true := hdo ▸ hg
      have hvalid := State.taken_valid htaken
      have hnum := h.updated.num
      rw [hres, htaken]
      simp only [State.outValid, State.getData, hm, hnum, State.doPut, if_true] at hvalid ⊢
      grind
  rcases hbacked with ⟨hpos, hres⟩ | ⟨hzero, hsync, hp, hres⟩
  · exact .inl ⟨hpos, hres⟩
  · obtain ⟨hp', hdata⟩ := hstays hm hsync hp
    exact .inr ⟨hzero, hsync, hp', hdata ▸ hres⟩

/-- A METHOD that relies on the other side is notified when that one takes back its
request, and runs again in the next delta cycle. -/
theorem deltas_inv {r : List T} {d : Delta T} (h : DeltaInv c r d)
    (hput : PutBacked c d ∨ d.putNotified = true) (hget : GetBacked c d ∨ d.getNotified = true)
    {runs : List (Runs T)} (hsched : scheduled c runs d = true)
    (hclear : allCleared c runs = true) :
    DeltaInv c r (deltas c runs d) ∧ PutBacked c (deltas c runs d) ∧
      GetBacked c (deltas c runs d) := by
  induction runs generalizing d with
  | nil =>
    simp only [scheduled, Bool.and_eq_true, Bool.not_eq_true'] at hsched
    exact ⟨h, hput.resolve_right (by simp [hsched.1]), hget.resolve_right (by simp [hsched.2])⟩
  | cons run rest ih =>
    simp only [scheduled, Bool.and_eq_true, Bool.or_eq_true, Bool.not_eq_true'] at hsched
    simp only [allCleared, List.all_cons, Bool.and_eq_true, Bool.or_eq_true] at hclear
    obtain ⟨⟨hputRun, hgetRun⟩, hrest⟩ := hsched
    obtain ⟨⟨hputClear, hgetClear⟩, hclear⟩ := hclear
    have hcl : Clears c run d := by
      refine ⟨fun hm eval he => .inl ?_, fun hm eval he => .inl ?_⟩
      · simpa [hm, he] using hputClear
      · simpa [hm, he] using hgetClear
    refine ih (delta_inv h hcl) ?_ ?_ hrest hclear
    · cases hn : (delta c run d).putNotified with
      | true => exact .inr rfl
      | false =>
        left
        apply delta_putBacked h hcl
        · rcases hput with hb | hnote
          · exact .inl hb
          · exact .inr (hputRun.resolve_left (by simp [hnote]))
        · intro hm hsync hg
          rcases delta_get hcl with ⟨hsame, -⟩ | ⟨hmethod, eval, -, -, -, -, hnotify⟩
          · exact hsame.trans hg
          · have hready := hsync.resolve_right (by simp [hmethod])
            simp [hnotify hm hready hg] at hn
    · cases hn : (delta c run d).getNotified with
      | true => exact .inr rfl
      | false =>
        left
        apply delta_getBacked h hcl
        · rcases hget with hb | hnote
          · exact .inl hb
          · exact .inr (hgetRun.resolve_left (by simp [hnote]))
        · intro hm hsync hp
          rcases delta_put hcl with ⟨hsame, hdata, -⟩ | ⟨-, eval, -, -, -, -, -, hnotify⟩
          · exact ⟨hsame.trans hp, hdata⟩
          · simp [hnotify hm hsync hp] at hn

/-- A METHOD that has a run to come has no request yet. -/
structure Waits (c : Config) (runs : List (Runs T)) (d : Delta T) : Prop where
  put : c.cthreadPut = false → d.sig.doPut = true → runs.countP (·.put.isSome) = 0
  get : c.cthreadGet = false → d.sig.doGet = true → runs.countP (·.get.isSome) = 0

/-- METHODs that run once in a period take back nothing. -/
theorem deltas_once {r : List T} {d : Delta T} (h : DeltaInv c r d) (hput : PutBacked c d)
    (hget : GetBacked c d) {runs : List (Runs T)} (honce : runsOnce c runs = true)
    (hwaits : Waits c runs d) :
    DeltaInv c r (deltas c runs d) ∧ PutBacked c (deltas c runs d) ∧
      GetBacked c (deltas c runs d) := by
  induction runs generalizing d with
  | nil => exact ⟨h, hput, hget⟩
  | cons run rest ih =>
    simp only [runsOnce, Bool.and_eq_true, Bool.or_eq_true, decide_eq_true_eq,
      List.countP_cons] at honce
    obtain ⟨hputOnce, hgetOnce⟩ := honce
    have hputIdle (hm : c.cthreadPut = false) (hs : run.put.isSome = true) :
        d.sig.doPut = false := by
      by_contra hp
      have := hwaits.put hm (by simpa using hp)
      simp [hs] at this
    have hgetIdle (hm : c.cthreadGet = false) (hs : run.get.isSome = true) :
        d.sig.doGet = false := by
      by_contra hg
      have := hwaits.get hm (by simpa using hg)
      simp [hs] at this
    have hcl : Clears c run d := by
      refine ⟨fun hm eval he => .inr ?_, fun hm eval he => .inr ?_⟩
      · exact hputIdle hm (by simp [he])
      · exact hgetIdle hm (by simp [he])
    apply ih (delta_inv h hcl)
    · apply delta_putBacked h hcl (.inl hput)
      intro hm hsync hg
      rcases delta_get hcl with ⟨hsame, -⟩ | ⟨hmethod, eval, he, -⟩
      · exact hsame.trans hg
      · simp [hgetIdle hmethod (by simp [he])] at hg
    · apply delta_getBacked h hcl (.inl hget)
      intro hm hsync hp
      rcases delta_put hcl with ⟨hsame, hdata, -⟩ | ⟨hmethod, eval, he, -⟩
      · exact ⟨hsame.trans hp, hdata⟩
      · simp [hputIdle hmethod (by simp [he])] at hp
    · simp only [runsOnce, Bool.and_eq_true, Bool.or_eq_true, decide_eq_true_eq]
      exact ⟨hputOnce.imp_right (by omega), hgetOnce.imp_right (by omega)⟩
    · refine ⟨fun hm hp => ?_, fun hm hg => ?_⟩
      · rcases delta_put hcl with ⟨hsame, -⟩ | ⟨-, eval, he, -⟩
        · have := hwaits.put hm (hsame ▸ hp)
          rw [List.countP_cons] at this
          omega
        · have := hputOnce.resolve_left (by simp [hm])
          simp only [he, Option.isSome_some, if_true] at this
          omega
      · rcases delta_get hcl with ⟨hsame, -⟩ | ⟨-, eval, he, -⟩
        · have := hwaits.get hm (hsame ▸ hg)
          rw [List.countP_cons] at this
          omega
        · have := hgetOnce.resolve_left (by simp [hm])
          simp only [he, Option.isSome_some, if_true] at this
          omega

/-- A period of either discipline ends with backed requests. -/
theorem period_inv {s : State T} (h : s.Inv c) {period : Period T}
    (hok : (allowed c s period || runsOnce c period.deltas) = true) :
    let d := deltas c period.deltas (start c period s)
    DeltaInv c (s.content c) d ∧ PutBacked c d ∧ GetBacked c d := by
  have hstart := start_inv h period
  obtain ⟨hputIdle, hgetIdle⟩ := start_idle h period
  have hput : PutBacked c (start c period s) := by
    intro hm hp
    simp [hputIdle hm] at hp
  have hget : GetBacked c (start c period s) := by
    intro hm hg
    simp [hgetIdle hm] at hg
  rcases Bool.or_eq_true_iff.mp hok with hallowed | honce
  · obtain ⟨hsched, hclear⟩ := Bool.and_eq_true_iff.mp hallowed
    exact deltas_inv hstart (.inl hput) (.inl hget) hsched hclear
  · refine deltas_once hstart hput hget honce ⟨fun hm hp => ?_, fun hm hg => ?_⟩
    · simp [hputIdle hm] at hp
    · simp [hgetIdle hm] at hg

def queueLaw (c : Config) :
    QueueLaw (machine T c) ports
      (fun s period => (allowed c s period || runsOnce c period.deltas) = true) where
  Inv s := State.Inv c s
  content s := State.content c s
  inv s period h hok := by
    obtain ⟨hinv, hput, hget⟩ := period_inv h hok
    exact hinv.toInv hput hget
  law s period h hok := by
    obtain ⟨hinv, -, hget⟩ := period_inv h hok
    exact hinv.law hget

theorem reset_inv (s : State T) : (s.reset c).Inv c := by
  have hpos := c.fifoSize_pos
  have hidle : (s.reset c).doPut = false ∧ (s.reset c).doGet = false := by
    simp [State.reset, State.doPut, State.doGet]
  refine ⟨⟨rfl, Nat.zero_le _, hpos, ?_, rfl, rfl, rfl⟩, ?_, ?_, ?_⟩
  · simp [State.reset]
  all_goals simp [hidle]

theorem reset_content (s : State T) : (s.reset c).content c = [] := by
  simp [State.content, State.ring, State.reset, State.doPut, State.doGet, Ring.contents]

/-- Since a reset: no assertion of `updateProc` fails and the gets return the values
put, in order. -/
theorem in_order_of_reset (c : Config) (s : State T) {periods : List (Period T)}
    (hok : (machine T c).EveryStep
      (fun s period => (allowed c s period || runsOnce c period.deltas) = true)
      (s.reset c) periods) :
    let last : State T := (machine T c).run (s.reset c) periods
    let results := (machine T c).outputs (s.reset c) periods
    last.asserted = false ∧ last.elemNum ≤ c.fifoSize ∧
      (last.updated c).asserted = false ∧
      results.flatMap ports.accepted =
        results.flatMap ports.delivered ++ last.content c := by
  intro last results
  have hinv : last.Inv c := (queueLaw c).run_inv (reset_inv s) hok
  exact ⟨hinv.noAssert, hinv.le, (State.updated_spec hinv).1.noAssert,
    (queueLaw c).accepted_eq (reset_inv s) (reset_content s) hok⟩

/-- Since the last reset, with METHODs that clear in every run: no assertion of
`updateProc` fails and the gets return the values put, in order. -/
theorem prim_fifo_in_order (c : Config) (s : State T) (periods : List (Period T))
    (hok : (machine T c).EveryStep (fun s period => allowed c s period = true)
      (s.reset c) periods) :
    let last : State T := (machine T c).run (s.reset c) periods
    let results := (machine T c).outputs (s.reset c) periods
    last.asserted = false ∧ last.elemNum ≤ c.fifoSize ∧
      (last.updated c).asserted = false ∧
      results.flatMap ports.accepted =
        results.flatMap ports.delivered ++ last.content c :=
  in_order_of_reset c s
    (hok.imp fun s period h => by rw [h, Bool.true_or])

private def methods : Config where
  fifoSize := 1
  fifoSize_pos := Nat.one_pos
  cthreadPut := false
  cthreadGet := false
  syncValid := false
  syncReady := false

private def idlePut : PutEval Nat := ⟨false, none⟩
private def idleGet : GetEval := ⟨false, none⟩

private def bypassPeriods : List (Period Nat) :=
  [⟨idlePut, idleGet, [⟨some ⟨true, some (5, true)⟩, none⟩, ⟨none, some ⟨true, some .get⟩⟩]⟩,
   ⟨idlePut, idleGet,
    [⟨some ⟨true, some (6, true)⟩, some ⟨true, none⟩⟩, ⟨none, some ⟨true, none⟩⟩]⟩,
   ⟨idlePut, idleGet,
    [⟨some ⟨true, none⟩, some ⟨true, some .get⟩⟩, ⟨some ⟨true, some (7, true)⟩, none⟩]⟩]

/-- A put seen by the get of its period, and a put into the place of a get. -/
theorem prim_fifo_in_order_methods :
    let s : State Nat := (default : State Nat).reset methods
    let last : State Nat := (machine Nat methods).run s bypassPeriods
    ((machine Nat methods).outputs s bypassPeriods).flatMap ports.delivered = [5, 6] ∧
      last.content methods = [7] ∧ last.asserted = false ∧
      ((machine Nat methods).outputs s bypassPeriods).flatMap ports.accepted =
        ((machine Nat methods).outputs s bypassPeriods).flatMap ports.delivered ++
          last.content methods := by
  intro s last
  have hok : (machine Nat methods).EveryStep (fun s period => allowed methods s period = true)
      s bypassPeriods := ⟨by decide +kernel, by decide +kernel, by decide +kernel, trivial⟩
  obtain ⟨hassert, -, -, horder⟩ := prim_fifo_in_order methods default bypassPeriods hok
  exact ⟨by decide +kernel, by decide +kernel, hassert, horder⟩

/-- The last run of each METHOD starts with a reset or clear. -/
def lastCleared (c : Config) (runs : List (Runs T)) : Bool :=
  (c.cthreadPut || (runs.filterMap Runs.put).getLast?.all PutEval.cleared) &&
    (c.cthreadGet || (runs.filterMap Runs.get).getLast?.all GetEval.cleared)

private def withdrawnPeriods : List (Period Nat) :=
  [⟨idlePut, idleGet,
    [⟨some ⟨true, some (5, true)⟩, none⟩, ⟨none, some ⟨true, some .get⟩⟩,
     ⟨some ⟨false, some (5, false)⟩, none⟩, ⟨some ⟨true, none⟩, none⟩]⟩,
   ⟨idlePut, idleGet, [⟨some ⟨true, none⟩, some ⟨true, none⟩⟩]⟩]

/-- A put with mask 0 takes back the request of an earlier run and does not
notify the get that has used it. -/
theorem masked_put_withdraws_silently :
    let s : State Nat := (default : State Nat).reset methods
    let last : State Nat := (machine Nat methods).run s withdrawnPeriods
    (machine Nat methods).EveryStep
      (fun s period => (scheduled methods period.deltas (start methods period s) &&
        lastCleared methods period.deltas) = true) s withdrawnPeriods ∧
      last.asserted = true ∧
      ((machine Nat methods).outputs s withdrawnPeriods).flatMap ports.accepted = [] ∧
      ((machine Nat methods).outputs s withdrawnPeriods).flatMap ports.delivered = [5] := by
  exact ⟨⟨rfl, rfl, trivial⟩, rfl, rfl, rfl⟩

end
end SystemcCompiler.PrimFifo
